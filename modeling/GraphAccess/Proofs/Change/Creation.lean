import GraphAccess.Proofs.Change.History
import GraphAccess.Proofs.Membership.Identity
import GraphAccess.Proofs.Membership.Selection

namespace GraphAccess

/-- Whoever keeps a rule keeps the rules inside it. -/
theorem Keeps.of_mem_subrules {registry : Profile} {g : Graph} {s : Node} {sub rule : Rule}
    (keeps : Keeps registry g s rule) (inside : sub ∈ rule.subrules) : Keeps registry g s sub := by
  rw [Rule.mem_subrules_iff] at inside
  induction inside with
  | self => exact keeps
  | child hc _ ih =>
    cases keeps with
    | allOf keeps => exact ih (keeps _ hc)
    | _ => cases hc

/-- The statement that a resource has an RDF type. -/
def Node.typed (s : Node) (type : Iri) : Triple := ⟨s, Vocabulary.rdfType, .named type⟩

namespace EditStep

/-- An attribute whose predicate is that of RDF types was last given the IRI. -/
def GivesType (direction : Direction) (steps : List EditStep) (type : Iri) : Prop :=
  ∃ s given, lastGiven direction steps s = some given ∧ given.predicate = Vocabulary.rdfType ∧
    .resource type ∈ given.values

variable {t : ResourceType} {subject : Node} {direction : Direction} {steps : List EditStep}
variable {type : Iri}

theorem not_givesType_nil : ¬GivesType direction [] type := by
  rintro ⟨_, _, last, _⟩
  cases last

theorem givesType_mark (marked : Direction) :
    GivesType direction (mark marked :: steps) type ↔ GivesType direction steps type := by
  have silent (s : Slot) :
      lastGiven direction (mark marked :: steps) s = lastGiven direction steps s :=
    lastGiven_drop [] steps rfl
  simp only [GivesType, silent]

theorem typed_mem_typeStatements_iff :
    subject.typed type ∈ t.rules.filterMap (typeStatement? subject) ↔ .hasType type ∈ t.rules := by
  rw [List.mem_filterMap]
  constructor
  · rintro ⟨rule, hr, stated⟩
    cases rule <;> cases stated
    exact hr
  · intro hr
    exact ⟨_, hr, rfl⟩

theorem typed_mem_valueStatements_iff :
    subject.typed type ∈ (slots direction steps).flatMap (fun s =>
        (lastGiven direction steps s).toList.flatMap fun given =>
          given.values.map fun v => ⟨subject, given.predicate, v.toTerm⟩) ↔
      GivesType direction steps type := by
  simp only [List.mem_flatMap, List.mem_map, Option.mem_toList, GivesType]
  constructor
  · rintro ⟨s, _, given, last, v, hv, same⟩
    obtain ⟨_, predicate, term⟩ := Triple.mk.inj same
    have value : v = .resource type := Value.toTerm_injective term
    exact ⟨s, given, last, predicate, value ▸ hv⟩
  · rintro ⟨s, given, last, predicate, hv⟩
    have slot : s ∈ slots direction steps := mem_slots_iff.mpr (by rw [last]; rfl)
    exact ⟨s, slot, given, last, _, hv, by rw [predicate]; rfl⟩

/-- The statement of an RDF type comes from the resource's type or from the values given. -/
theorem typed_mem_statements_iff :
    subject.typed type ∈ statements t subject direction steps ↔
      (mark direction ∈ steps ∧ .hasType type ∈ t.rules) ∨ GivesType direction steps type := by
  rw [statements, List.mem_append, typed_mem_valueStatements_iff, or_comm]
  refine or_congr_left ?_
  by_cases marked : mark direction ∈ steps
  · rw [if_pos marked, typed_mem_typeStatements_iff, and_iff_right marked]
  · simp [marked]

end EditStep

namespace ResourceEdit

open EditStep

variable {t : ResourceType} {type : Iri}

theorem typed_mem_marked_iff (subject : Node) (direction : Direction) (steps : List EditStep) :
    subject.typed type ∈ (run t subject (.mark direction :: steps)).statements direction ↔
      .hasType type ∈ t.rules ∨ GivesType direction steps type := by
  rw [(reflects_run t subject _).statements_eq, typed_mem_statements_iff, givesType_mark]
  simp

/-- The pattern for a type's resources demands each RDF type that the rules name, at whatever depth.
Whatever else is done to it, the edit of a new resource adds the RDF type exactly if one of the
type's rules is that RDF type or an attribute was given it last; that of a deleted one removes it
likewise. So the RDF type is sure to come and go with the resource exactly if it is one of the
rules itself. -/
theorem demanded_type_stated_iff {order : List ResourceType → List ResourceType}
    {base : Option String} {ds : List TypeDeclaration} {p : Profile} {v : Variable} {m : Pattern}
    (built : Profile.buildIn order base ds = .ok p) (compiled : t.membership p v = .ok m)
    (named : ∃ rule ∈ t.rules, .hasType type ∈ rule.subrules) (subject : Node) :
    ⟨v, .isA, .iri type⟩ ∈ m.triples ∧
      (∀ g, (∀ rule ∈ t.rules, Keeps p g subject rule) → subject.typed type ∈ g) ∧
      (∀ steps, subject.typed type ∈ (run t subject (.mark .adding :: steps)).added ↔
        .hasType type ∈ t.rules ∨ GivesType .adding steps type) ∧
      (∀ steps, subject.typed type ∈ (run t subject (.mark .removing :: steps)).removed ↔
        .hasType type ∈ t.rules ∨ GivesType .removing steps type) ∧
      ((∀ steps, subject.typed type ∈ (run t subject (.mark .adding :: steps)).added ∧
          subject.typed type ∈ (run t subject (.mark .removing :: steps)).removed) ↔
        .hasType type ∈ t.rules) := by
  have adds (steps : List EditStep) :
      subject.typed type ∈ (run t subject (.mark .adding :: steps)).added ↔
        .hasType type ∈ t.rules ∨ GivesType .adding steps type :=
    typed_mem_marked_iff subject .adding steps
  have removes (steps : List EditStep) :
      subject.typed type ∈ (run t subject (.mark .removing :: steps)).removed ↔
        .hasType type ∈ t.rules ∨ GivesType .removing steps type :=
    typed_mem_marked_iff subject .removing steps
  refine ⟨?_, ?_, adds, removes, ?_⟩
  · exact (Profile.asks_iff (Profile.arranged_of_buildIn built) compiled).mpr (.inl named)
  · intro g keeps
    obtain ⟨rule, hr, inside⟩ := named
    exact keeps_hasType.mp ((keeps rule hr).of_mem_subrules inside)
  · constructor
    · intro always
      exact ((adds []).mp (always []).1).resolve_right not_givesType_nil
    · intro own steps
      exact ⟨(adds steps).mpr (.inl own), (removes steps).mpr (.inl own)⟩

end ResourceEdit

/-- A new agent is given no RDF type, so that it is no agent wherever nothing else is said of it. -/
theorem new_agent_is_none :
    Profile.buildIn id none staffDeclarations = .ok staff ∧
      (∃ m, agentType.membership staff ⟨"resource"⟩ = .ok m) ∧
      (∃ rule ∈ agentType.rules, .hasType ⟨"http://s.example/Agent"⟩ ∈ rule.subrules) ∧
      (Node.named ⟨"http://s.example/ann"⟩).typed ⟨"http://s.example/Agent"⟩ ∉
        (ResourceEdit.run agentType (.named ⟨"http://s.example/ann"⟩) [.mark .adding]).added ∧
      ¬∀ rule ∈ agentType.rules,
        Keeps staff
          (.ofTriples (ResourceEdit.run agentType (.named ⟨"http://s.example/ann"⟩)
            [.mark .adding]).added)
          (.named ⟨"http://s.example/ann"⟩) rule := by
  have built : Profile.buildIn id none staffDeclarations = .ok staff := by decide +kernel
  obtain ⟨m, compiled⟩ : ∃ m, agentType.membership staff ⟨"resource"⟩ = .ok m := ⟨_, rfl⟩
  have named : ∃ rule ∈ agentType.rules,
      .hasType ⟨"http://s.example/Agent"⟩ ∈ rule.subrules := by
    decide
  obtain ⟨_, demanded, added, _, _⟩ := ResourceEdit.demanded_type_stated_iff built compiled named
    (.named ⟨"http://s.example/ann"⟩)
  have nested : .hasType ⟨"http://s.example/Agent"⟩ ∉ agentType.rules := by decide
  have missing : (Node.named ⟨"http://s.example/ann"⟩).typed ⟨"http://s.example/Agent"⟩ ∉
      (ResourceEdit.run agentType (.named ⟨"http://s.example/ann"⟩) [.mark .adding]).added := by
    rw [added []]
    exact fun stated => stated.elim nested EditStep.not_givesType_nil
  refine ⟨built, ⟨m, compiled⟩, named, missing, fun keeps => missing ?_⟩
  exact Graph.mem_ofTriples.mp (demanded _ keeps)

end GraphAccess
