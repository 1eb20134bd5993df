import GraphAccess.Proofs.Membership.Descent
import GraphAccess.Proofs.Retrieval.Readable
import GraphAccess.Proofs.Sparql.Occurrence
import Mathlib.Logic.Relation

namespace GraphAccess

open Relation Sparql

/-- Compiling the second rule leads to the first. -/
def Profile.Leads (registry : Profile) : Rule → Rule → Prop := ReflTransGen (Descends registry)

/-- The rule has a pattern. -/
def Profile.HasPattern (registry : Profile) (v : Variable) (rule : Rule) : Prop :=
  ∃ pattern, registry.ruleMembership v rule = .ok pattern

/-- The second type demands the first one as a superclass. -/
def Profile.Superclass (registry : Profile) (s t : ResourceType) : Prop :=
  ∃ id ∈ t.superclasses, registry.find? id = some s

namespace Profile

variable {registry : Profile} {v : Variable} {u : Iri}

theorem leads_iff {sub rule : Rule} :
    registry.Leads sub rule ↔
      rule = sub ∨ ∃ next, registry.Leads sub next ∧ Descends registry next rule :=
  ReflTransGen.cases_tail_iff _ _ _

theorem leads_iff_of_leaf {sub rule : Rule} (leaf : ∀ next, ¬Descends registry next rule) :
    registry.Leads sub rule ↔ rule = sub := by
  rw [leads_iff]
  simp [leaf]

/-- The pattern of a rule asks for the RDF types that compiling the rule leads to. -/
theorem mem_triples_iff_leads (arranged : Hierarchy.Arranged registry.hierarchy) {rule : Rule}
    {pattern : Pattern} (h : registry.ruleMembership v rule = .ok pattern) :
    ⟨v, .isA, .iri u⟩ ∈ pattern.triples ↔ registry.Leads (.hasType u) rule := by
  refine ruleMembership_induction arranged
    (motive := fun rule pattern =>
      ⟨v, .isA, .iri u⟩ ∈ pattern.triples ↔ registry.Leads (.hasType u) rule) ?_ ?_ ?_ ?_ ?_ h
  · intro type
    rw [leads_iff_of_leaf fun _ step => by cases step]
    simp [Pattern.triples, eq_comm]
  · intro resource
    rw [leads_iff_of_leaf fun _ step => by cases step]
    simp [Pattern.triples]
  · intro scheme
    rw [leads_iff_of_leaf fun _ step => by cases step]
    simp [Pattern.triples]
  · intro rules parts hparts
    rw [leads_iff, Pattern.triples, Pattern.triples_sequence, List.mem_flatMap]
    constructor
    · rintro ⟨part, hpart, asked⟩
      obtain ⟨sub, hsub, asks⟩ := exists_mem_of_forall₂ hparts hpart
      exact .inr ⟨sub, asks.mp asked, .part hsub⟩
    · rintro (⟨⟨⟩⟩ | ⟨sub, leads, step⟩)
      cases step with
      | part hsub =>
        obtain ⟨part, hpart, asks⟩ := exists_mem_right_of_forall₂ hparts hsub
        exact ⟨part, hpart, asks.mpr leads⟩
  · intro ids groups hgroups
    rw [leads_iff, Pattern.triples_sequence, List.mem_flatMap]
    constructor
    · rintro ⟨group, hgroup, asked⟩
      obtain ⟨id, hid, s, parts, found, hparts, rfl⟩ := exists_mem_of_forall₂ hgroups hgroup
      rw [Pattern.triples, Pattern.triples_sequence, List.mem_flatMap] at asked
      obtain ⟨part, hpart, asked⟩ := asked
      obtain ⟨sub, hsub, asks⟩ := exists_mem_of_forall₂ hparts hpart
      exact .inr ⟨sub, asks.mp asked, .inherited hid found hsub⟩
    · rintro (⟨⟨⟩⟩ | ⟨sub, leads, step⟩)
      cases step with
      | inherited hid found hands =>
        obtain ⟨group, hgroup, s, parts, same, hparts, rfl⟩ :=
          exists_mem_right_of_forall₂ hgroups hid
        rw [found] at same
        cases same
        obtain ⟨part, hpart, asks⟩ := exists_mem_right_of_forall₂ hparts hands
        refine ⟨_, hgroup, ?_⟩
        rw [Pattern.triples, Pattern.triples_sequence, List.mem_flatMap]
        exact ⟨part, hpart, asks.mpr leads⟩

theorem HasPattern.of_part {rules : List Rule} (h : registry.HasPattern v (.allOf rules))
    {rule : Rule} (hr : rule ∈ rules) : registry.HasPattern v rule := by
  obtain ⟨pattern, h⟩ := h
  rw [ruleMembership_allOf] at h
  obtain ⟨parts, hparts, _⟩ := map_eq_ok_iff.mp h
  exact exists_mapM_iff.mp ⟨parts, hparts⟩ rule hr

theorem HasPattern.of_descends (arranged : Hierarchy.Arranged registry.hierarchy) {sub rule : Rule}
    (h : registry.HasPattern v rule) (step : Descends registry sub rule) :
    registry.HasPattern v sub := by
  cases step with
  | part hr => exact h.of_part hr
  | inherited hid found hands =>
    obtain ⟨pattern, h⟩ := h
    rw [ruleMembership_subclassOf] at h
    obtain ⟨groups, hgroups, _⟩ := map_eq_ok_iff.mp h
    obtain ⟨group, _, hgroup⟩ := exists_mem_of_mapM hgroups hid
    rw [inheritedMembership_of_found arranged found] at hgroup
    obtain ⟨parts, hparts, _⟩ := map_eq_ok_iff.mp hgroup
    exact exists_mapM_iff.mp ⟨parts, hparts⟩ sub hands

theorem HasPattern.of_leads (arranged : Hierarchy.Arranged registry.hierarchy) {sub rule : Rule}
    (h : registry.HasPattern v rule) (leads : registry.Leads sub rule) :
    registry.HasPattern v sub := by
  induction leads with
  | refl => exact h
  | tail _ step ih => exact ih (h.of_descends arranged step)

/-- Conjunctions are all that a rule with a pattern can have inside. -/
theorem HasPattern.leads_of_mem_subrules {sub rule : Rule} (h : registry.HasPattern v rule)
    (inside : sub ∈ rule.subrules) : registry.Leads sub rule := by
  rw [Rule.mem_subrules_iff] at inside
  induction inside with
  | self => exact .refl
  | @child child rule hc _ ih =>
    cases rule with
    | allOf rules =>
      have step : Descends registry child (.allOf rules) := .part hc
      exact (ih (h.of_part hc)).tail step
    | hasType | isResource | inScheme | subclassOf => cases hc
    | _ =>
      obtain ⟨pattern, h⟩ := h
      cases h

/-- What a superclass hands down is compiled with the rule that demands the superclass. -/
theorem HasPattern.leads_of_superclass {rule sub : Rule} (h : registry.HasPattern v rule)
    {id : TypeId} {s : ResourceType} (demanded : id ∈ rule.superclasses)
    (found : registry.find? id = some s) (hands : sub ∈ s.inheritedRules) :
    registry.Leads sub rule := by
  obtain ⟨ids, within, hid⟩ := Rule.mem_superclasses_iff.mp demanded
  have step : Descends registry sub (.subclassOf ids) := .inherited hid found hands
  have leads := h.leads_of_mem_subrules (Rule.mem_subrules_iff.mpr within)
  exact leads.head step

/-- Compiling a type leads to all that its superclasses hand down. The induction is on the steps
from the superclass to the type. -/
theorem leads_of_superclass (arranged : Hierarchy.Arranged registry.hierarchy)
    {s t : ResourceType} (compiled : ∀ rule ∈ t.rules, registry.HasPattern v rule)
    (super : TransGen registry.Superclass s t) :
    ∀ sub ∈ s.inheritedRules, ∃ rule ∈ t.rules, registry.Leads sub rule := by
  induction super using TransGen.head_induction_on with
  | single demanded =>
    intro sub hsub
    obtain ⟨id, hid, found⟩ := demanded
    obtain ⟨rule, hr, hid⟩ := List.mem_flatMap.mp hid
    exact ⟨rule, hr, (compiled rule hr).leads_of_superclass hid found hsub⟩
  | @head s between demanded _ ih =>
    intro sub hsub
    obtain ⟨id, hid, found⟩ := demanded
    obtain ⟨next, hnext, hid⟩ := List.mem_flatMap.mp hid
    have handed : next ∈ between.inheritedRules := by
      rw [ResourceType.mem_inheritedRules]
      refine ⟨hnext, ?_⟩
      cases next with
      | hasType => simp [Rule.superclasses, Rule.subrules, Rule.namedSuperclasses] at hid
      | _ => rfl
    obtain ⟨rule, hr, leads⟩ := ih next handed
    have pattern := (compiled rule hr).of_leads arranged leads
    exact ⟨rule, hr, (pattern.leads_of_superclass hid found hsub).trans leads⟩

/-- The rules that compiling a rule leads to are those inside it and those inside what its
superclasses, or theirs, hand down. -/
theorem inside_or_handed_of_leads {sub rule : Rule} (leads : registry.Leads sub rule) :
    sub ∈ rule.subrules ∨ ∃ id ∈ rule.superclasses, ∃ t, registry.find? id = some t ∧
      ∃ s, ReflTransGen registry.Superclass s t ∧ ∃ handed ∈ s.inheritedRules,
        sub ∈ handed.subrules := by
  induction leads with
  | refl => exact .inl (Rule.mem_subrules_iff.mpr (.self _))
  | @tail next _ _ step ih =>
    cases step with
    | part hr =>
      rcases ih with inside | ⟨id, demanded, rest⟩
      · exact .inl (Rule.mem_subrules_of_mem_children hr inside)
      · exact .inr ⟨id, Descends.superclasses_part hr demanded, rest⟩
    | @inherited ids id t hid found hands =>
      refine .inr ⟨id, by rwa [Descends.superclasses_inherited], t, found, ?_⟩
      rcases ih with inside | ⟨further, demanded, between, sfound, s, reached, handed⟩
      · exact ⟨t, .refl, next, hands, inside⟩
      · have further : further ∈ t.superclasses :=
          List.mem_flatMap.mpr ⟨next, (ResourceType.mem_inheritedRules.mp hands).1, demanded⟩
        exact ⟨s, reached.tail ⟨_, further, sfound⟩, handed⟩

/-- The pattern of a type asks for the RDF types that stand inside its rules, and inside what its
superclasses hand down. -/
theorem asks_iff (arranged : Hierarchy.Arranged registry.hierarchy) {t : ResourceType}
    {pattern : Pattern} (h : t.membership registry v = .ok pattern) :
    ⟨v, .isA, .iri u⟩ ∈ pattern.triples ↔
      (∃ rule ∈ t.rules, .hasType u ∈ rule.subrules) ∨
        ∃ s, TransGen registry.Superclass s t ∧ ∃ rule ∈ s.inheritedRules,
          .hasType u ∈ rule.subrules := by
  rw [membership_eq] at h
  obtain ⟨parts, hparts, rfl⟩ := map_eq_ok_iff.mp h
  have compiled : ∀ rule ∈ t.rules, registry.HasPattern v rule :=
    exists_mapM_iff.mp ⟨parts, hparts⟩
  have asks : ⟨v, .isA, .iri u⟩ ∈ (Pattern.sequence .dot parts).triples ↔
      ∃ rule ∈ t.rules, registry.Leads (.hasType u) rule := by
    rw [Pattern.triples_sequence, List.mem_flatMap]
    constructor
    · rintro ⟨part, hpart, asked⟩
      obtain ⟨rule, hr, hrule⟩ := exists_of_mapM hparts hpart
      exact ⟨rule, hr, (mem_triples_iff_leads arranged hrule).mp asked⟩
    · rintro ⟨rule, hr, leads⟩
      obtain ⟨part, hpart, hrule⟩ := exists_mem_of_mapM hparts hr
      exact ⟨part, hpart, (mem_triples_iff_leads arranged hrule).mpr leads⟩
  rw [asks]
  constructor
  · rintro ⟨rule, hr, leads⟩
    rcases inside_or_handed_of_leads leads with
      inside | ⟨id, demanded, s, found, top, reached, handed⟩
    · exact .inl ⟨rule, hr, inside⟩
    · have super : registry.Superclass s t := ⟨id, List.mem_flatMap.mpr ⟨rule, hr, demanded⟩, found⟩
      exact .inr ⟨top, .tail' reached super, handed⟩
  · rintro (⟨rule, hr, inside⟩ | ⟨s, super, handed, hhanded, inside⟩)
    · exact ⟨rule, hr, (compiled rule hr).leads_of_mem_subrules inside⟩
    · obtain ⟨rule, hr, leads⟩ := leads_of_superclass arranged compiled super handed hhanded
      have pattern := (compiled rule hr).of_leads arranged leads
      exact ⟨rule, hr, (pattern.leads_of_mem_subrules inside).trans leads⟩

theorem mem_inheritedRules_of_inside {t : ResourceType} {rule : Rule}
    (inside : .hasType u ∈ rule.subrules) :
    rule ∈ t.inheritedRules ↔ rule ∈ t.rules ∧ rule ≠ .hasType u := by
  rw [ResourceType.mem_inheritedRules]
  refine and_congr_right fun _ => ?_
  cases rule <;> simp_all [Rule.rdfType?, Rule.subrules]

/-- Whatever the order in which the types are looked at, the text of a type's pattern asks for an
RDF type exactly if a rule of the type names it, at whatever depth, or if a superclass, however far
up, names it inside another rule. What superclasses name at once is never asked for on their
account. -/
theorem text_asks_iff {order : List ResourceType → List ResourceType} {base : Option String}
    {ds : List TypeDeclaration} {p : Profile} {t : ResourceType} {m : Pattern}
    (built : buildIn order base ds = .ok p) (wellFormed : p.isWellFormed = true)
    (ht : t ∈ p.hierarchy) (name : Variable.isName v.name = true)
    (compiled : t.membership p v = .ok m) (reference : isIriRef u = true) :
    (⟨v, .isA, .iri u⟩ : TriplePattern).text.toList <:+: m.text.toList ↔
      (∃ rule ∈ t.rules, .hasType u ∈ rule.subrules) ∨
        ∃ s, TransGen p.Superclass s t ∧
          ∃ rule ∈ s.rules, rule ≠ .hasType u ∧ .hasType u ∈ rule.subrules := by
  have arranged := arranged_of_buildIn built
  have readable := readable_of_membership arranged wellFormed name ht compiled
  have asked : (⟨v, .isA, .iri u⟩ : TriplePattern).isReadable = true :=
    isReadable_withIri name rfl reference
  rw [readable.infix_iff asked rfl, asks_iff arranged compiled]
  refine or_congr_right (exists_congr fun s => and_congr_right fun _ => exists_congr fun rule => ?_)
  rw [← and_assoc]
  exact and_congr_left fun inside => mem_inheritedRules_of_inside inside

end Profile

/-- Clerks are agents; agents have an RDF type and are listed as staff, said in one rule. -/
def staffDeclarations : List TypeDeclaration :=
  [⟨⟨"Agent"⟩, [.allOf [.hasType ⟨"http://s.example/Agent"⟩, .inScheme ⟨"http://s.example/staff"⟩]],
      []⟩,
    ⟨⟨"Clerk"⟩, [.hasType ⟨"http://s.example/Clerk"⟩, .subclassOf [⟨"Agent"⟩]], []⟩]

def agentType : ResourceType :=
  ⟨⟨"Agent"⟩,
    [.allOf [.hasType ⟨"http://s.example/Agent"⟩, .inScheme ⟨"http://s.example/staff"⟩]], []⟩

def clerkType : ResourceType :=
  ⟨⟨"Clerk"⟩, [.hasType ⟨"http://s.example/Clerk"⟩, .subclassOf [⟨"Agent"⟩]], []⟩

def staff : Profile := ⟨[clerkType, agentType]⟩

/-- No rule of clerks names the RDF type of agents, but clerks have to have it. -/
theorem clerks_have_to_be_agents :
    Profile.buildIn id none staffDeclarations = .ok staff ∧ staff.isWellFormed = true ∧
      clerkType ∈ staff.hierarchy ∧ Variable.isName "resource" = true ∧
      isIriRef ⟨"http://s.example/Agent"⟩ = true ∧
      (∀ rule ∈ clerkType.rules, .hasType ⟨"http://s.example/Agent"⟩ ∉ rule.subrules) ∧
      ∃ m, clerkType.membership staff ⟨"resource"⟩ = .ok m ∧
        "?resource a <http://s.example/Agent>".toList <:+: m.text.toList := by
  have built : Profile.buildIn id none staffDeclarations = .ok staff := by decide +kernel
  have wellFormed : staff.isWellFormed = true := by decide
  have clerk : clerkType ∈ staff.hierarchy := by simp [staff]
  have name : Variable.isName "resource" = true := by decide
  have reference : isIriRef ⟨"http://s.example/Agent"⟩ = true := by decide
  have foreign : ∀ rule ∈ clerkType.rules,
      .hasType ⟨"http://s.example/Agent"⟩ ∉ rule.subrules := by
    decide
  obtain ⟨m, compiled⟩ : ∃ m, clerkType.membership staff ⟨"resource"⟩ = .ok m := ⟨_, rfl⟩
  have super : staff.Superclass agentType clerkType := ⟨⟨"Agent"⟩, by decide, by decide⟩
  have nested : ∃ rule ∈ agentType.rules, rule ≠ .hasType ⟨"http://s.example/Agent"⟩ ∧
      .hasType ⟨"http://s.example/Agent"⟩ ∈ rule.subrules := by
    decide
  have asked := (Profile.text_asks_iff built wellFormed clerk name compiled reference).mpr
    (.inr ⟨agentType, .single super, nested⟩)
  exact ⟨built, wellFormed, clerk, name, reference, foreign, m, compiled, asked⟩

end GraphAccess
