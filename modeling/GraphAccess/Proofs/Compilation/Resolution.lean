import GraphAccess.Proofs.Compilation.Extension
import GraphAccess.Proofs.Retrieval.Origin
import Mathlib.Data.List.Pairwise

namespace GraphAccess

/-- Compiling the second rule can go on to the first: to a child, or to a rule of a type that it
names. -/
inductive Follows (registry : Profile) : Rule → Rule → Prop
  | child {sub rule : Rule} (h : sub ∈ rule.children) : Follows registry sub rule
  | named {sub rule : Rule} {id : TypeId} {t : ResourceType} (h : id ∈ rule.namedTypes)
    (found : registry.find? id = some t) (hr : sub ∈ t.rules) : Follows registry sub rule

/-- The rule leads to one that names an id without a type. -/
def Dangles (registry : Profile) (rule : Rule) (id : TypeId) : Prop :=
  ∃ sub, Relation.ReflTransGen (Follows registry) sub rule ∧ id ∈ sub.namedTypes ∧
    registry.find? id = none

section
variable {registry : Profile} {settings : Settings} {v : Variable} {id : TypeId}

theorem Dangles.here {rule : Rule} (named : id ∈ rule.namedTypes)
    (missing : registry.find? id = none) : Dangles registry rule id :=
  ⟨rule, .refl, named, missing⟩

theorem Dangles.of_follows {sub rule : Rule} (step : Follows registry sub rule)
    (h : Dangles registry sub id) : Dangles registry rule id := by
  obtain ⟨last, leads, named, missing⟩ := h
  exact ⟨last, leads.tail step, named, missing⟩

theorem Descends.follows {sub rule : Rule} (h : Descends registry sub rule) :
    Follows registry sub rule := by
  cases h with
  | part h => exact .child h
  | inherited h found hands => exact .named h found (ResourceType.mem_inheritedRules.mp hands).1

/-- What holds of each failure of a rule of its own if it holds of those of the rules that it goes
on to. -/
theorem Profile.ruleMembership_error_induction (arranged : Hierarchy.Arranged registry.hierarchy)
    {motive : Rule → CompileError → Prop}
    (unsupported : ∀ rule, rule.kind ∉ membershipKinds →
      motive rule (.unsupportedRule .membership rule.kind))
    (unknown : ∀ ids, ∀ id ∈ ids, registry.find? id = none →
      motive (.subclassOf ids) (.unknownType id))
    (deeper : ∀ sub rule e, Descends registry sub rule → motive sub e → motive rule e)
    {rule : Rule} {e : CompileError} (h : registry.ruleMembership v rule = .error e) :
    motive rule e := by
  induction rule using (Descends.wellFounded arranged).induction with
  | _ rule ih =>
  cases rule with
  | hasType | isResource | inScheme => cases h
  | allOf rules =>
    rw [ruleMembership_allOf, map_eq_error_iff] at h
    obtain ⟨sub, hsub, failed⟩ := exists_of_mapM_error h
    exact deeper sub _ e (.part hsub) (ih sub (.part hsub) failed)
  | subclassOf ids =>
    rw [ruleMembership_subclassOf, map_eq_error_iff] at h
    obtain ⟨id, hid, failed⟩ := exists_of_mapM_error h
    cases found : registry.find? id with
    | none =>
      rw [inheritedMembership_of_unknown arranged found] at failed
      cases failed
      exact unknown ids id hid found
    | some t =>
      rw [inheritedMembership_of_found arranged found, map_eq_error_iff] at failed
      obtain ⟨sub, hsub, failed⟩ := exists_of_mapM_error failed
      have step : Descends registry sub (.subclassOf ids) := .inherited hid found hsub
      exact deeper sub _ e step (ih sub step failed)
  | _ =>
    cases h
    exact unsupported _ (by simp [Rule.kind, membershipKinds])

theorem dangles_of_ruleMembership (arranged : Hierarchy.Arranged registry.hierarchy) {rule : Rule}
    (h : registry.ruleMembership v rule = .error (.unknownType id)) :
    Dangles registry rule id := by
  refine Profile.ruleMembership_error_induction arranged
    (motive := fun rule e => e = .unknownType id → Dangles registry rule id) ?_ ?_ ?_ h rfl
  · rintro rule _ ⟨⟩
  · rintro ids _ named missing ⟨⟩
    exact .here named missing
  · intro sub rule e step ih unknown
    exact (ih unknown).of_follows step.follows

theorem dangles_of_membership (arranged : Hierarchy.Arranged registry.hierarchy) {t : ResourceType}
    (h : t.membership registry v = .error (.unknownType id)) :
    ∃ rule ∈ t.rules, Dangles registry rule id := by
  rw [Profile.membership_eq, map_eq_error_iff] at h
  obtain ⟨rule, hr, failed⟩ := exists_of_mapM_error h
  exact ⟨rule, hr, dangles_of_ruleMembership arranged failed⟩

theorem dangles_of_embeddedAlternative (arranged : Hierarchy.Arranged registry.hierarchy)
    {embedded : TypeId}
    (h : registry.embeddedAlternative v embedded = .error (.unknownType id)) :
    Dangles registry (.embeds embedded) id := by
  have named : embedded ∈ (Rule.embeds embedded).namedTypes := List.mem_singleton_self embedded
  unfold Profile.embeddedAlternative at h
  split at h
  · next missing =>
    cases h
    exact .here named missing
  · next t found =>
    split at h
    · rw [map_eq_error_iff] at h
      obtain ⟨rule, hr, dangles⟩ := dangles_of_membership arranged h
      exact dangles.of_follows (.named named found hr)
    · cases h

theorem dangles_of_alternatives (arranged : Hierarchy.Arranged registry.hierarchy) {rule : Rule}
    (h : rule.alternatives registry settings v = .error (.unknownType id)) :
    Dangles registry rule id := by
  induction rule using Rule.inductionOnChildren with
  | step rule ih =>
  have ofChildren
      (failed : rule.children.mapM (Rule.alternatives registry settings v) =
        .error (.unknownType id)) : Dangles registry rule id := by
    obtain ⟨child, hc, failed⟩ := exists_of_mapM_error failed
    exact (ih child hc failed).of_follows (.child hc)
  cases rule with
  | anyOf rules =>
    rw [alternatives_anyOf, map_eq_error_iff] at h
    exact ofChildren h
  | allOf rules =>
    rw [alternatives_allOf, map_eq_error_iff] at h
    exact ofChildren h
  | instanceOf type =>
    rw [Rule.alternatives, map_eq_error_iff] at h
    cases (namedVariable_eq_error_iff.mp h).2
  | embeds embedded =>
    rw [Rule.alternatives, map_eq_error_iff] at h
    exact dangles_of_embeddedAlternative arranged h
  | _ => cases h

theorem dangles_of_attribute (arranged : Hierarchy.Arranged registry.hierarchy) {a : Attribute}
    (h : a.alternatives registry settings = .error (.unknownType id)) :
    ∃ rule ∈ a.rules, Dangles registry rule id := by
  rw [Attribute.alternatives, map_eq_error_iff] at h
  obtain ⟨rule, hr, failed⟩ := exists_of_mapM_error h
  refine ⟨rule, hr, ?_⟩
  cases rule with
  | range inner =>
    have inside : inner ∈ (Rule.range inner).children := List.mem_singleton_self inner
    exact (dangles_of_alternatives arranged failed).of_follows (.child inside)
  | _ => cases failed

theorem dangles_of_selection (arranged : Hierarchy.Arranged registry.hierarchy) {t : ResourceType}
    (h : registry.selection settings t = .error (.unknownType id)) :
    ∃ rule ∈ t.rules, Dangles registry rule id := by
  rcases bind_eq_error_iff.mp h with name | ⟨v, _, h⟩
  · cases (namedVariable_eq_error_iff.mp name).2
  · rcases bind_eq_error_iff.mp h with membership | ⟨pattern, _, answer⟩
    · exact dangles_of_membership arranged membership
    · cases answer

theorem dangles_of_query (arranged : Hierarchy.Arranged registry.hierarchy) {t : ResourceType}
    {restriction : Option Iri}
    (h : registry.query settings t restriction = .error (.unknownType id)) :
    ∃ rule, (rule ∈ t.rules ∨ ∃ a ∈ t.attributes, rule ∈ a.rules) ∧ Dangles registry rule id := by
  rcases bind_eq_error_iff.mp h with name | ⟨v, _, h⟩
  · cases (namedVariable_eq_error_iff.mp name).2
  rcases bind_eq_error_iff.mp h with typeName | ⟨w, _, h⟩
  · cases (namedVariable_eq_error_iff.mp typeName).2
  rcases bind_eq_error_iff.mp h with membership | ⟨pattern, _, h⟩
  · obtain ⟨rule, hr, dangles⟩ := dangles_of_membership arranged membership
    exact ⟨rule, .inl hr, dangles⟩
  rcases bind_eq_error_iff.mp h with blocks | ⟨bs, _, answer⟩
  · obtain ⟨a, ha, failed⟩ := exists_of_mapM_error blocks
    rcases Attribute.of_block_eq_error failed with ⟨_, collision⟩ | failed
    · cases collision
    · obtain ⟨rule, hr, dangles⟩ := dangles_of_attribute arranged failed
      exact ⟨rule, .inr ⟨a, ha, hr⟩, dangles⟩
  · cases answer

theorem dangles_of_embeddedSelection (arranged : Hierarchy.Arranged registry.hierarchy)
    {a : Attribute} (h : registry.embeddedSelection a = .error (.unknownType id)) :
    ∃ t ∈ registry.hierarchy, ∃ rule ∈ t.rules, Dangles registry rule id := by
  unfold Profile.embeddedSelection at h
  split at h
  · cases h
  · next t embedded =>
    rw [map_eq_error_iff] at h
    exact ⟨t, Profile.ExtendedBy.mem_of_embeddedType? embedded, dangles_of_membership arranged h⟩

/-- The rules of a type never fail for lack of an embedded type. -/
theorem membership_ne_notEmbedded (arranged : Hierarchy.Arranged registry.hierarchy)
    (t : ResourceType) (a : AttributeId) : t.membership registry v ≠ .error (.notEmbedded a) := by
  intro h
  rw [Profile.membership_eq, map_eq_error_iff] at h
  obtain ⟨rule, _, failed⟩ := exists_of_mapM_error h
  refine Profile.ruleMembership_error_induction arranged
    (motive := fun _ e => e ≠ .notEmbedded a) ?_ ?_ ?_ failed rfl
  · simp
  · simp
  · intro _ _ _ _ ih
    exact ih

theorem embeddedSelection_eq_notEmbedded_iff (arranged : Hierarchy.Arranged registry.hierarchy)
    (a : Attribute) :
    registry.embeddedSelection a = .error (.notEmbedded a.id) ↔
      registry.embeddedType? a = none := by
  unfold Profile.embeddedSelection
  cases registry.embeddedType? a with
  | none => simp
  | some t =>
    have membership := membership_ne_notEmbedded (v := a.valueVariable) arranged t a.id
    simpa [map_eq_error_iff] using membership

end

theorem mem_references_of_mem_namedTypes {rule : Rule} {id : TypeId} (h : id ∈ rule.namedTypes) :
    id ∈ rule.references := by
  rw [Rule.references, Rule.subrules_eq, List.flatMap_cons]
  exact List.mem_append_left _ h

/-- The rule inside the only range of an attribute. -/
theorem Attribute.range?_eq_some_iff {a : Attribute} (one : rangeCount a.rules ≤ 1)
    {inner : Rule} : a.range? = some inner ↔ .range inner ∈ a.rules := by
  have given {rule : Rule} (h : a.range? = some rule) : .range rule ∈ a.rules := by
    obtain ⟨outer, hr, range⟩ := List.exists_of_findSome?_eq_some h
    cases outer <;> cases range
    exact hr
  refine ⟨given, fun h => ?_⟩
  cases range : a.range? with
  | none =>
    have none_range := List.findSome?_eq_none_iff.mp range _ h
    cases none_range
  | some other =>
    by_contra different
    have apart : Rule.range other ≠ .range inner := by simpa using different
    have symmetric : Std.Symm fun r s : Rule => ¬(r.kind = .range ∧ s.kind = .range) :=
      ⟨fun _ _ ranges h => ranges h.symm⟩
    exact (rangeCount_le_one_iff.mp one).forall (given range) h apart ⟨rfl, rfl⟩

namespace Profile

variable {p : Profile} {t : ResourceType}

theorem Knows.of_follows (extended : p.ExtendedBy p) {sub rule : Rule} (knows : p.Knows rule)
    (step : Follows p sub rule) : p.Knows sub := by
  cases step with
  | child h => exact knows.of_child h
  | named _ found hr => exact extended.knows_rule (mem_of_find? found) hr

/-- All that a rule leads to names types that the profile resolves, if the rule does. -/
theorem Knows.of_leads (extended : p.ExtendedBy p) {sub rule : Rule}
    (leads : Relation.ReflTransGen (Follows p) sub rule) (knows : p.Knows rule) : p.Knows sub := by
  induction leads with
  | refl => exact knows
  | tail _ step ih => exact ih (knows.of_follows extended step)

theorem Knows.not_dangles (extended : p.ExtendedBy p) {rule : Rule} (knows : p.Knows rule)
    (id : TypeId) : ¬Dangles p rule id := by
  rintro ⟨sub, leads, named, missing⟩
  obtain ⟨u, found⟩ :=
    knows.of_leads extended leads id (mem_references_of_mem_namedTypes named)
  rw [missing] at found
  cases found

/-- Whatever is compiled for the type, and however far its rules lead, all ids are those of
types. -/
structure Resolves (p : Profile) (t : ResourceType) : Prop where
  leads : ∀ rule, (rule ∈ t.rules ∨ ∃ a ∈ t.attributes, rule ∈ a.rules) →
    ∀ sub, Relation.ReflTransGen (Follows p) sub rule →
      ∀ id ∈ sub.namedTypes, ∃ u, p.find? id = some u
  membership : ∀ v id, t.membership p v ≠ .error (.unknownType id)
  selection : ∀ settings id, p.selection settings t ≠ .error (.unknownType id)
  alternatives : ∀ a ∈ t.attributes, ∀ settings id,
    a.alternatives p settings ≠ .error (.unknownType id)
  embeddedSelection : ∀ a ∈ t.attributes, ∀ id,
    p.embeddedSelection a ≠ .error (.unknownType id)
  query : ∀ settings restriction id,
    p.query settings t restriction ≠ .error (.unknownType id)

theorem resolves_of_extendedBy_self (extended : p.ExtendedBy p) (ht : t ∈ p.hierarchy) :
    p.Resolves t := by
  have arranged := extended.arranged
  have knows (rule : Rule) (h : rule ∈ t.rules ∨ ∃ a ∈ t.attributes, rule ∈ a.rules) :
      p.Knows rule := by
    rcases h with hr | ⟨a, ha, hr⟩
    · exact extended.knows_rule ht hr
    · exact extended.knows_attributeRule ht ha hr
  have apart {rule : Rule} {id : TypeId}
      (h : rule ∈ t.rules ∨ ∃ a ∈ t.attributes, rule ∈ a.rules) : ¬Dangles p rule id :=
    (knows rule h).not_dangles extended id
  constructor
  · intro rule h sub leads id named
    exact (knows rule h).of_leads extended leads id (mem_references_of_mem_namedTypes named)
  · intro v id h
    obtain ⟨rule, hr, dangles⟩ := dangles_of_membership arranged h
    exact apart (.inl hr) dangles
  · intro settings id h
    obtain ⟨rule, hr, dangles⟩ := dangles_of_selection arranged h
    exact apart (.inl hr) dangles
  · intro a ha settings id h
    obtain ⟨rule, hr, dangles⟩ := dangles_of_attribute arranged h
    exact apart (.inr ⟨a, ha, hr⟩) dangles
  · intro a ha id h
    obtain ⟨u, hu, rule, hr, dangles⟩ := dangles_of_embeddedSelection arranged h
    exact (extended.knows_rule hu hr).not_dangles extended id dangles
  · intro settings restriction id h
    obtain ⟨rule, hr, dangles⟩ := dangles_of_query arranged h
    exact apart hr dangles

/-- The range of the attribute is no embedded type, or there is none. -/
theorem embeddedType?_eq_none_iff {a : Attribute} (one : rangeCount a.rules ≤ 1)
    (knows : ∀ rule ∈ a.rules, p.Knows rule) :
    p.embeddedType? a = none ↔
      (∀ inner, .range inner ∉ a.rules) ∨ ∃ inner, .range inner ∈ a.rules ∧
        inner.kind ≠ .embeds := by
  have only {inner : Rule} : a.range? = some inner ↔ .range inner ∈ a.rules :=
    a.range?_eq_some_iff one
  cases range : a.range? with
  | none =>
    have absent (inner : Rule) : .range inner ∉ a.rules := by
      rw [← only, range]
      exact nofun
    simp [embeddedType?, range, absent]
  | some inner =>
    have given : .range inner ∈ a.rules := only.mp range
    have unique (rule : Rule) : .range rule ∈ a.rules ↔ rule = inner := by
      rw [← only, range, Option.some.injEq, eq_comm]
    have present : ¬∀ rule, .range rule ∉ a.rules := fun absent => absent inner given
    have named : p.Knows inner := (knows _ given).of_child (List.mem_singleton_self inner)
    rw [or_iff_right present]
    simp only [unique, exists_eq_left, embeddedType?, range]
    cases inner with
    | embeds id =>
      obtain ⟨u, found⟩ := named id (mem_references_of_mem_namedTypes (List.mem_singleton_self id))
      simp [found, Rule.kind]
    | _ => simp [Rule.kind]

/-- Whatever the order in which the types are looked at, nothing that is compiled for a type of the
profile meets an id without a type; and the values of an attribute cannot be selected as embedded
ones exactly if the rule inside its range is no embedded type, or it has no range. -/
theorem resolves_of_buildIn {order : List ResourceType → List ResourceType}
    {base : Option String} {ds : List TypeDeclaration} (reorders : ∀ ts, (order ts).Perm ts)
    (built : buildIn order base ds = .ok p) (ht : t ∈ p.hierarchy) :
    p.Resolves t ∧ ∀ a ∈ t.attributes,
      (p.embeddedSelection a = .error (.notEmbedded a.id) ↔
        (∀ inner, .range inner ∉ a.rules) ∨ ∃ inner, .range inner ∈ a.rules ∧
          inner.kind ≠ .embeds) := by
  have arranged := arranged_of_buildIn built
  have extended : p.ExtendedBy p := ⟨arranged, arranged, id, closed_of_buildIn reorders built⟩
  refine ⟨resolves_of_extendedBy_self extended ht, fun a ha => ?_⟩
  have one : rangeCount a.rules ≤ 1 := (attribute_of_buildIn reorders built ht ha).2.1
  rw [embeddedSelection_eq_notEmbedded_iff arranged]
  exact embeddedType?_eq_none_iff one fun rule hr => extended.knows_attributeRule ht ha hr

end Profile

/-- The basis of a film is embedded, and all that films lead to is in their library. -/
theorem films_resolve :
    (∀ ts : List ResourceType, ts.reverse.Perm ts) ∧
      Profile.buildIn List.reverse (some "http://l.example/") filmDeclarations =
        .ok filmLibrary ∧
      filmType ∈ filmLibrary.hierarchy ∧ filmLibrary.Resolves filmType ∧
      ∀ a ∈ filmType.attributes,
        filmLibrary.embeddedSelection a ≠ .error (.notEmbedded a.id) := by
  have reorders : ∀ ts : List ResourceType, ts.reverse.Perm ts := List.reverse_perm
  have built : Profile.buildIn List.reverse (some "http://l.example/") filmDeclarations =
      .ok filmLibrary := by
    decide +kernel
  have film : filmType ∈ filmLibrary.hierarchy := List.mem_cons_self
  obtain ⟨resolves, embedded⟩ := Profile.resolves_of_buildIn reorders built film
  refine ⟨reorders, built, film, resolves, fun a ha failed => ?_⟩
  have basis : a.rules = [.range (.embeds ⟨"Book"⟩)] := by
    rw [List.mem_singleton.mp ha]
  rcases (embedded a ha).mp failed with absent | ⟨inner, given, other⟩
  · exact absent _ (by rw [basis]; exact List.mem_singleton_self _)
  · rw [basis, List.mem_singleton] at given
    cases given
    exact other rfl

end GraphAccess
