import GraphAccess.Proofs.Compilation.Termination
import GraphAccess.Proofs.Profile.Validity

namespace GraphAccess

variable {p : Profile} {settings : Settings} {v : Variable}

theorem of_embeddedAlternative {id : TypeId} {a : Alternative}
    (h : p.embeddedAlternative v id = .ok a) :
    ∃ t type condition, p.find? id = some t ∧ t.rdfTypes = [type] ∧
      t.membership p v = .ok condition ∧ a = ⟨.triple ⟨v, .isA, .iri type⟩, condition⟩ := by
  unfold Profile.embeddedAlternative at h
  split at h
  · cases h
  · next t found =>
    split at h
    · next type types =>
      obtain ⟨condition, membership, rfl⟩ := map_eq_ok_iff.mp h
      exact ⟨t, type, condition, found, types, membership, rfl⟩
    · cases h

/-- The alternatives that a rule for values is the origin of, before any are merged. -/
inductive Originates (p : Profile) (settings : Settings) (v : Variable) (rule : Rule) :
    Alternative → Prop
  | instanceOf {type : TypeId} (h : .instanceOf type ∈ rule.subrules)
    (name : Variable.isName (v.name ++ settings.typeSuffix) = true) :
    Originates p settings v rule (.ofTriple ⟨v, .isA, .var ⟨v.name ++ settings.typeSuffix⟩⟩)
  | embeds {t : ResourceType} {type : Iri} {condition : Pattern} (ht : t ∈ p.hierarchy)
    (types : t.rdfTypes = [type]) (membership : t.membership p v = .ok condition) :
    Originates p settings v rule ⟨.triple ⟨v, .isA, .iri type⟩, condition⟩
  | inScheme {scheme : Iri} (h : .inScheme scheme ∈ rule.subrules) :
    Originates p settings v rule
      (.ofTriple ⟨v, .predicate Vocabulary.skosInScheme, .iri scheme⟩)
  | merge {as : List Alternative} (h : ∀ a ∈ as, Originates p settings v rule a) :
    Originates p settings v rule (.merge as)

theorem Originates.of_child {rule child : Rule} (hc : child ∈ rule.children) {a : Alternative}
    (h : Originates p settings v child a) : Originates p settings v rule a := by
  induction h with
  | instanceOf h name => exact .instanceOf (Rule.mem_subrules_of_mem_children hc h) name
  | embeds ht types membership => exact .embeds ht types membership
  | inScheme h => exact .inScheme (Rule.mem_subrules_of_mem_children hc h)
  | merge _ ih => exact .merge ih

/-- What holds of the alternatives of each rule for values if it holds of those of its children. -/
theorem Rule.alternatives_induction {motive : Rule → List Alternative → Prop}
    (anyOf : ∀ rules lists, List.Forall₂ motive rules lists → motive (.anyOf rules) lists.flatten)
    (allOf : ∀ rules lists, List.Forall₂ motive rules lists →
      motive (.allOf rules) [.merge lists.flatten])
    (instanceOf : ∀ type, Variable.isName (v.name ++ settings.typeSuffix) = true →
      motive (.instanceOf type) [.ofTriple ⟨v, .isA, .var ⟨v.name ++ settings.typeSuffix⟩⟩])
    (embeds : ∀ id t type condition, p.find? id = some t → t.rdfTypes = [type] →
      t.membership p v = .ok condition →
      motive (.embeds id) [⟨.triple ⟨v, .isA, .iri type⟩, condition⟩])
    (inScheme : ∀ scheme,
      motive (.inScheme scheme) [.ofTriple ⟨v, .predicate Vocabulary.skosInScheme, .iri scheme⟩])
    (shape : ∀ rule, rule.kind ∈ shapeKinds → motive rule [])
    {rule : Rule} {as : List Alternative} (h : rule.alternatives p settings v = .ok as) :
    motive rule as := by
  induction rule using Rule.inductionOnChildren generalizing as with
  | step rule ih =>
  have each {lists : List (List Alternative)}
      (h : rule.children.mapM (Rule.alternatives p settings v) = .ok lists) :
      List.Forall₂ motive rule.children lists :=
    forall₂_of_mapM h fun child hchild _ => ih child hchild
  cases rule with
  | anyOf rules =>
    rw [alternatives_anyOf] at h
    obtain ⟨lists, hlists, rfl⟩ := map_eq_ok_iff.mp h
    exact anyOf rules lists (each hlists)
  | allOf rules =>
    rw [alternatives_allOf] at h
    obtain ⟨lists, hlists, rfl⟩ := map_eq_ok_iff.mp h
    exact allOf rules lists (each hlists)
  | instanceOf type =>
    rw [Rule.alternatives] at h
    obtain ⟨w, hw, rfl⟩ := map_eq_ok_iff.mp h
    obtain ⟨name, rfl⟩ := namedVariable_eq_ok_iff.mp hw
    exact instanceOf type name
  | embeds id =>
    rw [Rule.alternatives] at h
    obtain ⟨a, ha, rfl⟩ := map_eq_ok_iff.mp h
    obtain ⟨t, type, condition, found, types, membership, rfl⟩ := of_embeddedAlternative ha
    exact embeds id t type condition found types membership
  | inScheme scheme =>
    cases h
    exact inScheme scheme
  | literal | datatype | languageIn | snippet =>
    cases h
    exact shape _ (by simp [Rule.kind, shapeKinds])
  | _ => cases h

theorem originates_of_alternatives {rule : Rule} {as : List Alternative}
    (h : rule.alternatives p settings v = .ok as) : ∀ a ∈ as, Originates p settings v rule a := by
  have each (rule : Rule) {lists : List (List Alternative)}
      (h : List.Forall₂ (fun child as => ∀ a ∈ as, Originates p settings v child a)
        rule.children lists) :
      ∀ a ∈ lists.flatten, Originates p settings v rule a := by
    intro a ha
    obtain ⟨list, hlist, ha⟩ := List.mem_flatten.mp ha
    obtain ⟨child, hchild, originates⟩ := exists_mem_of_forall₂ h hlist
    exact (originates a ha).of_child hchild
  have self (rule : Rule) : rule ∈ rule.subrules := by
    rw [Rule.subrules_eq]
    exact List.mem_cons_self
  refine Rule.alternatives_induction
    (motive := fun rule as => ∀ a ∈ as, Originates p settings v rule a) ?_ ?_ ?_ ?_ ?_ ?_ h
  · intro rules lists h
    exact each (.anyOf rules) h
  · intro rules lists h
    simpa using Originates.merge (each (.allOf rules) h)
  · intro type name
    simpa using Originates.instanceOf (self _) name
  · intro id t type condition found types membership
    simpa using Originates.embeds (Profile.mem_of_find? found) types membership
  · intro scheme
    simpa using Originates.inScheme (self _)
  · simp

/-- These are the alternatives that a rule of an attribute adds: those of a range; counts add
none. -/
def AddsAlternatives (p : Profile) (settings : Settings) (v : Variable) (rule : Rule)
    (as : List Alternative) : Prop :=
  (∃ inner, rule = .range inner ∧ inner.alternatives p settings v = .ok as) ∨
    rule.kind ∈ countKinds ∧ as = []

/-- An attribute has the alternatives that its rules add. -/
theorem Attribute.forall₂_of_alternatives {a : Attribute} {as : List Alternative}
    (h : a.alternatives p settings = .ok as) :
    ∃ lists, as = lists.flatten ∧
      List.Forall₂ (AddsAlternatives p settings a.valueVariable) a.rules lists := by
  obtain ⟨lists, hlists, rfl⟩ := map_eq_ok_iff.mp h
  refine ⟨lists, rfl, forall₂_of_mapM hlists fun rule _ list ok => ?_⟩
  cases rule with
  | range inner => exact .inl ⟨inner, rfl, ok⟩
  | minCount | maxCount | minPerLanguage | maxPerLanguage =>
    cases ok
    exact .inr ⟨by simp [Rule.kind, countKinds], rfl⟩
  | _ => cases ok

/-- Counts make no alternatives. -/
theorem flatten_of_noRange {v : Variable} {rules : List Rule} {lists : List (List Alternative)}
    (each : List.Forall₂ (AddsAlternatives p settings v) rules lists)
    (none : ∀ rule ∈ rules, rule.kind ≠ .range) : lists.flatten = [] := by
  rw [List.flatten_eq_nil_iff]
  intro list hlist
  obtain ⟨rule, hrule, made⟩ := exists_mem_of_forall₂ each hlist
  rcases made with ⟨inner, rfl, _⟩ | ⟨_, rfl⟩
  · exact absurd rfl (none _ hrule)
  · rfl

theorem alternatives_of_findRange {v : Variable} {rules : List Rule}
    {lists : List (List Alternative)}
    (each : List.Forall₂ (AddsAlternatives p settings v) rules lists)
    (apart : rules.Pairwise fun r s => ¬(r.kind = .range ∧ s.kind = .range)) {rule : Rule}
    (range : rules.findSome? Rule.range? = some rule) :
    rule.alternatives p settings v = .ok lists.flatten := by
  induction each with
  | nil => cases range
  | @cons first list rules lists made each ih =>
    obtain ⟨others, apart⟩ := List.pairwise_cons.mp apart
    rcases made with ⟨inner, rfl, ok⟩ | ⟨count, rfl⟩
    · cases range
      have none : ∀ rule ∈ rules, rule.kind ≠ .range :=
        fun rule hrule range => others rule hrule ⟨rfl, range⟩
      rw [List.flatten_cons, flatten_of_noRange each none, List.append_nil]
      exact ok
    · have other : first.range? = none := by
        cases first <;> simp [Rule.kind, countKinds, Rule.range?] at count ⊢
      rw [List.findSome?_cons, other] at range
      exact ih apart range

/-- An attribute without a range has no alternatives. -/
theorem Attribute.eq_nil_of_noRange {a : Attribute} {as : List Alternative}
    (none : a.range? = none) (h : a.alternatives p settings = .ok as) : as = [] := by
  obtain ⟨lists, rfl, each⟩ := Attribute.forall₂_of_alternatives h
  refine flatten_of_noRange each fun rule hr range => ?_
  have isRange := Rule.isSome_range?_iff.mpr range
  rw [List.findSome?_eq_none_iff.mp none rule hr] at isRange
  cases isRange

/-- An attribute has the alternatives of its range. -/
theorem Attribute.alternatives_of_range {a : Attribute} {rule : Rule} {as : List Alternative}
    (range : a.range? = some rule) (one : rangeCount a.rules ≤ 1)
    (h : a.alternatives p settings = .ok as) :
    rule.alternatives p settings a.valueVariable = .ok as := by
  obtain ⟨lists, rfl, each⟩ := Attribute.forall₂_of_alternatives h
  exact alternatives_of_findRange each (rangeCount_le_one_iff.mp one) range

theorem originates_of_attribute {a : Attribute} {as : List Alternative}
    (h : a.alternatives p settings = .ok as) :
    ∀ b ∈ as, ∃ rule ∈ a.rules, Originates p settings a.valueVariable rule b := by
  obtain ⟨lists, rfl, ranges⟩ := Attribute.forall₂_of_alternatives h
  intro b hb
  obtain ⟨list, hlist, hb⟩ := List.mem_flatten.mp hb
  obtain ⟨rule, hrule, origin⟩ := exists_mem_of_forall₂ ranges hlist
  refine ⟨rule, hrule, ?_⟩
  rcases origin with ⟨inner, rfl, ok⟩ | ⟨_, rfl⟩
  · exact (originates_of_alternatives ok b hb).of_child (by simp [Rule.children])
  · cases hb

theorem Attribute.block_eq_ok_iff {a : Attribute} {resource resourceType : Variable}
    {b : AttributeBlock} :
    a.block p settings resource resourceType = .ok b ↔
      a.valueVariable ≠ resource ∧ a.valueVariable ≠ resourceType ∧
        ∃ as, a.alternatives p settings = .ok as ∧
          b = ⟨⟨resource, .predicate a.predicate, .var a.valueVariable⟩, as⟩ := by
  unfold Attribute.block
  split
  · next taken =>
    have taken : ¬(a.valueVariable ≠ resource ∧ a.valueVariable ≠ resourceType) := by tauto
    simp [← and_assoc, taken]
  · next free =>
    obtain ⟨resource, resourceType⟩ := not_or.mp free
    simp [map_eq_ok_iff, resource, resourceType, eq_comm (a := b)]

theorem Attribute.of_block_eq_error {a : Attribute} {resource resourceType : Variable}
    {e : CompileError} (h : a.block p settings resource resourceType = .error e) :
    (a.valueVariable = resource ∨ a.valueVariable = resourceType) ∧
        e = .variableCollision a.id a.valueVariable ∨
      a.alternatives p settings = .error e := by
  unfold Attribute.block at h
  split at h
  · next taken => exact .inl ⟨taken, (Except.error.inj h).symm⟩
  · exact .inr (map_eq_error_iff.mp h)

/-- What a query is assembled from. -/
theorem Profile.parts_of_query {t : ResourceType} {restriction : Option Iri} {q : ResourceQuery}
    (h : p.query settings t restriction = .ok q) :
    ∃ membership blocks, Variable.isName settings.resourceName = true ∧
      Variable.isName (settings.resourceName ++ settings.typeSuffix) = true ∧
      t.membership p ⟨settings.resourceName⟩ = .ok membership ∧
      t.attributes.mapM (Attribute.block p settings ⟨settings.resourceName⟩
        ⟨settings.resourceName ++ settings.typeSuffix⟩) = .ok blocks ∧
      q = ⟨⟨settings.resourceName⟩, ⟨settings.resourceName ++ settings.typeSuffix⟩, membership,
        restriction, blocks⟩ := by
  obtain ⟨resource, hresource, h⟩ := bind_eq_ok_iff.mp h
  obtain ⟨resourceType, hresourceType, h⟩ := bind_eq_ok_iff.mp h
  obtain ⟨membership, hmembership, h⟩ := bind_eq_ok_iff.mp h
  obtain ⟨blocks, hblocks, h⟩ := bind_eq_ok_iff.mp h
  cases h
  obtain ⟨name, rfl⟩ := namedVariable_eq_ok_iff.mp hresource
  obtain ⟨nameType, rfl⟩ := namedVariable_eq_ok_iff.mp hresourceType
  exact ⟨membership, blocks, name, nameType, hmembership, hblocks, rfl⟩

end GraphAccess
