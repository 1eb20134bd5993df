import GraphAccess.Proofs.Retrieval.Origin
import GraphAccess.Proofs.Retrieval.QueryText

namespace GraphAccess

open Sparql

/-- The IRI that a rule itself names. -/
def Rule.iri? : Rule → Option Iri
  | hasType iri | inScheme iri | isResource iri | datatype iri => some iri
  | _ => none

/-- The IRIs at any depth of a rule can stand between angle brackets. -/
def Rule.isWellFormed (rule : Rule) : Bool :=
  rule.subrules.all fun sub => sub.iri?.all isIriRef

/-- The IRIs in the rules of all types and attributes can stand between angle brackets. -/
def Profile.isWellFormed (p : Profile) : Bool :=
  p.hierarchy.all fun t =>
    t.rules.all Rule.isWellFormed &&
      t.attributes.all fun a => a.rules.all Rule.isWellFormed

namespace Rule

theorem isIriRef_of_mem_subrules {rule sub : Rule} (h : rule.isWellFormed = true)
    (hs : sub ∈ rule.subrules) {iri : Iri} (named : sub.iri? = some iri) :
    isIriRef iri = true := by
  have all := List.all_eq_true.mp h sub hs
  rw [named] at all
  exact all

theorem isIriRef_of_isWellFormed {rule : Rule} (h : rule.isWellFormed = true) {iri : Iri}
    (named : rule.iri? = some iri) : isIriRef iri = true :=
  isIriRef_of_mem_subrules h (by rw [subrules_eq]; simp) named

theorem isWellFormed_of_mem_children {rule child : Rule} (h : rule.isWellFormed = true)
    (hc : child ∈ rule.children) : child.isWellFormed = true := by
  apply List.all_eq_true.mpr
  intro sub hsub
  exact List.all_eq_true.mp h sub (Rule.mem_subrules_of_mem_children hc hsub)

end Rule

namespace Profile

variable {p : Profile}

theorem isWellFormed_rule (h : p.isWellFormed = true) {t : ResourceType} (ht : t ∈ p.hierarchy)
    {rule : Rule} (hr : rule ∈ t.rules) : rule.isWellFormed = true := by
  have both := List.all_eq_true.mp h t ht
  rw [Bool.and_eq_true] at both
  exact List.all_eq_true.mp both.1 rule hr

theorem isWellFormed_attributeRule (h : p.isWellFormed = true) {t : ResourceType}
    (ht : t ∈ p.hierarchy) {a : Attribute} (ha : a ∈ t.attributes) {rule : Rule}
    (hr : rule ∈ a.rules) : rule.isWellFormed = true := by
  have both := List.all_eq_true.mp h t ht
  rw [Bool.and_eq_true] at both
  exact List.all_eq_true.mp (List.all_eq_true.mp both.2 a ha) rule hr

end Profile

section
variable {p : Profile} {settings : Settings} {v : Variable}

theorem isReadable_withIri (name : Variable.isName v.name = true) {verb : Verb}
    (hv : verb.isReadable = true) {iri : Iri} (reference : isIriRef iri = true) :
    (⟨v, verb, .iri iri⟩ : TriplePattern).isReadable = true := by
  simp [TriplePattern.isReadable, PatternObject.isReadable, name, hv, reference]

theorem readable_of_parts {separator : Separator} {rules : List Rule} {parts : List Pattern}
    (h : List.Forall₂ (fun rule part => rule.isWellFormed = true → part.Readable) rules parts)
    (wellFormed : ∀ rule ∈ rules, rule.isWellFormed = true) :
    (Pattern.sequence separator parts).Readable := by
  apply Pattern.Readable.sequence
  intro part hpart
  obtain ⟨rule, hrule, readable⟩ := exists_mem_of_forall₂ h hpart
  exact readable (wellFormed rule hrule)

theorem readable_of_ruleMembership (arranged : Hierarchy.Arranged p.hierarchy)
    (known : p.isWellFormed = true) (name : Variable.isName v.name = true) {rule : Rule}
    {pattern : Pattern} (h : p.ruleMembership v rule = .ok pattern) :
    rule.isWellFormed = true → pattern.Readable := by
  refine Profile.ruleMembership_induction arranged
    (motive := fun rule pattern => rule.isWellFormed = true → pattern.Readable)
    ?_ ?_ ?_ ?_ ?_ h
  · intro type wellFormed
    exact .triple (isReadable_withIri name rfl (Rule.isIriRef_of_isWellFormed wellFormed rfl))
  · intro resource wellFormed
    exact .equals name (Rule.isIriRef_of_isWellFormed wellFormed rfl)
  · intro scheme wellFormed
    have verb : (Verb.predicate Vocabulary.skosInScheme).isReadable = true :=
      isIriRef_skosInScheme
    exact .triple (isReadable_withIri name verb (Rule.isIriRef_of_isWellFormed wellFormed rfl))
  · intro rules parts hparts wellFormed
    apply Pattern.Readable.group
    apply readable_of_parts hparts
    intro sub hsub
    exact Rule.isWellFormed_of_mem_children wellFormed hsub
  · intro ids groups hgroups _
    apply Pattern.Readable.sequence
    intro group hgroup
    obtain ⟨id, _, t, parts, found, hparts, rfl⟩ := exists_mem_of_forall₂ hgroups hgroup
    apply Pattern.Readable.group
    apply readable_of_parts hparts
    intro sub hsub
    exact Profile.isWellFormed_rule known (Profile.mem_of_find? found)
      (ResourceType.mem_inheritedRules.mp hsub).1

theorem readable_of_membership (arranged : Hierarchy.Arranged p.hierarchy)
    (known : p.isWellFormed = true) (name : Variable.isName v.name = true) {t : ResourceType}
    (ht : t ∈ p.hierarchy) {pattern : Pattern} (h : t.membership p v = .ok pattern) :
    pattern.Readable := by
  obtain ⟨parts, hparts, rfl⟩ :=
    Profile.parts_of_membership (readable_of_ruleMembership arranged known name) h
  apply readable_of_parts hparts
  intro rule hrule
  exact Profile.isWellFormed_rule known ht hrule

namespace Alternative

theorem readable_ofTriple {t : TriplePattern} (h : t.isReadable = true) :
    (ofTriple t).Readable where
  template := .triple t
  triples := by simpa [ofTriple, Pattern.triples] using h
  condition := .triple h

theorem template_merge_triples (as : List Alternative) :
    (merge as).template.triples = as.flatMap fun a => a.template.triples := by
  rw [merge, Pattern.triples_sequence, List.flatMap_map]

theorem condition_merge_triples (as : List Alternative) :
    (merge as).condition.triples = as.flatMap fun a => a.condition.triples := by
  rw [merge, Pattern.triples_sequence, List.flatMap_map]
  rfl

theorem isTemplate_merge {as : List Alternative} (h : ∀ a ∈ as, a.template.Template) :
    (merge as).template.Template := by
  apply Pattern.Template.sequence
  intro p hp
  obtain ⟨a, ha, rfl⟩ := List.mem_map.mp hp
  exact h a ha

theorem forall_triples_merge {as : List Alternative} {motive : TriplePattern → Prop}
    (h : ∀ a ∈ as, ∀ t ∈ a.template.triples, motive t) :
    ∀ t ∈ (merge as).template.triples, motive t := by
  intro t ht
  rw [template_merge_triples] at ht
  obtain ⟨a, ha, ht⟩ := List.mem_flatMap.mp ht
  exact h a ha t ht

theorem readable_merge {as : List Alternative} (h : ∀ a ∈ as, a.Readable) :
    (merge as).Readable where
  template := isTemplate_merge fun a ha => (h a ha).template
  triples := forall_triples_merge fun a ha => (h a ha).triples
  condition := by
    apply Pattern.Readable.sequence
    intro p hp
    obtain ⟨a, ha, rfl⟩ := List.mem_map.mp hp
    exact .group (h a ha).condition

end Alternative

theorem Originates.readable (arranged : Hierarchy.Arranged p.hierarchy)
    (known : p.isWellFormed = true) (name : Variable.isName v.name = true) {rule : Rule}
    (wellFormed : rule.isWellFormed = true) {a : Alternative}
    (h : Originates p settings v rule a) : a.Readable := by
  induction h with
  | instanceOf _ nameType =>
    apply Alternative.readable_ofTriple
    simp [TriplePattern.isReadable, Verb.isReadable, PatternObject.isReadable, name, nameType]
  | @embeds t type condition ht types membership =>
    have demanded := ResourceType.hasType_mem_of_rdfTypes types
    have reference :=
      Rule.isIriRef_of_isWellFormed (Profile.isWellFormed_rule known ht demanded) rfl
    have readable : (⟨v, .isA, .iri type⟩ : TriplePattern).isReadable = true :=
      isReadable_withIri name rfl reference
    exact ⟨.triple _, by simpa [Pattern.triples] using readable,
      readable_of_membership arranged known name ht membership⟩
  | inScheme hs =>
    have verb : (Verb.predicate Vocabulary.skosInScheme).isReadable = true :=
      isIriRef_skosInScheme
    exact Alternative.readable_ofTriple
      (isReadable_withIri name verb (Rule.isIriRef_of_mem_subrules wellFormed hs rfl))
  | merge _ ih => exact Alternative.readable_merge ih

end

section
variable {order : List ResourceType → List ResourceType} {base : Option String}
variable {ds : List TypeDeclaration} {p : Profile} {settings : Settings} {t : ResourceType}
variable {a : Attribute}

/-- The alternatives of an attribute of a built profile can be read back. -/
theorem Attribute.readable_of_alternatives (reorders : ∀ ts, (order ts).Perm ts)
    (built : Profile.buildIn order base ds = .ok p) (wellFormed : p.isWellFormed = true)
    (ht : t ∈ p.hierarchy) (ha : a ∈ t.attributes) {as : List Alternative}
    (h : a.alternatives p settings = .ok as) : ∀ b ∈ as, b.Readable := by
  have name := (Profile.attribute_of_buildIn reorders built ht ha).1
  intro b hb
  obtain ⟨rule, hrule, originates⟩ := originates_of_attribute h b hb
  exact originates.readable (Profile.arranged_of_buildIn built) wellFormed name
    (Profile.isWellFormed_attributeRule wellFormed ht ha hrule)

theorem Attribute.readable_of_block (reorders : ∀ ts, (order ts).Perm ts)
    (built : Profile.buildIn order base ds = .ok p) (wellFormed : p.isWellFormed = true)
    (ht : t ∈ p.hierarchy) (ha : a ∈ t.attributes) {resource resourceType : Variable}
    (name : Variable.isName resource.name = true) {b : AttributeBlock}
    (h : a.block p settings resource resourceType = .ok b) : b.Readable := by
  obtain ⟨nameValue, _, predicate⟩ := Profile.attribute_of_buildIn reorders built ht ha
  obtain ⟨_, _, as, has, rfl⟩ := Attribute.block_eq_ok_iff.mp h
  constructor
  · simp [TriplePattern.isReadable, Verb.isReadable, PatternObject.isReadable, name, predicate,
      Attribute.valueVariable, nameValue]
  · exact Attribute.readable_of_alternatives reorders built wellFormed ht ha has

/-- The query for a type of a built profile can be read back, if that is so for the only resource
that it is for. -/
theorem Profile.readable_of_query (reorders : ∀ ts, (order ts).Perm ts)
    (built : Profile.buildIn order base ds = .ok p) (wellFormed : p.isWellFormed = true)
    (ht : t ∈ p.hierarchy) {restriction : Option Iri}
    (only : ∀ iri ∈ restriction, isIriRef iri = true) {q : ResourceQuery}
    (h : p.query settings t restriction = .ok q) : q.Readable := by
  obtain ⟨membership, blocks, name, nameType, hmembership, hblocks, rfl⟩ := parts_of_query h
  constructor
  · exact name
  · exact nameType
  · exact readable_of_membership (Profile.arranged_of_buildIn built) wellFormed name ht hmembership
  · exact only
  · intro b hb
    obtain ⟨a, ha, ok⟩ := exists_of_mapM hblocks hb
    exact Attribute.readable_of_block reorders built wellFormed ht ha name ok

end

end GraphAccess
