import GraphAccess.Proofs.Retrieval.SharedTemplate

namespace GraphAccess

open Sparql

namespace Sparql

mutual

/-- The variables at any depth of an element. -/
def Element.vars : Element → List Variable
  | .triple t => t.mentions
  | .filter v _ => [v]
  | .optional body => Element.varsOfAll body
  | .group body => Element.varsOfAll body
  | .union left right => Element.vars left ++ Element.varsOfAll right

def Element.varsOfAll : List Element → List Variable
  | [] => []
  | e :: es => Element.vars e ++ Element.varsOfAll es

end

theorem Element.varsOfAll_eq_flatMap (es : List Element) :
    Element.varsOfAll es = es.flatMap Element.vars := by
  induction es with
  | nil => rfl
  | cons e es ih => rw [Element.varsOfAll, ih, List.flatMap_cons]

theorem Element.varsOfAll_append (es fs : List Element) :
    Element.varsOfAll (es ++ fs) =
      Element.varsOfAll es ++ Element.varsOfAll fs := by
  simp only [Element.varsOfAll_eq_flatMap, List.flatMap_append]

/-- The variables of a query, in its template and in its pattern. -/
def Query.vars (q : Query) : List Variable :=
  q.template.flatMap TriplePattern.mentions ++ Element.varsOfAll q.pattern

end Sparql

namespace Pattern

def vars (p : Pattern) : List Variable := Element.varsOfAll p.elements

@[simp] theorem vars_triple (t : TriplePattern) : (triple t).vars = t.mentions := by
  simp [vars, elements, Element.varsOfAll, Element.vars]

@[simp] theorem vars_equals (v : Variable) (iri : Iri) : (equals v iri).vars = [v] := rfl

@[simp] theorem vars_group (body : Pattern) : (group body).vars = body.vars := by
  simp [vars, elements, Element.varsOfAll, Element.vars]

@[simp] theorem vars_sequence (separator : Separator) (parts : List Pattern) :
    (sequence separator parts).vars = parts.flatMap vars := by
  unfold vars
  rw [elements_sequence, Element.varsOfAll_eq_flatMap, List.flatMap_assoc]
  simp only [Element.varsOfAll_eq_flatMap]

end Pattern

/-- A rule or one below it is for the instances of a type, whose types a query asks for. -/
def Rule.AsksForTypes (rule : Rule) : Prop := ∃ type, .instanceOf type ∈ rule.subrules

namespace Rule

theorem AsksForTypes.of_child {rule child : Rule} (h : child.AsksForTypes)
    (hc : child ∈ rule.children) : rule.AsksForTypes := by
  obtain ⟨type, asks⟩ := h
  exact ⟨type, mem_subrules_of_mem_children hc asks⟩

theorem exists_child_of_asks {rule : Rule} (asks : rule.AsksForTypes)
    (other : ∀ type, rule ≠ .instanceOf type) : ∃ child ∈ rule.children, child.AsksForTypes := by
  obtain ⟨type, asks⟩ := asks
  rw [subrules_eq] at asks
  rcases List.mem_cons.mp asks with self | asks
  · exact absurd self.symm (other type)
  · obtain ⟨child, hchild, asks⟩ := List.mem_flatMap.mp asks
    exact ⟨child, hchild, type, asks⟩

theorem not_asksForTypes_of_shape {rule : Rule} (kind : rule.kind ∈ shapeKinds) :
    ¬rule.AsksForTypes := by
  cases rule with
  | literal | datatype | languageIn | snippet => simp [AsksForTypes, subrules]
  | _ => simp [Rule.kind, shapeKinds] at kind

theorem not_asksForTypes_of_count {rule : Rule} (kind : rule.kind ∈ countKinds) :
    ¬rule.AsksForTypes := by
  cases rule with
  | minCount | maxCount | minPerLanguage | maxPerLanguage => simp [AsksForTypes, subrules]
  | _ => simp [Rule.kind, countKinds] at kind

end Rule

section
variable {p : Profile} {settings : Settings} {v w : Variable}

theorem vars_of_sequence {α : Type} {as : List α} {parts : List Pattern}
    (separator : Separator)
    (h : List.Forall₂ (fun _ part => ∀ w ∈ part.vars, w = v) as parts) :
    ∀ w ∈ (Pattern.sequence separator parts).vars, w = v := by
  intro w hw
  rw [Pattern.vars_sequence] at hw
  obtain ⟨part, hpart, hw⟩ := List.mem_flatMap.mp hw
  obtain ⟨_, _, own⟩ := exists_mem_of_forall₂ h hpart
  exact own w hw

/-- What decides which resources belong to a type speaks of nothing but the resource. -/
theorem vars_of_ruleMembership (arranged : Hierarchy.Arranged p.hierarchy) {rule : Rule}
    {pattern : Pattern} (h : p.ruleMembership v rule = .ok pattern) :
    ∀ w ∈ pattern.vars, w = v := by
  refine Profile.ruleMembership_induction arranged
    (motive := fun _ pattern => ∀ w ∈ pattern.vars, w = v) ?_ ?_ ?_ ?_ ?_ h
  · simp [TriplePattern.mentions]
  · simp
  · simp [TriplePattern.mentions]
  · intro rules parts hparts
    rw [Pattern.vars_group]
    exact vars_of_sequence .dot hparts
  · intro ids groups hgroups
    have own : List.Forall₂ (fun _ group => ∀ w ∈ Pattern.vars group, w = v) ids groups := by
      apply hgroups.imp
      rintro id group ⟨t, parts, _, hparts, rfl⟩
      rw [Pattern.vars_group]
      exact vars_of_sequence .dot hparts
    exact vars_of_sequence .dot own

theorem vars_of_membership (arranged : Hierarchy.Arranged p.hierarchy) {t : ResourceType}
    {pattern : Pattern} (h : t.membership p v = .ok pattern) :
    ∀ w ∈ pattern.vars, w = v := by
  obtain ⟨parts, hparts, rfl⟩ :=
    Profile.parts_of_membership (vars_of_ruleMembership arranged) h
  exact vars_of_sequence .dot hparts

/-- The variables of what an alternative retrieves and of what it demands. -/
def Alternative.vars (a : Alternative) : List Variable :=
  a.template.triples.flatMap TriplePattern.mentions ++ a.condition.vars

theorem Alternative.vars_ofTriple (t : TriplePattern) :
    (ofTriple t).vars = t.mentions ++ t.mentions := by
  simp [vars, ofTriple, Pattern.triples]

theorem Alternative.mem_vars_merge {as : List Alternative} :
    w ∈ (merge as).vars ↔ ∃ a ∈ as, w ∈ a.vars := by
  have conditions : (merge as).condition.vars = as.flatMap fun a => a.condition.vars := by
    simp [merge, List.flatMap_map]
  simp only [vars, template_merge_triples, conditions, List.mem_append, List.mem_flatMap]
  constructor
  · rintro (⟨t, ⟨a, ha, ht⟩, hw⟩ | ⟨a, ha, hw⟩)
    · exact ⟨a, ha, .inl ⟨t, ht, hw⟩⟩
    · exact ⟨a, ha, .inr hw⟩
  · rintro ⟨a, ha, ⟨t, ht, hw⟩ | hw⟩
    · exact .inl ⟨t, ⟨a, ha, ht⟩, hw⟩
    · exact .inr ⟨a, ha, hw⟩

theorem Originates.vars (arranged : Hierarchy.Arranged p.hierarchy) {rule : Rule}
    {a : Alternative} (h : Originates p settings v rule a) :
    ∀ w ∈ a.vars, w = v ∨ w = ⟨v.name ++ settings.typeSuffix⟩ ∧ rule.AsksForTypes := by
  induction h with
  | @instanceOf type asks _ =>
    have typed : rule.AsksForTypes := ⟨type, asks⟩
    simp [Alternative.vars_ofTriple, TriplePattern.mentions, typed]
  | embeds _ _ membership =>
    have own := vars_of_membership arranged membership
    intro w hw
    rcases List.mem_append.mp hw with hw | hw
    · exact .inl (by simpa [Pattern.triples, TriplePattern.mentions] using hw)
    · exact .inl (own w hw)
  | inScheme => simp [Alternative.vars_ofTriple, TriplePattern.mentions]
  | merge _ ih =>
    intro w hw
    obtain ⟨a, ha, hw⟩ := Alternative.mem_vars_merge.mp hw
    exact ih a ha w hw

/-- An alternative binds the types of values if the rule asks for them at any depth. -/
theorem exists_typed_alternative {rule : Rule} (asks : rule.AsksForTypes) {as : List Alternative}
    (h : rule.alternatives p settings v = .ok as) :
    ∃ a ∈ as, ⟨v.name ++ settings.typeSuffix⟩ ∈ a.vars := by
  let Typed (as : List Alternative) : Prop := ∃ a ∈ as, ⟨v.name ++ settings.typeSuffix⟩ ∈ a.vars
  have below (rule : Rule) (other : ∀ type, rule ≠ .instanceOf type)
      {lists : List (List Alternative)}
      (h : List.Forall₂ (fun child as => child.AsksForTypes → Typed as) rule.children lists)
      (asks : rule.AsksForTypes) : Typed lists.flatten := by
    obtain ⟨child, hchild, asks⟩ := Rule.exists_child_of_asks asks other
    obtain ⟨list, hlist, typed⟩ := exists_mem_right_of_forall₂ h hchild
    obtain ⟨a, ha, typed⟩ := typed asks
    exact ⟨a, List.mem_flatten.mpr ⟨list, hlist, ha⟩, typed⟩
  refine Rule.alternatives_induction (motive := fun rule as => rule.AsksForTypes → Typed as)
    ?_ ?_ ?_ ?_ ?_ ?_ h asks
  · intro rules lists h
    exact below (.anyOf rules) (by simp) h
  · intro rules lists h asks
    have typed : Typed lists.flatten := below (.allOf rules) (by simp) h asks
    exact ⟨_, List.mem_singleton.mpr rfl, Alternative.mem_vars_merge.mpr typed⟩
  · intro type _ _
    refine ⟨_, List.mem_singleton.mpr rfl, ?_⟩
    simp [Alternative.vars_ofTriple, TriplePattern.mentions]
  · simp [Rule.AsksForTypes, Rule.subrules]
  · simp [Rule.AsksForTypes, Rule.subrules]
  · intro rule kind asks
    exact absurd asks (Rule.not_asksForTypes_of_shape kind)

end

/-- An attribute's values are instances of a type, or may be. -/
def Attribute.AsksForTypes (a : Attribute) : Prop := ∃ rule ∈ a.rules, rule.AsksForTypes

/-- The variables of an attribute's alternatives besides its own: the one for types, if it asks for
them. -/
theorem mem_vars_alternatives {p : Profile} {settings : Settings} {a : Attribute}
    {as : List Alternative} (arranged : Hierarchy.Arranged p.hierarchy)
    (h : a.alternatives p settings = .ok as) {w : Variable} (other : w ≠ a.valueVariable) :
    (∃ b ∈ as, w ∈ b.vars) ↔ w = ⟨a.id.name ++ settings.typeSuffix⟩ ∧ a.AsksForTypes := by
  constructor
  · rintro ⟨b, hb, hw⟩
    obtain ⟨rule, hrule, originates⟩ := originates_of_attribute h b hb
    rcases originates.vars arranged w hw with own | ⟨typed, asks⟩
    · exact absurd own other
    · exact ⟨typed, rule, hrule, asks⟩
  · rintro ⟨rfl, rule, hrule, asks⟩
    obtain ⟨lists, rfl, each⟩ := Attribute.forall₂_of_alternatives h
    obtain ⟨list, hlist, added⟩ := exists_mem_right_of_forall₂ each hrule
    have typed : ∃ b ∈ list, ⟨a.id.name ++ settings.typeSuffix⟩ ∈ b.vars := by
      rcases added with ⟨inner, rfl, ok⟩ | ⟨count, rfl⟩
      · obtain ⟨child, hchild, asks⟩ := Rule.exists_child_of_asks asks (by simp)
        cases List.mem_singleton.mp hchild
        exact exists_typed_alternative asks ok
      · exact absurd asks (Rule.not_asksForTypes_of_count count)
    obtain ⟨b, hb, typed⟩ := typed
    exact ⟨b, List.mem_flatten.mpr ⟨list, hlist, hb⟩, typed⟩

namespace AttributeBlock

/-- The variables that the block adds to the template and to the pattern. -/
def vars (b : AttributeBlock) : List Variable :=
  b.templateTriples.flatMap TriplePattern.mentions ++ Element.varsOfAll b.elements

theorem vars_unionOf (left : Element) (as : List Alternative) :
    (unionOf left as).vars = left.vars ++ as.flatMap fun a => a.condition.vars := by
  induction as generalizing left with
  | nil => simp [unionOf]
  | cons a as ih =>
    have first := ih (.union left a.condition.elements)
    rw [unionOf, List.foldl_cons, ← unionOf, first, Element.vars, List.flatMap_cons,
      List.append_assoc]
    rfl

theorem mem_vars_iff {b : AttributeBlock} {w : Variable} :
    w ∈ b.vars ↔ w ∈ b.edge.mentions ∨ ∃ a ∈ b.alternatives, w ∈ a.vars := by
  have pattern : w ∈ Element.varsOfAll b.elements ↔
      w ∈ b.edge.mentions ∨ ∃ a ∈ b.alternatives, w ∈ a.condition.vars := by
    unfold elements
    cases b.alternatives with
    | nil => simp [Element.varsOfAll, Element.vars]
    | cons a as => simp [Element.varsOfAll, Element.vars, vars_unionOf, Pattern.vars]
  have template : w ∈ b.templateTriples.flatMap TriplePattern.mentions ↔
      w ∈ b.edge.mentions ∨
        ∃ a ∈ b.alternatives, w ∈ a.template.triples.flatMap TriplePattern.mentions := by
    simp [templateTriples, List.flatMap_assoc]
  rw [vars, List.mem_append, template, pattern]
  simp only [Alternative.vars, List.mem_append]
  constructor
  · rintro ((edge | ⟨a, ha, hw⟩) | (edge | ⟨a, ha, hw⟩))
    · exact .inl edge
    · exact .inr ⟨a, ha, .inl hw⟩
    · exact .inl edge
    · exact .inr ⟨a, ha, .inr hw⟩
  · rintro (edge | ⟨a, ha, hw | hw⟩)
    · exact .inl (.inl edge)
    · exact .inl (.inr ⟨a, ha, hw⟩)
    · exact .inr (.inr ⟨a, ha, hw⟩)

end AttributeBlock

namespace ResourceQuery

/-- What the query is read as, if it can be read. -/
def reading (q : ResourceQuery) : Sparql.Query := ⟨q.templateTriples, q.elements⟩

def vars (q : ResourceQuery) : List Variable := q.reading.vars

theorem mem_vars_iff {q : ResourceQuery} (own : ∀ w ∈ q.membership.vars, w = q.resource)
    {w : Variable} :
    w ∈ q.vars ↔
      w = q.resource ∨ w = q.resourceType ∨ ∃ b ∈ q.blocks, w ∈ b.vars := by
  have mentions : q.typeTriple.mentions = [q.resource, q.resourceType] := rfl
  have restriction : w ∈ Element.varsOfAll
      (q.restriction.map (Element.filter q.resource)).toList → w = q.resource := by
    cases q.restriction <;> simp [Element.varsOfAll, Element.vars]
  have optionals : w ∈ Element.varsOfAll (q.blocks.map fun b => .optional b.elements) ↔
      ∃ b ∈ q.blocks, w ∈ Element.varsOfAll b.elements := by
    simp [Element.varsOfAll_eq_flatMap, Element.vars, List.flatMap_map]
  simp only [vars, Query.vars, reading, templateTriples, elements, List.flatMap_cons,
    List.flatMap_assoc, List.mem_append, List.mem_flatMap, Element.varsOfAll_append,
    Element.varsOfAll, Element.vars, mentions, List.mem_cons, List.not_mem_nil, or_false,
    optionals, AttributeBlock.vars]
  constructor
  · rintro (((rfl | rfl) | ⟨b, hb, hw⟩) | ((hw | hw) | ((rfl | rfl) | ⟨b, hb, hw⟩)))
    · exact .inl rfl
    · exact .inr (.inl rfl)
    · exact .inr (.inr ⟨b, hb, .inl hw⟩)
    · exact .inl (own w hw)
    · exact .inl (restriction hw)
    · exact .inl rfl
    · exact .inr (.inl rfl)
    · exact .inr (.inr ⟨b, hb, .inr hw⟩)
  · rintro (rfl | rfl | ⟨b, hb, hw | hw⟩)
    · exact .inl (.inl (.inl rfl))
    · exact .inl (.inl (.inr rfl))
    · exact .inl (.inr ⟨b, hb, hw⟩)
    · exact .inr (.inr (.inr ⟨b, hb, hw⟩))

end ResourceQuery

/-- What a query has a variable for. -/
inductive Role where
  | resource
  | resourceType
  | value (id : AttributeId)
  | valueType (id : AttributeId)
  deriving DecidableEq, Repr

/-- The variable that is named for a role. -/
def Role.var (settings : Settings) : Role → Variable
  | resource => ⟨settings.resourceName⟩
  | resourceType => ⟨settings.resourceName ++ settings.typeSuffix⟩
  | value id => ⟨id.name⟩
  | valueType id => ⟨id.name ++ settings.typeSuffix⟩

/-- The roles that there are in the query for a type. -/
inductive ResourceType.HasRole (t : ResourceType) : Role → Prop
  | resource : HasRole t .resource
  | resourceType : HasRole t .resourceType
  | value {a : Attribute} (h : a ∈ t.attributes) : HasRole t (.value a.id)
  | valueType {a : Attribute} (h : a ∈ t.attributes) (asks : a.AsksForTypes) :
    HasRole t (.valueType a.id)

/-- Each role in the query for a type has a variable of its own. -/
def ResourceType.RolesApart (t : ResourceType) (settings : Settings) : Prop :=
  ∀ r s, t.HasRole r → t.HasRole s → r.var settings = s.var settings → r = s

/-- No types of an attribute's values are named like the resource or like an attribute's values. -/
def ResourceType.TypesApart (t : ResourceType) (settings : Settings) : Prop :=
  ∀ a ∈ t.attributes, a.AsksForTypes →
    a.id.name ++ settings.typeSuffix ≠ settings.resourceName ∧
      ∀ b ∈ t.attributes, a.id.name ++ settings.typeSuffix ≠ b.id.name

section
variable {t : ResourceType} {settings : Settings}

theorem suffix_ne_empty_of_rolesApart (apart : t.RolesApart settings) :
    settings.typeSuffix ≠ "" := by
  intro empty
  have same : Role.resource.var settings = Role.resourceType.var settings := by
    simp [Role.var, empty]
  have equal := apart _ _ .resource .resourceType same
  cases equal

theorem typesApart_of_rolesApart (apart : t.RolesApart settings) : t.TypesApart settings := by
  intro a ha asks
  constructor
  · intro same
    have equal := apart _ _ (.valueType ha asks) .resource (congrArg Variable.mk same)
    cases equal
  · intro b hb same
    have equal := apart _ _ (.valueType ha asks) (.value hb) (congrArg Variable.mk same)
    cases equal

/-- No attribute's values are named like the resource or its types. -/
def ResourceType.ValuesApart (t : ResourceType) (settings : Settings) : Prop :=
  ∀ a ∈ t.attributes, a.id.name ≠ settings.resourceName ∧
    a.id.name ≠ settings.resourceName ++ settings.typeSuffix

/-- Names that get the same suffix stay different, and a name that gets one is not what it was. -/
theorem rolesApart_of_typesApart (values : t.ValuesApart settings)
    (suffix : settings.typeSuffix ≠ "") (types : t.TypesApart settings) :
    t.RolesApart settings := by
  have longer (name : String) : name ++ settings.typeSuffix ≠ name := by simpa using suffix
  have cancel {x y : String} (h : x ++ settings.typeSuffix = y ++ settings.typeSuffix) : x = y := by
    simpa using h
  intro r s hr hs same
  have names := congrArg Variable.name same
  cases hr with
  | resource => cases hs with
    | resource => rfl
    | resourceType => exact absurd names.symm (longer _)
    | value hb => exact absurd names.symm (values _ hb).1
    | valueType hb asks => exact absurd names.symm (types _ hb asks).1
  | resourceType => cases hs with
    | resource => exact absurd names (longer _)
    | resourceType => rfl
    | value hb => exact absurd names.symm (values _ hb).2
    | @valueType b hb asks => exact absurd (cancel names).symm (values b hb).1
  | @value a ha => cases hs with
    | resource => exact absurd names (values a ha).1
    | resourceType => exact absurd names (values a ha).2
    | value hb => exact congrArg Role.value (AttributeId.ext names)
    | valueType hb asks => exact absurd names.symm ((types _ hb asks).2 a ha)
  | @valueType a ha asks => cases hs with
    | resource => exact absurd names (types a ha asks).1
    | resourceType => exact absurd (cancel names) (values a ha).1
    | value hb => exact absurd names ((types a ha asks).2 _ hb)
    | valueType hb _ => exact congrArg Role.valueType (AttributeId.ext (cancel names))

theorem rolesApart_iff (values : t.ValuesApart settings) :
    t.RolesApart settings ↔ settings.typeSuffix ≠ "" ∧ t.TypesApart settings :=
  ⟨fun apart => ⟨suffix_ne_empty_of_rolesApart apart, typesApart_of_rolesApart apart⟩,
    fun ⟨suffix, types⟩ => rolesApart_of_typesApart values suffix types⟩

end

section
variable {p : Profile} {settings : Settings} {t : ResourceType} {restriction : Option Iri}
  {q : ResourceQuery}

theorem valuesApart_of_query (h : p.query settings t restriction = .ok q) :
    t.ValuesApart settings := by
  obtain ⟨_, _, _, _, _, hblocks, rfl⟩ := Profile.parts_of_query h
  intro a ha
  obtain ⟨_, _, ok⟩ := exists_mem_of_mapM hblocks ha
  obtain ⟨resource, resourceType, _⟩ := Attribute.block_eq_ok_iff.mp ok
  exact ⟨fun e => resource (Variable.ext e), fun e => resourceType (Variable.ext e)⟩

/-- The variables of an attribute's block are the resource's and those of the attribute's roles. -/
theorem mem_vars_block (arranged : Hierarchy.Arranged p.hierarchy) {a : Attribute}
    {resource resourceType : Variable} {b : AttributeBlock}
    (h : a.block p settings resource resourceType = .ok b) {w : Variable} :
    w ∈ b.vars ↔ w = resource ∨ w = (Role.value a.id).var settings ∨
      w = (Role.valueType a.id).var settings ∧ a.AsksForTypes := by
  obtain ⟨_, _, as, has, rfl⟩ := Attribute.block_eq_ok_iff.mp h
  have edge : w ∈ TriplePattern.mentions ⟨resource, .predicate a.predicate, .var a.valueVariable⟩ ↔
      w = resource ∨ w = a.valueVariable := by
    simp [TriplePattern.mentions]
  have value : (Role.value a.id).var settings = a.valueVariable := rfl
  rw [AttributeBlock.mem_vars_iff, edge, value, or_assoc]
  by_cases own : w = a.valueVariable
  · simp [own]
  · rw [mem_vars_alternatives arranged has own]
    rfl

/-- A query has a variable for each of its roles, and no other. -/
theorem mem_vars_query (arranged : Hierarchy.Arranged p.hierarchy)
    (h : p.query settings t restriction = .ok q) {w : Variable} :
    w ∈ q.vars ↔ ∃ role, t.HasRole role ∧ role.var settings = w := by
  obtain ⟨membership, blocks, _, _, hmembership, hblocks, rfl⟩ := Profile.parts_of_query h
  rw [ResourceQuery.mem_vars_iff (vars_of_membership arranged hmembership)]
  constructor
  · rintro (rfl | rfl | ⟨b, hb, hw⟩)
    · exact ⟨.resource, .resource, rfl⟩
    · exact ⟨.resourceType, .resourceType, rfl⟩
    · obtain ⟨a, ha, ok⟩ := exists_of_mapM hblocks hb
      rcases (mem_vars_block arranged ok).mp hw with rfl | rfl | ⟨rfl, asks⟩
      · exact ⟨.resource, .resource, rfl⟩
      · exact ⟨.value a.id, .value ha, rfl⟩
      · exact ⟨.valueType a.id, .valueType ha asks, rfl⟩
  · rintro ⟨role, has, rfl⟩
    cases has with
    | resource => exact .inl rfl
    | resourceType => exact .inr (.inl rfl)
    | value ha =>
      obtain ⟨b, hb, ok⟩ := exists_mem_of_mapM hblocks ha
      exact .inr (.inr ⟨b, hb, (mem_vars_block arranged ok).mpr (.inr (.inl rfl))⟩)
    | valueType ha asks =>
      obtain ⟨b, hb, ok⟩ := exists_mem_of_mapM hblocks ha
      exact .inr (.inr ⟨b, hb, (mem_vars_block arranged ok).mpr (.inr (.inr ⟨rfl, asks⟩))⟩)

/-- What else can be wrong with a query does not hide that a variable is taken. -/
theorem exists_collision (name : Variable.isName settings.resourceName = true)
    (nameType : Variable.isName (settings.resourceName ++ settings.typeSuffix) = true)
    (membership : ∃ pattern, t.membership p ⟨settings.resourceName⟩ = .ok pattern)
    (alternatives : ∀ a ∈ t.attributes, ∃ as, a.alternatives p settings = .ok as)
    (taken : ¬t.ValuesApart settings) :
    ∃ a ∈ t.attributes,
      (a.id.name = settings.resourceName ∨
        a.id.name = settings.resourceName ++ settings.typeSuffix) ∧
      p.query settings t restriction = .error (.variableCollision a.id a.valueVariable) := by
  obtain ⟨pattern, hpattern⟩ := membership
  have resource : settings.resource = .ok ⟨settings.resourceName⟩ :=
    namedVariable_eq_ok_iff.mpr ⟨name, rfl⟩
  have resourceType : settings.typeVariable ⟨settings.resourceName⟩ =
      .ok ⟨settings.resourceName ++ settings.typeSuffix⟩ :=
    namedVariable_eq_ok_iff.mpr ⟨nameType, rfl⟩
  cases h : p.query settings t restriction with
  | ok q => exact absurd (valuesApart_of_query h) taken
  | error e =>
    have blocks : t.attributes.mapM (Attribute.block p settings ⟨settings.resourceName⟩
        ⟨settings.resourceName ++ settings.typeSuffix⟩) = .error e := by
      simpa [Profile.query, resource, resourceType, hpattern, bind_eq_error_iff] using h
    obtain ⟨a, ha, failed⟩ := exists_of_mapM_error blocks
    rcases Attribute.of_block_eq_error failed with ⟨same, rfl⟩ | failed
    · have names := same.imp (congrArg Variable.name) (congrArg Variable.name)
      exact ⟨a, ha, names, rfl⟩
    · obtain ⟨as, has⟩ := alternatives a ha
      rw [has] at failed
      cases failed

end

/-- A query has the variables of its roles. They are different exactly if the suffix is not empty
and no variable for types is named like the resource or an attribute's values. Only that an
attribute's values are named like the resource or its types is refused. -/
theorem query_roles_apart_iff {order : List ResourceType → List ResourceType}
    {base : Option String} {ds : List TypeDeclaration} {p : Profile} {settings : Settings}
    {t : ResourceType} {restriction : Option Iri} (reorders : ∀ ts, (order ts).Perm ts)
    (built : Profile.buildIn order base ds = .ok p) (ht : t ∈ p.hierarchy) :
    (∀ q, p.query settings t restriction = .ok q →
      (p.isWellFormed = true → (∀ iri ∈ restriction, isIriRef iri = true) →
        readQuery q.text = some q.reading) ∧
      (∀ v, v ∈ q.vars ↔ ∃ role, t.HasRole role ∧ role.var settings = v) ∧
      (t.RolesApart settings ↔ settings.typeSuffix ≠ "" ∧ t.TypesApart settings)) ∧
    (Variable.isName settings.resourceName = true →
      Variable.isName (settings.resourceName ++ settings.typeSuffix) = true →
      (∃ pattern, t.membership p ⟨settings.resourceName⟩ = .ok pattern) →
      (∀ a ∈ t.attributes, ∃ as, a.alternatives p settings = .ok as) →
      ¬t.ValuesApart settings →
      ∃ a ∈ t.attributes,
        (a.id.name = settings.resourceName ∨
          a.id.name = settings.resourceName ++ settings.typeSuffix) ∧
        p.query settings t restriction = .error (.variableCollision a.id a.valueVariable)) := by
  refine ⟨fun q h => ⟨?_, ?_, ?_⟩, exists_collision⟩
  · intro wellFormed only
    have readable := Profile.readable_of_query reorders built wellFormed ht only h
    exact ResourceQuery.readQuery_text readable
  · intro v
    exact mem_vars_query (Profile.arranged_of_buildIn built) h
  · exact rolesApart_iff (valuesApart_of_query h)

/-- Works have genres, and kinds of genres of their own. -/
def workDeclarations : List TypeDeclaration :=
  [⟨⟨"Work"⟩, [.hasType ⟨"http://w.example/Work"⟩],
    [⟨⟨"genre"⟩, "http://w.example/genre", [.range (.instanceOf ⟨"Genre"⟩)]⟩,
     ⟨⟨"genreType"⟩, "http://w.example/genreType",
       [.range (.inScheme ⟨"http://w.example/kinds"⟩)]⟩]⟩,
   ⟨⟨"Genre"⟩, [.hasType ⟨"http://w.example/Genre"⟩], []⟩]

def genreAttribute : Attribute :=
  ⟨⟨"genre"⟩, ⟨"Work"⟩, ⟨"http://w.example/genre"⟩, [.range (.instanceOf ⟨"Genre"⟩)]⟩

def genreKindAttribute : Attribute :=
  ⟨⟨"genreType"⟩, ⟨"Work"⟩, ⟨"http://w.example/genreType"⟩,
    [.range (.inScheme ⟨"http://w.example/kinds"⟩)]⟩

def workType : ResourceType :=
  ⟨⟨"Work"⟩, [.hasType ⟨"http://w.example/Work"⟩], [genreAttribute, genreKindAttribute]⟩

def works : Profile := ⟨[⟨⟨"Genre"⟩, [.hasType ⟨"http://w.example/Genre"⟩], []⟩, workType]⟩

theorem build_works : Profile.build none workDeclarations = .ok works := by
  decide +kernel

/-- One variable is for the types of a work's genres and for the kinds of genres that it has. -/
theorem genre_types_are_kinds :
    ∃ q, works.query .default workType none = .ok q ∧
      readQuery q.text = some q.reading ∧ ⟨"genreType"⟩ ∈ q.vars ∧
      workType.HasRole (.valueType ⟨"genre"⟩) ∧ workType.HasRole (.value ⟨"genreType"⟩) ∧
      ¬workType.RolesApart .default := by
  obtain ⟨q, hq⟩ : ∃ q, works.query .default workType none = .ok q := ⟨_, rfl⟩
  have member : workType ∈ works.hierarchy := by simp [works]
  obtain ⟨read, roles, apart⟩ := (query_roles_apart_iff List.Perm.refl build_works member).1 q hq
  have asks : genreAttribute.AsksForTypes := by
    simp [Attribute.AsksForTypes, Rule.AsksForTypes, genreAttribute, Rule.subrules]
  have valueType : workType.HasRole (.valueType ⟨"genre"⟩) :=
    .valueType (a := genreAttribute) (by simp [workType]) asks
  have value : workType.HasRole (.value ⟨"genreType"⟩) :=
    .value (a := genreKindAttribute) (by simp [workType])
  refine ⟨q, hq, read (by decide) (by simp), (roles _).mpr ⟨_, value, rfl⟩, valueType, value, ?_⟩
  intro different
  have types := (apart.mp different).2 genreAttribute (by simp [workType]) asks
  exact types.2 genreKindAttribute (by simp [workType]) (by decide)

end GraphAccess
