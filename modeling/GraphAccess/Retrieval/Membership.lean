import GraphAccess.Collection.Traversal
import GraphAccess.Retrieval.Settings
import GraphAccess.Sparql.Pattern

namespace GraphAccess

namespace Rule

mutual

/-- The pattern that what a variable is bound to keeps a rule, given the patterns for
superclasses. -/
def membership (v : Variable) (inherited : TypeId → Except CompileError Pattern) :
    Rule → Except CompileError Pattern
  | hasType type => .ok (.triple ⟨v, .isA, .iri type⟩)
  | isResource resource => .ok (.equals v resource)
  | inScheme scheme => .ok (.triple ⟨v, .predicate Vocabulary.skosInScheme, .iri scheme⟩)
  | allOf rules =>
    (membershipOfAll v inherited rules).map fun parts => .group (.sequence .dot parts)
  | subclassOf types => (types.mapM inherited).map (.sequence .dot)
  | rule => .error (.unsupportedRule .membership rule.kind)

def membershipOfAll (v : Variable) (inherited : TypeId → Except CompileError Pattern) :
    List Rule → Except CompileError (List Pattern)
  | [] => .ok []
  | rule :: rules => do
    let part ← membership v inherited rule
    let parts ← membershipOfAll v inherited rules
    .ok (part :: parts)

end

theorem membershipOfAll_eq_mapM (v : Variable)
    (inherited : TypeId → Except CompileError Pattern) (rules : List Rule) :
    membershipOfAll v inherited rules = rules.mapM (membership v inherited) := by
  induction rules with
  | nil => rfl
  | cons rule rules ih => rw [membershipOfAll, ih, List.mapM_cons]; rfl

end Rule

/-- The pattern of what a subclass keeps of a type's rules. Only the types after the first one of
that id can be superclasses of it. -/
def inheritedMembership (v : Variable) :
    List ResourceType → TypeId → Except CompileError Pattern
  | [], id => .error (.unknownType id)
  | t :: ts, id =>
    if t.id = id then
      (Rule.membershipOfAll v (inheritedMembership v ts) t.inheritedRules).map fun parts =>
        .group (.sequence .dot parts)
    else inheritedMembership v ts id

mutual

theorem Rule.membership_congr (v : Variable) {f g : TypeId → Except CompileError Pattern}
    (rule : Rule) (h : ∀ id ∈ rule.superclasses, f id = g id) :
    rule.membership v f = rule.membership v g := by
  cases rule with
  | allOf rules =>
    rw [membership, membership, membershipOfAll_congr v rules]
    intro id hid
    apply h
    rw [superclasses, subrules, List.flatMap_cons, subrulesOfAll_eq, List.flatMap_assoc]
    exact List.mem_append_right _ hid
  | subclassOf types =>
    rw [membership, membership]
    rw [mapM_congr_of_mem fun id hid => h id ?_]
    simpa [superclasses, subrules, namedSuperclasses] using hid
  | _ => rfl

theorem Rule.membershipOfAll_congr (v : Variable) {f g : TypeId → Except CompileError Pattern}
    (rules : List Rule) (h : ∀ id ∈ rules.flatMap superclasses, f id = g id) :
    membershipOfAll v f rules = membershipOfAll v g rules := by
  cases rules with
  | nil => rfl
  | cons rule rules =>
    simp only [List.flatMap_cons, List.mem_append] at h
    rw [membershipOfAll, membershipOfAll, membership_congr v rule fun id hid => h id (.inl hid),
      membershipOfAll_congr v rules fun id hid => h id (.inr hid)]

end

theorem inheritedMembership_append (v : Variable) {ts : List ResourceType}
    (us : List ResourceType) {id : TypeId}
    (h : ∀ t ∈ ts, t.id ≠ id) :
    inheritedMembership v (ts ++ us) id = inheritedMembership v us id := by
  induction ts with
  | nil => rfl
  | cons t ts ih =>
    rw [List.cons_append, inheritedMembership, if_neg (h t (List.mem_cons_self ..))]
    exact ih fun u hu => h u (List.mem_cons_of_mem _ hu)

theorem superclasses_of_inheritedRules {t : ResourceType} {id : TypeId}
    (h : id ∈ t.inheritedRules.flatMap Rule.superclasses) : id ∈ t.superclasses := by
  obtain ⟨rule, hrule, hid⟩ := List.mem_flatMap.mp h
  exact List.mem_flatMap.mpr ⟨rule, (ResourceType.mem_inheritedRules.mp hrule).1, hid⟩

/-- Superclasses are looked up among all types, at whatever depth. -/
theorem inheritedMembership_eq (v : Variable) {ts : List ResourceType}
    (arranged : Hierarchy.Arranged ts) (id : TypeId) :
    inheritedMembership v ts id =
      match Hierarchy.find? ts id with
      | none => .error (.unknownType id)
      | some t =>
        (Rule.membershipOfAll v (inheritedMembership v ts) t.inheritedRules).map fun parts =>
          .group (.sequence .dot parts) := by
  cases hf : Hierarchy.find? ts id with
  | none =>
    have skip := inheritedMembership_append v [] (Hierarchy.find?_eq_none_iff.mp hf)
    rwa [List.append_nil] at skip
  | some t =>
    obtain ⟨hid, before, after, rfl, hbefore⟩ := List.find?_eq_some_iff_append.mp hf
    have hid : t.id = id := by simpa using hid
    have hbefore : ∀ u ∈ before, u.id ≠ id := by simpa using hbefore
    rw [inheritedMembership_append v _ hbefore, inheritedMembership, if_pos hid]
    dsimp only
    congr 1
    refine Rule.membershipOfAll_congr v _ fun super hsuper => ?_
    have hsuper := superclasses_of_inheritedRules hsuper
    obtain ⟨self, ordered⟩ := arranged
    have skip : ∀ u ∈ before ++ [t], u.id ≠ super := by
      intro u hu e
      rcases List.mem_append.mp hu with hu | hu
      · exact (List.pairwise_append.mp ordered).2.2 u hu t (List.mem_cons_self ..) (e ▸ hsuper)
      · rw [List.mem_singleton.mp hu] at e
        exact self t (List.mem_append_right _ (List.mem_cons_self ..)) (e ▸ hsuper)
    rw [← inheritedMembership_append v after skip]
    simp

/-- The pattern that what a variable is bound to keeps all rules of a type. -/
def ResourceType.membership (registry : Profile) (v : Variable) (t : ResourceType) :
    Except CompileError Pattern :=
  (Rule.membershipOfAll v (inheritedMembership v registry.hierarchy) t.rules).map
    (.sequence .dot)

/-- A pattern for the resources of a type, and the variable that it binds to them. -/
structure Selection where
  bound : Variable
  type : TypeId
  pattern : Pattern
  deriving Repr

/-- Selects the resources of a type. -/
def Profile.selection (registry : Profile) (settings : Settings) (t : ResourceType) :
    Except CompileError Selection := do
  let v ← settings.resource
  let pattern ← t.membership registry v
  .ok ⟨v, t.id, pattern⟩

/-- The type that the values of an attribute belong to if they are embedded. -/
def Profile.embeddedType? (registry : Profile) (a : Attribute) : Option ResourceType :=
  match a.range? with
  | some (.embeds id) => registry.find? id
  | _ => none

/-- Selects the embedded values of an attribute. -/
def Profile.embeddedSelection (registry : Profile) (a : Attribute) :
    Except CompileError Selection :=
  match registry.embeddedType? a with
  | none => .error (.notEmbedded a.id)
  | some t => (t.membership registry a.valueVariable).map (⟨a.valueVariable, t.id, ·⟩)

end GraphAccess
