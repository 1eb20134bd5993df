import GraphAccess.Proofs.Profile.Built
import GraphAccess.Proofs.Profile.Cycle
import GraphAccess.Retrieval.Membership
import Mathlib.Data.List.Forall2

namespace GraphAccess

/-- What a traversal answers is related to what it has been through. -/
theorem forall₂_of_mapM {α β ε : Type} {f : α → Except ε β} {R : α → β → Prop} {as : List α}
    {bs : List β} (h : as.mapM f = .ok bs) (related : ∀ a ∈ as, ∀ b, f a = .ok b → R a b) :
    List.Forall₂ R as bs := by
  induction as generalizing bs with
  | nil =>
    cases h
    exact .nil
  | cons a as ih =>
    obtain ⟨b, bs, head, tail, rfl⟩ := mapM_cons_eq_ok_iff.mp h
    exact .cons (related a (by simp) b head)
      (ih tail fun c hc => related c (List.mem_cons_of_mem a hc))

theorem exists_mem_of_forall₂ {α β : Type} {R : α → β → Prop} {as : List α} {bs : List β}
    (h : List.Forall₂ R as bs) {b : β} (hb : b ∈ bs) : ∃ a ∈ as, R a b := by
  induction h with
  | nil => cases hb
  | @cons a _ as _ related _ ih =>
    rcases List.mem_cons.mp hb with rfl | hb
    · exact ⟨a, by simp, related⟩
    · obtain ⟨c, hc, related⟩ := ih hb
      exact ⟨c, List.mem_cons_of_mem a hc, related⟩

theorem exists_mem_right_of_forall₂ {α β : Type} {R : α → β → Prop} {as : List α} {bs : List β}
    (h : List.Forall₂ R as bs) {a : α} (ha : a ∈ as) : ∃ b ∈ bs, R a b :=
  exists_mem_of_forall₂ h.flip ha

/-- Compiling the second rule goes on to the first. -/
inductive Descends (registry : Profile) : Rule → Rule → Prop
  | part {rule : Rule} {rules : List Rule} (h : rule ∈ rules) :
    Descends registry rule (.allOf rules)
  | inherited {rule : Rule} {ids : List TypeId} {id : TypeId} {t : ResourceType} (h : id ∈ ids)
    (found : registry.find? id = some t) (hands : rule ∈ t.inheritedRules) :
    Descends registry rule (.subclassOf ids)

namespace Descends

variable {registry : Profile}

theorem superclasses_inherited {ids : List TypeId} :
    (Rule.subclassOf ids).superclasses = ids := by
  simp [Rule.superclasses, Rule.subrules, Rule.namedSuperclasses]

theorem superclasses_part {rules : List Rule} {rule : Rule} (h : rule ∈ rules) {id : TypeId}
    (hid : id ∈ rule.superclasses) : id ∈ (Rule.allOf rules).superclasses := by
  rw [Rule.superclasses, Rule.subrules, List.flatMap_cons, Rule.subrulesOfAll_eq,
    List.flatMap_assoc]
  exact List.mem_append_right _ (List.mem_flatMap.mpr ⟨rule, h, hid⟩)

/-- A rule whose superclasses lie less deep than `n` is compiled in finitely many steps. What is
handed down to it has superclasses that lie deeper still; the parts of a conjunction have no other
superclasses than it has, but are smaller. -/
theorem acc_of_depth_lt (arranged : Hierarchy.Arranged registry.hierarchy) (n : Nat) :
    ∀ rule : Rule, (∀ id ∈ rule.superclasses, Hierarchy.depth registry.hierarchy id < n) →
      Acc (Descends registry) rule := by
  induction n using Nat.strongRecOn with
  | ind n deeper =>
    intro rule
    induction rule using Rule.inductionOnChildren with
    | step rule smaller =>
      intro h
      constructor
      intro sub hsub
      cases hsub with
      | part hmem =>
        apply smaller sub hmem
        intro id hid
        exact h id (superclasses_part hmem hid)
      | inherited hmem found hands =>
        have hid := h _ (by rw [superclasses_inherited]; exact hmem)
        apply deeper _ hid
        intro super hsuper
        have named :=
          superclasses_of_inheritedRules (List.mem_flatMap.mpr ⟨sub, hands, hsuper⟩)
        exact Hierarchy.depth_superclass_lt arranged found named

/-- Compiling a rule of whatever type goes on to others finitely often. -/
theorem wellFounded (arranged : Hierarchy.Arranged registry.hierarchy) :
    WellFounded (Descends registry) := by
  constructor
  intro rule
  apply acc_of_depth_lt arranged (registry.hierarchy.length + 1)
  intro id _
  exact Nat.lt_succ_of_le (Hierarchy.depth_le_length _ id)

end Descends

/-- The pattern of a rule whose superclasses are looked up in a profile. -/
def Profile.ruleMembership (registry : Profile) (v : Variable) :
    Rule → Except CompileError Pattern :=
  Rule.membership v (inheritedMembership v registry.hierarchy)

namespace Profile

variable {registry : Profile} {v : Variable}

theorem ruleMembership_allOf (rules : List Rule) :
    registry.ruleMembership v (.allOf rules) =
      (rules.mapM (registry.ruleMembership v)).map fun parts => .group (.sequence .dot parts) := by
  rw [ruleMembership, Rule.membership, Rule.membershipOfAll_eq_mapM]

theorem ruleMembership_subclassOf (ids : List TypeId) :
    registry.ruleMembership v (.subclassOf ids) =
      (ids.mapM (inheritedMembership v registry.hierarchy)).map (.sequence .dot) := rfl

theorem inheritedMembership_of_unknown (arranged : Hierarchy.Arranged registry.hierarchy)
    {id : TypeId} (unknown : registry.find? id = none) :
    inheritedMembership v registry.hierarchy id = .error (.unknownType id) := by
  have lookup := inheritedMembership_eq v arranged id
  rw [show Hierarchy.find? registry.hierarchy id = none from unknown] at lookup
  exact lookup

theorem inheritedMembership_of_found (arranged : Hierarchy.Arranged registry.hierarchy)
    {id : TypeId} {t : ResourceType} (found : registry.find? id = some t) :
    inheritedMembership v registry.hierarchy id =
      (t.inheritedRules.mapM (registry.ruleMembership v)).map fun parts =>
        .group (.sequence .dot parts) := by
  have lookup := inheritedMembership_eq v arranged id
  rw [show Hierarchy.find? registry.hierarchy id = some t from found] at lookup
  simp only [Rule.membershipOfAll_eq_mapM] at lookup
  exact lookup

theorem membership_eq (t : ResourceType) :
    t.membership registry v =
      (t.rules.mapM (registry.ruleMembership v)).map (.sequence .dot) := by
  rw [ResourceType.membership, Rule.membershipOfAll_eq_mapM]
  rfl

/-- What holds of the pattern of each rule if it holds of those of the rules it goes on to. -/
theorem ruleMembership_induction (arranged : Hierarchy.Arranged registry.hierarchy)
    {motive : Rule → Pattern → Prop}
    (hasType : ∀ type, motive (.hasType type) (.triple ⟨v, .isA, .iri type⟩))
    (isResource : ∀ resource, motive (.isResource resource) (.equals v resource))
    (inScheme : ∀ scheme, motive (.inScheme scheme)
      (.triple ⟨v, .predicate Vocabulary.skosInScheme, .iri scheme⟩))
    (allOf : ∀ rules parts, List.Forall₂ motive rules parts →
      motive (.allOf rules) (.group (.sequence .dot parts)))
    (subclassOf : ∀ ids groups,
      List.Forall₂ (fun id group => ∃ t parts, registry.find? id = some t ∧
        List.Forall₂ motive t.inheritedRules parts ∧ group = .group (.sequence .dot parts))
        ids groups →
      motive (.subclassOf ids) (.sequence .dot groups))
    {rule : Rule} {pattern : Pattern} (h : registry.ruleMembership v rule = .ok pattern) :
    motive rule pattern := by
  induction rule using (Descends.wellFounded arranged).induction generalizing pattern with
  | _ rule ih =>
  cases rule with
  | hasType type => cases h; exact hasType type
  | isResource resource => cases h; exact isResource resource
  | inScheme scheme => cases h; exact inScheme scheme
  | allOf rules =>
    rw [ruleMembership_allOf] at h
    obtain ⟨parts, hparts, rfl⟩ := map_eq_ok_iff.mp h
    exact allOf rules parts (forall₂_of_mapM hparts fun sub hsub _ => ih sub (.part hsub))
  | subclassOf ids =>
    rw [ruleMembership_subclassOf] at h
    obtain ⟨groups, hgroups, rfl⟩ := map_eq_ok_iff.mp h
    refine subclassOf ids groups (forall₂_of_mapM hgroups fun id hid group hgroup => ?_)
    cases found : registry.find? id with
    | none =>
      rw [inheritedMembership_of_unknown arranged found] at hgroup
      cases hgroup
    | some t =>
      rw [inheritedMembership_of_found arranged found] at hgroup
      obtain ⟨parts, hparts, rfl⟩ := map_eq_ok_iff.mp hgroup
      have inherited : List.Forall₂ motive t.inheritedRules parts :=
        forall₂_of_mapM hparts fun sub hsub _ => ih sub (.inherited hid found hsub)
      exact ⟨t, parts, rfl, inherited, rfl⟩
  | _ => cases h

/-- What holds of the patterns of rules holds of those of a type's rules. -/
theorem parts_of_membership {motive : Rule → Pattern → Prop}
    (each : ∀ {rule pattern}, registry.ruleMembership v rule = .ok pattern → motive rule pattern)
    {t : ResourceType} {pattern : Pattern} (h : t.membership registry v = .ok pattern) :
    ∃ parts, List.Forall₂ motive t.rules parts ∧ pattern = .sequence .dot parts := by
  rw [membership_eq] at h
  obtain ⟨parts, hparts, rfl⟩ := map_eq_ok_iff.mp h
  exact ⟨parts, forall₂_of_mapM hparts fun _ _ _ => each, rfl⟩

end Profile

end GraphAccess
