import GraphAccess.Profile.Hierarchy
import Mathlib.Data.List.Nodup
import Mathlib.Logic.Relation

namespace GraphAccess

namespace Rule

/-- The first rule stands in the second one, at whatever depth. -/
inductive Within : Rule → Rule → Prop
  | self (rule : Rule) : Within rule rule
  | child {sub child rule : Rule} (h : child ∈ rule.children) (below : Within sub child) :
    Within sub rule

theorem mem_subrules_iff {sub rule : Rule} : sub ∈ rule.subrules ↔ sub.Within rule := by
  constructor
  · intro h
    induction rule using inductionOnChildren with
    | step rule ih =>
      rw [subrules_eq] at h
      rcases List.mem_cons.mp h with rfl | h
      · exact .self sub
      · obtain ⟨child, hc, hs⟩ := List.mem_flatMap.mp h
        exact .child hc (ih child hc hs)
  · intro h
    induction h with
    | self =>
      rw [subrules_eq]
      exact List.mem_cons_self
    | child hc _ ih => exact mem_subrules_of_mem_children hc ih

/-- Some rule of a list demands a superclass, at whatever depth. -/
def DemandSuperclass (rules : List Rule) (super : TypeId) : Prop :=
  ∃ rule ∈ rules, ∃ ids, (subclassOf ids).Within rule ∧ super ∈ ids

theorem mem_superclasses_iff {rule : Rule} {super : TypeId} :
    super ∈ rule.superclasses ↔ ∃ ids, (subclassOf ids).Within rule ∧ super ∈ ids := by
  simp only [superclasses, List.mem_flatMap, mem_subrules_iff]
  constructor
  · rintro ⟨sub, within, named⟩
    cases sub with
    | subclassOf ids => exact ⟨ids, within, named⟩
    | _ => cases named
  · rintro ⟨ids, within, named⟩
    exact ⟨subclassOf ids, within, named⟩

end Rule

theorem ResourceType.mem_superclasses_iff {t : ResourceType} {super : TypeId} :
    super ∈ t.superclasses ↔ Rule.DemandSuperclass t.rules super := by
  simp only [superclasses, List.mem_flatMap, Rule.mem_superclasses_iff, Rule.DemandSuperclass]

namespace Hierarchy

/-- Types by their ids and their own rules. -/
def outline (ts : List ResourceType) : List (TypeId × List Rule) :=
  ts.map fun t => (t.id, t.rules)

/-- The first type demands the second one as a superclass; both are among the types. -/
def Below (types : List (TypeId × List Rule)) (id super : TypeId) : Prop :=
  (∃ rules, (id, rules) ∈ types ∧ Rule.DemandSuperclass rules super) ∧
    super ∈ types.map Prod.fst

/-- One or more steps from types to superclasses lead from the type back to it. -/
def OnCycle (types : List (TypeId × List Rule)) (id : TypeId) : Prop :=
  Relation.TransGen (Below types) id id

theorem mem_map_outline {ts : List ResourceType} {id : TypeId} :
    id ∈ (outline ts).map Prod.fst ↔ ∃ t ∈ ts, t.id = id := by
  simp [outline]

theorem below_outline_iff {ts : List ResourceType} {id super : TypeId} :
    Below (outline ts) id super ↔
      (∃ t ∈ ts, t.id = id ∧ super ∈ t.superclasses) ∧ ∃ u ∈ ts, u.id = super := by
  rw [Below, mem_map_outline]
  refine and_congr_left' ⟨?_, ?_⟩
  · rintro ⟨rules, member, demand⟩
    obtain ⟨t, ht, same⟩ := List.mem_map.mp member
    cases same
    exact ⟨t, ht, rfl, ResourceType.mem_superclasses_iff.mpr demand⟩
  · rintro ⟨t, ht, rfl, super⟩
    exact ⟨t.rules, List.mem_map.mpr ⟨t, ht, rfl⟩, ResourceType.mem_superclasses_iff.mp super⟩

theorem below_of_perm {types others : List (TypeId × List Rule)} (perm : types.Perm others)
    {id super : TypeId} : Below types id super ↔ Below others id super := by
  simp only [Below, perm.mem_iff, (perm.map Prod.fst).mem_iff]

theorem onCycle_of_perm {types others : List (TypeId × List Rule)} (perm : types.Perm others)
    {id : TypeId} : OnCycle types id ↔ OnCycle others id := by
  have same : Below types = Below others := by
    funext id super
    exact propext (below_of_perm perm)
  rw [OnCycle, same, OnCycle]

/-- If every type in progress is below the one to visit, the type that a visit fails with is below
itself. The induction is on the visits; the superclasses of the type that has been reached are below
it and below all that it is below of. -/
theorem onCycle_of_visit {ts before : List ResourceType} {inProgress : List TypeId} {id : TypeId}
    {t : ResourceType} (failed : visit ts inProgress before id = .error t)
    (below : ∀ p ∈ inProgress, (∃ u ∈ ts, u.id = id) →
      Relation.TransGen (Below (outline ts)) p id) : OnCycle (outline ts) t.id := by
  fun_induction visit ts inProgress before id with
  | case1 => cases failed
  | case2 => cases failed
  | case3 inProgress before id u found _ met =>
    cases failed
    have hid := id_of_find? found
    have cycle := below id met ⟨t, mem_of_find? found, hid⟩
    exact hid ▸ cycle
  | case4 inProgress before id u found _ _ ih =>
    rcases bind_eq_error_iff.mp failed with failed | ⟨_, _, failed⟩
    · obtain ⟨super, demanded, c, failed⟩ := exists_of_foldlM_error failed
      have hu : ∃ w ∈ ts, w.id = id ∧ super ∈ w.superclasses :=
        ⟨u, mem_of_find? found, id_of_find? found, demanded⟩
      apply ih c super failed
      intro p hp known
      have step : Below (outline ts) id super := below_outline_iff.mpr ⟨hu, known⟩
      rcases List.mem_cons.mp hp with rfl | hp
      · exact .single step
      · exact .tail (below p hp ⟨u, mem_of_find? found, id_of_find? found⟩) step
    · cases failed

theorem onCycle_of_arrange {ts : List ResourceType} {t : ResourceType}
    (failed : arrange ts = .error t) : OnCycle (outline ts) t.id := by
  obtain ⟨id, _, before, failed⟩ := exists_of_foldlM_error failed
  exact onCycle_of_visit failed (by simp)

/-- How many types there are from the first one of an id on. -/
def depth : List ResourceType → TypeId → Nat
  | [], _ => 0
  | t :: ts, id => if t.id = id then ts.length + 1 else depth ts id

theorem depth_le_length (ts : List ResourceType) (id : TypeId) : depth ts id ≤ ts.length := by
  induction ts with
  | nil => exact Nat.le_refl 0
  | cons t ts ih =>
    rw [depth, List.length_cons]
    split
    · exact Nat.le_refl _
    · omega

theorem depth_append_of_forall_ne {ts : List ResourceType} (us : List ResourceType) {id : TypeId}
    (h : ∀ t ∈ ts, t.id ≠ id) : depth (ts ++ us) id = depth us id := by
  induction ts with
  | nil => rfl
  | cons t ts ih =>
    rw [List.cons_append, depth, if_neg (h t (by simp))]
    exact ih fun u hu => h u (by simp [hu])

/-- Superclasses lie deeper than the type that names them. -/
theorem depth_superclass_lt {ts : List ResourceType} (arranged : Arranged ts) {id : TypeId}
    {t : ResourceType} (found : find? ts id = some t) {super : TypeId}
    (h : super ∈ t.superclasses) : depth ts super < depth ts id := by
  obtain ⟨hid, before, after, rfl, hbefore⟩ := List.find?_eq_some_iff_append.mp found
  have hid : t.id = id := by simpa using hid
  have hbefore : ∀ u ∈ before, u.id ≠ id := by simpa using hbefore
  obtain ⟨self, ordered⟩ := arranged
  have skip : ∀ u ∈ before ++ [t], u.id ≠ super := by
    intro u hu e
    rcases List.mem_append.mp hu with hu | hu
    · exact (List.pairwise_append.mp ordered).2.2 u hu t (by simp) (e ▸ h)
    · rw [List.mem_singleton.mp hu] at e
      exact self t (by simp) (e ▸ h)
  have here : depth (before ++ t :: after) id = after.length + 1 := by
    rw [depth_append_of_forall_ne _ hbefore, depth, if_pos hid]
  have there : depth (before ++ t :: after) super = depth after super := by
    rw [← depth_append_of_forall_ne after skip]
    simp
  have bound := depth_le_length after super
  omega

/-- Every step to a superclass goes deeper, so that none of them leads back. -/
theorem not_onCycle_of_arrange {ts arranged : List ResourceType}
    (distinct : (ts.map ResourceType.id).Nodup) (ok : arrange ts = .ok arranged) (id : TypeId) :
    ¬OnCycle (outline ts) id := by
  have finished := (visited_of_arrange ok).finished
  have deeper : ∀ a b, Below (outline ts) a b → depth arranged b < depth arranged a := by
    intro a b step
    obtain ⟨⟨t, ht, rfl, demanded⟩, _⟩ := below_outline_iff.mp step
    have placed : t ∈ arranged := (mem_arranged_iff distinct ok).mpr ht
    have found := find?_eq_some_of_mem finished.nodup placed
    exact depth_superclass_lt finished.arranged found demanded
  have falls : ∀ a b, Relation.TransGen (Below (outline ts)) a b →
      depth arranged b < depth arranged a := by
    intro a b path
    induction path with
    | single step => exact deeper a _ step
    | @tail c d _ step ih => exact Nat.lt_trans (deeper c d step) ih
  exact fun cycle => Nat.lt_irrefl _ (falls id id cycle)

theorem perm_of_arrange {ts arranged : List ResourceType}
    (distinct : (ts.map ResourceType.id).Nodup) (ok : arrange ts = .ok arranged) :
    arranged.Perm ts := by
  have once : arranged.Nodup := List.Nodup.of_map _ (visited_of_arrange ok).finished.nodup
  have given : ts.Nodup := List.Nodup.of_map _ distinct
  exact (List.perm_ext_iff_of_nodup once given).mpr fun _ => mem_arranged_iff distinct ok

theorem exists_arrange_iff {ts : List ResourceType} (distinct : (ts.map ResourceType.id).Nodup) :
    (∃ arranged, arrange ts = .ok arranged) ↔ ∀ id, ¬OnCycle (outline ts) id := by
  constructor
  · rintro ⟨arranged, ok⟩
    exact not_onCycle_of_arrange distinct ok
  · intro acyclic
    cases result : arrange ts with
    | ok arranged => exact ⟨arranged, rfl⟩
    | error t => exact absurd (onCycle_of_arrange result) (acyclic t.id)

/-- Whatever the order in which the types of a set are gone through, they are arranged exactly if
none of them lies on a cycle, and a type that is reported lies on one. -/
theorem arrange_ok_iff_acyclic {ts order : List ResourceType}
    (distinct : (ts.map ResourceType.id).Nodup) (perm : order.Perm ts) :
    ((∃ arranged, arrange order = .ok arranged) ↔ ∀ id, ¬OnCycle (outline ts) id) ∧
      ∀ t, arrange order = .error t → OnCycle (outline ts) t.id := by
  have outlines : (outline order).Perm (outline ts) := perm.map _
  have distinct : (order.map ResourceType.id).Nodup :=
    (perm.map ResourceType.id).nodup_iff.mpr distinct
  constructor
  · rw [exists_arrange_iff distinct]
    exact forall_congr' fun id => not_congr (onCycle_of_perm outlines)
  · intro t failed
    exact (onCycle_of_perm outlines).mp (onCycle_of_arrange failed)

/-- Chapters are parts, and a part is a whole that is a part. -/
def chapterType : ResourceType := ⟨⟨"Chapter"⟩, [.anyOf [.subclassOf [⟨"Part"⟩]]], []⟩

def partType : ResourceType := ⟨⟨"Part"⟩, [.allOf [.negated (.subclassOf [⟨"Whole"⟩])]], []⟩

def wholeType : ResourceType := ⟨⟨"Whole"⟩, [.subclassOf [⟨"Thing"⟩, ⟨"Part"⟩]], []⟩

/-- The visit that starts from chapters reports parts, as chapters only lead to the cycle. -/
theorem chapters_report_parts :
    ([wholeType, partType, chapterType].map ResourceType.id).Nodup ∧
      [chapterType, wholeType, partType].Perm [wholeType, partType, chapterType] ∧
      arrange [chapterType, wholeType, partType] = .error partType ∧
      OnCycle (outline [wholeType, partType, chapterType]) ⟨"Part"⟩ := by
  have distinct : ([wholeType, partType, chapterType].map ResourceType.id).Nodup := by decide
  have perm : [chapterType, wholeType, partType].Perm [wholeType, partType, chapterType] := by
    decide
  have reported : arrange [chapterType, wholeType, partType] = .error partType := by
    decide +kernel
  exact ⟨distinct, perm, reported, (arrange_ok_iff_acyclic distinct perm).2 partType reported⟩

/-- Two ways to one superclass make no cycle. -/
example :
    arrange
        [⟨⟨"Bottom"⟩, [.subclassOf [⟨"Left"⟩, ⟨"Right"⟩]], []⟩, ⟨⟨"Top"⟩, [], []⟩,
          ⟨⟨"Left"⟩, [.subclassOf [⟨"Top"⟩]], []⟩, ⟨⟨"Right"⟩, [.subclassOf [⟨"Top"⟩]], []⟩] =
      .ok
        [⟨⟨"Bottom"⟩, [.subclassOf [⟨"Left"⟩, ⟨"Right"⟩]], []⟩,
          ⟨⟨"Right"⟩, [.subclassOf [⟨"Top"⟩]], []⟩, ⟨⟨"Left"⟩, [.subclassOf [⟨"Top"⟩]], []⟩,
          ⟨⟨"Top"⟩, [], []⟩] := by
  decide +kernel

end Hierarchy

end GraphAccess
