
namespace GraphAccess

section
variable {α κ : Type} [Ord κ]

/-- Puts a member in front of the first one whose key is not less. -/
def insertBy (key : α → κ) (a : α) : List α → List α
  | [] => [a]
  | b :: bs => if (compare (key a) (key b)).isLE then a :: b :: bs else b :: insertBy key a bs

/-- Sorts by a key; members with equal keys keep their order. -/
def sortBy (key : α → κ) : List α → List α
  | [] => []
  | a :: as => insertBy key a (sortBy key as)

theorem insertBy_perm (key : α → κ) (a : α) (bs : List α) :
    (insertBy key a bs).Perm (a :: bs) := by
  induction bs with
  | nil => exact .refl _
  | cons b bs ih =>
    rw [insertBy]
    split
    · exact .refl _
    · exact (ih.cons b).trans (.swap a b bs)

theorem sortBy_perm (key : α → κ) (as : List α) : (sortBy key as).Perm as := by
  induction as with
  | nil => exact .refl _
  | cons a as ih => exact (insertBy_perm key a _).trans (ih.cons a)

@[simp] theorem mem_sortBy {key : α → κ} {a : α} {as : List α} : a ∈ sortBy key as ↔ a ∈ as :=
  (sortBy_perm key as).mem_iff

/-- Every member's key is at most the keys of the later members. -/
def Ascending (key : α → κ) (as : List α) : Prop :=
  as.Pairwise fun a b => (compare (key a) (key b)).isLE = true

/-- Every member's key is less than the keys of the later members. -/
def StrictlyAscending (key : α → κ) (as : List α) : Prop :=
  as.Pairwise fun a b => compare (key a) (key b) = .lt

theorem ascending_insertBy [Std.TransOrd κ] {key : α → κ} (a : α) {bs : List α}
    (h : Ascending key bs) : Ascending key (insertBy key a bs) := by
  unfold Ascending at h ⊢
  induction bs with
  | nil => simp [insertBy]
  | cons b bs ih =>
    rw [List.pairwise_cons] at h
    rw [insertBy]
    split
    · next le =>
      refine List.pairwise_cons.mpr ⟨fun c hc => ?_, List.pairwise_cons.mpr h⟩
      rcases List.mem_cons.mp hc with rfl | hc
      · exact le
      · exact Std.TransCmp.isLE_trans le (h.1 c hc)
    · next gt =>
      refine List.pairwise_cons.mpr ⟨fun c hc => ?_, ih h.2⟩
      rcases List.mem_cons.mp ((insertBy_perm key a bs).mem_iff.mp hc) with rfl | hc
      · rw [Std.OrientedOrd.eq_swap]
        cases hk : compare (key c) (key b) <;> simp_all
      · exact h.1 c hc

theorem ascending_sortBy [Std.TransOrd κ] (key : α → κ) (as : List α) :
    Ascending key (sortBy key as) := by
  induction as with
  | nil => exact List.Pairwise.nil
  | cons a as ih => exact ascending_insertBy a ih

theorem strictlyAscending_of_nodup [Std.LawfulEqOrd κ] {key : α → κ} {as : List α}
    (sorted : Ascending key as) (nodup : (as.map key).Nodup) : StrictlyAscending key as := by
  unfold Ascending at sorted
  unfold List.Nodup at nodup
  rw [List.pairwise_map] at nodup
  unfold StrictlyAscending
  refine (List.pairwise_and_iff.mpr ⟨sorted, nodup⟩).imp fun {a b} h => ?_
  cases hc : compare (key a) (key b) with
  | lt => rfl
  | eq => exact absurd (Std.LawfulEqCmp.eq_of_compare hc) h.2
  | gt => rw [hc] at h; exact absurd h.1 (by decide)

/-- Members that ascend strictly can be listed in one way only. -/
theorem eq_of_strictlyAscending [Std.TransOrd κ] {key : α → κ} {as bs : List α}
    (has : StrictlyAscending key as) (hbs : StrictlyAscending key bs)
    (same : ∀ a, a ∈ as ↔ a ∈ bs) : as = bs := by
  induction as generalizing bs with
  | nil =>
    cases bs with
    | nil => rfl
    | cons b bs => exact absurd ((same b).mpr List.mem_cons_self) List.not_mem_nil
  | cons a as ih =>
    cases bs with
    | nil => exact absurd ((same a).mp List.mem_cons_self) List.not_mem_nil
    | cons b bs =>
      obtain ⟨ha, later⟩ := List.pairwise_cons.mp has
      obtain ⟨hb, others⟩ := List.pairwise_cons.mp hbs
      have heads : a = b := by
        rcases List.mem_cons.mp ((same a).mp List.mem_cons_self) with h | hab
        · exact h
        rcases List.mem_cons.mp ((same b).mpr List.mem_cons_self) with h | hba
        · exact h.symm
        have less := ha b hba
        rw [Std.OrientedCmp.gt_of_lt (hb a hab)] at less
        cases less
      subst heads
      have apart {cs : List α} (h : ∀ c ∈ cs, compare (key a) (key c) = .lt) : a ∉ cs := by
        intro hac
        have less := h a hac
        rw [Std.ReflOrd.compare_self] at less
        cases less
      have tails : as = bs := by
        refine ih later others fun c => ⟨fun hc => ?_, fun hc => ?_⟩
        · rcases List.mem_cons.mp ((same c).mp (List.mem_cons_of_mem a hc)) with rfl | h
          · exact absurd hc (apart ha)
          · exact h
        · rcases List.mem_cons.mp ((same c).mpr (List.mem_cons_of_mem a hc)) with rfl | h
          · exact absurd hc (apart hb)
          · exact h
      rw [tails]

/-- Each member takes its later occurrences along, so what is left for the others gets shorter. -/
theorem nodup_eraseDups [DecidableEq α] : ∀ as : List α, as.eraseDups.Nodup
  | [] => by simp
  | a :: as => by
    have others := nodup_eraseDups (as.filter fun b => !b == a)
    rw [List.eraseDups_cons]
    exact List.nodup_cons.mpr ⟨by simp, others⟩
termination_by as => as.length
decreasing_by simpa using Nat.lt_succ_of_le (List.length_filter_le _ as)

/-- The distinct members, ascending. -/
def sortDistinct [DecidableEq κ] (as : List κ) : List κ := sortBy id as.eraseDups

@[simp] theorem mem_sortDistinct [DecidableEq κ] {a : κ} {as : List κ} :
    a ∈ sortDistinct as ↔ a ∈ as := by
  simp [sortDistinct]

theorem strictlyAscending_sortDistinct [DecidableEq κ] [Std.TransOrd κ] [Std.LawfulEqOrd κ]
    (as : List κ) : StrictlyAscending id (sortDistinct as) := by
  refine strictlyAscending_of_nodup (ascending_sortBy id _) ?_
  rw [List.map_id]
  exact (sortBy_perm id _).nodup_iff.mpr (nodup_eraseDups as)

end

end GraphAccess
