import GraphAccess.Collection.Traversal

namespace GraphAccess

section
variable {α β ε : Type}

/-- The failure that an answer is, if it is one. -/
def failure? : Except ε α → Option ε
  | .error e => some e
  | .ok _ => none

theorem failure?_eq_some_iff {x : Except ε α} {e : ε} : failure? x = some e ↔ x = .error e := by
  cases x <;> simp [failure?]

theorem failure?_eq_none_iff {x : Except ε α} : failure? x = none ↔ ∃ a, x = .ok a := by
  cases x <;> simp [failure?]

@[simp] theorem failure?_map (x : Except ε α) (f : α → β) : failure? (x.map f) = failure? x := by
  cases x <;> rfl

/-- A traversal fails as the first of its members that does. -/
theorem failure?_mapM (f : α → Except ε β) (as : List α) :
    failure? (as.mapM f) = as.findSome? fun a => failure? (f a) := by
  induction as with
  | nil => rfl
  | cons a as ih =>
    rw [List.mapM_cons, List.findSome?_cons, ← ih]
    cases f a with
    | error e => rfl
    | ok b => cases as.mapM f <;> rfl

/-- What is met, in this order, on a walk through what is still pending: what a thing leads on to
comes right after it. -/
inductive Walks (next : α → List α) : List α → List α → Prop
  | done : Walks next [] []
  | meet {a : α} {pending met : List α} (rest : Walks next (next a ++ pending) met) :
    Walks next (a :: pending) (a :: met)

namespace Walks

variable {next : α → List α} {pending met other : List α}

theorem unique (h : Walks next pending met) (h' : Walks next pending other) : other = met := by
  induction h generalizing other with
  | done =>
    cases h'
    rfl
  | meet _ ih =>
    cases h' with
    | meet rest => rw [ih rest]

theorem iff_eq (h : Walks next pending met) : Walks next pending other ↔ other = met :=
  ⟨h.unique, fun same => same ▸ h⟩

/-- The induction is on what is met first; all that it leads on to is put in front of what is
pending, the last of it at first. -/
theorem exists_cons {a : α} (finite : Acc (fun b a => b ∈ next a) a)
    (h : ∃ met, Walks next pending met) : ∃ met, Walks next (a :: pending) met := by
  induction finite generalizing pending with
  | intro a _ ih =>
    have inFront (bs : List α) (smaller : ∀ b ∈ bs, b ∈ next a) :
        ∃ met, Walks next (bs ++ pending) met := by
      induction bs with
      | nil => exact h
      | cons b bs behind =>
        obtain ⟨head, tail⟩ := List.forall_mem_cons.mp smaller
        exact ih b head (behind tail)
    obtain ⟨met, rest⟩ := inFront (next a) fun _ hb => hb
    exact ⟨a :: met, .meet rest⟩

theorem exists_of_wellFounded (finite : WellFounded fun b a => b ∈ next a) (pending : List α) :
    ∃ met, Walks next pending met := by
  induction pending with
  | nil => exact ⟨[], .done⟩
  | cons a pending ih => exact exists_cons (finite.apply a) ih

theorem subset (h : Walks next pending met) : pending ⊆ met := by
  induction h with
  | done => exact List.Subset.refl []
  | meet _ ih =>
    exact List.cons_subset_cons _ fun b hb => ih (List.mem_append_right _ hb)

/-- What holds of all that is pending, and of what is led on to from where it holds, holds of all
that is met. -/
theorem forall_met {motive : α → Prop} (step : ∀ a, motive a → ∀ b ∈ next a, motive b)
    (h : Walks next pending met) (start : ∀ a ∈ pending, motive a) : ∀ a ∈ met, motive a := by
  induction h with
  | done => exact start
  | @meet a pending met _ ih =>
    obtain ⟨first, others⟩ := List.forall_mem_cons.mp start
    refine List.forall_mem_cons.mpr ⟨first, ih fun b hb => ?_⟩
    exact (List.mem_append.mp hb).elim (step a first b) (others b)

/-- Meeting one thing after the other leaves the first failure of what is pending as it is, until
it is met as an offence. -/
theorem findSome?_offence {offence fails : α → Option ε}
    (step : ∀ a, fails a = (offence a).or ((next a).findSome? fails))
    (h : Walks next pending met) : met.findSome? offence = pending.findSome? fails := by
  induction h with
  | done => rfl
  | @meet a pending met _ ih =>
    rw [List.findSome?_cons, List.findSome?_cons, step a, ih, List.findSome?_append]
    cases offence a with
    | some e => rfl
    | none => cases (next a).findSome? fails <;> rfl

end Walks

end

end GraphAccess
