namespace GraphAccess

section
variable {α β ε : Type}

theorem bind_eq_ok_iff {x : Except ε α} {f : α → Except ε β} {b : β} :
    (x >>= f) = .ok b ↔ ∃ a, x = .ok a ∧ f a = .ok b := by
  cases x <;> simp [bind, Except.bind]

theorem bind_eq_error_iff {x : Except ε α} {f : α → Except ε β} {e : ε} :
    (x >>= f) = .error e ↔ x = .error e ∨ ∃ a, x = .ok a ∧ f a = .error e := by
  cases x <;> simp [bind, Except.bind]

theorem map_eq_ok_iff {x : Except ε α} {f : α → β} {b : β} :
    x.map f = .ok b ↔ ∃ a, x = .ok a ∧ f a = b := by
  cases x <;> simp [Except.map]

theorem map_eq_error_iff {x : Except ε α} {f : α → β} {e : ε} :
    x.map f = .error e ↔ x = .error e := by
  cases x <;> simp [Except.map]

theorem mapM_congr_of_mem {f g : α → Except ε β} {as : List α} (h : ∀ a ∈ as, f a = g a) :
    as.mapM f = as.mapM g := by
  induction as with
  | nil => rfl
  | cons a as ih =>
    rw [List.mapM_cons, List.mapM_cons, h a (List.mem_cons_self ..),
      ih fun b hb => h b (List.mem_cons_of_mem _ hb)]

theorem mapM_cons_eq_ok_iff {f : α → Except ε β} {a : α} {as : List α} {bs : List β} :
    (a :: as).mapM f = .ok bs ↔
      ∃ c cs, f a = .ok c ∧ as.mapM f = .ok cs ∧ bs = c :: cs := by
  rw [List.mapM_cons]
  cases ha : f a with
  | error e => simp [bind, Except.bind]
  | ok c => cases as.mapM f <;> simp [bind, Except.bind, pure, Except.pure, eq_comm]

/-- All that a traversal answers comes from what it has been through. -/
theorem exists_of_mapM {f : α → Except ε β} {as : List α} {bs : List β}
    (h : as.mapM f = .ok bs) {b : β} (hb : b ∈ bs) : ∃ a ∈ as, f a = .ok b := by
  induction as generalizing bs with
  | nil =>
    cases h
    cases hb
  | cons a as ih =>
    obtain ⟨c, cs, head, tail, rfl⟩ := mapM_cons_eq_ok_iff.mp h
    rcases List.mem_cons.mp hb with rfl | hb
    · exact ⟨a, List.mem_cons_self, head⟩
    · obtain ⟨d, hd, ok⟩ := ih tail hb
      exact ⟨d, List.mem_cons_of_mem a hd, ok⟩

/-- All that a traversal has been through is answered. -/
theorem exists_mem_of_mapM {f : α → Except ε β} {as : List α} {bs : List β}
    (h : as.mapM f = .ok bs) {a : α} (ha : a ∈ as) : ∃ b ∈ bs, f a = .ok b := by
  induction as generalizing bs with
  | nil => cases ha
  | cons c as ih =>
    obtain ⟨d, ds, head, tail, rfl⟩ := mapM_cons_eq_ok_iff.mp h
    rcases List.mem_cons.mp ha with rfl | ha
    · exact ⟨d, List.mem_cons_self, head⟩
    · obtain ⟨b, hb, ok⟩ := ih tail ha
      exact ⟨b, List.mem_cons_of_mem d hb, ok⟩

theorem exists_mapM_iff {f : α → Except ε β} {as : List α} :
    (∃ bs, as.mapM f = .ok bs) ↔ ∀ a ∈ as, ∃ b, f a = .ok b := by
  constructor
  · rintro ⟨bs, h⟩ a ha
    obtain ⟨b, _, ok⟩ := exists_mem_of_mapM h ha
    exact ⟨b, ok⟩
  · intro h
    induction as with
    | nil => exact ⟨[], rfl⟩
    | cons a as ih =>
      obtain ⟨⟨b, head⟩, others⟩ := List.forall_mem_cons.mp h
      obtain ⟨bs, tail⟩ := ih others
      exact ⟨b :: bs, mapM_cons_eq_ok_iff.mpr ⟨b, bs, head, tail, rfl⟩⟩

/-- A failure comes from one of the members. -/
theorem exists_of_mapM_error {f : α → Except ε β} {as : List α} {e : ε}
    (h : as.mapM f = .error e) : ∃ a ∈ as, f a = .error e := by
  induction as with
  | nil => cases h
  | cons a as ih =>
    rw [List.mapM_cons, bind_eq_error_iff] at h
    rcases h with head | ⟨b, _, rest⟩
    · exact ⟨a, List.mem_cons_self, head⟩
    · rcases bind_eq_error_iff.mp rest with tail | ⟨bs, _, answer⟩
      · obtain ⟨c, hc, failed⟩ := ih tail
        exact ⟨c, List.mem_cons_of_mem a hc, failed⟩
      · cases answer

/-- What can be read off each answer as well as off its origin can be read off all of them. -/
theorem map_eq_of_mapM {γ : Type} {f : α → Except ε β} {g : β → γ} {k : α → γ} {as : List α}
    {bs : List β} (h : as.mapM f = .ok bs) (each : ∀ a b, f a = .ok b → g b = k a) :
    bs.map g = as.map k := by
  induction as generalizing bs with
  | nil =>
    cases h
    rfl
  | cons a as ih =>
    obtain ⟨b, cs, head, tail, rfl⟩ := mapM_cons_eq_ok_iff.mp h
    rw [List.map_cons, List.map_cons, each a b head, ih tail]

/-- Goes through a list whose members have different keys. A key that is taken already, by an
earlier member too, is a failure. -/
def mapDistinct {κ : Type} [DecidableEq κ] (key : α → κ) (f : α → Except ε β) (again : α → ε)
    (taken : List κ) : List α → Except ε (List β)
  | [] => .ok []
  | a :: as => do
    let b ← f a
    if key a ∈ taken then .error (again a)
    else do
      let bs ← mapDistinct key f again (key a :: taken) as
      .ok (b :: bs)

theorem mapDistinct_eq_ok_iff {κ : Type} [DecidableEq κ] {key : α → κ} {f : α → Except ε β}
    {again : α → ε} {taken : List κ} {as : List α} {bs : List β} :
    mapDistinct key f again taken as = .ok bs ↔
      as.mapM f = .ok bs ∧ (as.map key).Nodup ∧ ∀ a ∈ as, key a ∉ taken := by
  induction as generalizing taken bs with
  | nil => simp [mapDistinct, pure, Except.pure]
  | cons a as ih =>
    rw [mapDistinct, bind_eq_ok_iff, mapM_cons_eq_ok_iff, List.map_cons, List.nodup_cons]
    constructor
    · rintro ⟨b, head, tail⟩
      split at tail
      · cases tail
      · next free =>
        obtain ⟨cs, rest, tail⟩ := bind_eq_ok_iff.mp tail
        cases tail
        obtain ⟨traversed, distinct, others⟩ := ih.mp rest
        have fresh : key a ∉ as.map key := by
          intro h
          obtain ⟨c, hc, same⟩ := List.mem_map.mp h
          exact others c hc (same ▸ List.mem_cons_self)
        refine ⟨⟨b, cs, head, traversed, rfl⟩, ⟨fresh, distinct⟩,
          List.forall_mem_cons.mpr ⟨free, fun c hc h => ?_⟩⟩
        exact others c hc (List.mem_cons_of_mem _ h)
    · rintro ⟨⟨b, cs, head, traversed, rfl⟩, ⟨fresh, distinct⟩, frees⟩
      obtain ⟨free, others⟩ := List.forall_mem_cons.mp frees
      have rest : mapDistinct key f again (key a :: taken) as = .ok cs := by
        refine ih.mpr ⟨traversed, distinct, fun c hc h => ?_⟩
        rcases List.mem_cons.mp h with same | h
        · exact fresh (List.mem_map.mpr ⟨c, hc, same⟩)
        · exact others c hc h
      exact ⟨b, head, by simp [free, rest, bind, Except.bind]⟩

theorem foldlM_cons_eq_ok_iff {f : β → α → Except ε β} {b out : β} {a : α} {as : List α} :
    (a :: as).foldlM f b = .ok out ↔ ∃ mid, f b a = .ok mid ∧ as.foldlM f mid = .ok out := by
  rw [List.foldlM_cons, bind_eq_ok_iff]

theorem exists_of_foldlM_error {f : β → α → Except ε β} {as : List α} {b : β} {e : ε}
    (h : as.foldlM f b = .error e) : ∃ a ∈ as, ∃ c, f c a = .error e := by
  induction as generalizing b with
  | nil => cases h
  | cons a as ih =>
    rw [List.foldlM_cons, bind_eq_error_iff] at h
    rcases h with failed | ⟨c, _, failed⟩
    · exact ⟨a, List.mem_cons_self, b, failed⟩
    · obtain ⟨d, hd, failed⟩ := ih failed
      exact ⟨d, List.mem_cons_of_mem a hd, failed⟩

end

end GraphAccess
