import GraphAccess.Collection.Ascending

namespace GraphAccess

/-- Keys and what they stand for. -/
structure Table (κ ν : Type) where
  entries : List (κ × ν)
  deriving DecidableEq, Repr

namespace Table

variable {κ ν : Type} [Ord κ]

def empty : Table κ ν := ⟨[]⟩

/-- Puts an entry in its place among ascending ones; an entry of the same key gives way. -/
def place (k : κ) (v : ν) : List (κ × ν) → List (κ × ν)
  | [] => [(k, v)]
  | e :: es =>
    match compare k e.1 with
    | .lt => (k, v) :: e :: es
    | .eq => (k, v) :: es
    | .gt => e :: place k v es

def put (t : Table κ ν) (k : κ) (v : ν) : Table κ ν := ⟨place k v t.entries⟩

def get? (t : Table κ ν) (k : κ) : Option ν :=
  (t.entries.find? fun e => compare k e.1 = .eq).map Prod.snd

def keys (t : Table κ ν) : List κ := t.entries.map Prod.fst

/-- Every key is less than the later ones. -/
def Sorted (t : Table κ ν) : Prop := StrictlyAscending Prod.fst t.entries

theorem sorted_empty : (empty : Table κ ν).Sorted := List.Pairwise.nil

theorem strictlyAscending_keys {t : Table κ ν} (h : t.Sorted) : StrictlyAscending id t.keys :=
  List.pairwise_map.mpr h

theorem mem_place {k : κ} {v : ν} {es : List (κ × ν)} {e : κ × ν} (h : e ∈ place k v es) :
    e = (k, v) ∨ e ∈ es := by
  induction es with
  | nil => simpa [place] using h
  | cons f es ih =>
    rw [place] at h
    split at h
    · simpa using h
    · rcases List.mem_cons.mp h with rfl | h
      · exact .inl rfl
      · exact .inr (List.mem_cons_of_mem _ h)
    · rcases List.mem_cons.mp h with rfl | h
      · exact .inr (List.mem_cons_self ..)
      · exact (ih h).imp_right (List.mem_cons_of_mem _)

/-- A key holds what was last put there. -/
theorem get?_put [Std.LawfulEqOrd κ] (t : Table κ ν) (k : κ) (v : ν) (l : κ) :
    (t.put k v).get? l = if compare l k = .eq then some v else t.get? l := by
  obtain ⟨es⟩ := t
  unfold get? put
  dsimp only
  induction es with
  | nil => by_cases h : compare l k = .eq <;> simp [place, h]
  | cons e es ih =>
    rw [place]
    split
    · by_cases h : compare l k = .eq <;> simp [h]
    · next hk =>
      rw [Std.LawfulEqCmp.eq_of_compare hk]
      by_cases h : compare l e.1 = .eq <;> simp [h]
    · next hk =>
      by_cases h : compare l e.1 = .eq
      · have hl : ¬compare l k = .eq := by
          intro hlk
          rw [← Std.LawfulEqCmp.eq_of_compare hlk, h] at hk
          exact absurd hk (by decide)
        simp [h, hl]
      · simpa [h] using ih

variable [Std.TransOrd κ] [Std.LawfulEqOrd κ]

theorem sorted_put {t : Table κ ν} (h : t.Sorted) (k : κ) (v : ν) : (t.put k v).Sorted := by
  obtain ⟨es⟩ := t
  unfold Sorted StrictlyAscending put at *
  dsimp only at h ⊢
  induction es with
  | nil => simp [place]
  | cons e es ih =>
    rw [List.pairwise_cons] at h
    rw [place]
    split
    · next hk =>
      refine List.pairwise_cons.mpr ⟨fun f hf => ?_, List.pairwise_cons.mpr h⟩
      rcases List.mem_cons.mp hf with rfl | hf
      · exact hk
      · exact Std.TransCmp.lt_trans hk (h.1 f hf)
    · next hk =>
      rw [Std.LawfulEqCmp.eq_of_compare hk]
      exact List.pairwise_cons.mpr h
    · next hk =>
      refine List.pairwise_cons.mpr ⟨fun f hf => ?_, ih h.2⟩
      rcases mem_place hf with rfl | hf
      · exact Std.OrientedCmp.lt_of_gt hk
      · exact h.1 f hf

theorem get?_of_mem {t : Table κ ν} (h : t.Sorted) {e : κ × ν} (he : e ∈ t.entries) :
    t.get? e.1 = some e.2 := by
  obtain ⟨es⟩ := t
  unfold get? Sorted StrictlyAscending at *
  dsimp only at h he ⊢
  induction es with
  | nil => cases he
  | cons f es ih =>
    obtain ⟨hf, hes⟩ := List.pairwise_cons.mp h
    rcases List.mem_cons.mp he with rfl | he
    · simp [Std.ReflOrd.compare_self]
    · have apart : compare e.1 f.1 = .gt := Std.OrientedCmp.gt_of_lt (hf e he)
      rw [List.find?_cons_of_neg (by simp [apart])]
      exact ih hes he

omit [Std.TransOrd κ] in
theorem mem_keys_iff {t : Table κ ν} {k : κ} : k ∈ t.keys ↔ (t.get? k).isSome = true := by
  simp only [keys, get?, List.mem_map, Option.isSome_map, List.find?_isSome, decide_eq_true_eq]
  constructor
  · rintro ⟨e, he, rfl⟩
    exact ⟨e, he, Std.ReflOrd.compare_self⟩
  · rintro ⟨e, he, same⟩
    exact ⟨e, he, (Std.LawfulEqCmp.eq_of_compare same).symm⟩

theorem mem_entries_iff {t : Table κ ν} (h : t.Sorted) {e : κ × ν} :
    e ∈ t.entries ↔ t.get? e.1 = some e.2 := by
  refine ⟨get?_of_mem h, fun found => ?_⟩
  have known : e.1 ∈ t.keys := mem_keys_iff.mpr (by rw [found]; rfl)
  obtain ⟨f, hf, same⟩ := List.mem_map.mp known
  have entry := get?_of_mem h hf
  rw [same, found] at entry
  rwa [Prod.ext same (Option.some.inj entry).symm] at hf

/-- Sorted tables that hold the same are the same. -/
theorem eq_of_get? {t u : Table κ ν} (ht : t.Sorted) (hu : u.Sorted)
    (same : ∀ k, t.get? k = u.get? k) : t = u := by
  have entries : t.entries = u.entries :=
    eq_of_strictlyAscending ht hu fun e => by rw [mem_entries_iff ht, mem_entries_iff hu, same]
  cases t
  cases u
  exact congrArg Table.mk entries

end Table

end GraphAccess
