import GraphAccess.Collection.Traversal
import GraphAccess.Profile.ResourceType

namespace GraphAccess.Hierarchy

/-- The type of an id. -/
def find? (ts : List ResourceType) (id : TypeId) : Option ResourceType := ts.find? (·.id = id)

theorem find?_eq_none_iff {ts : List ResourceType} {id : TypeId} :
    find? ts id = none ↔ ∀ t ∈ ts, t.id ≠ id := by
  simp [find?]

theorem mem_of_find? {ts : List ResourceType} {id : TypeId} {t : ResourceType}
    (found : find? ts id = some t) : t ∈ ts :=
  List.mem_of_find?_eq_some found

theorem id_of_find? {ts : List ResourceType} {id : TypeId} {t : ResourceType}
    (found : find? ts id = some t) : t.id = id := by
  simpa using List.find?_some found

/-- The types that are not in progress. -/
def idle (ts : List ResourceType) (inProgress : List TypeId) : List ResourceType :=
  ts.filter fun t => t.id ∉ inProgress

theorem length_idle_cons_lt {ts : List ResourceType} {inProgress : List TypeId} {id : TypeId}
    {t : ResourceType} (found : find? ts id = some t) (fresh : id ∉ inProgress) :
    (idle ts (id :: inProgress)).length < (idle ts inProgress).length := by
  have hid := id_of_find? found
  have member : t ∈ idle ts inProgress :=
    List.mem_filter.mpr ⟨mem_of_find? found, by simpa [hid] using fresh⟩
  have others : idle ts (id :: inProgress) = (idle ts inProgress).filter fun u => u.id ≠ id := by
    simp [idle, List.filter_filter]
  rw [others]
  exact List.length_filter_lt_length_iff_exists.mpr ⟨t, member, by simp [hid]⟩

/-- Finishes the type of an id after its superclasses, with the types in progress on the way to it
and those finished before. A type in progress that is met again is the failure. -/
def visit (ts : List ResourceType) (inProgress : List TypeId) (finished : List ResourceType)
    (id : TypeId) : Except ResourceType (List ResourceType) :=
  match _found : find? ts id with
  | none => .ok finished
  | some t =>
    if id ∈ finished.map ResourceType.id then .ok finished
    else if _fresh : id ∈ inProgress then .error t
    else do
      let before ← t.superclasses.foldlM
        (fun finished super => visit ts (id :: inProgress) finished super) finished
      .ok (t :: before)
termination_by (idle ts inProgress).length
decreasing_by exact length_idle_cons_lt _found _fresh

/-- The types, each before its superclasses, or a type that is its own superclass. -/
def arrange (ts : List ResourceType) : Except ResourceType (List ResourceType) :=
  (ts.map ResourceType.id).foldlM (visit ts []) []

/-- Every type has been finished once and after its superclasses. -/
inductive Finished (ts : List ResourceType) : List ResourceType → Prop
  | nil : Finished ts []
  | cons {t : ResourceType} {us : List ResourceType} (found : find? ts t.id = some t)
    (once : t.id ∉ us.map ResourceType.id)
    (superclasses : ∀ id ∈ t.superclasses, ∀ u, find? ts id = some u → u ∈ us)
    (before : Finished ts us) : Finished ts (t :: us)

theorem Finished.find?_eq_some {ts us : List ResourceType} (h : Finished ts us)
    {t : ResourceType} (ht : t ∈ us) : find? ts t.id = some t := by
  induction h with
  | nil => cases ht
  | cons found _ _ _ ih =>
    rcases List.mem_cons.mp ht with rfl | ht
    · exact found
    · exact ih ht

theorem Finished.nodup {ts us : List ResourceType} (h : Finished ts us) :
    (us.map ResourceType.id).Nodup := by
  induction h with
  | nil => exact List.nodup_nil
  | cons _ once _ _ ih => exact List.nodup_cons.mpr ⟨once, ih⟩

/-- What visiting some ids makes of the types finished before. -/
structure Visited (ts : List ResourceType) (inProgress : List TypeId)
    (before : List ResourceType) (ids : List TypeId) (after : List ResourceType) : Prop where
  finished : Finished ts after
  kept : before ⊆ after
  reached : ∀ id ∈ ids, ∀ t, find? ts id = some t → t ∈ after
  idle : ∀ t ∈ after, t ∈ before ∨ t.id ∉ inProgress

namespace Visited

variable {ts before mid after : List ResourceType} {inProgress ids more : List TypeId}
  {id : TypeId}

theorem nil (h : Finished ts before) : Visited ts inProgress before [] before where
  finished := h
  kept := List.Subset.refl before
  reached := by simp
  idle := fun _ ht => .inl ht

theorem append (first : Visited ts inProgress before ids mid)
    (second : Visited ts inProgress mid more after) :
    Visited ts inProgress before (ids ++ more) after where
  finished := second.finished
  kept := List.Subset.trans first.kept second.kept
  reached := fun id hid t found =>
    (List.mem_append.mp hid).elim (fun h => second.kept (first.reached id h t found))
      fun h => second.reached id h t found
  idle := fun t ht => (second.idle t ht).elim (first.idle t) .inr

/-- What each visit does, visits of some ids do one after the other. -/
theorem foldlM {step : List ResourceType → TypeId → Except ResourceType (List ResourceType)}
    (each : ∀ before id after, Finished ts before → step before id = .ok after →
      Visited ts inProgress before [id] after)
    (h : Finished ts before) (ok : ids.foldlM step before = .ok after) :
    Visited ts inProgress before ids after := by
  induction ids generalizing before with
  | nil =>
    cases ok
    exact nil h
  | cons id ids ih =>
    obtain ⟨mid, head, tail⟩ := foldlM_cons_eq_ok_iff.mp ok
    have first := each before id mid h head
    exact first.append (ih first.finished tail)

theorem of_unknown (h : Finished ts before) (unknown : find? ts id = none) :
    Visited ts inProgress before [id] before where
  finished := h
  kept := List.Subset.refl before
  reached := by simp [unknown]
  idle := fun _ ht => .inl ht

theorem of_finished (h : Finished ts before) (done : id ∈ before.map ResourceType.id) :
    Visited ts inProgress before [id] before where
  finished := h
  kept := List.Subset.refl before
  reached := by
    intro id' hid t found
    obtain ⟨u, hu, rfl⟩ := List.mem_map.mp done
    rw [List.mem_singleton.mp hid, h.find?_eq_some hu] at found
    exact Option.some.inj found ▸ hu
  idle := fun _ ht => .inl ht

/-- The type of the id is still in progress while its superclasses are visited, so that none of
those visits finishes it. -/
theorem of_superclasses {t : ResourceType} (found : find? ts id = some t)
    (pending : id ∉ before.map ResourceType.id) (fresh : id ∉ inProgress)
    (supers : Visited ts (id :: inProgress) before t.superclasses mid) :
    Visited ts inProgress before [id] (t :: mid) := by
  have hid := id_of_find? found
  have once : id ∉ mid.map ResourceType.id := by
    intro h
    obtain ⟨u, hu, same⟩ := List.mem_map.mp h
    rcases supers.idle u hu with hu | hu
    · exact pending (List.mem_map.mpr ⟨u, hu, same⟩)
    · exact hu (same ▸ List.mem_cons_self)
  refine ⟨.cons (hid ▸ found) (hid ▸ once) supers.reached supers.finished,
    List.subset_cons_of_subset t supers.kept, ?_, ?_⟩
  · intro id' hid' u found'
    rw [List.mem_singleton.mp hid', found] at found'
    exact Option.some.inj found' ▸ List.mem_cons_self
  · intro u hu
    rcases List.mem_cons.mp hu with rfl | hu
    · exact .inr (hid ▸ fresh)
    · exact (supers.idle u hu).imp_right fun h hmem => h (List.mem_cons_of_mem id hmem)

end Visited

theorem visited_of_visit {ts before after : List ResourceType} {inProgress : List TypeId}
    {id : TypeId} (h : Finished ts before) (ok : visit ts inProgress before id = .ok after) :
    Visited ts inProgress before [id] after := by
  fun_induction visit ts inProgress before id generalizing after with
  | case1 inProgress before id unknown =>
    cases ok
    exact .of_unknown h unknown
  | case2 inProgress before id t found done =>
    cases ok
    exact .of_finished h done
  | case3 => cases ok
  | case4 inProgress before id t found pending fresh ih =>
    obtain ⟨mid, supers, ok⟩ := bind_eq_ok_iff.mp ok
    cases ok
    exact .of_superclasses found pending fresh
      (.foldlM (fun before super after finished => ih before super finished) h supers)

theorem visited_of_arrange {ts arranged : List ResourceType} (h : arrange ts = .ok arranged) :
    Visited ts [] [] (ts.map ResourceType.id) arranged :=
  .foldlM (fun _ _ _ => visited_of_visit) .nil h

theorem mem_of_arrange {ts arranged : List ResourceType} (h : arrange ts = .ok arranged)
    {t : ResourceType} (ht : t ∈ arranged) : t ∈ ts :=
  mem_of_find? ((visited_of_arrange h).finished.find?_eq_some ht)

theorem find?_eq_some_of_mem {ts : List ResourceType}
    (distinct : (ts.map ResourceType.id).Nodup) {t : ResourceType} (h : t ∈ ts) :
    find? ts t.id = some t := by
  induction ts with
  | nil => cases h
  | cons u us ih =>
    obtain ⟨apart, distinct⟩ := List.nodup_cons.mp distinct
    rcases List.mem_cons.mp h with rfl | h
    · simp [find?]
    · have other : u.id ≠ t.id := fun e => apart (List.mem_map.mpr ⟨t, h, e.symm⟩)
      rw [find?, List.find?_cons_of_neg (by simpa using other)]
      exact ih distinct h

theorem mem_arranged_iff {ts arranged : List ResourceType}
    (distinct : (ts.map ResourceType.id).Nodup) (h : arrange ts = .ok arranged)
    {t : ResourceType} : t ∈ arranged ↔ t ∈ ts := by
  refine ⟨mem_of_arrange h, fun ht => ?_⟩
  have reached := (visited_of_arrange h).reached
  exact reached t.id (List.mem_map.mpr ⟨t, ht, rfl⟩) t (find?_eq_some_of_mem distinct ht)

/-- No type is a superclass of itself or of a later one. -/
def Arranged (ts : List ResourceType) : Prop :=
  (∀ t ∈ ts, t.id ∉ t.superclasses) ∧ ts.Pairwise fun t u => t.id ∉ u.superclasses

/-- The superclasses of a finished type are finished too. -/
theorem Finished.superclass_mem {ts us : List ResourceType} (h : Finished ts us)
    {t u : ResourceType} (ht : t ∈ us) (super : u.id ∈ t.superclasses)
    (found : find? ts u.id = some u) : u ∈ us := by
  induction h with
  | nil => cases ht
  | cons _ _ superclasses _ ih =>
    rcases List.mem_cons.mp ht with rfl | ht
    · exact List.mem_cons_of_mem _ (superclasses u.id super u found)
    · exact List.mem_cons_of_mem _ (ih ht)

theorem Finished.arranged {ts us : List ResourceType} (h : Finished ts us) : Arranged us := by
  induction h with
  | nil => exact ⟨by simp, .nil⟩
  | @cons t us found once superclasses before ih =>
    have apart : t ∉ us := fun h => once (List.mem_map.mpr ⟨t, h, rfl⟩)
    have self : t.id ∉ t.superclasses := fun super => apart (superclasses t.id super t found)
    have later : ∀ u ∈ us, t.id ∉ u.superclasses := fun u hu super =>
      apart (before.superclass_mem hu super found)
    exact ⟨List.forall_mem_cons.mpr ⟨self, ih.1⟩, .cons later ih.2⟩

theorem arranged_of_arrange {ts arranged : List ResourceType} (h : arrange ts = .ok arranged) :
    Arranged arranged :=
  (visited_of_arrange h).finished.arranged

end GraphAccess.Hierarchy
