import GraphAccess.Change.ChangeSet
import GraphAccess.Proofs.Change.History
import Mathlib.Data.Set.Basic

namespace GraphAccess

namespace ChangeSet

/-- A store after a change: what is removed goes before what is added comes. -/
def execute (c : ChangeSet) (store : Set Triple) : Set Triple :=
  (store \ {x | x ∈ c.removed}) ∪ {x | x ∈ c.added}

mutual

/-- The changes that have been merged, from left to right. -/
def leaves : ChangeSet → List ChangeSet
  | merged parts => leavesOfAll parts
  | edit e => [edit e]
  | statements added removed => [statements added removed]

def leavesOfAll : List ChangeSet → List ChangeSet
  | [] => []
  | c :: cs => leaves c ++ leavesOfAll cs

end

section
variable {α : Type} {f : ChangeSet → List α}

mutual

/-- What is listed part by part of merged changes is listed leaf by leaf. -/
theorem flatMap_leaves (merges : ∀ parts, f (merged parts) = parts.flatMap f) :
    ∀ c : ChangeSet, c.leaves.flatMap f = f c
  | merged parts => by rw [leaves, merges, flatMap_leavesOfAll merges parts]
  | edit e => by rw [leaves, List.flatMap_singleton]
  | statements added removed => by rw [leaves, List.flatMap_singleton]

theorem flatMap_leavesOfAll (merges : ∀ parts, f (merged parts) = parts.flatMap f) :
    ∀ cs : List ChangeSet, (leavesOfAll cs).flatMap f = cs.flatMap f
  | [] => rfl
  | c :: cs => by
    rw [leavesOfAll, List.flatMap_append, flatMap_leaves merges c, flatMap_leavesOfAll merges cs,
      List.flatMap_cons]

end

end

theorem mem_execute_iff {c : ChangeSet} {store : Set Triple} {x : Triple} :
    x ∈ c.execute store ↔ (x ∈ store ∧ x ∉ c.removed) ∨ x ∈ c.added := Iff.rfl

/-- Merged changes remove what any of them removes and add what any of them adds. -/
theorem mem_execute_of_leaves {c : ChangeSet} {edits : List ResourceEdit}
    (groups : c.leaves = edits.map edit) {store : Set Triple} {x : Triple} :
    x ∈ c.execute store ↔
      (x ∈ store ∧ ∀ e ∈ edits, x ∉ e.removed) ∨ ∃ e ∈ edits, x ∈ e.added := by
  have removed : c.removed = edits.flatMap ResourceEdit.removed := by
    rw [← flatMap_leaves removed_merged c, groups, List.flatMap_map]
    rfl
  have added : c.added = edits.flatMap ResourceEdit.added := by
    rw [← flatMap_leaves added_merged c, groups, List.flatMap_map]
    rfl
  simp only [mem_execute_iff, removed, added, List.mem_flatMap, not_exists, not_and]

end ChangeSet

namespace ResourceEdit

/-- All that an edit says gives its resource a value, its RDF types among them. -/
theorem exists_value_of_mem_statements {e : ResourceEdit} {direction : Direction} {x : Triple}
    (h : x ∈ e.statements direction) :
    ∃ predicate, ∃ v : Value, x = ⟨e.subject, predicate, v.toTerm⟩ := by
  rcases List.mem_append.mp h with value | type
  · obtain ⟨entry, _, hx⟩ := List.mem_flatMap.mp value
    obtain ⟨v, _, rfl⟩ := List.mem_map.mp hx
    exact ⟨entry.2.predicate, v, rfl⟩
  · split at type
    · obtain ⟨iri, _, rfl⟩ := List.mem_map.mp type
      exact ⟨Vocabulary.rdfType, .resource iri, rfl⟩
    · cases type

theorem subject_of_mem_statements {e : ResourceEdit} {direction : Direction} {x : Triple}
    (h : x ∈ e.statements direction) : x.subject = e.subject := by
  obtain ⟨_, _, rfl⟩ := exists_value_of_mem_statements h
  rfl

theorem subject_of_mem_added {e : ResourceEdit} {x : Triple} (h : x ∈ e.added) :
    x.subject = e.subject :=
  have statement : x ∈ e.statements .adding := h
  subject_of_mem_statements statement

theorem subject_of_mem_removed {e : ResourceEdit} {x : Triple} (h : x ∈ e.removed) :
    x.subject = e.subject :=
  have statement : x ∈ e.statements .removing := h
  subject_of_mem_statements statement

/-- Makes the changes of edits one after the other. -/
def executeAll (edits : List ResourceEdit) (store : Set Triple) : Set Triple :=
  edits.foldl (fun store e => (ChangeSet.edit e).execute store) store

/-- What an edit has added is still there in the end, as the later ones are of other resources. The
induction is on the edits that are still to come. -/
theorem mem_executeAll_iff {edits : List ResourceEdit}
    (apart : (edits.map ResourceEdit.subject).Nodup) {store : Set Triple} {x : Triple} :
    x ∈ executeAll edits store ↔
      (x ∈ store ∧ ∀ e ∈ edits, x ∉ e.removed) ∨ ∃ e ∈ edits, x ∈ e.added := by
  induction edits generalizing store with
  | nil => simp [executeAll]
  | cons e edits ih =>
    obtain ⟨fresh, apart⟩ := List.nodup_cons.mp apart
    have kept : x ∈ e.added → ∀ f ∈ edits, x ∉ f.removed := by
      intro added f hf removed
      have same : f.subject = e.subject :=
        (subject_of_mem_removed removed).symm.trans (subject_of_mem_added added)
      exact fresh (List.mem_map.mpr ⟨f, hf, same⟩)
    have first : x ∈ (ChangeSet.edit e).execute store ↔ (x ∈ store ∧ x ∉ e.removed) ∨ x ∈ e.added :=
      Iff.rfl
    rw [executeAll, List.foldl_cons, ← executeAll, ih apart, first, or_and_right, and_assoc,
      and_iff_left_of_imp kept, or_assoc, List.forall_mem_cons, List.exists_mem_cons_iff]

end ResourceEdit

open ResourceEdit in
/-- However edits of different resources are merged, and whatever their order when they are made one
after the other, any store is the same afterwards. -/
theorem ChangeSet.execute_merged_eq {edits order : List ResourceEdit}
    (apart : (edits.map ResourceEdit.subject).Nodup) (perm : order.Perm edits) {c : ChangeSet}
    (groups : c.leaves = edits.map edit) (store : Set Triple) :
    c.execute store = executeAll order store := by
  have apart : (order.map ResourceEdit.subject).Nodup :=
    (perm.map ResourceEdit.subject).nodup_iff.mpr apart
  ext x
  rw [mem_execute_of_leaves groups, mem_executeAll_iff apart]
  simp only [perm.mem_iff]

/-- Ann is renamed, and Bob is new. -/
def annRenamed : ResourceEdit :=
  .run personType (.named ⟨"http://p.example/ann"⟩)
    [.give .removing personName [.literal (.plain "Ana")],
      .give .adding personName [.literal (.plain "Ann")]]

def bobCreated : ResourceEdit :=
  .run personType (.named ⟨"http://p.example/bob"⟩)
    [.mark .adding, .give .adding personName [.literal (.plain "Ana")]]

/-- Saved at once, Bob keeps the name that Ann loses, as when he is saved before her. -/
theorem saved_at_once :
    ([annRenamed, bobCreated].map ResourceEdit.subject).Nodup ∧
      [bobCreated, annRenamed].Perm [annRenamed, bobCreated] ∧
      (ChangeSet.merged [.merged [.merged [], .edit annRenamed], .edit bobCreated]).execute
          {⟨.named ⟨"http://p.example/ann"⟩, ⟨"http://p.example/name"⟩,
            .literal (.plain "Ana")⟩} =
        ResourceEdit.executeAll [bobCreated, annRenamed]
          {⟨.named ⟨"http://p.example/ann"⟩, ⟨"http://p.example/name"⟩,
            .literal (.plain "Ana")⟩} := by
  have apart : ([annRenamed, bobCreated].map ResourceEdit.subject).Nodup := by decide +kernel
  have perm : [bobCreated, annRenamed].Perm [annRenamed, bobCreated] := .swap _ _ _
  have groups : (ChangeSet.merged
      [.merged [.merged [], .edit annRenamed], .edit bobCreated]).leaves =
        [annRenamed, bobCreated].map ChangeSet.edit := rfl
  exact ⟨apart, perm, ChangeSet.execute_merged_eq apart perm groups _⟩

end GraphAccess
