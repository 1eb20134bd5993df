import GraphAccess.Proofs.Change.Merging
import Mathlib.Algebra.Ring.Nat

namespace GraphAccess.ChangeSet

theorem leaves_merged (parts : List ChangeSet) : (merged parts).leaves = parts.flatMap leaves := by
  rw [leaves]
  induction parts with
  | nil => rfl
  | cons c cs ih => rw [leavesOfAll, ih, List.flatMap_cons]

/-- A leaf is its only leaf, so that merging the leaves themselves groups them anew. -/
theorem leaves_merged_leaves (c : ChangeSet) : (merged c.leaves).leaves = c.leaves := by
  rw [leaves_merged]
  exact flatMap_leaves (f := leaves) leaves_merged c

theorem added_eq_flatMap_leaves (c : ChangeSet) : c.added = c.leaves.flatMap added :=
  (flatMap_leaves added_merged c).symm

theorem removed_eq_flatMap_leaves (c : ChangeSet) : c.removed = c.leaves.flatMap removed :=
  (flatMap_leaves removed_merged c).symm

mutual

theorem ne_merged_of_mem_leaves {leaf : ChangeSet} :
    ∀ c : ChangeSet, leaf ∈ c.leaves → ∀ parts, leaf ≠ merged parts
  | merged parts, h => ne_merged_of_mem_leavesOfAll parts (by rwa [leaves] at h)
  | edit e, h => by
    rw [leaves, List.mem_singleton] at h
    simp [h]
  | statements added removed, h => by
    rw [leaves, List.mem_singleton] at h
    simp [h]

theorem ne_merged_of_mem_leavesOfAll {leaf : ChangeSet} :
    ∀ cs : List ChangeSet, leaf ∈ leavesOfAll cs → ∀ parts, leaf ≠ merged parts
  | [], h => by cases h
  | c :: cs, h => by
    rw [leavesOfAll, List.mem_append] at h
    exact h.elim (ne_merged_of_mem_leaves c) (ne_merged_of_mem_leavesOfAll cs)

end

theorem hasChanges_iff {c : ChangeSet} :
    c.hasChanges = true ↔ c.added ≠ [] ∨ c.removed ≠ [] := by
  simp [hasChanges]

theorem hasChanges_iff_append_ne_nil {c : ChangeSet} :
    c.hasChanges = true ↔ c.removed ++ c.added ≠ [] := by
  rw [hasChanges_iff, or_comm, ← not_and_or, ← List.append_eq_nil_iff]

/-- Merged changes have changes if any of their leaves does. -/
theorem hasChanges_iff_exists_leaf {c : ChangeSet} :
    c.hasChanges = true ↔ ∃ leaf ∈ c.leaves, leaf.hasChanges = true := by
  simp only [hasChanges_iff, added_eq_flatMap_leaves c, removed_eq_flatMap_leaves c, ne_eq,
    List.flatMap_eq_nil_iff, not_forall, exists_prop, ← exists_or, and_or_left]

theorem length_removed (c : ChangeSet) :
    c.removed.length = (c.leaves.map fun leaf => leaf.removed.length).sum := by
  rw [removed_eq_flatMap_leaves, List.length_flatMap]

/-- Changes that agree on what they add and remove make the same updates and the same graph. -/
theorem congr_of_statements {c d : ChangeSet} (adds : d.added = c.added)
    (removes : d.removed = c.removed) :
    d.update none = c.update none ∧ (∀ settings, d.updateWith settings = c.updateWith settings) ∧
      d.graph = c.graph := by
  simp only [updateWith, update, graph, adds, removes, implies_true, and_self]

/-- Merged changes add and remove what their leaves do, from left to right and as often. Whatever
has the same leaves, as the merge of just these has, makes the same updates, texts and failures
alike, and the same graph; and it has changes exactly if a leaf has. If a leaf removes anything
there is no graph, and the failure counts the removals of all leaves. -/
theorem nesting_irrelevant (c : ChangeSet) :
    (∀ leaf ∈ c.leaves, ∀ parts, leaf ≠ merged parts) ∧
      c.added = c.leaves.flatMap added ∧ c.removed = c.leaves.flatMap removed ∧
      (merged c.leaves).leaves = c.leaves ∧
      (∀ d : ChangeSet, d.leaves = c.leaves → d.update none = c.update none ∧
        (∀ settings, d.updateWith settings = c.updateWith settings) ∧ d.graph = c.graph) ∧
      (c.hasChanges = true ↔ ∃ leaf ∈ c.leaves, leaf.hasChanges = true) ∧
      ((∃ leaf ∈ c.leaves, leaf.removed ≠ []) → c.graph =
        .error (.removalsInGraph (c.leaves.map fun leaf => leaf.removed.length).sum)) := by
  refine ⟨fun leaf => ne_merged_of_mem_leaves c, added_eq_flatMap_leaves c,
    removed_eq_flatMap_leaves c, leaves_merged_leaves c, fun d same => ?_,
    hasChanges_iff_exists_leaf, ?_⟩
  · have adds : d.added = c.added := by
      rw [added_eq_flatMap_leaves, same, ← added_eq_flatMap_leaves]
    have removes : d.removed = c.removed := by
      rw [removed_eq_flatMap_leaves, same, ← removed_eq_flatMap_leaves]
    exact congr_of_statements adds removes
  · rintro ⟨leaf, hleaf, removes⟩
    have some : c.removed ≠ [] := by
      intro none
      rw [removed_eq_flatMap_leaves, List.flatMap_eq_nil_iff] at none
      exact removes (none leaf hleaf)
    rw [graph, if_neg some, length_removed]

/-- Ann's renaming and Bob's creation in two groupings. -/
theorem regrouped_renaming :
    (merged [.edit annRenamed, .merged [.edit bobCreated]]).leaves =
        (merged [.merged [.edit annRenamed, .merged []], .edit bobCreated]).leaves ∧
      (merged [.edit annRenamed, .merged [.edit bobCreated]]).update none =
        (merged [.merged [.edit annRenamed, .merged []], .edit bobCreated]).update none ∧
      (merged [.merged [.edit annRenamed, .merged []], .edit bobCreated]).graph =
        .error (.removalsInGraph 1) := by
  have same : (merged [.edit annRenamed, .merged [.edit bobCreated]]).leaves =
      (merged [.merged [.edit annRenamed, .merged []], .edit bobCreated]).leaves := rfl
  obtain ⟨_, _, _, _, alike, _, counted⟩ :=
    nesting_irrelevant (merged [.merged [.edit annRenamed, .merged []], .edit bobCreated])
  have renamed : (edit annRenamed).removed ≠ [] := by decide +kernel
  exact ⟨same, (alike _ same).1, counted ⟨edit annRenamed, by simp [leaves, leavesOfAll], renamed⟩⟩

end GraphAccess.ChangeSet
