import GraphAccess.Proofs.Change.Nesting
import GraphAccess.Proofs.Update.Layout

namespace GraphAccess

theorem EditStep.mem_slots_iff_exists_give {direction : Direction} {steps : List EditStep}
    {s : Slot} : s ∈ slots direction steps ↔
      ∃ a values, give direction a values ∈ steps ∧ values ≠ [] ∧ a.slot = s := by
  simp only [slots, mem_sortDistinct, List.mem_filterMap]
  constructor
  · rintro ⟨_ | ⟨way, a, values⟩, hstep, slot⟩
    · cases slot
    · rw [slot?] at slot
      split at slot
      · next gives =>
        cases slot
        exact ⟨a, values, gives.1 ▸ hstep, gives.2, rfl⟩
      · cases slot
  · rintro ⟨a, values, hstep, some, rfl⟩
    exact ⟨_, hstep, if_pos ⟨rfl, some⟩⟩

namespace ResourceEdit

open EditStep

variable {t : ResourceType} {subject : Node} {steps : List EditStep} {e : ResourceEdit}

theorem mem_changedAttributes_iff {id : AttributeId} :
    id ∈ e.changedAttributes ↔ ∃ a : Attribute, a.id = id ∧ e.changes a = true := by
  simp only [changedAttributes, mem_sortDistinct, List.mem_map, List.mem_append,
    Table.mem_keys_iff, changes, Bool.or_eq_true]
  constructor
  · rintro ⟨s, changed, rfl⟩
    -- Only the slot counts, so any attribute in that place will do.
    exact ⟨⟨s.id, s.owner, ⟨""⟩, []⟩, rfl, changed⟩
  · rintro ⟨a, rfl, changed⟩
    exact ⟨a.slot, changed, rfl⟩

theorem changedAttributes_eq_nil_iff :
    e.changedAttributes = [] ↔ e.adds.keys = [] ∧ e.removes.keys = [] := by
  rw [List.eq_nil_iff_forall_not_mem]
  simp only [changedAttributes, mem_sortDistinct, ← List.eq_nil_iff_forall_not_mem,
    List.map_eq_nil_iff, List.append_eq_nil_iff]

namespace Reflects

variable (h : e.Reflects t subject steps)
include h

/-- The attributes that change are those that a step has given values for. -/
theorem mem_changedAttributes {id : AttributeId} :
    id ∈ e.changedAttributes ↔
      ∃ direction a values, .give direction a values ∈ steps ∧ values ≠ [] ∧ a.id = id := by
  have adds : e.adds.keys = slots .adding steps := h.keys .adding
  have removes : e.removes.keys = slots .removing steps := h.keys .removing
  simp only [changedAttributes, mem_sortDistinct, List.mem_map, List.mem_append, adds, removes,
    mem_slots_iff_exists_give]
  constructor
  · rintro ⟨_, ⟨a, values, hstep, some, rfl⟩ | ⟨a, values, hstep, some, rfl⟩, rfl⟩
    · exact ⟨.adding, a, values, hstep, some, rfl⟩
    · exact ⟨.removing, a, values, hstep, some, rfl⟩
  · rintro ⟨_ | _, a, values, hstep, some, rfl⟩
    · exact ⟨a.slot, .inl ⟨a, values, hstep, some, rfl⟩, rfl⟩
    · exact ⟨a.slot, .inr ⟨a, values, hstep, some, rfl⟩, rfl⟩

theorem valueStatements_eq_nil_iff (direction : Direction) :
    valueStatements e.subject (e.recorded direction) = [] ↔ (e.recorded direction).keys = [] := by
  rw [valueStatements, List.flatMap_eq_nil_iff, Table.keys, List.map_eq_nil_iff]
  constructor
  · intro none
    by_contra some
    obtain ⟨entry, hentry⟩ := List.exists_mem_of_ne_nil _ some
    exact h.values_ne_nil direction entry hentry (List.map_eq_nil_iff.mp (none entry hentry))
  · intro none
    simp [none]

theorem typeStatements_eq_nil_iff :
    e.typeStatements = [] ↔ ∀ type, .hasType type ∉ t.rules := by
  rw [typeStatements, List.map_eq_nil_iff, h.rdfTypes, List.eq_nil_iff_forall_not_mem]
  simp only [ResourceType.mem_rdfTypes]

theorem statements_ne_nil_iff (direction : Direction) :
    e.statements direction ≠ [] ↔ (e.recorded direction).keys ≠ [] ∨
      (∃ type, .hasType type ∈ t.rules) ∧ e.marked direction = true := by
  rw [ResourceEdit.statements, ne_eq, List.append_eq_nil_iff, not_and_or,
    h.valueStatements_eq_nil_iff]
  refine or_congr_right ?_
  by_cases marked : e.marked direction = true
  · rw [if_pos marked, h.typeStatements_eq_nil_iff, not_forall_not, and_iff_left marked]
  · simp [marked]

/-- There are changes if attributes change, or if the RDF types come or go with the resource. -/
theorem hasChanges_iff :
    (ChangeSet.edit e).hasChanges = true ↔ e.changedAttributes ≠ [] ∨
      (∃ type, .hasType type ∈ t.rules) ∧ (e.isNew = true ∨ e.isDeleted = true) := by
  have added : (ChangeSet.edit e).added ≠ [] ↔ e.adds.keys ≠ [] ∨
      (∃ type, .hasType type ∈ t.rules) ∧ e.isNew = true := h.statements_ne_nil_iff .adding
  have removed : (ChangeSet.edit e).removed ≠ [] ↔ e.removes.keys ≠ [] ∨
      (∃ type, .hasType type ∈ t.rules) ∧ e.isDeleted = true := h.statements_ne_nil_iff .removing
  rw [ChangeSet.hasChanges_iff, added, removed, or_or_or_comm, ← and_or_left, ← not_and_or,
    ← changedAttributes_eq_nil_iff]

end Reflects

/-- The attributes with changes are listed by ascending ids, each once, and are those of which some
attribute of the id changes, or has been given values. There are changes if there are such
attributes, or if RDF types come or go with the resource. An update that can be written has no text
exactly if there are none, else its text is that of what is removed and then of what is added, as
far as there is any; and that is how it is read. -/
theorem summaries_agree (t : ResourceType) (subject : Node) (steps : List EditStep) :
    let e := run t subject steps
    StrictlyAscending id e.changedAttributes ∧
      (∀ id, (id ∈ e.changedAttributes ↔ ∃ a : Attribute, a.id = id ∧ e.changes a = true) ∧
        (id ∈ e.changedAttributes ↔ ∃ direction a values,
          .give direction a values ∈ steps ∧ values ≠ [] ∧ a.id = id)) ∧
      ((ChangeSet.edit e).hasChanges = true ↔ e.changedAttributes ≠ [] ∨
        (∃ type, .hasType type ∈ t.rules) ∧ (e.isNew = true ∨ e.isDeleted = true)) ∧
      ∀ graph s, (ChangeSet.edit e).update graph = .ok s →
        (s = "" ↔ (ChangeSet.edit e).hasChanges = false) ∧
          Update.Consists graph e.removed e.added s ∧
          (Update.Writable graph e.removed e.added → ∃ rs, Update.decode s = some rs ∧
            rs.map Update.Request.operation = Update.operations e.removed e.added) := by
  intro e
  have reflects : e.Reflects t subject steps := reflects_run t subject steps
  refine ⟨strictlyAscending_sortDistinct _,
    fun id => ⟨mem_changedAttributes_iff, reflects.mem_changedAttributes⟩,
    reflects.hasChanges_iff, fun graph s written => ?_⟩
  have consists : Update.Consists graph e.removed e.added s := Update.text_eq_ok_iff.mp written
  refine ⟨?_, consists, fun writable => ?_⟩
  · have changes : (ChangeSet.edit e).hasChanges = true ↔ e.removed ++ e.added ≠ [] :=
      ChangeSet.hasChanges_iff_append_ne_nil
    rw [consists.eq_empty_iff, ← Bool.not_eq_true, changes, not_not]
  · obtain ⟨s', written', read⟩ :=
      Update.decode_text writable.graphIri writable.removals writable.additions
    have same : s' = s := Except.ok.inj (written'.symm.trans written)
    exact ⟨_, same ▸ read, Update.map_operation_requests graph e.removed e.added⟩

end ResourceEdit

/-- The names that change, a person's and a member's, all have one id. -/
theorem naming_summaries_agree :
    let e := ResourceEdit.run personType (.named ⟨"http://p.example/ann"⟩) namingSteps
    e.changedAttributes = [⟨"name"⟩] ∧
      (∃ a : Attribute, a.id = ⟨"name"⟩ ∧ e.changes a = true) ∧
      ∃ s rs, (ChangeSet.edit e).update none = .ok s ∧ s ≠ "" ∧ Update.decode s = some rs ∧
        rs.map Update.Request.operation = [.deleteData, .insertData] := by
  intro e
  have listed : e.changedAttributes = [⟨"name"⟩] := by decide +kernel
  have writable : Update.Writable none e.removed e.added :=
    ⟨by simp, by decide +kernel, by decide +kernel⟩
  obtain ⟨s, written, _⟩ :=
    Update.decode_text writable.graphIri writable.removals writable.additions
  obtain ⟨_, changed, _, texts⟩ :=
    ResourceEdit.summaries_agree personType (.named ⟨"http://p.example/ann"⟩) namingSteps
  obtain ⟨empty, _, reads⟩ := texts none s written
  obtain ⟨rs, read, both⟩ := reads writable
  have changes : (ChangeSet.edit e).hasChanges = true := by decide +kernel
  have nonempty : s ≠ "" := by
    intro none
    rw [empty.mp none] at changes
    cases changes
  have operations : Update.operations e.removed e.added = [.deleteData, .insertData] := by
    decide +kernel
  exact ⟨listed, (changed _).1.mp (by rw [listed]; exact List.mem_singleton_self _), s, rs, written,
    nonempty, read, both.trans operations⟩

end GraphAccess
