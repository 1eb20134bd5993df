import GraphAccess.Change.ResourceEdit
import Mathlib.Data.List.Basic
import Mathlib.Data.List.Induction

namespace GraphAccess

/-- Whether something is added to the store or removed from it. -/
inductive Direction where
  | adding
  | removing
  deriving DecidableEq, Repr

inductive EditStep where
  /-- Marks the resource as new or as deleted. -/
  | mark (direction : Direction)
  | give (direction : Direction) (a : Attribute) (values : List Value)
  deriving DecidableEq, Repr

namespace EditStep

/-- What a step gives for a slot. Without values it gives nothing. -/
def gives? (direction : Direction) (s : Slot) : EditStep → Option SlotValues
  | mark _ => none
  | give way a values =>
    if way = direction ∧ a.slot = s ∧ values ≠ [] then some ⟨a.predicate, values⟩ else none

/-- The slot that a step gives something for. -/
def slot? (direction : Direction) : EditStep → Option Slot
  | mark _ => none
  | give way a values => if way = direction ∧ values ≠ [] then some a.slot else none

/-- What the last one of some steps that gives anything for a slot gives. -/
def lastGiven (direction : Direction) (steps : List EditStep) (s : Slot) : Option SlotValues :=
  steps.reverse.findSome? (gives? direction s)

/-- The values of what was given last. -/
def lastValues (direction : Direction) (steps : List EditStep) (s : Slot) : List Value :=
  match lastGiven direction steps s with
  | some given => given.values
  | none => []

/-- The slots that anything is given for, in ascending order. -/
def slots (direction : Direction) (steps : List EditStep) : List Slot :=
  sortDistinct (steps.filterMap (slot? direction))

/-- The statement that a rule demands of the RDF type of a resource. -/
def typeStatement? (subject : Node) : Rule → Option Triple
  | .hasType type => some ⟨subject, Vocabulary.rdfType, .named type⟩
  | _ => none

/-- The statements that steps amount to: slot by slot those of the values given last, and those of
the RDF types if the resource has been marked. -/
def statements (t : ResourceType) (subject : Node) (direction : Direction)
    (steps : List EditStep) : List Triple :=
  (slots direction steps).flatMap (fun s =>
    (lastGiven direction steps s).toList.flatMap fun given =>
      given.values.map fun v => ⟨subject, given.predicate, v.toTerm⟩) ++
    if mark direction ∈ steps then t.rules.filterMap (typeStatement? subject) else []

/-- Two steps that do not give values for the same slot in the same direction. -/
def Independent : EditStep → EditStep → Prop
  | give way a _, give way' b _ => way ≠ way' ∨ a.slot ≠ b.slot
  | _, _ => True

theorem lastGiven_concat (direction : Direction) (steps : List EditStep) (step : EditStep)
    (s : Slot) :
    lastGiven direction (steps ++ [step]) s =
      (gives? direction s step).or (lastGiven direction steps s) := by
  rw [lastGiven, List.reverse_concat, List.findSome?_cons]
  cases gives? direction s step <;> rfl

theorem lastGiven_drop {direction : Direction} (before after : List EditStep) {step : EditStep}
    {s : Slot} (silent : gives? direction s step = none) :
    lastGiven direction (before ++ step :: after) s = lastGiven direction (before ++ after) s := by
  simp [lastGiven, List.findSome?_append, silent]

theorem slot?_eq_some_iff {direction : Direction} {step : EditStep} {s : Slot} :
    slot? direction step = some s ↔ (gives? direction s step).isSome = true := by
  cases step with
  | mark => simp [slot?, gives?]
  | give way a values =>
    by_cases gives : way = direction ∧ values ≠ []
    · by_cases here : a.slot = s <;> simp [slot?, gives?, gives, here]
    · have silent : ¬(way = direction ∧ a.slot = s ∧ values ≠ []) :=
        fun h => gives ⟨h.1, h.2.2⟩
      simp only [slot?, gives?, if_neg gives, if_neg silent]
      simp

theorem mem_slots_iff {direction : Direction} {steps : List EditStep} {s : Slot} :
    s ∈ slots direction steps ↔ (lastGiven direction steps s).isSome = true := by
  simp only [slots, mem_sortDistinct, List.mem_filterMap, slot?_eq_some_iff, lastGiven,
    List.isSome_findSome?, List.any_eq_true, List.mem_reverse]

theorem values_ne_nil_of_lastGiven {direction : Direction} {steps : List EditStep} {s : Slot}
    {given : SlotValues} (h : lastGiven direction steps s = some given) : given.values ≠ [] := by
  obtain ⟨step, _, gives⟩ := List.exists_of_findSome?_eq_some h
  cases step with
  | mark => cases gives
  | give way a values =>
    rw [EditStep.gives?] at gives
    split at gives
    · next gives_some =>
      cases gives
      exact gives_some.2.2
    · cases gives

end EditStep

namespace ResourceEdit

open EditStep

def apply (e : ResourceEdit) : EditStep → ResourceEdit
  | .mark .adding => e.markNew
  | .mark .removing => e.markDeleted
  | .give .adding a values => e.add a values
  | .give .removing a values => e.remove a values

/-- The edit that steps make of a fresh one. -/
def run (t : ResourceType) (subject : Node) (steps : List EditStep) : ResourceEdit :=
  steps.foldl apply (start t subject)

def recorded (e : ResourceEdit) : Direction → Table Slot SlotValues
  | .adding => e.adds
  | .removing => e.removes

def marked (e : ResourceEdit) : Direction → Bool
  | .adding => e.isNew
  | .removing => e.isDeleted

def statements (e : ResourceEdit) (direction : Direction) : List Triple :=
  valueStatements e.subject (e.recorded direction) ++
    if e.marked direction then e.typeStatements else []

/-- The edit is what steps make of a fresh one, as far as it can be seen. -/
structure Reflects (t : ResourceType) (subject : Node) (steps : List EditStep)
    (e : ResourceEdit) : Prop where
  subject : e.subject = subject
  rdfTypes : e.rdfTypes = t.rdfTypes
  marked : ∀ direction, e.marked direction = true ↔ mark direction ∈ steps
  sorted : ∀ direction, (e.recorded direction).Sorted
  recorded : ∀ direction s, (e.recorded direction).get? s = lastGiven direction steps s

variable {t : ResourceType} {subject : Node} {steps : List EditStep} {e : ResourceEdit}

theorem reflects_start : (start t subject).Reflects t subject [] where
  subject := rfl
  rdfTypes := rfl
  marked := by rintro ⟨⟩ <;> simp [ResourceEdit.marked, start]
  sorted := by rintro ⟨⟩ <;> exact Table.sorted_empty
  recorded := by rintro ⟨⟩ s <;> rfl

theorem recorded_mark (e : ResourceEdit) (way direction : Direction) :
    (e.apply (.mark way)).recorded direction = e.recorded direction := by
  cases way <;> cases direction <;> rfl

theorem recorded_give (e : ResourceEdit) (way direction : Direction) (a : Attribute)
    (values : List Value) :
    (e.apply (.give way a values)).recorded direction =
      if way = direction then record (e.recorded direction) a values else e.recorded direction := by
  cases way <;> cases direction <;> rfl

theorem marked_mark (e : ResourceEdit) (way direction : Direction) :
    (e.apply (.mark way)).marked direction = (decide (way = direction) || e.marked direction) := by
  cases way <;> cases direction <;> rfl

theorem marked_give (e : ResourceEdit) (way direction : Direction) (a : Attribute)
    (values : List Value) :
    (e.apply (.give way a values)).marked direction = e.marked direction := by
  cases way <;> cases direction <;> rfl

/-- What is recorded for a slot is what the step gives for it, if anything. -/
theorem get?_give (e : ResourceEdit) (way direction : Direction) (a : Attribute)
    (values : List Value) (s : Slot) :
    ((e.apply (.give way a values)).recorded direction).get? s =
      (gives? direction s (.give way a values)).or ((e.recorded direction).get? s) := by
  rw [recorded_give, gives?]
  by_cases here : way = direction
  · rw [if_pos here, get?_record]
    by_cases given : values ≠ [] ∧ s = a.slot
    · simp [here, given]
    · have silent : ¬(way = direction ∧ a.slot = s ∧ values ≠ []) :=
        fun h => given ⟨h.2.2, h.2.1.symm⟩
      rw [if_neg given, if_neg silent, Option.none_or]
  · simp [here]

theorem Reflects.mark (h : e.Reflects t subject steps) (way : Direction) :
    (e.apply (.mark way)).Reflects t subject (steps ++ [.mark way]) where
  subject := by cases way <;> exact h.subject
  rdfTypes := by cases way <;> exact h.rdfTypes
  marked := by
    intro direction
    rw [marked_mark, Bool.or_eq_true, h.marked direction]
    simp [or_comm, eq_comm]
  sorted := by
    intro direction
    rw [recorded_mark]
    exact h.sorted direction
  recorded := by
    intro direction s
    rw [recorded_mark, h.recorded direction, lastGiven_concat]
    rfl

theorem Reflects.give (h : e.Reflects t subject steps) (way : Direction) (a : Attribute)
    (values : List Value) :
    (e.apply (.give way a values)).Reflects t subject (steps ++ [.give way a values]) where
  subject := by cases way <;> exact h.subject
  rdfTypes := by cases way <;> exact h.rdfTypes
  marked := by
    intro direction
    rw [marked_give, h.marked direction]
    simp
  sorted := by
    intro direction
    rw [recorded_give]
    split
    · exact sorted_record (h.sorted direction) a values
    · exact h.sorted direction
  recorded := by
    intro direction s
    rw [get?_give, h.recorded direction, lastGiven_concat]

/-- A step adds to the history what it does to the edit. -/
theorem Reflects.apply (h : e.Reflects t subject steps) (step : EditStep) :
    (e.apply step).Reflects t subject (steps ++ [step]) := by
  cases step with
  | mark way => exact h.mark way
  | give way a values => exact h.give way a values

theorem reflects_run (t : ResourceType) (subject : Node) (steps : List EditStep) :
    (run t subject steps).Reflects t subject steps := by
  induction steps using List.reverseRecOn with
  | nil => exact reflects_start
  | append_singleton steps step ih =>
    have last : run t subject (steps ++ [step]) = (run t subject steps).apply step := by
      rw [run, List.foldl_append]
      rfl
    rw [last]
    exact ih.apply step

namespace Reflects

variable (h : e.Reflects t subject steps)
include h

theorem values (direction : Direction) (a : Attribute) :
    valuesOf (e.recorded direction) a = lastValues direction steps a.slot := by
  cases last : lastGiven direction steps a.slot <;>
    simp only [valuesOf, lastValues, h.recorded direction, last]

theorem keys (direction : Direction) : (e.recorded direction).keys = slots direction steps := by
  apply eq_of_strictlyAscending (Table.strictlyAscending_keys (h.sorted direction))
    (strictlyAscending_sortDistinct _)
  intro s
  rw [Table.mem_keys_iff, h.recorded direction]
  exact mem_slots_iff.symm

theorem values_ne_nil (direction : Direction) :
    ∀ entry ∈ (e.recorded direction).entries, entry.2.values ≠ [] := by
  intro entry hentry
  have given := Table.get?_of_mem (h.sorted direction) hentry
  rw [h.recorded direction] at given
  exact values_ne_nil_of_lastGiven given

theorem isSome_iff (direction : Direction) (a : Attribute) :
    ((e.recorded direction).get? a.slot).isSome = true ↔
      valuesOf (e.recorded direction) a ≠ [] := by
  rw [h.values direction, h.recorded direction, lastValues]
  cases last : lastGiven direction steps a.slot with
  | none => simp
  | some given => simpa using values_ne_nil_of_lastGiven last

theorem valueStatements_eq (direction : Direction) :
    valueStatements e.subject (e.recorded direction) =
      (slots direction steps).flatMap fun s =>
        (lastGiven direction steps s).toList.flatMap fun given =>
          given.values.map fun v => ⟨subject, given.predicate, v.toTerm⟩ := by
  rw [← h.keys direction, Table.keys, List.flatMap_map, valueStatements, h.subject]
  apply List.flatMap_congr
  intro entry hentry
  have given := Table.get?_of_mem (h.sorted direction) hentry
  rw [← h.recorded direction, given]
  simp

theorem typeStatements_eq :
    e.typeStatements = t.rules.filterMap (typeStatement? subject) := by
  rw [typeStatements, h.rdfTypes, h.subject, ResourceType.rdfTypes, List.map_filterMap]
  apply List.filterMap_congr
  intro rule _
  cases rule <;> rfl

theorem statements_eq (direction : Direction) :
    e.statements direction = EditStep.statements t subject direction steps := by
  rw [ResourceEdit.statements, h.valueStatements_eq, h.typeStatements_eq, EditStep.statements]
  simp only [h.marked direction]

end Reflects

theorem record_comm {changes : Table Slot SlotValues} (sorted : changes.Sorted) {a b : Attribute}
    (apart : a.slot ≠ b.slot) (values others : List Value) :
    record (record changes a values) b others = record (record changes b others) a values := by
  apply Table.eq_of_get? (sorted_record (sorted_record sorted a values) b others)
    (sorted_record (sorted_record sorted b others) a values)
  intro s
  simp only [get?_record]
  by_cases here : s = a.slot
  · have away : s ≠ b.slot := here ▸ apart
    simp [here, apart]
  · simp [here]

theorem apply_comm (sorted : ∀ direction, (e.recorded direction).Sorted) {x y : EditStep}
    (independent : x.Independent y) : (e.apply x).apply y = (e.apply y).apply x := by
  cases x with
  | mark way => cases way <;> cases y with
    | mark way' => cases way' <;> rfl
    | give way' => cases way' <;> rfl
  | give way a values => cases y with
    | mark way' => cases way <;> cases way' <;> rfl
    | give way' b others =>
      by_cases same : way = way'
      · subst same
        have apart : a.slot ≠ b.slot := independent.resolve_left fun h => h rfl
        have tables := record_comm (sorted way) apart values others
        cases way
        · exact congrArg (fun table => { e with adds := table }) tables
        · exact congrArg (fun table => { e with removes := table }) tables
      · cases way <;> cases way' <;> first | rfl | exact absurd rfl same

/-- Steps that have nothing to do with each other can be exchanged anywhere in a history. -/
theorem run_swap (t : ResourceType) (subject : Node) (before after : List EditStep)
    {x y : EditStep} (independent : x.Independent y) :
    run t subject (before ++ x :: y :: after) = run t subject (before ++ y :: x :: after) := by
  have sorted := (reflects_run t subject before).sorted
  have swapped := apply_comm sorted independent
  simp only [run, List.foldl_append, List.foldl_cons] at swapped ⊢
  rw [swapped]

/-- What an edit holds is what its history gave last, and what it adds and removes are the
statements of that. -/
structure Refines (t : ResourceType) (subject : Node) (steps : List EditStep)
    (e : ResourceEdit) : Prop where
  addedValues : ∀ a, e.addedValues a = lastValues .adding steps a.slot
  removedValues : ∀ a, e.removedValues a = lastValues .removing steps a.slot
  nonempty : ∀ entry ∈ e.adds.entries ++ e.removes.entries, entry.2.values ≠ []
  changes : ∀ a, e.changes a = true ↔ e.addedValues a ≠ [] ∨ e.removedValues a ≠ []
  added : e.added = EditStep.statements t subject .adding steps
  removed : e.removed = EditStep.statements t subject .removing steps

theorem Reflects.refines (h : e.Reflects t subject steps) : e.Refines t subject steps where
  addedValues := h.values .adding
  removedValues := h.values .removing
  nonempty := fun entry hentry =>
    (List.mem_append.mp hentry).elim (h.values_ne_nil .adding entry)
      (h.values_ne_nil .removing entry)
  changes := fun a => by
    rw [ResourceEdit.changes, Bool.or_eq_true]
    exact or_congr (h.isSome_iff .adding a) (h.isSome_iff .removing a)
  added := h.statements_eq .adding
  removed := h.statements_eq .removing

/-- Every edit refines its history. Two steps of it that do not give values for the same slot in the
same direction can be exchanged, and a step has no effect on the values of slots that it gives
nothing for. -/
theorem run_refines_history (t : ResourceType) (subject : Node) (steps : List EditStep) :
    (run t subject steps).Refines t subject steps ∧
      (∀ before x y after, steps = before ++ x :: y :: after → x.Independent y →
        run t subject steps = run t subject (before ++ y :: x :: after)) ∧
      ∀ before x after, steps = before ++ x :: after → ∀ a,
        (gives? .adding a.slot x = none →
          (run t subject steps).addedValues a =
            (run t subject (before ++ after)).addedValues a) ∧
        (gives? .removing a.slot x = none →
          (run t subject steps).removedValues a =
            (run t subject (before ++ after)).removedValues a) := by
  have refines (steps : List EditStep) : (run t subject steps).Refines t subject steps :=
    (reflects_run t subject steps).refines
  refine ⟨refines steps, ?_, ?_⟩
  · rintro before x y after rfl independent
    exact run_swap t subject before after independent
  · rintro before x after rfl a
    constructor
    · intro silent
      rw [(refines _).addedValues, (refines _).addedValues, lastValues,
        lastGiven_drop before after silent, lastValues]
    · intro silent
      rw [(refines _).removedValues, (refines _).removedValues, lastValues,
        lastGiven_drop before after silent, lastValues]

end ResourceEdit

/-- People have a name and, as members of a club, another one; both attributes have the same id. -/
def personType : ResourceType :=
  ⟨⟨"Person"⟩,
    [.hasType ⟨"http://p.example/Person"⟩, .allOf [.hasType ⟨"http://p.example/Agent"⟩],
      .hasType ⟨"http://p.example/Thing"⟩], []⟩

def personName : Attribute := ⟨⟨"name"⟩, ⟨"Person"⟩, ⟨"http://p.example/name"⟩, []⟩

def memberName : Attribute := ⟨⟨"name"⟩, ⟨"Member"⟩, ⟨"http://m.example/name"⟩, []⟩

def namingSteps : List EditStep :=
  [.give .adding personName [.literal (.plain "Ann")],
    .give .removing personName [.literal (.plain "Ana")],
    .give .adding memberName [.literal (.plain "ann1"), .literal (.plain "ann2")],
    .mark .adding, .give .adding personName [.literal (.plain "Anne")],
    .give .adding memberName []]

/-- The member's names come first, as its type's id does; the person's last name counts. Naming the
member before the person is unnamed makes no difference. -/
theorem naming_refines_history :
    let subject : Node := .named ⟨"http://p.example/ann"⟩
    (ResourceEdit.run personType subject namingSteps).added =
        [⟨subject, ⟨"http://m.example/name"⟩, .literal (.plain "ann1")⟩,
          ⟨subject, ⟨"http://m.example/name"⟩, .literal (.plain "ann2")⟩,
          ⟨subject, ⟨"http://p.example/name"⟩, .literal (.plain "Anne")⟩,
          ⟨subject, Vocabulary.rdfType, .named ⟨"http://p.example/Person"⟩⟩,
          ⟨subject, Vocabulary.rdfType, .named ⟨"http://p.example/Thing"⟩⟩] ∧
      (ResourceEdit.run personType subject namingSteps).Refines personType subject namingSteps ∧
      ResourceEdit.run personType subject namingSteps =
        ResourceEdit.run personType subject
          [.give .adding personName [.literal (.plain "Ann")],
            .give .adding memberName [.literal (.plain "ann1"), .literal (.plain "ann2")],
            .give .removing personName [.literal (.plain "Ana")],
            .mark .adding, .give .adding personName [.literal (.plain "Anne")],
            .give .adding memberName []] := by
  intro subject
  have history := ResourceEdit.run_refines_history personType subject namingSteps
  have swapped := history.2.1 [.give .adding personName [.literal (.plain "Ann")]] _ _ _ rfl
    (.inl (by decide))
  exact ⟨by decide +kernel, history.1, swapped⟩

end GraphAccess
