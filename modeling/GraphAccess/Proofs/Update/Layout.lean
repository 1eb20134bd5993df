import GraphAccess.Proofs.Update.Decoding

namespace GraphAccess.Update

/-- The text of an operation on statements, which has a line for each of them. -/
def Operation.Writes (operation : Operation) (graph : Option Iri) (ts : List Triple) (s : String) :
    Prop :=
  ∃ lines, ts.mapM Triple.sparql = .ok lines ∧ s = operationText operation graph lines

/-- The text of an update: an operation for what is removed and behind it one for what is added,
each only if there is anything of the kind. -/
inductive Consists (graph : Option Iri) : List Triple → List Triple → String → Prop
  | nothing : Consists graph [] [] ""
  | removal {removed : List Triple} {s : String} (some : removed ≠ [])
    (deletes : Operation.deleteData.Writes graph removed s) : Consists graph removed [] s
  | addition {added : List Triple} {s : String} (some : added ≠ [])
    (inserts : Operation.insertData.Writes graph added s) : Consists graph [] added s
  | both {removed added : List Triple} {s t : String} (someRemoved : removed ≠ [])
    (someAdded : added ≠ []) (deletes : Operation.deleteData.Writes graph removed s)
    (inserts : Operation.insertData.Writes graph added t) :
    Consists graph removed added (s ++ ";\n" ++ t)

variable {graph : Option Iri} {removed added ts : List Triple} {s : String}

theorem operation_eq_ok_iff {operation : Operation} {parts : List String} :
    Update.operation operation graph ts = .ok parts ↔
      (ts = [] ∧ parts = []) ∨ (ts ≠ [] ∧ ∃ s, operation.Writes graph ts s ∧ parts = [s]) := by
  unfold Update.operation
  split
  · next none => simp [none, eq_comm]
  · next some =>
    rw [map_eq_ok_iff]
    simp only [some, false_and, false_or, ne_eq, not_false_eq_true, true_and, Operation.Writes]
    constructor
    · rintro ⟨lines, written, rfl⟩
      exact ⟨_, ⟨lines, written, rfl⟩, rfl⟩
    · rintro ⟨_, ⟨lines, written, rfl⟩, rfl⟩
      exact ⟨lines, written, rfl⟩

theorem text_eq_ok_iff : text graph removed added = .ok s ↔ Consists graph removed added s := by
  simp only [text, bind_eq_ok_iff, operation_eq_ok_iff, Except.ok.injEq]
  -- Either operation is left out or written, which makes the four cases.
  constructor
  · rintro ⟨_, ⟨rfl, rfl⟩ | ⟨someRemoved, d, deletes, rfl⟩, _, ⟨rfl, rfl⟩ |
      ⟨someAdded, i, inserts, rfl⟩, rfl⟩
    · exact .nothing
    · simpa using Consists.addition someAdded inserts
    · simpa using Consists.removal someRemoved deletes
    · simpa using Consists.both someRemoved someAdded deletes inserts
  · rintro (_ | ⟨some, deletes⟩ | ⟨some, inserts⟩ | ⟨someRemoved, someAdded, deletes, inserts⟩)
    · exact ⟨[], .inl ⟨rfl, rfl⟩, [], .inl ⟨rfl, rfl⟩, rfl⟩
    · exact ⟨_, .inr ⟨some, _, deletes, rfl⟩, [], .inl ⟨rfl, rfl⟩, by simp⟩
    · exact ⟨[], .inl ⟨rfl, rfl⟩, _, .inr ⟨some, _, inserts, rfl⟩, by simp⟩
    · exact ⟨_, .inr ⟨someRemoved, _, deletes, rfl⟩, _, .inr ⟨someAdded, _, inserts, rfl⟩, by simp⟩

theorem Operation.Writes.ne_empty {operation : Operation} (h : operation.Writes graph ts s) :
    s ≠ "" := by
  obtain ⟨lines, _, rfl⟩ := h
  rintro empty
  have chars := congrArg String.toList empty
  cases operation <;> cases graph <;> simp [operationText, Operation.text] at chars

theorem Consists.eq_empty_iff (h : Consists graph removed added s) :
    s = "" ↔ removed ++ added = [] := by
  cases h with
  | nothing => simp
  | removal some deletes => simp [some, deletes.ne_empty]
  | addition some inserts => simp [some, inserts.ne_empty]
  | both someRemoved _ deletes _ => simp [someRemoved]

/-- The operations of an update, as far as there is anything to remove and to add. -/
def operations (removed added : List Triple) : List Operation :=
  (if removed = [] then [] else [.deleteData]) ++ if added = [] then [] else [.insertData]

theorem map_operation_requests (graph : Option Iri) (removed added : List Triple) :
    (requests graph removed added).map Request.operation = operations removed added := by
  unfold requests operations
  split <;> split <;> rfl

end GraphAccess.Update
