import GraphAccess.Proofs.Change.Merging
import GraphAccess.Proofs.Update.Decoding
import Mathlib.Data.Finset.Card
import Mathlib.Data.Finset.Dedup

namespace GraphAccess

open Sparql

/-- A graph made of statements has as many as there are different ones. -/
theorem Graph.size_ofTriples (ts : List Triple) : (ofTriples ts).size = ts.toFinset.card := by
  have same : ts.eraseDups.toFinset = ts.toFinset := by
    ext t
    simp
  rw [← same, List.toFinset_card_of_nodup (nodup_eraseDups ts)]
  rfl

namespace Update

theorem decode_empty : decode "" = some [] := by
  simp [decode, lex, tokens_nil, readRequests_nil]

/-- Only an update without statements has no text. -/
theorem eq_empty_iff_of_text {graph : Option Iri} {removed added : List Triple} {s : String}
    (written : text graph removed added = .ok s)
    (read : decode s = some (requests graph removed added)) : s = "" ↔ removed ++ added = [] := by
  constructor
  · rintro rfl
    rw [decode_empty] at read
    by_contra nonempty
    exact requests_ne_nil nonempty (Option.some.inj read).symm
  · intro empty
    obtain ⟨rfl, rfl⟩ := List.append_eq_nil_iff.mp empty
    rw [text, operation_nil, operation_nil] at written
    cases written
    rfl

end Update

namespace ChangeSet

variable {c : ChangeSet}

theorem graph_of_removed_nil (h : c.removed = []) : c.graph = .ok (.ofTriples c.added) := by
  rw [graph, if_pos h]

theorem graph_eq_error_iff {e : ChangeError} :
    c.graph = .error e ↔ c.removed ≠ [] ∧ e = .removalsInGraph c.removed.length := by
  unfold graph
  split
  · next none => simp [none]
  · next some => simp [some, eq_comm]

/-- A change has no graph exactly if it removes statements, all of which are counted. If it removes
none and all that it adds can be written, in a graph of the store or in none, then its update is
read back as the statements that its graph holds, and without any the update has no text. -/
theorem graph_agrees_with_update (c : ChangeSet) {graph : Option Iri}
    (graphIri : ∀ iri ∈ graph, isIriRef iri = true) :
    (∀ e, c.graph = .error e ↔ c.removed ≠ [] ∧ e = .removalsInGraph c.removed.length) ∧
      (c.removed = [] → (∀ t ∈ c.added, t.isWritable = true) →
        ∃ g s rs, c.graph = .ok g ∧ c.update graph = .ok s ∧ Update.decode s = some rs ∧
          (s = "" ↔ c.added = []) ∧ Update.statements .deleteData rs = [] ∧
          (∀ t, t ∈ Update.statements .insertData rs ↔ t ∈ g) ∧
          g.triples.Nodup ∧ g.size = c.added.toFinset.card) := by
  refine ⟨fun e => graph_eq_error_iff, fun none writable => ?_⟩
  have nothing : ∀ t ∈ ([] : List Triple), t.isWritable = true := List.forall_mem_nil _
  obtain ⟨s, written, read⟩ := Update.decode_text graphIri nothing writable
  obtain ⟨deleted, inserted⟩ := Update.statements_requests graph [] c.added
  have empty := Update.eq_empty_iff_of_text written read
  refine ⟨_, s, _, graph_of_removed_nil none, ?_, read, empty, deleted, ?_,
    Graph.nodup_ofTriples c.added, Graph.size_ofTriples c.added⟩
  · rw [update, none, written]
  · intro t
    rw [inserted, Graph.mem_ofTriples]

/-- Notes that are saved twice, before and after the new resource `bobCreated`. -/
def notesTwice : ChangeSet :=
  .merged [.statements Update.noteStatements [],
    .merged [.edit bobCreated, .statements Update.noteStatements []]]

/-- The update says seven things, of which the graph holds the five different ones. -/
theorem notes_twice_graph :
    notesTwice.removed = [] ∧ (∀ t ∈ notesTwice.added, t.isWritable = true) ∧
      ∃ g s rs, notesTwice.graph = .ok g ∧ notesTwice.update none = .ok s ∧
        Update.decode s = some rs ∧ (∀ t, t ∈ Update.statements .insertData rs ↔ t ∈ g) ∧
        notesTwice.added.length = 7 ∧ g.size = 5 := by
  have keeps : notesTwice.removed = [] := by decide +kernel
  have writable : ∀ t ∈ notesTwice.added, t.isWritable = true := by decide +kernel
  have graphIri : ∀ iri ∈ (none : Option Iri), isIriRef iri = true := by simp
  obtain ⟨g, s, rs, made, written, read, _, _, same, _, size⟩ :=
    (graph_agrees_with_update notesTwice graphIri).2 keeps writable
  have many : notesTwice.added.length = 7 := by decide +kernel
  have different : notesTwice.added.toFinset.card = 5 := by decide +kernel
  exact ⟨keeps, writable, g, s, rs, made, written, read, same, many, size.trans different⟩

end ChangeSet

end GraphAccess
