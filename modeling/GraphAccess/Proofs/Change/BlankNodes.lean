import GraphAccess.Proofs.Change.Nesting
import GraphAccess.Proofs.Compilation.Walk

namespace GraphAccess

/-- The statement has a blank node as its subject or its object. -/
def Triple.HasBlank (t : Triple) : Prop :=
  (∃ label, t.subject = .blank label) ∨ ∃ label, t.object = .blank label

theorem Triple.isSome_blank?_iff {t : Triple} : t.blank?.isSome = true ↔ t.HasBlank := by
  obtain ⟨s, p, o⟩ := t
  cases s <;> cases o <;> simp [blank?, HasBlank]

theorem Triple.failure?_sparql (t : Triple) :
    failure? t.sparql = t.blank?.map ChangeError.blankNode := by
  ext e
  rw [failure?_eq_some_iff, Triple.sparql_eq_error_iff, Option.map_eq_some_iff]
  simp only [eq_comm]

/-- The first blank node of some statements. -/
def firstBlank? (ts : List Triple) : Option String := ts.findSome? Triple.blank?

theorem firstBlank?_append (ts us : List Triple) :
    firstBlank? (ts ++ us) = (firstBlank? ts).or (firstBlank? us) :=
  List.findSome?_append

theorem firstBlank?_eq_some_of_forall {ts : List Triple} {b : Option String} {label : String}
    (same : ∀ t ∈ ts, t.blank? = b) : firstBlank? ts = some label ↔ b = some label ∧ ts ≠ [] := by
  cases ts with
  | nil => simp [firstBlank?]
  | cons t ts =>
    cases b with
    | none =>
      have none : firstBlank? (t :: ts) = none := List.findSome?_eq_none_iff.mpr same
      simp [none]
    | some first =>
      have head : t.blank? = some first := same t List.mem_cons_self
      simp [firstBlank?, head]

theorem firstBlank?_eq_none_iff {ts : List Triple} :
    firstBlank? ts = none ↔ ∀ t ∈ ts, ¬t.HasBlank := by
  simp [firstBlank?, List.findSome?_eq_none_iff, ← Triple.isSome_blank?_iff]

namespace Update

theorem failure?_operation (operation : Operation) (graph : Option Iri) (ts : List Triple) :
    failure? (Update.operation operation graph ts) =
      (firstBlank? ts).map ChangeError.blankNode := by
  have statements : failure? (ts.mapM Triple.sparql) =
      (firstBlank? ts).map ChangeError.blankNode := by
    rw [failure?_mapM, firstBlank?, List.map_findSome?]
    exact congrArg (ts.findSome? ·) (funext Triple.failure?_sparql)
  rw [Update.operation]
  split
  · next none =>
    subst none
    rfl
  · rw [failure?_map, statements]

/-- An update fails as its removals do, or else as its additions do. -/
theorem failure?_text (graph : Option Iri) (removed added : List Triple) :
    failure? (text graph removed added) =
      (firstBlank? (removed ++ added)).map ChangeError.blankNode := by
  have removals := failure?_operation .deleteData graph removed
  have additions := failure?_operation .insertData graph added
  rw [firstBlank?_append, Option.map_or, ← removals, ← additions, text]
  cases Update.operation .deleteData graph removed with
  | error e => rfl
  | ok deletes => cases Update.operation .insertData graph added <;> rfl

theorem text_eq_error_iff {graph : Option Iri} {removed added : List Triple} {e : ChangeError} :
    text graph removed added = .error e ↔
      ∃ label, firstBlank? (removed ++ added) = some label ∧ e = .blankNode label := by
  rw [← failure?_eq_some_iff, failure?_text, Option.map_eq_some_iff]
  simp only [eq_comm]

theorem text_ok_iff {graph : Option Iri} {removed added : List Triple} :
    (∃ s, text graph removed added = .ok s) ↔ ∀ t ∈ removed ++ added, ¬t.HasBlank := by
  rw [← failure?_eq_none_iff, failure?_text, Option.map_eq_none_iff, firstBlank?_eq_none_iff]

end Update

/-- The label of a blank node. -/
def Node.label? : Node → Option String
  | .named _ => none
  | .blank label => some label

theorem Node.label?_eq_some_iff {n : Node} {label : String} :
    n.label? = some label ↔ n = .blank label := by
  cases n <;> simp [label?]

namespace ResourceEdit

variable {e : ResourceEdit}

/-- No value is a blank node, so that a statement of an edit has one exactly if its subject is. -/
theorem blank?_of_mem_statements {direction : Direction} {x : Triple}
    (h : x ∈ e.statements direction) : x.blank? = e.subject.label? := by
  obtain ⟨predicate, v, rfl⟩ := exists_value_of_mem_statements h
  cases e.subject <;> cases v <;> rfl

/-- All that the edit of a blank node says is about this blank node. -/
theorem update_eq_error_iff {graph : Option Iri} {err : ChangeError} :
    (ChangeSet.edit e).update graph = .error err ↔
      ∃ label, e.subject = .blank label ∧ (ChangeSet.edit e).hasChanges = true ∧
        err = .blankNode label := by
  have same : ∀ x ∈ e.removed ++ e.added, x.blank? = e.subject.label? := by
    intro x hx
    rcases List.mem_append.mp hx with removed | added
    · have statement : x ∈ e.statements .removing := removed
      exact blank?_of_mem_statements statement
    · have statement : x ∈ e.statements .adding := added
      exact blank?_of_mem_statements statement
  have changes : (ChangeSet.edit e).hasChanges = true ↔ e.removed ++ e.added ≠ [] :=
    ChangeSet.hasChanges_iff_append_ne_nil
  have first (label : String) : firstBlank? (e.removed ++ e.added) = some label ↔
      e.subject = .blank label ∧ (ChangeSet.edit e).hasChanges = true := by
    rw [firstBlank?_eq_some_of_forall same, Node.label?_eq_some_iff, changes]
  have text : (ChangeSet.edit e).update graph = Update.text graph e.removed e.added := rfl
  simp only [text, Update.text_eq_error_iff, first, and_assoc]

end ResourceEdit

namespace ChangeSet

/-- An update fails as soon as any leaf says something of a blank node. -/
theorem update_fails_iff {c : ChangeSet} {graph : Option Iri} :
    (∃ e, c.update graph = .error e) ↔
      ∃ leaf ∈ c.leaves, ∃ t ∈ leaf.removed ++ leaf.added, t.HasBlank := by
  have fails : (∃ e, c.update graph = .error e) ↔ ¬∃ s, c.update graph = .ok s := by
    cases c.update graph <;> simp
  rw [fails, update, Update.text_ok_iff, removed_eq_flatMap_leaves, added_eq_flatMap_leaves]
  simp only [List.mem_append, List.mem_flatMap, not_forall, not_not, exists_prop]
  constructor
  · rintro ⟨t, ⟨leaf, hleaf, ht⟩ | ⟨leaf, hleaf, ht⟩, blank⟩
    · exact ⟨leaf, hleaf, t, .inl ht, blank⟩
    · exact ⟨leaf, hleaf, t, .inr ht, blank⟩
  · rintro ⟨leaf, hleaf, t, ht, blank⟩
    exact ⟨t, ht.imp (⟨leaf, hleaf, ·⟩) (⟨leaf, hleaf, ·⟩), blank⟩

theorem graph_ok_iff {c : ChangeSet} : (∃ g, c.graph = .ok g) ↔ c.removed = [] := by
  unfold graph
  split
  · next none => simp [none]
  · next some => simp [some]

theorem graph_ne_blankNode (c : ChangeSet) (label : String) :
    c.graph ≠ .error (.blankNode label) := by
  unfold graph
  split <;> simp

/-- The update of some statements fails exactly if one of them has a blank node, and names the first
one: removals before additions, subjects before objects. So the edit of a resource fails exactly if
the resource is a blank node and there are changes, and merged changes fail as soon as any leaf says
something of a blank node. Whether there is a graph does not depend on blank nodes. -/
theorem blank_nodes_stop_updates :
    (∀ graph removed added, (∀ e, Update.text graph removed added = .error e ↔
        ∃ label, firstBlank? (removed ++ added) = some label ∧ e = .blankNode label) ∧
      ((∃ s, Update.text graph removed added = .ok s) ↔
        ∀ t ∈ removed ++ added, ¬t.HasBlank)) ∧
    (∀ t subject steps, let c := edit (.run t subject steps)
      (∀ e, c.update none = .error e ↔
        ∃ label, subject = .blank label ∧ c.hasChanges = true ∧ e = .blankNode label) ∧
      (∀ settings e, c.updateWith settings = .error e ↔
        ∃ label, subject = .blank label ∧ c.hasChanges = true ∧ e = .blankNode label)) ∧
    ∀ c : ChangeSet,
      ((∃ e, c.update none = .error e) ↔
        ∃ leaf ∈ c.leaves, ∃ t ∈ leaf.removed ++ leaf.added, t.HasBlank) ∧
      (∀ settings, (∃ e, c.updateWith settings = .error e) ↔
        ∃ leaf ∈ c.leaves, ∃ t ∈ leaf.removed ++ leaf.added, t.HasBlank) ∧
      ((∃ g, c.graph = .ok g) ↔ c.removed = []) ∧
      ∀ label, c.graph ≠ .error (.blankNode label) := by
  refine ⟨fun graph removed added => ⟨fun e => Update.text_eq_error_iff, Update.text_ok_iff⟩,
    fun t subject steps => ?_, fun c => ⟨update_fails_iff, fun settings => update_fails_iff,
      graph_ok_iff, graph_ne_blankNode c⟩⟩
  have of : (ResourceEdit.run t subject steps).subject = subject :=
    (ResourceEdit.reflects_run t subject steps).subject
  have fails (graph : Option Iri) (e : ChangeError) :
      (edit (.run t subject steps)).update graph = .error e ↔
        ∃ label, subject = .blank label ∧ (edit (.run t subject steps)).hasChanges = true ∧
          e = .blankNode label := by
    rw [ResourceEdit.update_eq_error_iff, of]
  exact ⟨fails none, fun settings => fails settings.graph⟩

/-- What could be removed is not written if what is added has a blank node. -/
example (label : String) (p : Iri) :
    Update.text none [⟨.named p, p, .named p⟩] [⟨.named p, p, .blank label⟩] =
      .error (.blankNode label) :=
  rfl

end ChangeSet

end GraphAccess
