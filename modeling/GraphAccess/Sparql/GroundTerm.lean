import GraphAccess.Rdf.NTriples
import GraphAccess.Text.LongQuoted

namespace GraphAccess

/-- Why a change makes no update or no graph. -/
inductive ChangeError where
  | blankNode (label : String)
  | removalsInGraph (count : Nat)
  deriving DecidableEq, Repr

def ChangeError.message : ChangeError → String
  | blankNode label =>
    "The blank node " ++ blankLabel label ++ " cannot be serialized into SPARQL"
  | removalsInGraph n =>
    "The delta contains " ++ toString n ++
      " removed statements that cannot be represented in a graph"

/-- A literal with its language or its datatype, even if that is the one of plain strings. -/
def Literal.sparql (l : Literal) : String :=
  LongQuoted.quote l.value ++
    match l.language? with
    | some language => "@" ++ language
    | none => "^^" ++ l.datatype.bracketed

/-- A blank node has no form of its own, as it would stand for a new one in an update. -/
def Node.sparql : Node → Except ChangeError String
  | .named iri => .ok iri.bracketed
  | .blank label => .error (.blankNode label)

def Term.sparql : Term → Except ChangeError String
  | .named iri => .ok iri.bracketed
  | .literal l => .ok l.sparql
  | .blank label => .error (.blankNode label)

def Triple.sparql (t : Triple) : Except ChangeError String := do
  let subject ← t.subject.sparql
  let object ← t.object.sparql
  .ok (subject ++ " " ++ t.predicate.bracketed ++ " " ++ object ++ " .")

/-- The first blank node of a statement. -/
def Triple.blank? (t : Triple) : Option String :=
  match t.subject, t.object with
  | .blank label, _ => some label
  | _, .blank label => some label
  | _, _ => none

theorem Triple.sparql_eq_error_iff {t : Triple} {e : ChangeError} :
    t.sparql = .error e ↔ ∃ label, t.blank? = some label ∧ e = .blankNode label := by
  obtain ⟨s, p, o⟩ := t
  cases s <;> cases o <;>
    simp [Triple.sparql, Triple.blank?, Node.sparql, Term.sparql, bind, Except.bind, eq_comm]

end GraphAccess
