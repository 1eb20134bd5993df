import GraphAccess.Sparql.GroundTerm

namespace GraphAccess.Update

inductive Operation where
  | deleteData
  | insertData
  deriving DecidableEq, Repr

def Operation.text : Operation → String
  | deleteData => "DELETE DATA"
  | insertData => "INSERT DATA"

def line (indent statement : String) : String := indent ++ statement ++ "\n"

/-- An operation around the lines of its statements. -/
def operationText (operation : Operation) (graph : Option Iri) (statements : List String) :
    String :=
  match graph with
  | none =>
    operation.text ++ " \x7b\n" ++ String.join (statements.map (line "  ")) ++ "\x7d"
  | some graph =>
    operation.text ++ " \x7b\n  GRAPH " ++ graph.bracketed ++ " \x7b\n" ++
      String.join (statements.map (line "    ")) ++ "  \x7d\n\x7d"

/-- The operation on some statements, unless there are none. -/
def operation (operation : Operation) (graph : Option Iri) (ts : List Triple) :
    Except ChangeError (List String) :=
  if ts = [] then .ok []
  else (ts.mapM Triple.sparql).map fun statements => [operationText operation graph statements]

/-- The update that removes some statements and adds others. -/
def text (graph : Option Iri) (removed added : List Triple) : Except ChangeError String := do
  let deletes ← operation .deleteData graph removed
  let inserts ← operation .insertData graph added
  .ok (";\n".intercalate (deletes ++ inserts))

end GraphAccess.Update
