import GraphAccess.Collection.Ascending
import GraphAccess.Rdf.Graph

namespace GraphAccess.NTriples

/-- The last hexadecimal digit of a number. -/
def hexDigit (n : Nat) : Char := (n % 16).digitChar.toUpper

/-- The four last hexadecimal digits of a number. -/
def fourHexDigits (n : Nat) : List Char :=
  [hexDigit (n / 4096), hexDigit (n / 256), hexDigit (n / 16), hexDigit n]

/-- A character between the quotes of a literal. -/
def escapeChar (c : Char) : List Char :=
  if c = '\x08' then ['\\', 'b']
  else if c = '\t' then ['\\', 't']
  else if c = '\n' then ['\\', 'n']
  else if c = '\x0c' then ['\\', 'f']
  else if c = '\r' then ['\\', 'r']
  else if c = '"' then ['\\', '"']
  else if c = '\\' then ['\\', '\\']
  else if c.toNat < 0x20 ∨ c.toNat = 0x7f then '\\' :: 'u' :: fourHexDigits c.toNat
  else [c]

def quoted (s : String) : String :=
  "\"" ++ String.ofList (s.toList.flatMap escapeChar) ++ "\""

end GraphAccess.NTriples

namespace GraphAccess

def Iri.bracketed (iri : Iri) : String := "<" ++ iri.text ++ ">"

def blankLabel (label : String) : String := "_:" ++ label

def Node.nTriples : Node → String
  | .named iri => iri.bracketed
  | .blank label => blankLabel label

/-- The datatype of plain and of tagged literals is not written. -/
def Literal.nTriples : Literal → String
  | .plain v => NTriples.quoted v
  | .tagged v l => NTriples.quoted v ++ "@" ++ l
  | .typed v d _ => NTriples.quoted v ++ "^^" ++ d.bracketed

def Term.nTriples : Term → String
  | .named iri => iri.bracketed
  | .blank label => blankLabel label
  | .literal l => l.nTriples

/-- Without the final dot. -/
def Triple.nTriples (t : Triple) : String :=
  t.subject.nTriples ++ " " ++ t.predicate.bracketed ++ " " ++ t.object.nTriples

/-- The lines of a graph's statements, ascending, each once. -/
def Graph.lines (g : Graph) : List String := sortDistinct (g.triples.map Triple.nTriples)

end GraphAccess
