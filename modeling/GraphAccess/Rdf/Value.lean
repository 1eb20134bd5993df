import GraphAccess.Iri.Reference
import GraphAccess.LanguageTag

namespace GraphAccess

/-- A value that an attribute can hold; a blank node is none, as no query could name it. -/
inductive Value where
  | resource (iri : Iri)
  | literal (literal : Literal)
  deriving DecidableEq, Repr

namespace Value

def isResource : Value → Bool
  | resource _ => true
  | literal _ => false

def toTerm : Value → Term
  | resource iri => .named iri
  | literal l => .literal l

theorem toTerm_injective {v w : Value} (h : v.toTerm = w.toTerm) : v = w := by
  cases v <;> cases w <;> simp_all [toTerm]

/-- The value of a resource's IRI, which has to be absolute. -/
def ofIri (text : String) : Except IriText.IriError Value := (Iri.parse text).map resource

/-- The value of a text in a language, whose tag has to follow the grammar. -/
def ofTagged (text tag : String) : Except LanguageTag.TagError Value :=
  (LanguageTag.normalize tag).map fun tag => literal (.tagged text tag)

end Value

end GraphAccess
