namespace GraphAccess

/-- An IRI by its text. -/
@[ext] structure Iri where
  text : String
  deriving DecidableEq, Repr

namespace Vocabulary

def rdf (name : String) : Iri := ⟨"http://www.w3.org/1999/02/22-rdf-syntax-ns#" ++ name⟩
def xsd (name : String) : Iri := ⟨"http://www.w3.org/2001/XMLSchema#" ++ name⟩
def skos (name : String) : Iri := ⟨"http://www.w3.org/2004/02/skos/core#" ++ name⟩

def rdfType : Iri := rdf "type"
def rdfLangString : Iri := rdf "langString"
def xsdString : Iri := xsd "string"
def skosInScheme : Iri := skos "inScheme"

end Vocabulary

/-- What a statement speaks about: a named resource or a blank node. -/
inductive Node where
  | named (iri : Iri)
  | blank (label : String)
  deriving DecidableEq, Repr

/-- A literal typed as a string is the plain one of its text. -/
inductive Literal where
  | plain (value : String)
  | tagged (value language : String)
  | typed (value : String) (datatype : Iri) (notString : datatype ≠ Vocabulary.xsdString)
  deriving DecidableEq, Repr

namespace Literal

/-- The literal of a datatype; strings have no written datatype. -/
def ofDatatype (value : String) (datatype : Iri) : Literal :=
  if h : datatype = Vocabulary.xsdString then plain value else typed value datatype h

/-- The lexical form. -/
def value : Literal → String
  | plain v => v
  | tagged v _ => v
  | typed v _ _ => v

def language? : Literal → Option String
  | plain _ => none
  | tagged _ l => some l
  | typed _ _ _ => none

def datatype : Literal → Iri
  | plain _ => Vocabulary.xsdString
  | tagged _ _ => Vocabulary.rdfLangString
  | typed _ d _ => d

/-- A literal without a language is the one of its lexical form and its datatype. -/
theorem eq_ofDatatype {l : Literal} (h : l.language? = none) :
    l = ofDatatype l.value l.datatype := by
  cases l with
  | plain v => simp [ofDatatype, value, datatype]
  | tagged v language => cases h
  | typed v d notString => simp [ofDatatype, value, datatype, notString]

end Literal

/-- What a statement says of its subject. -/
inductive Term where
  | named (iri : Iri)
  | blank (label : String)
  | literal (literal : Literal)
  deriving DecidableEq, Repr

namespace Term

def ofNode : Node → Term
  | .named iri => named iri
  | .blank label => blank label

theorem ofNode_injective {m n : Node} (h : ofNode m = ofNode n) : m = n := by
  cases m <;> cases n <;> simp_all [ofNode]

end Term

/-- One statement of a graph. -/
@[ext] structure Triple where
  subject : Node
  predicate : Iri
  object : Term
  deriving DecidableEq, Repr

end GraphAccess
