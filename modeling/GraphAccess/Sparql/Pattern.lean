import GraphAccess.Rdf.NTriples
import GraphAccess.Sparql.Variable
import GraphAccess.Text.Pieces

namespace GraphAccess

/-- The middle of a triple pattern: the word for RDF types, or a predicate. -/
inductive Verb where
  | isA
  | predicate (iri : Iri)
  deriving DecidableEq, Repr

/-- The end of a triple pattern. -/
inductive PatternObject where
  | var (v : Variable)
  | iri (iri : Iri)
  deriving DecidableEq, Repr

@[ext] structure TriplePattern where
  subject : Variable
  verb : Verb
  object : PatternObject
  deriving DecidableEq, Repr

def Verb.text : Verb → String
  | isA => "a"
  | predicate iri => iri.bracketed

def PatternObject.text : PatternObject → String
  | var v => v.text
  | iri i => i.bracketed

def TriplePattern.text (t : TriplePattern) : String :=
  t.subject.text ++ " " ++ t.verb.text ++ " " ++ t.object.text

/-- What stands between the parts of a pattern. -/
inductive Separator where
  /-- Between the rules of a conjunction. -/
  | dot
  /-- Between the groups of merged alternatives. -/
  | lineBreak
  /-- Between the lines of a template. -/
  | statementEnd
  deriving DecidableEq, Repr

def Separator.text : Separator → String
  | dot => ". "
  | lineBreak => "\n"
  | statementEnd => " .\n"

/-- A graph pattern, with what separates and encloses its parts. -/
inductive Pattern where
  | triple (t : TriplePattern)
  /-- Keeps the solutions that bind the variable to this resource. -/
  | equals (v : Variable) (iri : Iri)
  /-- Is solved on its own. -/
  | group (body : Pattern)
  | sequence (separator : Separator) (parts : List Pattern)
  deriving Repr

namespace Pattern

/-- A comparison as a filter of the group it stands in. -/
def equalsText (v : Variable) (iri : Iri) : String :=
  "FILTER (" ++ v.text ++ " = " ++ iri.bracketed ++ ")"

mutual

def text : Pattern → String
  | triple t => t.text
  | equals v iri => equalsText v iri
  | group body => Text.braced (text body)
  | sequence separator parts => separator.text.intercalate (texts parts)

def texts : List Pattern → List String
  | [] => []
  | p :: ps => text p :: texts ps

end

mutual

/-- The triple patterns at the leaves. -/
def triples : Pattern → List TriplePattern
  | triple t => [t]
  | equals _ _ => []
  | group body => triples body
  | sequence _ parts => triplesOfAll parts

def triplesOfAll : List Pattern → List TriplePattern
  | [] => []
  | p :: ps => triples p ++ triplesOfAll ps

end

theorem texts_eq_map (ps : List Pattern) : texts ps = ps.map text := by
  induction ps with
  | nil => rfl
  | cons p ps ih => rw [texts, ih, List.map_cons]

theorem triplesOfAll_eq_flatMap (ps : List Pattern) :
    triplesOfAll ps = ps.flatMap triples := by
  induction ps with
  | nil => rfl
  | cons p ps ih => rw [triplesOfAll, ih, List.flatMap_cons]

theorem text_sequence (separator : Separator) (parts : List Pattern) :
    (sequence separator parts).text = separator.text.intercalate (parts.map text) := by
  rw [text, texts_eq_map]

theorem triples_sequence (separator : Separator) (parts : List Pattern) :
    (sequence separator parts).triples = parts.flatMap triples := by
  rw [triples, triplesOfAll_eq_flatMap]

end Pattern

end GraphAccess
