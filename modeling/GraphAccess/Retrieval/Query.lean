import GraphAccess.Retrieval.Alternative

namespace GraphAccess

/-- The optional part of a query that retrieves the values of one attribute. -/
structure AttributeBlock where
  /-- From the resource to a value. -/
  edge : TriplePattern
  alternatives : List Alternative
  deriving Repr

/-- Retrieves resources and the values of their attributes. -/
structure ResourceQuery where
  resource : Variable
  resourceType : Variable
  /-- Which resources are retrieved. -/
  membership : Pattern
  /-- The only resource to retrieve, if it is given. -/
  restriction : Option Iri
  blocks : List AttributeBlock
  deriving Repr

namespace AttributeBlock

/-- The lines that the block adds to the template. An alternative's text is taken apart into
statements. -/
def templateLines (b : AttributeBlock) : List String :=
  b.edge.text :: b.alternatives.flatMap fun a => Text.statements a.text.template

/-- The group of a condition, moved to the right. -/
def conditionText (condition : String) : String :=
  if condition = "" then "\x7b \x7d" else Text.braced (Text.indent condition)

def alternativesText (as : List Alternative) : String :=
  " UNION ".intercalate (as.map fun a => conditionText a.text.condition)

def text (b : AttributeBlock) : String :=
  "OPTIONAL \x7b\n    " ++ b.edge.text ++ " ." ++
    (if b.alternatives = [] then "" else "\n    " ++ alternativesText b.alternatives) ++
    "\n  \x7d"

end AttributeBlock

namespace ResourceQuery

/-- The statement of the resource's RDF type. -/
def typeTriple (q : ResourceQuery) : TriplePattern := ⟨q.resource, .isA, .var q.resourceType⟩

def templateLines (q : ResourceQuery) : List String :=
  q.typeTriple.text :: q.blocks.flatMap AttributeBlock.templateLines

/-- The parts of the query's pattern. A membership that demands nothing is left out. -/
def patternLines (q : ResourceQuery) : List String :=
  (if q.membership.text = "" then [] else [q.membership.text]) ++
    (q.restriction.map (Pattern.equalsText q.resource)).toList ++
    ["OPTIONAL " ++ Text.braced q.typeTriple.text] ++
    q.blocks.map AttributeBlock.text

def joinLines (lines : List String) : String := " .\n  ".intercalate lines

def text (q : ResourceQuery) : String :=
  "CONSTRUCT \x7b\n  " ++ joinLines q.templateLines ++ " .\n\x7d\nWHERE \x7b\n  " ++
    joinLines q.patternLines ++ "\n\x7d"

end ResourceQuery

/-- The block of an attribute. Its variable may be none that the query binds already. -/
def Attribute.block (registry : Profile) (settings : Settings) (resource resourceType : Variable)
    (a : Attribute) : Except CompileError AttributeBlock :=
  if a.valueVariable = resource ∨ a.valueVariable = resourceType then
    .error (.variableCollision a.id a.valueVariable)
  else
    (a.alternatives registry settings).map fun alternatives =>
      ⟨⟨resource, .predicate a.predicate, .var a.valueVariable⟩, alternatives⟩

/-- The query for the resources of a type, or for one of them. -/
def Profile.query (registry : Profile) (settings : Settings) (t : ResourceType)
    (restriction : Option Iri) : Except CompileError ResourceQuery := do
  let resource ← settings.resource
  let resourceType ← settings.typeVariable resource
  let membership ← t.membership registry resource
  let blocks ← t.attributes.mapM (Attribute.block registry settings resource resourceType)
  .ok ⟨resource, resourceType, membership, restriction, blocks⟩

end GraphAccess
