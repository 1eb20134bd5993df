import GraphAccess.Profile.Basic
import GraphAccess.Sparql.Variable

namespace GraphAccess

/-- The name of the variable that a query binds to the resource, what is added to a variable's
name to name the variable of its RDF type, and the graph that updates go to. -/
structure Settings where
  resourceName : String
  typeSuffix : String
  graph : Option Iri
  deriving DecidableEq, Repr

namespace Settings

def defaultResourceName : String := "resource"

def defaultTypeSuffix : String := "Type"

def default : Settings := ⟨defaultResourceName, defaultTypeSuffix, none⟩

instance : Inhabited Settings := ⟨default⟩

end Settings

/-- The two places where rules are compiled: where they decide which resources belong to a type,
and where they decide which values belong to an attribute. -/
inductive CompilerName where
  | membership
  | values
  deriving DecidableEq, Repr

def CompilerName.text : CompilerName → String
  | membership => "type filter"
  | values => "attribute filter"

inductive CompileError where
  | unsupportedRule (compiler : CompilerName) (kind : Rule.Kind)
  | unknownType (id : TypeId)
  | notEmbedded (id : AttributeId)
  | embeddedRdfTypes (id : TypeId) (count : Nat)
  | variableCollision (id : AttributeId) (v : Variable)
  | invalidVariable (name : String)
  deriving DecidableEq, Repr

def CompileError.message : CompileError → String
  | unsupportedRule c k => "The " ++ c.text ++ " does not support " ++ k.name ++ " rules"
  | unknownType t => "The type " ++ t.name ++ " is not part of the profile"
  | notEmbedded a => "The attribute " ++ a.name ++ " does not refer to an embedded type"
  | embeddedRdfTypes t n =>
    "The embedded type " ++ t.name ++ " has " ++ toString n ++
      " RdfType rules, exactly one is required"
  | variableCollision a v =>
    "The attribute " ++ a.name ++ " would bind " ++ v.text ++
      ", which is reserved for the resource"
  | invalidVariable name =>
    "Invalid variable name '" ++ name ++ "': " ++ Variable.invalidNameMessage

/-- The variable of a name. -/
def namedVariable (name : String) : Except CompileError Variable :=
  match Variable.ofName? name with
  | some v => .ok v
  | none => .error (.invalidVariable name)

namespace Settings

/-- The variable of the resource. -/
def resource (s : Settings) : Except CompileError Variable := namedVariable s.resourceName

/-- The variable of the RDF types of what a variable is bound to. -/
def typeVariable (s : Settings) (v : Variable) : Except CompileError Variable :=
  namedVariable (v.name ++ s.typeSuffix)

end Settings

/-- The variable of an attribute's values. -/
def Attribute.valueVariable (a : Attribute) : Variable := ⟨a.id.name⟩

theorem namedVariable_eq_ok_iff {name : String} {v : Variable} :
    namedVariable name = .ok v ↔ Variable.isName name = true ∧ v = ⟨name⟩ := by
  unfold namedVariable
  rw [← Variable.ofName?_eq_some_iff]
  cases Variable.ofName? name <;> simp

theorem namedVariable_eq_error_iff {name : String} {e : CompileError} :
    namedVariable name = .error e ↔
      Variable.isName name = false ∧ e = .invalidVariable name := by
  unfold namedVariable
  rw [← Variable.ofName?_eq_none_iff]
  cases Variable.ofName? name <;> simp [eq_comm]

end GraphAccess
