import GraphAccess.Collection.Ascending
import GraphAccess.Profile.Rule

namespace GraphAccess

/-- Names an attribute of a type. -/
@[ext] structure AttributeId where
  name : String
  deriving DecidableEq, Repr

instance : Ord AttributeId := ⟨compareOn AttributeId.name⟩

instance : Std.TransOrd AttributeId :=
  inferInstanceAs (Std.TransCmp (compareOn AttributeId.name))

instance : Std.LawfulEqOrd AttributeId where
  eq_of_compare {a b} h :=
    AttributeId.ext (Std.LawfulEqOrd.eq_of_compare (a := a.name) (b := b.name) h)

/-- A property of the resources of a type. -/
structure Attribute where
  id : AttributeId
  owner : TypeId
  predicate : Iri
  rules : List Rule
  deriving DecidableEq, Repr

namespace Attribute

/-- The rule for the attribute's values. -/
def range? (a : Attribute) : Option Rule := a.rules.findSome? Rule.range?

def minCount? (a : Attribute) : Option Nat := a.rules.findSome? Rule.minCount?

def maxCount? (a : Attribute) : Option Nat := a.rules.findSome? Rule.maxCount?

/-- An attribute has several values unless it may have one at most. -/
def isMultiValued (a : Attribute) : Bool :=
  match a.maxCount? with
  | some n => 1 < n
  | none => true

end Attribute

/-- A type of resources: the rules its resources keep, all of them, and its attributes. -/
structure ResourceType where
  id : TypeId
  rules : List Rule
  attributes : List Attribute
  deriving DecidableEq, Repr

namespace ResourceType

/-- The RDF types that the type's rules demand at once. -/
def rdfTypes (t : ResourceType) : List Iri := t.rules.filterMap Rule.rdfType?

/-- The rules that subclasses keep too. -/
def inheritedRules (t : ResourceType) : List Rule :=
  t.rules.filter fun rule => rule.rdfType? = none

/-- The types that the type's own rules demand to be superclasses. -/
def superclasses (t : ResourceType) : List TypeId := t.rules.flatMap Rule.superclasses

/-- The types that the rules of the type and of its attributes refer to. -/
def references (t : ResourceType) : List TypeId :=
  (t.rules ++ t.attributes.flatMap Attribute.rules).flatMap Rule.references

def attribute? (t : ResourceType) (id : AttributeId) : Option Attribute :=
  t.attributes.find? (·.id = id)

theorem mem_rdfTypes {t : ResourceType} {iri : Iri} :
    iri ∈ t.rdfTypes ↔ Rule.hasType iri ∈ t.rules := by
  simp only [rdfTypes, List.mem_filterMap]
  constructor
  · rintro ⟨rule, hrule, h⟩
    cases rule <;> simp_all [Rule.rdfType?]
  · exact fun h => ⟨_, h, rfl⟩

theorem hasType_mem_of_rdfTypes {t : ResourceType} {iri : Iri} (h : t.rdfTypes = [iri]) :
    Rule.hasType iri ∈ t.rules :=
  mem_rdfTypes.mp (h ▸ List.mem_singleton_self iri)

theorem mem_inheritedRules {t : ResourceType} {rule : Rule} :
    rule ∈ t.inheritedRules ↔ rule ∈ t.rules ∧ rule.rdfType? = none := by
  simp [inheritedRules]

end ResourceType

end GraphAccess
