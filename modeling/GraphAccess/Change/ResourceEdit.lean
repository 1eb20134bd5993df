import GraphAccess.Collection.Table
import GraphAccess.Profile.ResourceType
import GraphAccess.Rdf.Value

namespace GraphAccess

/-- An attribute as a place for values: its type's id and its own. -/
@[ext] structure Slot where
  owner : TypeId
  id : AttributeId
  deriving DecidableEq, Repr

def Attribute.slot (a : Attribute) : Slot := ⟨a.owner, a.id⟩

/-- By type first, then by attribute. -/
instance : Ord Slot := ⟨compareLex (compareOn Slot.owner) (compareOn Slot.id)⟩

instance : Std.TransOrd Slot :=
  inferInstanceAs (Std.TransCmp (compareLex (compareOn Slot.owner) (compareOn Slot.id)))

instance : Std.LawfulEqOrd Slot where
  eq_of_compare {a b} h := by
    have both := compareLex_eq_eq.mp
      (show compareLex (compareOn Slot.owner) (compareOn Slot.id) a b = .eq from h)
    exact Slot.ext
      (Std.LawfulEqOrd.eq_of_compare (a := a.owner) (b := b.owner) both.1)
      (Std.LawfulEqOrd.eq_of_compare (a := a.id) (b := b.id)
        both.2)

/-- Values and the predicate that leads to them. -/
structure SlotValues where
  predicate : Iri
  values : List Value
  deriving DecidableEq, Repr

/-- The changes to one resource of a type. -/
structure ResourceEdit where
  subject : Node
  type : TypeId
  rdfTypes : List Iri
  isNew : Bool
  isDeleted : Bool
  adds : Table Slot SlotValues
  removes : Table Slot SlotValues
  deriving DecidableEq, Repr

namespace ResourceEdit

/-- No changes to a resource. -/
def start (t : ResourceType) (subject : Node) : ResourceEdit :=
  ⟨subject, t.id, t.rdfTypes, false, false, .empty, .empty⟩

def markNew (e : ResourceEdit) : ResourceEdit := { e with isNew := true }

def markDeleted (e : ResourceEdit) : ResourceEdit := { e with isDeleted := true }

/-- Gives an attribute values; without any, nothing changes. -/
def record (changes : Table Slot SlotValues) (a : Attribute) (values : List Value) :
    Table Slot SlotValues :=
  if values = [] then changes else changes.put a.slot ⟨a.predicate, values⟩

/-- Gives the values to add to an attribute. -/
def add (e : ResourceEdit) (a : Attribute) (values : List Value) : ResourceEdit :=
  { e with adds := record e.adds a values }

/-- Gives the values to remove from an attribute. -/
def remove (e : ResourceEdit) (a : Attribute) (values : List Value) : ResourceEdit :=
  { e with removes := record e.removes a values }

def valuesOf (changes : Table Slot SlotValues) (a : Attribute) : List Value :=
  match changes.get? a.slot with
  | some change => change.values
  | none => []

def addedValues (e : ResourceEdit) (a : Attribute) : List Value := valuesOf e.adds a

def removedValues (e : ResourceEdit) (a : Attribute) : List Value := valuesOf e.removes a

/-- Whether values of an attribute are added or removed. -/
def changes (e : ResourceEdit) (a : Attribute) : Bool :=
  (e.adds.get? a.slot).isSome || (e.removes.get? a.slot).isSome

/-- The ids of the attributes with changes, whatever types they belong to. -/
def changedAttributes (e : ResourceEdit) : List AttributeId :=
  sortDistinct ((e.adds.keys ++ e.removes.keys).map Slot.id)

/-- The statements of changed values, in the order of their attributes. -/
def valueStatements (subject : Node) (changes : Table Slot SlotValues) : List Triple :=
  changes.entries.flatMap fun entry =>
    entry.2.values.map fun v => ⟨subject, entry.2.predicate, v.toTerm⟩

/-- The statements of the RDF types that the resource's type demands. -/
def typeStatements (e : ResourceEdit) : List Triple :=
  e.rdfTypes.map fun type => ⟨e.subject, Vocabulary.rdfType, .named type⟩

def added (e : ResourceEdit) : List Triple :=
  valueStatements e.subject e.adds ++ if e.isNew then e.typeStatements else []

def removed (e : ResourceEdit) : List Triple :=
  valueStatements e.subject e.removes ++ if e.isDeleted then e.typeStatements else []

theorem get?_record (changes : Table Slot SlotValues) (a : Attribute) (values : List Value)
    (s : Slot) :
    (record changes a values).get? s =
      if values ≠ [] ∧ s = a.slot then some ⟨a.predicate, values⟩ else changes.get? s := by
  unfold record
  by_cases hv : values = []
  · simp [hv]
  · rw [if_neg hv, Table.get?_put]
    simp [hv]

theorem sorted_record {changes : Table Slot SlotValues} (h : changes.Sorted) (a : Attribute)
    (values : List Value) : (record changes a values).Sorted := by
  unfold record
  split
  · exact h
  · exact Table.sorted_put h a.slot _

end ResourceEdit

end GraphAccess
