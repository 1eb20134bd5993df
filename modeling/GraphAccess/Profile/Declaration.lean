import GraphAccess.Iri.Reference
import GraphAccess.Profile.Basic
import GraphAccess.Sparql.Variable

namespace GraphAccess

open IriText

/-- Why declarations make no profile. -/
inductive ProfileError where
  | duplicateType (id : TypeId)
  | duplicateAttribute (owner : TypeId) (id : AttributeId)
  | unknownType (referenced source : TypeId)
  | multipleRanges (owner : TypeId) (id : AttributeId) (count : Nat)
  | rangeOnType (id : TypeId)
  | invalidAttributeId (id : AttributeId)
  | invalidIri (text : String) (error : IriError)
  | superclassCycle (id : TypeId)
  deriving DecidableEq, Repr

namespace ProfileError

def message : ProfileError → String
  | duplicateType t => "The type " ++ t.name ++ " is defined more than once"
  | duplicateAttribute t a =>
    "The attribute " ++ a.name ++ " is defined more than once on type " ++ t.name
  | unknownType r s =>
    "The type " ++ r.name ++ " referenced from " ++ s.name ++ " is not part of the profile"
  | multipleRanges t a n =>
    "The attribute " ++ a.name ++ " of type " ++ t.name ++ " has " ++ toString n ++
      " range rules, at most one is allowed"
  | rangeOnType t =>
    "The type " ++ t.name ++ " has a range rule, range rules are only allowed on attributes"
  | invalidAttributeId a =>
    "The attribute id " ++ a.name ++ " is not a valid SPARQL variable name: " ++
      Variable.invalidNameMessage
  | invalidIri s e => "Invalid IRI '" ++ s ++ "': " ++ e.message
  | superclassCycle t => "The type " ++ t.name ++ " is part of a subClassOf cycle"

end ProfileError

/-- An attribute as it is declared; its predicate may be relative to the profile's base. -/
structure AttributeDeclaration where
  id : AttributeId
  predicate : String
  rules : List Rule
  deriving DecidableEq, Repr

structure TypeDeclaration where
  id : TypeId
  rules : List Rule
  attributes : List AttributeDeclaration
  deriving DecidableEq, Repr

/-- Reads a predicate, against the base if there is one. -/
def readPredicate (base : Option Reference) (text : String) : Except IriError Iri :=
  match base with
  | some base => (base.resolve text).map Reference.toIri
  | none => Iri.parse text

def rangeCount (rules : List Rule) : Nat := rules.countP fun rule => rule.range?.isSome

def AttributeDeclaration.toAttribute (base : Option Reference) (owner : TypeId)
    (d : AttributeDeclaration) : Except ProfileError Attribute :=
  if !Variable.isName d.id.name then .error (.invalidAttributeId d.id)
  else if 1 < rangeCount d.rules then
    .error (.multipleRanges owner d.id (rangeCount d.rules))
  else
    match readPredicate base d.predicate with
    | .error e => .error (.invalidIri d.predicate e)
    | .ok predicate => .ok ⟨d.id, owner, predicate, d.rules⟩

/-- The attributes declared after those of some ids. -/
def declaredAttributes (base : Option Reference) (owner : TypeId) (taken : List AttributeId)
    (ds : List AttributeDeclaration) : Except ProfileError (List Attribute) :=
  mapDistinct AttributeDeclaration.id (AttributeDeclaration.toAttribute base owner)
    (fun d => .duplicateAttribute owner d.id) taken ds

def TypeDeclaration.toType (base : Option Reference) (d : TypeDeclaration) :
    Except ProfileError ResourceType :=
  if 0 < rangeCount d.rules then .error (.rangeOnType d.id)
  else do
    let as ← declaredAttributes base d.id [] d.attributes
    .ok ⟨d.id, d.rules, sortBy Attribute.id as⟩

/-- The types declared after those of some ids. -/
def declaredTypes (base : Option Reference) (taken : List TypeId) (ds : List TypeDeclaration) :
    Except ProfileError (List ResourceType) :=
  mapDistinct TypeDeclaration.id (TypeDeclaration.toType base) (fun d => .duplicateType d.id) taken
    ds

/-- The first reference that leads to none of the types, and the type that has it. -/
def danglingReference? (ts : List ResourceType) : Option (TypeId × TypeId) :=
  ts.findSome? fun t =>
    (t.references.find? fun id => (Hierarchy.find? ts id).isNone).map (·, t.id)

/-- Types whose references have been checked, arranged. -/
def Profile.ofTypes (ts : List ResourceType) : Except ProfileError Profile :=
  match danglingReference? ts with
  | some (referenced, source) => .error (.unknownType referenced source)
  | none =>
    match Hierarchy.arrange ts with
    | .error t => .error (.superclassCycle t.id)
    | .ok hierarchy => .ok ⟨hierarchy⟩

/-- Reads the base of a profile. -/
def readBase : Option String → Except ProfileError (Option Reference)
  | none => .ok none
  | some text =>
    match Reference.parse text with
    | .error e => .error (.invalidIri text e)
    | .ok base => .ok (some base)

/-- The profile of some declarations, whose types are looked at in some order once all of them
have been read. -/
def Profile.buildIn (order : List ResourceType → List ResourceType) (base : Option String)
    (ds : List TypeDeclaration) : Except ProfileError Profile := do
  let base ← readBase base
  let ts ← declaredTypes base [] ds
  Profile.ofTypes (order ts)

/-- The profile of some declarations. -/
def Profile.build (base : Option String) (ds : List TypeDeclaration) :
    Except ProfileError Profile :=
  Profile.buildIn id base ds

theorem AttributeDeclaration.toAttribute_eq_ok_iff {base : Option Reference} {owner : TypeId}
    {d : AttributeDeclaration} {a : Attribute} :
    d.toAttribute base owner = .ok a ↔
      Variable.isName d.id.name = true ∧ rangeCount d.rules ≤ 1 ∧
        ∃ predicate, readPredicate base d.predicate = .ok predicate ∧
          a = ⟨d.id, owner, predicate, d.rules⟩ := by
  unfold toAttribute
  by_cases hn : Variable.isName d.id.name = true
  · by_cases hr : 1 < rangeCount d.rules
    · have : ¬rangeCount d.rules ≤ 1 := by omega
      simp [hn, hr, this]
    · cases hp : readPredicate base d.predicate with
      | error e => simp [hn, hr]
      | ok predicate =>
        have : rangeCount d.rules ≤ 1 := by omega
        simp [hn, hr, this, eq_comm]
  · simp [hn]

theorem TypeDeclaration.toType_eq_ok_iff {base : Option Reference} {d : TypeDeclaration}
    {t : ResourceType} :
    d.toType base = .ok t ↔
      rangeCount d.rules = 0 ∧ (d.attributes.map AttributeDeclaration.id).Nodup ∧
        ∃ as, d.attributes.mapM (AttributeDeclaration.toAttribute base d.id) = .ok as ∧
          t = ⟨d.id, d.rules, sortBy Attribute.id as⟩ := by
  rw [toType]
  split
  · next ranges =>
    have : rangeCount d.rules ≠ 0 := by omega
    simp [this]
  · next none_range =>
    have : rangeCount d.rules = 0 := by omega
    simp only [this, true_and, bind_eq_ok_iff, declaredAttributes, mapDistinct_eq_ok_iff]
    constructor
    · rintro ⟨as, ⟨traversed, distinct, _⟩, ok⟩
      exact ⟨distinct, as, traversed, (Except.ok.inj ok).symm⟩
    · rintro ⟨distinct, as, traversed, rfl⟩
      exact ⟨as, ⟨traversed, distinct, by simp⟩, rfl⟩

theorem declaredTypes_eq_ok_iff {base : Option Reference} {ds : List TypeDeclaration}
    {ts : List ResourceType} :
    declaredTypes base [] ds = .ok ts ↔
      ds.mapM (TypeDeclaration.toType base) = .ok ts ∧ (ds.map TypeDeclaration.id).Nodup := by
  simp [declaredTypes, mapDistinct_eq_ok_iff]

theorem Profile.ofTypes_eq_ok_iff {ts : List ResourceType} {p : Profile} :
    Profile.ofTypes ts = .ok p ↔
      danglingReference? ts = none ∧ Hierarchy.arrange ts = .ok p.hierarchy := by
  unfold Profile.ofTypes
  cases danglingReference? ts with
  | some r => simp
  | none => cases Hierarchy.arrange ts <;> cases p <;> simp

theorem Profile.buildIn_eq_ok_iff {order : List ResourceType → List ResourceType}
    {base : Option String} {ds : List TypeDeclaration} {p : Profile} :
    Profile.buildIn order base ds = .ok p ↔
      ∃ reference ts, readBase base = .ok reference ∧ declaredTypes reference [] ds = .ok ts ∧
        Profile.ofTypes (order ts) = .ok p := by
  rw [Profile.buildIn, bind_eq_ok_iff]
  simp only [bind_eq_ok_iff, exists_and_left]

end GraphAccess
