import GraphAccess.Rdf.Term

namespace GraphAccess

/-- Names a type of a profile. -/
@[ext] structure TypeId where
  name : String
  deriving DecidableEq, Repr

instance : Ord TypeId := ⟨compareOn TypeId.name⟩

instance : Std.TransOrd TypeId := inferInstanceAs (Std.TransCmp (compareOn TypeId.name))

instance : Std.LawfulEqOrd TypeId where
  eq_of_compare {a b} h :=
    TypeId.ext (Std.LawfulEqOrd.eq_of_compare (a := a.name) (b := b.name) h)

/-- Constrains the resources of a type or the values of an attribute. -/
inductive Rule where
  /-- The resource has this RDF type. -/
  | hasType (type : Iri)
  /-- The resource is a concept of this scheme. -/
  | inScheme (scheme : Iri)
  /-- The resource is this one. -/
  | isResource (resource : Iri)
  /-- The resource keeps the rules of these types, except for their RDF types. -/
  | subclassOf (types : List TypeId)
  /-- The value is a resource of this type that stands on its own. -/
  | instanceOf (type : TypeId)
  /-- The value is a resource of this type that belongs to the resource. -/
  | embeds (type : TypeId)
  | literal
  | datatype (datatype : Iri)
  | languageIn (languages : List String)
  | snippet (text : String)
  | minCount (count : Nat)
  | maxCount (count : Nat)
  | minPerLanguage (count : Nat)
  | maxPerLanguage (count : Nat)
  | allOf (rules : List Rule)
  | anyOf (rules : List Rule)
  | negated (rule : Rule)
  /-- The values of the attribute keep this rule. -/
  | range (rule : Rule)
  deriving Repr, Inhabited

namespace Rule

/-- What a rule says, without what it says it of. -/
inductive Kind where
  | hasType | inScheme | isResource | subclassOf | instanceOf | embeds
  | literal | datatype | languageIn | snippet
  | minCount | maxCount | minPerLanguage | maxPerLanguage
  | allOf | anyOf | negated | range
  deriving DecidableEq, Repr

/-- The word for a kind in messages. -/
def Kind.name : Kind → String
  | hasType => "RdfType"
  | inScheme => "InScheme"
  | isResource => "ResourceReference"
  | subclassOf => "SubClassOf"
  | instanceOf => "ClassId"
  | embeds => "EmbeddedClassId"
  | literal => "LiteralValue"
  | datatype => "Datatype"
  | languageIn => "LanguageIn"
  | snippet => "Snippet"
  | minCount => "MinCardinality"
  | maxCount => "MaxCardinality"
  | minPerLanguage => "MinLangCardinality"
  | maxPerLanguage => "MaxLangCardinality"
  | allOf => "And"
  | anyOf => "Or"
  | negated => "Not"
  | range => "Range"

def kind : Rule → Kind
  | hasType _ => .hasType
  | inScheme _ => .inScheme
  | isResource _ => .isResource
  | subclassOf _ => .subclassOf
  | instanceOf _ => .instanceOf
  | embeds _ => .embeds
  | literal => .literal
  | datatype _ => .datatype
  | languageIn _ => .languageIn
  | snippet _ => .snippet
  | minCount _ => .minCount
  | maxCount _ => .maxCount
  | minPerLanguage _ => .minPerLanguage
  | maxPerLanguage _ => .maxPerLanguage
  | allOf _ => .allOf
  | anyOf _ => .anyOf
  | negated _ => .negated
  | range _ => .range

def children : Rule → List Rule
  | allOf rules | anyOf rules => rules
  | negated rule | range rule => [rule]
  | _ => []

mutual

/-- The rule and the rules at any depth below it, each before its children. -/
def subrules : Rule → List Rule
  | allOf rules => allOf rules :: subrulesOfAll rules
  | anyOf rules => anyOf rules :: subrulesOfAll rules
  | negated rule => negated rule :: subrules rule
  | range rule => range rule :: subrules rule
  | leaf => [leaf]

/-- The rules at any depth of a list of rules. -/
def subrulesOfAll : List Rule → List Rule
  | [] => []
  | rule :: rules => subrules rule ++ subrulesOfAll rules

end

theorem subrulesOfAll_eq (rules : List Rule) : subrulesOfAll rules = rules.flatMap subrules := by
  induction rules with
  | nil => rfl
  | cons rule rules ih => rw [subrulesOfAll, ih, List.flatMap_cons]

theorem subrules_eq (rule : Rule) :
    rule.subrules = rule :: rule.children.flatMap subrules := by
  cases rule <;> simp [subrules, children, subrulesOfAll_eq]

theorem mem_subrules_of_mem_children {rule child sub : Rule} (hc : child ∈ rule.children)
    (hs : sub ∈ child.subrules) : sub ∈ rule.subrules := by
  rw [subrules_eq]
  exact List.mem_cons_of_mem _ (List.mem_flatMap.mpr ⟨child, hc, hs⟩)

theorem sizeOf_lt_of_mem_children {child rule : Rule} (h : child ∈ rule.children) :
    sizeOf child < sizeOf rule := by
  cases rule with
  | allOf rules | anyOf rules =>
    have := List.sizeOf_lt_of_mem (show child ∈ rules from h)
    simp only [allOf.sizeOf_spec, anyOf.sizeOf_spec]
    omega
  | negated rule | range rule =>
    obtain rfl := List.mem_singleton.mp h
    simp only [negated.sizeOf_spec, range.sizeOf_spec]
    omega
  | _ => cases h

/-- What holds of a rule if it holds of its children holds of every rule. -/
theorem inductionOnChildren {motive : Rule → Prop}
    (step : ∀ rule, (∀ child ∈ rule.children, motive child) → motive rule) (rule : Rule) :
    motive rule :=
  step rule fun child _ => inductionOnChildren step child
termination_by sizeOf rule
decreasing_by exact sizeOf_lt_of_mem_children ‹_›

/-- The types that a rule names itself. -/
def namedTypes : Rule → List TypeId
  | instanceOf id | embeds id => [id]
  | subclassOf ids => ids
  | _ => []

/-- The types that a rule names at any depth. -/
def references (rule : Rule) : List TypeId := rule.subrules.flatMap namedTypes

/-- The types that a rule itself demands to be superclasses. -/
def namedSuperclasses : Rule → List TypeId
  | subclassOf ids => ids
  | _ => []

/-- The types that a rule demands at any depth to be superclasses. -/
def superclasses (rule : Rule) : List TypeId := rule.subrules.flatMap namedSuperclasses

def rdfType? : Rule → Option Iri
  | hasType iri => some iri
  | _ => none

def range? : Rule → Option Rule
  | range rule => some rule
  | _ => none

def minCount? : Rule → Option Nat
  | minCount n => some n
  | _ => none

def maxCount? : Rule → Option Nat
  | maxCount n => some n
  | _ => none

mutual

/-- Whether two rules are equal. -/
def same : Rule → Rule → Bool
  | hasType a, hasType b => a = b
  | inScheme a, inScheme b => a = b
  | isResource a, isResource b => a = b
  | subclassOf a, subclassOf b => a = b
  | instanceOf a, instanceOf b => a = b
  | embeds a, embeds b => a = b
  | literal, literal => true
  | datatype a, datatype b => a = b
  | languageIn a, languageIn b => a = b
  | snippet a, snippet b => a = b
  | minCount a, minCount b => a = b
  | maxCount a, maxCount b => a = b
  | minPerLanguage a, minPerLanguage b => a = b
  | maxPerLanguage a, maxPerLanguage b => a = b
  | allOf as, allOf bs => sameAll as bs
  | anyOf as, anyOf bs => sameAll as bs
  | negated a, negated b => same a b
  | range a, range b => same a b
  | _, _ => false

def sameAll : List Rule → List Rule → Bool
  | [], [] => true
  | a :: as, b :: bs => same a b && sameAll as bs
  | _, _ => false

end

mutual

theorem same_iff (a b : Rule) : same a b = true ↔ a = b := by
  cases a with
  | allOf as => cases b <;> simp [same, sameAll_iff as]
  | anyOf as => cases b <;> simp [same, sameAll_iff as]
  | negated a => cases b <;> simp [same, same_iff a]
  | range a => cases b <;> simp [same, same_iff a]
  | _ => cases b <;> simp [same]

theorem sameAll_iff (as bs : List Rule) : sameAll as bs = true ↔ as = bs := by
  cases as with
  | nil => cases bs <;> simp [sameAll]
  | cons a as => cases bs <;> simp [sameAll, same_iff a, sameAll_iff as]

end

instance : DecidableEq Rule := fun a b => decidable_of_iff _ (same_iff a b)

end Rule

end GraphAccess
