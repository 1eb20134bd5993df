import GraphAccess.Proofs.Membership.Descent
import GraphAccess.Retrieval.Query

namespace GraphAccess

section
variable {α β ε : Type}

/-- Calling a relation on each member of a list, up to the first failure. -/
inductive Traverses (calls : α → Except ε β → Prop) : List α → Except ε (List β) → Prop
  | nil : Traverses calls [] (.ok [])
  | fails {a : α} {as : List α} {e : ε} (head : calls a (.error e)) :
    Traverses calls (a :: as) (.error e)
  | failsLater {a : α} {as : List α} {b : β} {e : ε} (head : calls a (.ok b))
    (tail : Traverses calls as (.error e)) : Traverses calls (a :: as) (.error e)
  | cons {a : α} {as : List α} {b : β} {bs : List β} (head : calls a (.ok b))
    (tail : Traverses calls as (.ok bs)) : Traverses calls (a :: as) (.ok (b :: bs))

/-- If the calls on the members answer what a function gives, the traversal answers what the
function's traversal gives. -/
theorem traverses_iff {calls : α → Except ε β → Prop} {f : α → Except ε β} {as : List α}
    (h : ∀ a ∈ as, ∀ r, calls a r ↔ r = f a) (r : Except ε (List β)) :
    Traverses calls as r ↔ r = as.mapM f := by
  induction as generalizing r with
  | nil =>
    constructor
    · intro run
      cases run
      rfl
    · rintro rfl
      exact .nil
  | cons a as ih =>
    have head := h a (by simp)
    have tail := ih fun b hb => h b (by simp [hb])
    rw [List.mapM_cons]
    constructor
    · intro run
      cases run with
      | fails ha =>
        rw [← (head _).mp ha]
        rfl
      | failsLater ha has =>
        rw [← (head _).mp ha, ← (tail _).mp has]
        rfl
      | cons ha has =>
        rw [← (head _).mp ha, ← (tail _).mp has]
        rfl
    · rintro rfl
      cases ha : f a with
      | error e => exact .fails ((head _).mpr ha.symm)
      | ok b =>
        have callsHead := (head _).mpr ha.symm
        cases has : as.mapM f with
        | error e => exact .failsLater callsHead ((tail _).mpr has.symm)
        | ok bs => exact .cons callsHead ((tail _).mpr has.symm)

end

/-- The kinds of rules that a type's resources can be selected by. -/
def membershipKinds : List Rule.Kind := [.hasType, .isResource, .inScheme, .allOf, .subclassOf]

mutual

/-- What compiling a rule of a type answers. -/
inductive Compiles (registry : Profile) (v : Variable) : Rule → Except CompileError Pattern → Prop
  | hasType (type : Iri) : Compiles registry v (.hasType type) (.ok (.triple ⟨v, .isA, .iri type⟩))
  | isResource (resource : Iri) :
    Compiles registry v (.isResource resource) (.ok (.equals v resource))
  | inScheme (scheme : Iri) :
    Compiles registry v (.inScheme scheme)
      (.ok (.triple ⟨v, .predicate Vocabulary.skosInScheme, .iri scheme⟩))
  | allOf {rules : List Rule} {r : Except CompileError (List Pattern)}
    (parts : Traverses (Compiles registry v) rules r) :
    Compiles registry v (.allOf rules) (r.map fun parts => .group (.sequence .dot parts))
  | subclassOf {ids : List TypeId} {r : Except CompileError (List Pattern)}
    (groups : Traverses (Inherits registry v) ids r) :
    Compiles registry v (.subclassOf ids) (r.map (.sequence .dot))
  | unsupported {rule : Rule} (kind : rule.kind ∉ membershipKinds) :
    Compiles registry v rule (.error (.unsupportedRule .membership rule.kind))

/-- What following the id of a superclass into the registry answers. -/
inductive Inherits (registry : Profile) (v : Variable) :
    TypeId → Except CompileError Pattern → Prop
  | unknown {id : TypeId} (missing : registry.find? id = none) :
    Inherits registry v id (.error (.unknownType id))
  | rules {id : TypeId} {t : ResourceType} {r : Except CompileError (List Pattern)}
    (found : registry.find? id = some t)
    (parts : Traverses (Compiles registry v) t.inheritedRules r) :
    Inherits registry v id (r.map fun parts => .group (.sequence .dot parts))

end

/-- What compiling all rules of a type answers. -/
inductive Selects (registry : Profile) (v : Variable) (t : ResourceType) :
    Except CompileError Pattern → Prop
  | rules {r : Except CompileError (List Pattern)}
    (parts : Traverses (Compiles registry v) t.rules r) :
    Selects registry v t (r.map (.sequence .dot))

section
variable {registry : Profile} {v : Variable}

theorem inherits_iff (arranged : Hierarchy.Arranged registry.hierarchy) {id : TypeId}
    (h : ∀ t, registry.find? id = some t → ∀ rule ∈ t.inheritedRules, ∀ r,
      Compiles registry v rule r ↔ r = registry.ruleMembership v rule)
    (r : Except CompileError Pattern) :
    Inherits registry v id r ↔ r = inheritedMembership v registry.hierarchy id := by
  cases found : registry.find? id with
  | none =>
    rw [Profile.inheritedMembership_of_unknown arranged found]
    constructor
    · intro run
      cases run with
      | unknown => rfl
      | rules known => rw [found] at known; cases known
    · rintro rfl
      exact .unknown found
  | some t =>
    rw [Profile.inheritedMembership_of_found arranged found]
    have parts := traverses_iff (h t found)
    constructor
    · intro run
      cases run with
      | unknown missing => rw [found] at missing; cases missing
      | rules known run =>
        rw [found] at known
        cases known
        rw [(parts _).mp run]
    · rintro rfl
      exact .rules found ((parts _).mpr rfl)

theorem ruleMembership_of_unsupported {rule : Rule} (kind : rule.kind ∉ membershipKinds) :
    registry.ruleMembership v rule = .error (.unsupportedRule .membership rule.kind) := by
  cases rule <;> first | rfl | simp [Rule.kind, membershipKinds] at kind

/-- The induction follows the calls, which end because superclasses lie ever deeper. -/
theorem compiles_iff (arranged : Hierarchy.Arranged registry.hierarchy) (rule : Rule) :
    ∀ r, Compiles registry v rule r ↔ r = registry.ruleMembership v rule := by
  induction rule using (Descends.wellFounded arranged).induction with
  | _ rule ih =>
  have parts (rules : List Rule) (h : ∀ sub ∈ rules, Descends registry sub rule) :
      ∀ r, Traverses (Compiles registry v) rules r ↔ r = rules.mapM (registry.ruleMembership v) :=
    traverses_iff fun sub hsub => ih sub (h sub hsub)
  have groups (ids : List TypeId) (h : rule = .subclassOf ids) :
      ∀ r, Traverses (Inherits registry v) ids r ↔
        r = ids.mapM (inheritedMembership v registry.hierarchy) :=
    traverses_iff fun id hid =>
      inherits_iff arranged fun t found sub hsub => ih sub (h ▸ .inherited hid found hsub)
  intro r
  constructor
  · intro run
    cases run with
    | hasType | isResource | inScheme => rfl
    | allOf run =>
      rw [Profile.ruleMembership_allOf, (parts _ (fun _ h => .part h) _).mp run]
    | subclassOf run =>
      rw [Profile.ruleMembership_subclassOf, (groups _ rfl _).mp run]
    | unsupported kind => exact (ruleMembership_of_unsupported kind).symm
  · intro h
    subst h
    cases rule with
    | hasType type => exact .hasType type
    | isResource resource => exact .isResource resource
    | inScheme scheme => exact .inScheme scheme
    | allOf rules =>
      rw [Profile.ruleMembership_allOf]
      exact .allOf ((parts rules (fun _ h => .part h) _).mpr rfl)
    | subclassOf ids =>
      rw [Profile.ruleMembership_subclassOf]
      exact .subclassOf ((groups ids rfl _).mpr rfl)
    | _ => exact .unsupported (by simp [Rule.kind, membershipKinds])

theorem selects_iff (arranged : Hierarchy.Arranged registry.hierarchy) (t : ResourceType)
    (r : Except CompileError Pattern) :
    Selects registry v t r ↔ r = t.membership registry v := by
  have parts : ∀ r, Traverses (Compiles registry v) t.rules r ↔
      r = t.rules.mapM (registry.ruleMembership v) :=
    traverses_iff fun rule _ => compiles_iff arranged rule
  rw [Profile.membership_eq]
  constructor
  · intro run
    cases run with
    | rules run => rw [(parts _).mp run]
  · rintro rfl
    exact .rules ((parts _).mpr rfl)

end

/-- The kinds of rules that only describe a value and are checked once it has been retrieved. -/
def shapeKinds : List Rule.Kind := [.literal, .datatype, .languageIn, .snippet]

/-- The kinds of rules that values can be retrieved by. -/
def valueKinds : List Rule.Kind := [.anyOf, .allOf, .instanceOf, .embeds, .inScheme] ++ shapeKinds

/-- What compiling a rule for the values of an attribute answers. -/
inductive Offers (registry : Profile) (settings : Settings) (v : Variable) :
    Rule → Except CompileError (List Alternative) → Prop
  | anyOf {rules : List Rule} {r : Except CompileError (List (List Alternative))}
    (parts : Traverses (Offers registry settings v) rules r) :
    Offers registry settings v (.anyOf rules) (r.map List.flatten)
  | allOf {rules : List Rule} {r : Except CompileError (List (List Alternative))}
    (parts : Traverses (Offers registry settings v) rules r) :
    Offers registry settings v (.allOf rules) (r.map fun as => [Alternative.merge as.flatten])
  | instanceOf (type : TypeId) :
    Offers registry settings v (.instanceOf type)
      ((settings.typeVariable v).map fun w => [.ofTriple ⟨v, .isA, .var w⟩])
  | embedsUnknown {id : TypeId} (missing : registry.find? id = none) :
    Offers registry settings v (.embeds id) (.error (.unknownType id))
  | embedsUntyped {id : TypeId} {t : ResourceType} (found : registry.find? id = some t)
    (types : t.rdfTypes.length ≠ 1) :
    Offers registry settings v (.embeds id) (.error (.embeddedRdfTypes id t.rdfTypes.length))
  | embeds {id : TypeId} {t : ResourceType} {type : Iri} {r : Except CompileError Pattern}
    (found : registry.find? id = some t) (types : t.rdfTypes = [type])
    (selects : Selects registry v t r) :
    Offers registry settings v (.embeds id)
      (r.map fun condition => [⟨.triple ⟨v, .isA, .iri type⟩, condition⟩])
  | inScheme (scheme : Iri) :
    Offers registry settings v (.inScheme scheme)
      (.ok [.ofTriple ⟨v, .predicate Vocabulary.skosInScheme, .iri scheme⟩])
  | shape {rule : Rule} (kind : rule.kind ∈ shapeKinds) : Offers registry settings v rule (.ok [])
  | unsupported {rule : Rule} (kind : rule.kind ∉ valueKinds) :
    Offers registry settings v rule (.error (.unsupportedRule .values rule.kind))

/-- The kinds of rules that count an attribute's values. -/
def countKinds : List Rule.Kind := [.minCount, .maxCount, .minPerLanguage, .maxPerLanguage]

/-- What compiling a rule of an attribute itself answers. -/
inductive OffersFor (registry : Profile) (settings : Settings) (v : Variable) :
    Rule → Except CompileError (List Alternative) → Prop
  | range {rule : Rule} {r : Except CompileError (List Alternative)}
    (offers : Offers registry settings v rule r) : OffersFor registry settings v (.range rule) r
  | count {rule : Rule} (kind : rule.kind ∈ countKinds) :
    OffersFor registry settings v rule (.ok [])
  | unsupported {rule : Rule} (kind : rule.kind ∉ .range :: countKinds) :
    OffersFor registry settings v rule (.error (.unsupportedRule .values rule.kind))

/-- What compiling an attribute answers. -/
inductive Retrieves (registry : Profile) (settings : Settings) (a : Attribute) :
    Except CompileError (List Alternative) → Prop
  | rules {r : Except CompileError (List (List Alternative))}
    (parts : Traverses (OffersFor registry settings a.valueVariable) a.rules r) :
    Retrieves registry settings a (r.map List.flatten)

/-- What an attribute adds to a query. -/
inductive Blocks (registry : Profile) (settings : Settings) (resource resourceType : Variable)
    (a : Attribute) : Except CompileError AttributeBlock → Prop
  | collision (taken : a.valueVariable = resource ∨ a.valueVariable = resourceType) :
    Blocks registry settings resource resourceType a
      (.error (.variableCollision a.id a.valueVariable))
  | alternatives {r : Except CompileError (List Alternative)}
    (free : ¬(a.valueVariable = resource ∨ a.valueVariable = resourceType))
    (retrieves : Retrieves registry settings a r) :
    Blocks registry settings resource resourceType a
      (r.map fun as => ⟨⟨resource, .predicate a.predicate, .var a.valueVariable⟩, as⟩)

/-- What assembling a query answers. -/
inductive Queries (registry : Profile) (settings : Settings) (t : ResourceType)
    (restriction : Option Iri) : Except CompileError ResourceQuery → Prop
  | noResource {e : CompileError} (name : settings.resource = .error e) :
    Queries registry settings t restriction (.error e)
  | noType {v : Variable} {e : CompileError} (name : settings.resource = .ok v)
    (typeName : settings.typeVariable v = .error e) :
    Queries registry settings t restriction (.error e)
  | noMembership {v w : Variable} {e : CompileError} (name : settings.resource = .ok v)
    (typeName : settings.typeVariable v = .ok w) (selects : Selects registry v t (.error e)) :
    Queries registry settings t restriction (.error e)
  | blocks {v w : Variable} {membership : Pattern} {r : Except CompileError (List AttributeBlock)}
    (name : settings.resource = .ok v) (typeName : settings.typeVariable v = .ok w)
    (selects : Selects registry v t (.ok membership))
    (blocks : Traverses (Blocks registry settings v w) t.attributes r) :
    Queries registry settings t restriction (r.map fun bs => ⟨v, w, membership, restriction, bs⟩)

section
variable {registry : Profile} {settings : Settings} {v : Variable}

theorem offers_embeds_iff (arranged : Hierarchy.Arranged registry.hierarchy) (id : TypeId)
    (r : Except CompileError (List Alternative)) :
    Offers registry settings v (.embeds id) r ↔
      r = (registry.embeddedAlternative v id).map ([·]) := by
  unfold Profile.embeddedAlternative
  constructor
  · intro run
    cases run with
    | embedsUnknown missing =>
      rw [missing]
      rfl
    | embedsUntyped found types =>
      rw [found]
      dsimp only
      split
      · next one => exact absurd (by rw [one]; rfl) types
      · rfl
    | embeds found types selects =>
      rw [found]
      simp only [types]
      rw [(selects_iff arranged _ _).mp selects]
      cases ResourceType.membership registry v _ <;> rfl
    | shape kind => exact absurd kind (by simp [Rule.kind, shapeKinds])
    | unsupported kind => exact absurd kind (by simp [Rule.kind, valueKinds])
  · rintro rfl
    cases found : registry.find? id with
    | none => exact .embedsUnknown found
    | some t =>
      dsimp only
      split
      · next type types =>
        have run : Offers registry settings v (.embeds id)
            ((t.membership registry v).map fun condition =>
              [⟨.triple ⟨v, .isA, .iri type⟩, condition⟩]) :=
          .embeds found types ((selects_iff arranged t _).mpr rfl)
        cases h : t.membership registry v <;> rw [h] at run <;> exact run
      · next types =>
        refine .embedsUntyped found fun one => ?_
        obtain ⟨type, one⟩ := List.length_eq_one_iff.mp one
        exact types type one

theorem alternatives_of_shape {rule : Rule} (kind : rule.kind ∈ shapeKinds) :
    rule.alternatives registry settings v = .ok [] := by
  cases rule <;> first | rfl | simp [Rule.kind, shapeKinds] at kind

theorem alternatives_of_unsupported {rule : Rule} (kind : rule.kind ∉ valueKinds) :
    rule.alternatives registry settings v = .error (.unsupportedRule .values rule.kind) := by
  cases rule <;> first | rfl | simp [Rule.kind, valueKinds, shapeKinds] at kind

theorem alternatives_anyOf (rules : List Rule) :
    (Rule.anyOf rules).alternatives registry settings v =
      (rules.mapM (Rule.alternatives registry settings v)).map List.flatten := by
  rw [Rule.alternatives, Rule.alternativesOfAll_eq_mapM]

theorem alternatives_allOf (rules : List Rule) :
    (Rule.allOf rules).alternatives registry settings v =
      (rules.mapM (Rule.alternatives registry settings v)).map fun as =>
        [Alternative.merge as.flatten] := by
  rw [Rule.alternatives, Rule.alternativesOfAll_eq_mapM]
  cases rules.mapM (Rule.alternatives registry settings v) <;> rfl

/-- The recursion on values follows the rule itself; only embedded types lead elsewhere. -/
theorem offers_iff (arranged : Hierarchy.Arranged registry.hierarchy) (rule : Rule) :
    ∀ r, Offers registry settings v rule r ↔ r = rule.alternatives registry settings v := by
  induction rule using Rule.inductionOnChildren with
  | step rule ih =>
  have parts (rules : List Rule) (h : rules = rule.children) :
      ∀ r, Traverses (Offers registry settings v) rules r ↔
        r = rules.mapM (Rule.alternatives registry settings v) :=
    traverses_iff (h ▸ ih)
  have embeds (id : TypeId) (r : Except CompileError (List Alternative)) :
      Offers registry settings v (.embeds id) r ↔
        r = (registry.embeddedAlternative v id).map ([·]) :=
    offers_embeds_iff arranged id r
  intro r
  constructor
  · intro run
    cases run with
    | @anyOf rules r run => rw [alternatives_anyOf, (parts rules rfl _).mp run]
    | @allOf rules r run => rw [alternatives_allOf, (parts rules rfl _).mp run]
    | instanceOf | inScheme => rfl
    | embedsUnknown missing =>
      exact (embeds _ _).mp (.embedsUnknown missing)
    | embedsUntyped found types =>
      exact (embeds _ _).mp (.embedsUntyped found types)
    | embeds found types selects =>
      exact (embeds _ _).mp (.embeds found types selects)
    | shape kind => exact (alternatives_of_shape kind).symm
    | unsupported kind => exact (alternatives_of_unsupported kind).symm
  · intro h
    subst h
    cases rule with
    | anyOf rules =>
      rw [alternatives_anyOf]
      exact .anyOf ((parts rules rfl _).mpr rfl)
    | allOf rules =>
      rw [alternatives_allOf]
      exact .allOf ((parts rules rfl _).mpr rfl)
    | instanceOf type => exact .instanceOf type
    | embeds id => exact (embeds id _).mpr rfl
    | inScheme scheme => exact .inScheme scheme
    | literal | datatype | languageIn | snippet => exact .shape (by simp [Rule.kind, shapeKinds])
    | _ => exact .unsupported (by simp [Rule.kind, valueKinds, shapeKinds])

theorem offersFor_iff (arranged : Hierarchy.Arranged registry.hierarchy) (rule : Rule)
    (r : Except CompileError (List Alternative)) :
    OffersFor registry settings v rule r ↔
      r = rule.attributeAlternatives registry settings v := by
  constructor
  · intro run
    cases run with
    | range offers => exact (offers_iff arranged _ _).mp offers
    | count kind => cases rule <;> first | rfl | simp [Rule.kind, countKinds] at kind
    | unsupported kind => cases rule <;> first | rfl | simp [Rule.kind, countKinds] at kind
  · intro h
    subst h
    cases rule with
    | range rule => exact .range ((offers_iff arranged rule _).mpr rfl)
    | minCount | maxCount | minPerLanguage | maxPerLanguage =>
      exact .count (by simp [Rule.kind, countKinds])
    | _ => exact .unsupported (by simp [Rule.kind, countKinds])

theorem retrieves_iff (arranged : Hierarchy.Arranged registry.hierarchy) (a : Attribute)
    (r : Except CompileError (List Alternative)) :
    Retrieves registry settings a r ↔ r = a.alternatives registry settings := by
  have parts : ∀ r, Traverses (OffersFor registry settings a.valueVariable) a.rules r ↔
      r = a.rules.mapM (Rule.attributeAlternatives registry settings a.valueVariable) :=
    traverses_iff fun rule _ => offersFor_iff arranged rule
  rw [Attribute.alternatives]
  constructor
  · intro run
    cases run with
    | rules run => rw [(parts _).mp run]
  · intro h
    subst h
    exact .rules ((parts _).mpr rfl)

theorem blocks_iff (arranged : Hierarchy.Arranged registry.hierarchy) {w : Variable}
    (a : Attribute) (r : Except CompileError AttributeBlock) :
    Blocks registry settings v w a r ↔ r = a.block registry settings v w := by
  rw [Attribute.block]
  constructor
  · intro run
    cases run with
    | collision taken => rw [if_pos taken]
    | alternatives free run => rw [if_neg free, (retrieves_iff arranged a _).mp run]
  · intro h
    subst h
    split
    · next taken => exact .collision taken
    · next free => exact .alternatives free ((retrieves_iff arranged a _).mpr rfl)

theorem queries_iff (arranged : Hierarchy.Arranged registry.hierarchy) (t : ResourceType)
    (restriction : Option Iri) (r : Except CompileError ResourceQuery) :
    Queries registry settings t restriction r ↔
      r = registry.query settings t restriction := by
  unfold Profile.query
  constructor
  · intro run
    cases run with
    | noResource name => rw [name]; rfl
    | noType name typeName => rw [name]; simp only [bind, Except.bind, typeName]
    | noMembership name typeName selects =>
      have membership := (selects_iff arranged t _).mp selects
      rw [name]
      simp only [bind, Except.bind, typeName, ← membership]
    | blocks name typeName selects run =>
      have membership := (selects_iff arranged t _).mp selects
      have run := (traverses_iff (fun a _ => blocks_iff arranged a) _).mp run
      rw [name]
      simp only [bind, Except.bind, typeName, ← membership, ← run]
      cases ‹Except CompileError (List AttributeBlock)› <;> rfl
  · intro h
    subst h
    cases name : settings.resource with
    | error e => exact .noResource name
    | ok v =>
      cases typeName : settings.typeVariable v with
      | error e => simp only [bind, Except.bind, typeName]; exact .noType name typeName
      | ok w =>
        have selects := (selects_iff (v := v) arranged t _).mpr rfl
        cases membership : t.membership registry v with
        | error e =>
          rw [membership] at selects
          simp only [bind, Except.bind, typeName, membership]
          exact .noMembership name typeName selects
        | ok m =>
          rw [membership] at selects
          have run : Traverses (Blocks registry settings v w) t.attributes
              (t.attributes.mapM (Attribute.block registry settings v w)) :=
            (traverses_iff (fun a _ => blocks_iff arranged a) _).mpr rfl
          have all : Queries registry settings t restriction
              ((t.attributes.mapM (Attribute.block registry settings v w)).map fun bs =>
                ⟨v, w, m, restriction, bs⟩) :=
            .blocks name typeName selects run
          simp only [bind, Except.bind, typeName, membership]
          cases h : t.attributes.mapM (Attribute.block registry settings v w) <;>
            rw [h] at all <;> exact all

end

/-- With a built profile as the registry, in whatever order its types were looked at, compiling goes
from rule to rule finitely often, and whatever type, attribute or query is asked for, be it of
another profile, there is an answer, and it is the one that is computed. -/
theorem compilation_answers {order : List ResourceType → List ResourceType}
    {base : Option String} {ds : List TypeDeclaration} {registry : Profile}
    (built : Profile.buildIn order base ds = .ok registry) (settings : Settings) :
    WellFounded (Descends registry) ∧
      (∀ v t r, Selects registry v t r ↔ r = t.membership registry v) ∧
      (∀ a r, Retrieves registry settings a r ↔ r = a.alternatives registry settings) ∧
      (∀ t restriction r, Queries registry settings t restriction r ↔
        r = registry.query settings t restriction) := by
  have arranged := Profile.arranged_of_buildIn built
  exact ⟨Descends.wellFounded arranged, fun _ => selects_iff arranged, retrieves_iff arranged,
    queries_iff arranged⟩

theorem notes_compilation_answers :
    Profile.build none noteDeclarations = .ok notes ∧ WellFounded (Descends notes) ∧
      Selects notes ⟨"resource"⟩ noteType (noteType.membership notes ⟨"resource"⟩) ∧
      Retrieves notes .default aboutAttribute (aboutAttribute.alternatives notes .default) ∧
      Queries notes .default noteType none (notes.query .default noteType none) := by
  have answers := compilation_answers build_notes .default
  obtain ⟨wellFounded, selects, retrieves, queries⟩ := answers
  exact ⟨build_notes, wellFounded, (selects _ _ _).mpr rfl, (retrieves _ _).mpr rfl,
    (queries _ _ _).mpr rfl⟩

end GraphAccess
