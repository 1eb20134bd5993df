import GraphAccess.Proofs.Compilation.Termination
import GraphAccess.Proofs.Compilation.Walk

namespace GraphAccess

/-- What compiling the rules of a type comes to: a rule, or the id of a superclass. -/
inductive MembershipStop where
  | rule (rule : Rule)
  | superclass (id : TypeId)
  deriving DecidableEq, Repr

namespace MembershipStop

/-- What is met right behind a stop. -/
def next (registry : Profile) : MembershipStop → List MembershipStop
  | rule (.allOf rules) => rules.map rule
  | rule (.subclassOf ids) => ids.map superclass
  | rule _ => []
  | superclass id =>
    match registry.find? id with
    | some t => t.inheritedRules.map rule
    | none => []

/-- Why nothing can be compiled that meets the stop. -/
def offence? (registry : Profile) : MembershipStop → Option CompileError
  | rule r =>
    if r.kind ∈ membershipKinds then none else some (.unsupportedRule .membership r.kind)
  | superclass id =>
    match registry.find? id with
    | some _ => none
    | none => some (.unknownType id)

/-- The pattern of what is met, with all that is met behind it. -/
def pattern (registry : Profile) (v : Variable) : MembershipStop → Except CompileError Pattern
  | rule r => registry.ruleMembership v r
  | superclass id => inheritedMembership v registry.hierarchy id

section
variable {registry : Profile} {v : Variable}

theorem offence?_rule_eq_none_iff {r : Rule} :
    (rule r).offence? registry = none ↔ r.kind ∈ membershipKinds := by
  simp [offence?]

theorem offence?_superclass_eq_none_iff {id : TypeId} :
    (superclass id).offence? registry = none ↔ ∃ t, registry.find? id = some t := by
  cases found : registry.find? id <;> simp [offence?, found]

/-- What is met behind a rule is compiled behind it. -/
theorem wellFounded_next (arranged : Hierarchy.Arranged registry.hierarchy) :
    WellFounded fun s u : MembershipStop => s ∈ u.next registry := by
  have handed {id : TypeId} (ends : ∀ t, registry.find? id = some t → ∀ r ∈ t.inheritedRules,
      Acc (fun s u : MembershipStop => s ∈ u.next registry) (rule r)) :
      Acc (fun s u : MembershipStop => s ∈ u.next registry) (superclass id) := by
    constructor
    intro s hs
    cases found : registry.find? id with
    | none => simp [next, found] at hs
    | some t =>
      obtain ⟨r, hr, rfl⟩ : ∃ r ∈ t.inheritedRules, rule r = s := by simpa [next, found] using hs
      exact ends t found r hr
  have ruleEnds (r : Rule) : Acc (fun s u : MembershipStop => s ∈ u.next registry) (rule r) := by
    induction r using (Descends.wellFounded arranged).induction with
    | _ r ih =>
    constructor
    intro s hs
    cases r with
    | allOf rules =>
      obtain ⟨sub, hsub, rfl⟩ := List.mem_map.mp hs
      exact ih sub (.part hsub)
    | subclassOf ids =>
      obtain ⟨id, hid, rfl⟩ := List.mem_map.mp hs
      exact handed fun t found sub hsub => ih sub (.inherited hid found hsub)
    | _ => cases hs
  constructor
  intro s
  cases s with
  | rule r => exact ruleEnds r
  | superclass id => exact handed fun _ _ r _ => ruleEnds r

/-- A stop fails by its own offence, or else by the first failure of what is met right behind it. -/
theorem failure?_pattern (arranged : Hierarchy.Arranged registry.hierarchy) (s : MembershipStop) :
    failure? (s.pattern registry v) =
      (s.offence? registry).or
        ((s.next registry).findSome? fun u => failure? (u.pattern registry v)) := by
  cases s with
  | superclass id =>
    cases found : registry.find? id with
    | none =>
      rw [pattern, Profile.inheritedMembership_of_unknown arranged found]
      simp [offence?, found, failure?]
    | some t =>
      rw [pattern, Profile.inheritedMembership_of_found arranged found, failure?_map,
        failure?_mapM]
      simp [offence?, next, found, List.findSome?_map, Function.comp_def, pattern]
  | rule r =>
    by_cases supported : r.kind ∈ membershipKinds
    · rw [offence?_rule_eq_none_iff.mpr supported, Option.none_or]
      cases r with
      | hasType | isResource | inScheme => rfl
      | allOf rules =>
        rw [pattern, Profile.ruleMembership_allOf, failure?_map, failure?_mapM, next,
          List.findSome?_map]
        rfl
      | subclassOf ids =>
        rw [pattern, Profile.ruleMembership_subclassOf, failure?_map, failure?_mapM, next,
          List.findSome?_map]
        rfl
      | _ => simp [Rule.kind, membershipKinds] at supported
    · rw [pattern, ruleMembership_of_unsupported supported]
      simp [offence?, supported, failure?]

/-- Compiling a type fails with the first offence on the walk through its rules. -/
theorem failure?_membership (arranged : Hierarchy.Arranged registry.hierarchy) {t : ResourceType}
    {met : List MembershipStop} (walk : Walks (next registry) (t.rules.map rule) met) :
    failure? (t.membership registry v) = met.findSome? (offence? registry) := by
  have first := walk.findSome?_offence (failure?_pattern (v := v) arranged)
  rw [first, Profile.membership_eq, failure?_map, failure?_mapM, List.findSome?_map]
  rfl

end

end MembershipStop

/-- Whatever type is compiled, be it of another profile, and for whatever variable: one walk leads
through its rules; if all rules that are met are supported and all ids are those of types, there is
a pattern, and else there is none and the failure is that of the first stop with an offence. -/
theorem Profile.membership_fails_first {order : List ResourceType → List ResourceType}
    {base : Option String} {ds : List TypeDeclaration} {registry : Profile}
    (built : buildIn order base ds = .ok registry) (t : ResourceType) (v : Variable) :
    ∃ met, (∀ other, Walks (MembershipStop.next registry) (t.rules.map .rule) other ↔ other = met) ∧
      ((∃ pattern, t.membership registry v = .ok pattern) ↔
        (∀ rule, .rule rule ∈ met →
          rule.kind ∈ [.hasType, .isResource, .inScheme, .allOf, .subclassOf]) ∧
        ∀ id, .superclass id ∈ met → ∃ u, registry.find? id = some u) ∧
      (∀ e, t.membership registry v = .error e ↔
        ∃ before stop after, met = before ++ stop :: after ∧
          (∀ s ∈ before, s.offence? registry = none) ∧ stop.offence? registry = some e) ∧
      ∀ kind, (CompileError.unsupportedRule .membership kind).message =
        "The type filter does not support " ++ kind.name ++ " rules" := by
  have arranged := arranged_of_buildIn built
  obtain ⟨met, walk⟩ :=
    Walks.exists_of_wellFounded (MembershipStop.wellFounded_next arranged) (t.rules.map .rule)
  have fails : failure? (t.membership registry v) = met.findSome? (·.offence? registry) :=
    MembershipStop.failure?_membership arranged walk
  refine ⟨met, fun other => walk.iff_eq, ?_, fun e => ?_, fun kind => rfl⟩
  · rw [← failure?_eq_none_iff, fails, List.findSome?_eq_none_iff]
    constructor
    · intro none_offends
      exact ⟨fun rule hr => MembershipStop.offence?_rule_eq_none_iff.mp (none_offends _ hr),
        fun id hid => MembershipStop.offence?_superclass_eq_none_iff.mp (none_offends _ hid)⟩
    · rintro ⟨supported, known⟩ stop hs
      cases stop with
      | rule rule => exact MembershipStop.offence?_rule_eq_none_iff.mpr (supported rule hs)
      | superclass id => exact MembershipStop.offence?_superclass_eq_none_iff.mpr (known id hs)
  · rw [← failure?_eq_some_iff, fails, List.findSome?_eq_some_iff]
    simp only [and_comm]

/-- Loans are entries, and persons of another profile; an alternative stands behind that. -/
def loanType : ResourceType :=
  ⟨⟨"Loan"⟩,
    [.hasType ⟨"http://o.example/Loan"⟩, .allOf [.subclassOf [⟨"Entry"⟩, ⟨"Person"⟩]], .anyOf []],
    []⟩

/-- All that entries hand down is met before the id of persons. -/
def metBeforePersons : List MembershipStop :=
  [.rule (.hasType ⟨"http://o.example/Loan"⟩), .rule (.allOf [.subclassOf [⟨"Entry"⟩, ⟨"Person"⟩]]),
    .rule (.subclassOf [⟨"Entry"⟩, ⟨"Person"⟩]), .superclass ⟨"Entry"⟩,
    .rule (.allOf [.inScheme ⟨"http://n.example/list"⟩]),
    .rule (.inScheme ⟨"http://n.example/list"⟩)]

/-- Among notes, compiling loans ends at the id of persons; the alternative would be met later. -/
theorem loans_fail_at_persons :
    Profile.buildIn id none noteDeclarations = .ok notes ∧ loanType ∉ notes.hierarchy ∧
      Walks (MembershipStop.next notes) (loanType.rules.map .rule)
        (metBeforePersons ++ [.superclass ⟨"Person"⟩, .rule (.anyOf [])]) ∧
      loanType.membership notes ⟨"resource"⟩ = .error (.unknownType ⟨"Person"⟩) := by
  have built : Profile.buildIn id none noteDeclarations = .ok notes := build_notes
  have walk : Walks (MembershipStop.next notes) (loanType.rules.map .rule)
      (metBeforePersons ++ [.superclass ⟨"Person"⟩, .rule (.anyOf [])]) :=
    .meet (.meet (.meet (.meet (.meet (.meet (.meet (.meet .done)))))))
  obtain ⟨met, walks, _, fails, _⟩ :=
    Profile.membership_fails_first built loanType ⟨"resource"⟩
  rw [← (walks _).mp walk] at fails
  have allowed : ∀ s ∈ metBeforePersons, s.offence? notes = none := by decide +kernel
  have failed := (fails _).mpr ⟨metBeforePersons, .superclass ⟨"Person"⟩, _, rfl, allowed, rfl⟩
  exact ⟨built, by decide +kernel, walk, failed⟩

end GraphAccess
