import GraphAccess.Proofs.Compilation.Termination
import GraphAccess.Proofs.Compilation.Walk

namespace GraphAccess

/-- What compiling an attribute comes to: one of its own rules, or a rule for its values. -/
inductive ValueStop where
  | own (rule : Rule)
  | value (rule : Rule)
  deriving DecidableEq, Repr

/-- Why values cannot be embedded resources of the type of an id. The id has to be that of a type,
then the type has to demand one RDF type, and then its rules have to compile. -/
def Profile.embeddingOffence? (registry : Profile) (v : Variable) (id : TypeId) :
    Option CompileError :=
  match registry.find? id with
  | none => some (.unknownType id)
  | some t =>
    if t.rdfTypes.length = 1 then failure? (t.membership registry v)
    else some (.embeddedRdfTypes id t.rdfTypes.length)

namespace ValueStop

/-- What is met right behind a stop. -/
def next : ValueStop → List ValueStop
  | own (.range rule) => [value rule]
  | value (.allOf rules) | value (.anyOf rules) => rules.map value
  | _ => []

/-- Why nothing can be compiled that meets the stop. -/
def offence? (registry : Profile) (settings : Settings) (v : Variable) :
    ValueStop → Option CompileError
  | own rule =>
    if rule.kind ∈ .range :: countKinds then none
    else some (.unsupportedRule .values rule.kind)
  | value (.instanceOf _) =>
    if Variable.isName (v.name ++ settings.typeSuffix) then none
    else some (.invalidVariable (v.name ++ settings.typeSuffix))
  | value (.embeds id) => registry.embeddingOffence? v id
  | value rule =>
    if rule.kind ∈ valueKinds then none else some (.unsupportedRule .values rule.kind)

/-- The alternatives of what is met, with all that is met behind it. -/
def alternatives (registry : Profile) (settings : Settings) (v : Variable) :
    ValueStop → Except CompileError (List Alternative)
  | own rule => rule.attributeAlternatives registry settings v
  | value rule => rule.alternatives registry settings v

theorem wellFounded_next : WellFounded fun s u : ValueStop => s ∈ u.next := by
  have valueEnds (rule : Rule) : Acc (fun s u : ValueStop => s ∈ u.next) (value rule) := by
    induction rule using Rule.inductionOnChildren with
    | step rule ih =>
    constructor
    intro s hs
    cases rule with
    | allOf rules | anyOf rules =>
      obtain ⟨child, hc, rfl⟩ := List.mem_map.mp hs
      exact ih child hc
    | _ => cases hs
  constructor
  intro s
  cases s with
  | value rule => exact valueEnds rule
  | own rule =>
    constructor
    intro s hs
    cases rule with
    | range inner =>
      rw [List.mem_singleton.mp hs]
      exact valueEnds inner
    | _ => cases hs

section
variable {registry : Profile} {settings : Settings} {v : Variable}

theorem offence?_own_eq_none_iff {rule : Rule} :
    (own rule).offence? registry settings v = none ↔ rule.kind ∈ .range :: countKinds := by
  simp only [offence?, ite_eq_left_iff, reduceCtorEq, imp_false, not_not]

theorem offence?_value_eq_none_iff {rule : Rule} :
    (value rule).offence? registry settings v = none ↔
      rule.kind ∈ valueKinds ∧
        (∀ type, rule = .instanceOf type →
          Variable.isName (v.name ++ settings.typeSuffix) = true) ∧
        ∀ id, rule = .embeds id → ∃ t, registry.find? id = some t ∧ t.rdfTypes.length = 1 ∧
          ∃ pattern, t.membership registry v = .ok pattern := by
  cases rule with
  | embeds id =>
    cases found : registry.find? id with
    | none => simp [offence?, Profile.embeddingOffence?, found]
    | some t =>
      by_cases one : t.rdfTypes.length = 1
      · simp [offence?, Profile.embeddingOffence?, found, one, failure?_eq_none_iff, Rule.kind,
          valueKinds]
      · simp [offence?, Profile.embeddingOffence?, found, one]
  | _ => simp [offence?, Rule.kind, valueKinds, shapeKinds]

theorem failure?_namedVariable (name : String) :
    failure? (namedVariable name) =
      if Variable.isName name then none else some (.invalidVariable name) := by
  split
  · next isName =>
    exact failure?_eq_none_iff.mpr ⟨⟨name⟩, namedVariable_eq_ok_iff.mpr ⟨isName, rfl⟩⟩
  · next other =>
    have other : Variable.isName name = false := Bool.not_eq_true _ ▸ other
    exact failure?_eq_some_iff.mpr (namedVariable_eq_error_iff.mpr ⟨other, rfl⟩)

theorem failure?_embeddedAlternative (id : TypeId) :
    failure? (registry.embeddedAlternative v id) = registry.embeddingOffence? v id := by
  unfold Profile.embeddedAlternative Profile.embeddingOffence?
  cases registry.find? id with
  | none => rfl
  | some t =>
    dsimp only
    split
    · next type types => simp [types]
    · next types =>
      have several : t.rdfTypes.length ≠ 1 := by
        intro one
        obtain ⟨type, one⟩ := List.length_eq_one_iff.mp one
        exact types type one
      simp [several, failure?]

/-- A stop fails by its own offence, or else by the first failure of what is met right behind it. -/
theorem failure?_alternatives (s : ValueStop) :
    failure? (s.alternatives registry settings v) =
      (s.offence? registry settings v).or
        (s.next.findSome? fun u => failure? (u.alternatives registry settings v)) := by
  cases s with
  | own rule => cases rule <;> simp [alternatives, Rule.attributeAlternatives, offence?, next,
      Rule.kind, countKinds, failure?]
  | value rule =>
    cases rule with
    | anyOf rules =>
      rw [alternatives, alternatives_anyOf, failure?_map, failure?_mapM, next, List.findSome?_map]
      rfl
    | allOf rules =>
      rw [alternatives, alternatives_allOf, failure?_map, failure?_mapM, next, List.findSome?_map]
      rfl
    | instanceOf type =>
      rw [alternatives, Rule.alternatives, failure?_map, Settings.typeVariable,
        failure?_namedVariable]
      simp [offence?, next]
    | embeds id =>
      rw [alternatives, Rule.alternatives, failure?_map, failure?_embeddedAlternative]
      simp [offence?, next]
    | _ => rfl

/-- Compiling an attribute fails with the first offence on the walk through its rules. -/
theorem failure?_attribute {a : Attribute} {met : List ValueStop}
    (walk : Walks next (a.rules.map own) met) :
    failure? (a.alternatives registry settings) =
      met.findSome? (offence? registry settings a.valueVariable) := by
  rw [walk.findSome?_offence failure?_alternatives, Attribute.alternatives, failure?_map,
    failure?_mapM, List.findSome?_map]
  rfl

theorem own_notMem_next (s : ValueStop) (rule : Rule) : own rule ∉ s.next := by
  intro h
  cases s with
  | own outer => cases outer <;> simp [next] at h
  | value outer => cases outer <;> simp [next] at h

/-- An attribute's own rules are met as such, and no other rules are. -/
theorem own_mem_iff {rules : List Rule} {met : List ValueStop}
    (walk : Walks next (rules.map own) met) {rule : Rule} : own rule ∈ met ↔ rule ∈ rules := by
  constructor
  · intro hr
    have start : ∀ s ∈ rules.map own, ∀ rule, s = own rule → rule ∈ rules := by
      simp
    have step (s : ValueStop) (_ : ∀ rule, s = own rule → rule ∈ rules) :
        ∀ u ∈ s.next, ∀ rule, u = own rule → rule ∈ rules := by
      rintro _ hu rule rfl
      exact absurd hu (own_notMem_next s rule)
    exact walk.forall_met step start _ hr rule rfl
  · exact fun hr => walk.subset (List.mem_map.mpr ⟨rule, hr, rfl⟩)

end

end ValueStop

/-- Whatever attribute is compiled, be it of another profile, and whatever the settings: one walk
leads through its rules; there are alternatives if each of its own rules is a range or counts, and
each rule for values that is met can be compiled by itself; and else there are none and the failure
is that of the first stop with an offence. The rules of a conjunction fail like those of an
alternative. -/
theorem Attribute.alternatives_fail_first (registry : Profile) (settings : Settings)
    (a : Attribute) :
    ∃ met, (∀ other, Walks ValueStop.next (a.rules.map .own) other ↔ other = met) ∧
      ((∃ as, a.alternatives registry settings = .ok as) ↔
        (∀ rule ∈ a.rules,
          rule.kind ∈ [.range, .minCount, .maxCount, .minPerLanguage, .maxPerLanguage]) ∧
        ∀ rule, .value rule ∈ met →
          rule.kind ∈ [.anyOf, .allOf, .instanceOf, .embeds, .inScheme, .literal, .datatype,
            .languageIn, .snippet] ∧
          (∀ type, rule = .instanceOf type →
            Variable.isName (a.id.name ++ settings.typeSuffix) = true) ∧
          ∀ id, rule = .embeds id → ∃ t, registry.find? id = some t ∧ t.rdfTypes.length = 1 ∧
            ∃ pattern, t.membership registry a.valueVariable = .ok pattern) ∧
      (∀ e, a.alternatives registry settings = .error e ↔
        ∃ before stop after, met = before ++ stop :: after ∧
          (∀ s ∈ before, s.offence? registry settings a.valueVariable = none) ∧
          stop.offence? registry settings a.valueVariable = some e) ∧
      ∀ rules v, failure? ((Rule.allOf rules).alternatives registry settings v) =
        failure? ((Rule.anyOf rules).alternatives registry settings v) := by
  obtain ⟨met, walk⟩ :=
    Walks.exists_of_wellFounded ValueStop.wellFounded_next (a.rules.map .own)
  have fails : failure? (a.alternatives registry settings) =
      met.findSome? (·.offence? registry settings a.valueVariable) :=
    ValueStop.failure?_attribute walk
  refine ⟨met, fun other => walk.iff_eq, ?_, fun e => ?_, fun rules v => ?_⟩
  · rw [← failure?_eq_none_iff, fails, List.findSome?_eq_none_iff]
    constructor
    · intro none_offends
      refine ⟨fun rule hr => ?_, fun rule hr => ?_⟩
      · have stop := none_offends _ ((ValueStop.own_mem_iff walk).mpr hr)
        exact ValueStop.offence?_own_eq_none_iff.mp stop
      · obtain ⟨supported, named, embedded⟩ :=
          ValueStop.offence?_value_eq_none_iff.mp (none_offends _ hr)
        exact ⟨supported, named, embedded⟩
    · rintro ⟨own, values⟩ stop hs
      cases stop with
      | own rule =>
        have hr := (ValueStop.own_mem_iff walk).mp hs
        exact ValueStop.offence?_own_eq_none_iff.mpr (own rule hr)
      | value rule => exact ValueStop.offence?_value_eq_none_iff.mpr (values rule hs)
  · rw [← failure?_eq_some_iff, fails, List.findSome?_eq_some_iff]
    simp only [and_comm]
  · rw [alternatives_allOf, alternatives_anyOf, failure?_map, failure?_map]

/-- The unknown type inside a conjunction is met before the negation behind it, and before the rule
of a type behind the range. -/
example :
    (⟨⟨"about"⟩, ⟨"Note"⟩, ⟨"http://n.example/about"⟩,
      [.minCount 1, .range (.allOf [.anyOf [.embeds ⟨"Entry"⟩, .embeds ⟨"Person"⟩],
        .negated .literal]), .hasType ⟨"http://n.example/About"⟩]⟩ : Attribute).alternatives notes
      .default = .error (.unknownType ⟨"Person"⟩) := by
  rfl

end GraphAccess
