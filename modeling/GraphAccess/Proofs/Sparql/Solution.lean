import GraphAccess.Proofs.Sparql.Group
import GraphAccess.Rdf.Graph
import Mathlib.Data.List.Forall2

namespace GraphAccess.Sparql

/-- What a solution gives to variables, by entries. -/
abbrev Solution := List (Variable × Term)

namespace Solution

def value (μ : Solution) (v : Variable) : Option Term :=
  match μ with
  | [] => none
  | (w, t) :: μ => if w = v then some t else value μ v

/-- No variable has different terms. -/
def compatible (μ ν : Solution) : Bool :=
  μ.all fun e => ν.value e.1 = none || ν.value e.1 = μ.value e.1

def merge? (μ ν : Solution) : Option Solution := if compatible μ ν then some (μ ++ ν) else none

/-- The solution keeps the comparisons of a filter; comparing a variable without a term fails. -/
def passes (filters : List (Variable × Iri)) (μ : Solution) : Bool :=
  filters.all fun f => μ.value f.1 = some (.named f.2)

theorem value_append (μ ν : Solution) (v : Variable) :
    value (μ ++ ν) v = (value μ v).or (value ν v) := by
  induction μ with
  | nil => rfl
  | cons e μ ih =>
    obtain ⟨w, t⟩ := e
    rw [List.cons_append, value, value]
    split
    · rfl
    · exact ih

theorem value_of_merge? {μ ν ρ : Solution} (h : merge? μ ν = some ρ) (v : Variable) :
    ρ.value v = (μ.value v).or (ν.value v) := by
  unfold merge? at h
  split at h
  · cases h
    exact value_append μ ν v
  · cases h

theorem exists_mem_of_value {μ : Solution} {v : Variable} {t : Term} (h : μ.value v = some t) :
    ∃ e ∈ μ, e.1 = v := by
  induction μ with
  | nil => cases h
  | cons e μ ih =>
    obtain ⟨w, u⟩ := e
    rw [value] at h
    split at h
    · next hw => exact ⟨(w, u), by simp, hw⟩
    · obtain ⟨e, he, hv⟩ := ih h
      exact ⟨e, by simp [he], hv⟩

theorem value_ne_none_of_mem {μ : Solution} {e : Variable × Term} (h : e ∈ μ) :
    μ.value e.1 ≠ none := by
  induction μ with
  | nil => cases h
  | cons f μ ih =>
    rw [value]
    split
    · simp
    · next different =>
      rcases List.mem_cons.mp h with rfl | h
      · exact absurd rfl different
      · exact ih h

theorem compatible_iff {μ ν : Solution} :
    compatible μ ν = true ↔
      ∀ v t u, μ.value v = some t → ν.value v = some u → u = t := by
  simp only [compatible, List.all_eq_true, Bool.or_eq_true, decide_eq_true_eq]
  constructor
  · intro h v t u ht hu
    obtain ⟨e, he, rfl⟩ := exists_mem_of_value ht
    rcases h e he with none | same
    · rw [none] at hu
      cases hu
    · rw [hu, ht] at same
      exact Option.some.inj same
  · intro h e he
    cases hu : ν.value e.1 with
    | none => exact .inl rfl
    | some u =>
      right
      cases ht : μ.value e.1 with
      | none => exact absurd ht (value_ne_none_of_mem he)
      | some t => rw [h e.1 t u ht hu]

theorem merge?_eq_some {μ ν : Solution} (h : compatible μ ν = true) :
    merge? μ ν = some (μ ++ ν) := by
  rw [merge?, if_pos h]

theorem compatible_of_merge? {μ ν ρ : Solution} (h : merge? μ ν = some ρ) :
    compatible μ ν = true := by
  unfold merge? at h
  split at h
  · next compatible => exact compatible
  · cases h

theorem merge?_nil_left (ν : Solution) : merge? [] ν = some ν := rfl

/-- A variable may have a term in a merge if it may have it in both solutions. -/
theorem merge?_allows_iff {μ ν ρ : Solution} (h : merge? μ ν = some ρ) (v : Variable) (t : Term) :
    (ρ.value v = none ∨ ρ.value v = some t) ↔
      (μ.value v = none ∨ μ.value v = some t) ∧ (ν.value v = none ∨ ν.value v = some t) := by
  have agree := compatible_iff.mp (compatible_of_merge? h) v
  rw [value_of_merge? h]
  cases valueμ : μ.value v with
  | none => simp
  | some a =>
    cases valueν : ν.value v with
    | none => simp
    | some b =>
      have same := agree a b valueμ valueν
      simp [same]

end Solution

/-- All that can be merged from two lists of solutions. -/
def join (before added : List Solution) : List Solution :=
  before.flatMap fun μ => added.filterMap fun ν => μ.merge? ν

/-- All that can be merged so that the filters are kept, and the solutions without any merge. -/
def leftJoin (filters : List (Variable × Iri)) (before added : List Solution) : List Solution :=
  before.flatMap fun μ =>
    match (added.filterMap fun ν => μ.merge? ν).filter (·.passes filters) with
    | [] => [μ]
    | merged => merged

theorem mem_join {before added : List Solution} {ρ : Solution} :
    ρ ∈ join before added ↔ ∃ μ ∈ before, ∃ ν ∈ added, μ.merge? ν = some ρ := by
  simp [join]

/-- Every solution stays: merged, or as it is where no merge keeps the filters. -/
theorem mem_leftJoin {filters : List (Variable × Iri)} {before added : List Solution}
    {ρ : Solution} (h : ρ ∈ leftJoin filters before added) :
    ∃ μ ∈ before,
      (ρ = μ ∧ ∀ ν ∈ added, ∀ σ, μ.merge? ν = some σ → ¬σ.passes filters = true) ∨
        ∃ ν ∈ added, μ.merge? ν = some ρ := by
  obtain ⟨μ, hμ, h⟩ := List.mem_flatMap.mp h
  refine ⟨μ, hμ, ?_⟩
  split at h
  · next none =>
    refine .inl ⟨List.mem_singleton.mp h, ?_⟩
    intro ν hν σ merged passed
    have hσ := List.mem_filter.mpr ⟨List.mem_filterMap.mpr ⟨ν, hν, merged⟩, passed⟩
    rw [none] at hσ
    cases hσ
  · obtain ⟨ν, hν, merged⟩ := List.mem_filterMap.mp (List.mem_filter.mp h).1
    exact .inr ⟨ν, hν, merged⟩

theorem exists_mem_leftJoin (filters : List (Variable × Iri)) (before added : List Solution)
    {μ : Solution} (hμ : μ ∈ before) :
    ∃ ρ ∈ leftJoin filters before added, ρ = μ ∨ ∃ ν ∈ added, μ.merge? ν = some ρ := by
  cases merged : (added.filterMap fun ν => μ.merge? ν).filter (·.passes filters) with
  | nil =>
    refine ⟨μ, List.mem_flatMap.mpr ⟨μ, hμ, ?_⟩, .inl rfl⟩
    rw [merged]
    simp
  | cons ρ ρs =>
    have hρ : ρ ∈ (added.filterMap fun ν => μ.merge? ν).filter (·.passes filters) := by
      rw [merged]
      simp
    obtain ⟨ν, hν, some⟩ := List.mem_filterMap.mp (List.mem_filter.mp hρ).1
    refine ⟨ρ, List.mem_flatMap.mpr ⟨μ, hμ, ?_⟩, .inr ⟨ν, hν, some⟩⟩
    rw [merged]
    simp

def verbIri : Verb → Iri
  | .isA => Vocabulary.rdfType
  | .predicate iri => iri

/-- The solution by which a statement matches a triple pattern. -/
def match? (p : TriplePattern) (t : Triple) : Option Solution :=
  if t.predicate = verbIri p.verb then
    match p.object with
    | .iri iri =>
      if t.object = .named iri then some [(p.subject, .ofNode t.subject)] else none
    | .var w => Solution.merge? [(p.subject, .ofNode t.subject)] [(w, t.object)]
  else none

def Element.filter? : Element → Option (Variable × Iri)
  | .filter v iri => some (v, iri)
  | _ => none

/-- The filters of a group. -/
def filtersOf (es : List Element) : List (Variable × Iri) := es.filterMap Element.filter?

mutual

/-- The solutions of an element by itself. -/
def Element.solutions (g : Graph) : Element → List Solution
  | .triple p => g.triples.filterMap (match? p)
  | .filter _ _ => [[]]
  | .optional _ => [[]]
  | .group body => (combine g [[]] body).filter (Solution.passes (filtersOf body))
  | .union left right =>
    Element.solutions g left ++
      (combine g [[]] right).filter (Solution.passes (filtersOf right))

/-- The solutions after some elements of a group, without its filters. -/
def combine (g : Graph) (before : List Solution) : List Element → List Solution
  | [] => before
  | .optional body :: es =>
    combine g (leftJoin (filtersOf body) before (combine g [[]] body)) es
  | e :: es => combine g (join before (Element.solutions g e)) es

end

/-- The solutions of a group. -/
def groupSolutions (g : Graph) (es : List Element) : List Solution :=
  (combine g [[]] es).filter (Solution.passes (filtersOf es))

section
variable {g : Graph}

theorem combine_append (before : List Solution) (es fs : List Element) :
    combine g before (es ++ fs) = combine g (combine g before es) fs := by
  induction es generalizing before with
  | nil => rfl
  | cons e es ih =>
    cases e <;> simp only [List.cons_append, combine, ih]

theorem filtersOf_append (es fs : List Element) :
    filtersOf (es ++ fs) = filtersOf es ++ filtersOf fs := by
  rw [filtersOf, List.filterMap_append]
  rfl

theorem mem_leftJoin_of_merge? {filters : List (Variable × Iri)} {before added : List Solution}
    {μ ν ρ : Solution} (hμ : μ ∈ before) (hν : ν ∈ added) (h : μ.merge? ν = some ρ)
    (passed : ρ.passes filters = true) : ρ ∈ leftJoin filters before added := by
  have hρ : ρ ∈ (added.filterMap fun ν => μ.merge? ν).filter (·.passes filters) :=
    List.mem_filter.mpr ⟨List.mem_filterMap.mpr ⟨ν, hν, h⟩, passed⟩
  refine List.mem_flatMap.mpr ⟨μ, hμ, ?_⟩
  split
  · next none =>
    rw [none] at hρ
    cases hρ
  · exact hρ

/-- What is optional keeps the term of a variable that every solution has a term for. -/
theorem value_combine_optional {v : Variable} {x : Term} {before : List Solution}
    (bound : ∀ μ ∈ before, μ.value v ≠ none) {bodies : List (List Element)} :
    (∃ ρ ∈ combine g before (bodies.map .optional), ρ.value v = some x) ↔
      ∃ μ ∈ before, μ.value v = some x := by
  induction bodies generalizing before with
  | nil => rfl
  | cons body bodies ih =>
    have kept {μ ρ : Solution} (hμ : μ ∈ before)
        (h : ρ = μ ∨ ∃ ν ∈ combine g [[]] body, μ.merge? ν = some ρ) : ρ.value v = μ.value v := by
      rcases h with rfl | ⟨ν, _, merged⟩
      · rfl
      · rw [Solution.value_of_merge? merged]
        cases value : μ.value v with
        | none => exact absurd value (bound μ hμ)
        | some t => rfl
    rw [List.map_cons, combine, ih]
    · constructor
      · intro ⟨ρ, hρ, value⟩
        obtain ⟨μ, hμ, h⟩ := mem_leftJoin hρ
        exact ⟨μ, hμ, by rw [← kept hμ (h.imp_left And.left), value]⟩
      · intro ⟨μ, hμ, value⟩
        obtain ⟨ρ, hρ, h⟩ := exists_mem_leftJoin (filtersOf body) before (combine g [[]] body) hμ
        exact ⟨ρ, hρ, by rw [kept hμ h, value]⟩
    · intro ρ hρ
      obtain ⟨μ, hμ, h⟩ := mem_leftJoin hρ
      rw [kept hμ (h.imp_left And.left)]
      exact bound μ hμ

/-- Filters on one variable choose among the terms of that variable. -/
theorem value_groupSolutions {v : Variable} {s : Node} {es : List Element}
    (own : ∀ f ∈ filtersOf es, f.1 = v) :
    (∃ ρ ∈ groupSolutions g es, ρ.value v = some (.ofNode s)) ↔
      (∃ ρ ∈ combine g [[]] es, ρ.value v = some (.ofNode s)) ∧
        ∀ f ∈ filtersOf es, s = .named f.2 := by
  have passes_iff {ρ : Solution} (value : ρ.value v = some (.ofNode s)) :
      ρ.passes (filtersOf es) = true ↔ ∀ f ∈ filtersOf es, s = .named f.2 := by
    simp only [Solution.passes, List.all_eq_true, decide_eq_true_eq]
    constructor
    · intro all f hf
      have compared := all f hf
      rw [own f hf, value] at compared
      have same : Term.ofNode s = Term.ofNode (.named f.2) := Option.some.inj compared
      exact Term.ofNode_injective same
    · intro all f hf
      rw [own f hf, value, all f hf]
      rfl
  unfold groupSolutions
  constructor
  · intro ⟨ρ, hρ, value⟩
    obtain ⟨hρ, passed⟩ := List.mem_filter.mp hρ
    exact ⟨⟨ρ, hρ, value⟩, (passes_iff value).mp passed⟩
  · intro ⟨⟨ρ, hρ, value⟩, all⟩
    exact ⟨ρ, List.mem_filter.mpr ⟨hρ, (passes_iff value).mpr all⟩, value⟩

end

/-- The solutions have a term for at most one variable: for that one if `binds`, else for none; and
those nodes are among them, or could be, that satisfy `holds`. -/
structure Chooses (v : Variable) (binds : Prop) (holds : Node → Prop) (Ω : List Solution) :
    Prop where
  only : ∀ ρ ∈ Ω, ∀ w, w ≠ v → ρ.value w = none
  bound : binds → ∀ ρ ∈ Ω, ρ.value v ≠ none
  unbound : ¬binds → ∀ ρ ∈ Ω, ρ.value v = none
  admits : ∀ s : Node,
    (∃ ρ ∈ Ω, ρ.value v = none ∨ ρ.value v = some (.ofNode s)) ↔ holds s

namespace Chooses

variable {v : Variable} {b c : Prop} {H K : Node → Prop} {Z Ω : List Solution}

theorem congr (h : Chooses v b H Z) (hb : b ↔ c) (hH : ∀ s, H s ↔ K s) : Chooses v c K Z where
  only := h.only
  bound := fun hc => h.bound (hb.mpr hc)
  unbound := fun hc => h.unbound ((not_congr hb).mpr hc)
  admits := fun s => (h.admits s).trans (hH s)

theorem unit : Chooses v False (fun _ => True) [[]] where
  only := by simp [Solution.value]
  bound := False.elim
  unbound := by simp [Solution.value]
  admits := by simp [Solution.value]

theorem compatible {μ ν : Solution} {s : Node} (hμ : ∀ w, w ≠ v → μ.value w = none)
    (valueμ : μ.value v = none ∨ μ.value v = some (.ofNode s))
    (valueν : ν.value v = none ∨ ν.value v = some (.ofNode s)) :
    Solution.compatible μ ν = true := by
  apply Solution.compatible_iff.mpr
  intro w t u ht hu
  by_cases hw : w = v
  · subst hw
    rw [ht] at valueμ
    rw [hu] at valueν
    rcases valueμ with none | first
    · cases none
    · rcases valueν with none | second
      · cases none
      · cases first
        cases second
        rfl
  · rw [hμ w hw] at ht
    cases ht

theorem join (h : Chooses v b H Z) (h' : Chooses v c K Ω) :
    Chooses v (b ∨ c) (fun s => H s ∧ K s) (Sparql.join Z Ω) where
  only := by
    intro ρ hρ w hw
    obtain ⟨μ, hμ, ν, hν, merged⟩ := mem_join.mp hρ
    rw [Solution.value_of_merge? merged, h.only μ hμ w hw, h'.only ν hν w hw]
    rfl
  bound := by
    intro hbc ρ hρ
    obtain ⟨μ, hμ, ν, hν, merged⟩ := mem_join.mp hρ
    rw [Solution.value_of_merge? merged]
    rcases hbc with hb | hc
    · have bound := h.bound hb μ hμ
      cases value : μ.value v with
      | none => exact absurd value bound
      | some t => simp
    · have bound := h'.bound hc ν hν
      cases value : μ.value v with
      | none => simpa using bound
      | some t => simp
  unbound := by
    intro hbc ρ hρ
    obtain ⟨μ, hμ, ν, hν, merged⟩ := mem_join.mp hρ
    rw [not_or] at hbc
    rw [Solution.value_of_merge? merged, h.unbound hbc.1 μ hμ, h'.unbound hbc.2 ν hν]
    rfl
  admits := by
    intro s
    rw [← h.admits, ← h'.admits]
    constructor
    · intro ⟨ρ, hρ, value⟩
      obtain ⟨μ, hμ, ν, hν, merged⟩ := mem_join.mp hρ
      obtain ⟨valueμ, valueν⟩ := (Solution.merge?_allows_iff merged v _).mp value
      exact ⟨⟨μ, hμ, valueμ⟩, ⟨ν, hν, valueν⟩⟩
    · intro ⟨⟨μ, hμ, valueμ⟩, ⟨ν, hν, valueν⟩⟩
      have merged := Solution.merge?_eq_some (compatible (h.only μ hμ) valueμ valueν)
      have value := (Solution.merge?_allows_iff merged v _).mpr ⟨valueμ, valueν⟩
      exact ⟨μ ++ ν, mem_join.mpr ⟨μ, hμ, ν, hν, merged⟩, value⟩

/-- Comparing the variable with IRIs leaves nothing if it has no term. -/
theorem filter (h : Chooses v b H Z) {filters : List (Variable × Iri)}
    (own : ∀ f ∈ filters, f.1 = v) :
    Chooses v b (fun s => H s ∧ (filters ≠ [] → b) ∧ ∀ f ∈ filters, s = .named f.2)
      (Z.filter (Solution.passes filters)) where
  only := fun ρ hρ => h.only ρ (List.mem_filter.mp hρ).1
  bound := fun hb ρ hρ => h.bound hb ρ (List.mem_filter.mp hρ).1
  unbound := fun hb ρ hρ => h.unbound hb ρ (List.mem_filter.mp hρ).1
  admits := by
    intro s
    rw [← h.admits]
    constructor
    · intro ⟨ρ, hρ, value⟩
      obtain ⟨hρ, passed⟩ := List.mem_filter.mp hρ
      simp only [Solution.passes, List.all_eq_true, decide_eq_true_eq] at passed
      refine ⟨⟨ρ, hρ, value⟩, ?_, ?_⟩
      · intro nonempty
        obtain ⟨f, hf⟩ := List.exists_mem_of_ne_nil _ nonempty
        apply Classical.byContradiction
        intro hb
        have compared := passed f hf
        rw [own f hf, h.unbound hb ρ hρ] at compared
        cases compared
      · intro f hf
        have compared := passed f hf
        rw [own f hf] at compared
        rw [compared] at value
        rcases value with none | same
        · cases none
        · have same : Term.ofNode (.named f.2) = Term.ofNode s := Option.some.inj same
          exact (Term.ofNode_injective same).symm
    · intro ⟨⟨ρ, hρ, value⟩, binds, all⟩
      refine ⟨ρ, List.mem_filter.mpr ⟨hρ, ?_⟩, value⟩
      simp only [Solution.passes, List.all_eq_true, decide_eq_true_eq]
      intro f hf
      have bound := h.bound (binds (List.ne_nil_of_mem hf)) ρ hρ
      rw [own f hf]
      rcases value with none | value
      · exact absurd none bound
      · rw [value, all f hf]
        rfl

theorem mem_tripleSolutions {g : Graph} {verb : Verb} {iri : Iri} {ρ : Solution} :
    ρ ∈ g.triples.filterMap (match? ⟨v, verb, .iri iri⟩) ↔
      ∃ s, (⟨s, verbIri verb, .named iri⟩ : Triple) ∈ g ∧ ρ = [(v, .ofNode s)] := by
  rw [List.mem_filterMap]
  constructor
  · intro ⟨⟨s, p, o⟩, ht, h⟩
    unfold match? at h
    split at h
    · next hp =>
      dsimp only at h hp
      split at h
      · next ho =>
        cases h
        subst hp ho
        exact ⟨s, ht, rfl⟩
      · cases h
    · cases h
  · intro ⟨s, hs, hρ⟩
    exact ⟨_, hs, by simp [match?, hρ]⟩

theorem triple {g : Graph} (verb : Verb) (iri : Iri) :
    Chooses v True (fun s => (⟨s, verbIri verb, .named iri⟩ : Triple) ∈ g)
      (g.triples.filterMap (match? ⟨v, verb, .iri iri⟩)) where
  only := by
    intro ρ hρ w hw
    obtain ⟨s, _, rfl⟩ := mem_tripleSolutions.mp hρ
    simp [Solution.value, Ne.symm hw]
  bound := by
    intro _ ρ hρ
    obtain ⟨s, _, rfl⟩ := mem_tripleSolutions.mp hρ
    simp [Solution.value]
  unbound := fun no => absurd trivial no
  admits := by
    intro s
    constructor
    · intro ⟨ρ, hρ, value⟩
      obtain ⟨s', hs, rfl⟩ := mem_tripleSolutions.mp hρ
      have same : Term.ofNode s' = Term.ofNode s := by simpa [Solution.value] using value
      rw [← Term.ofNode_injective same]
      exact hs
    · intro hs
      exact ⟨_, mem_tripleSolutions.mpr ⟨s, hs, rfl⟩, .inr (by simp [Solution.value])⟩

end Chooses

/-- What the solutions of a group choose once the elements have been added to it. -/
def Adds (g : Graph) (v : Variable) (es : List Element) (binds : Prop) (holds : Node → Prop) :
    Prop :=
  ∀ b H Z, Chooses v b H Z → Chooses v (b ∨ binds) (fun s => H s ∧ holds s) (combine g Z es)

namespace Adds

variable {g : Graph} {v : Variable} {es fs : List Element} {b c : Prop} {H K : Node → Prop}

theorem congr (h : Adds g v es b H) (hb : b ↔ c) (hH : ∀ s, H s ↔ K s) : Adds g v es c K := by
  intro d L Z hZ
  exact (h d L Z hZ).congr (or_congr_right hb) fun s => and_congr_right fun _ => hH s

theorem nil : Adds g v [] False fun _ => True := by
  intro d L Z hZ
  exact hZ.congr (by simp) (by simp)

theorem append (h : Adds g v es b H) (h' : Adds g v fs c K) :
    Adds g v (es ++ fs) (b ∨ c) fun s => H s ∧ K s := by
  intro d L Z hZ
  rw [combine_append]
  exact (h' _ _ _ (h d L Z hZ)).congr or_assoc fun s => and_assoc

theorem triple (verb : Verb) (iri : Iri) :
    Adds g v [.triple ⟨v, verb, .iri iri⟩] True
      fun s => (⟨s, verbIri verb, .named iri⟩ : Triple) ∈ g := by
  intro d L Z hZ
  simp only [combine, Element.solutions]
  exact hZ.join (.triple verb iri)

theorem filter (iri : Iri) : Adds g v [.filter v iri] False fun _ => True := by
  intro d L Z hZ
  simp only [combine, Element.solutions]
  exact hZ.join .unit

theorem group (h : Adds g v es b H) (own : ∀ f ∈ filtersOf es, f.1 = v) :
    Adds g v [.group es] b fun s =>
      H s ∧ (filtersOf es ≠ [] → b) ∧ ∀ f ∈ filtersOf es, s = .named f.2 := by
  intro d L Z hZ
  have inner := (h _ _ _ .unit).congr (c := b) (K := H) (by simp) (by simp)
  simp only [combine, Element.solutions]
  exact hZ.join (inner.filter own)

/-- What elements add, each of those that it stands for adds. -/
theorem flatMap {α β : Type} {as : List α} {bs : List β} {f : β → List Element} {B : α → Prop}
    {H : α → Node → Prop}
    (h : List.Forall₂ (fun a b => Adds g v (f b) (B a) (H a)) as bs) :
    Adds g v (bs.flatMap f) (∃ a ∈ as, B a) fun s => ∀ a ∈ as, H a s := by
  induction h with
  | nil => exact nil.congr (by simp) (by simp)
  | cons head _ ih =>
    rw [List.flatMap_cons]
    exact (head.append ih).congr (by simp) (by simp)

end Adds

section
variable {g : Graph} {v w : Variable} {s : Node}

theorem mem_typeSolutions {ρ : Solution} (different : w ≠ v) :
    ρ ∈ combine g [[]] [.triple ⟨v, .isA, .var w⟩] ↔
      ∃ s o, (⟨s, Vocabulary.rdfType, o⟩ : Triple) ∈ g ∧ ρ = [(v, .ofNode s), (w, o)] := by
  have apart (s : Node) (o : Term) :
      Solution.merge? [(v, .ofNode s)] [(w, o)] = some [(v, .ofNode s), (w, o)] := by
    apply Solution.merge?_eq_some
    simp [Solution.compatible, Solution.value, different]
  simp only [combine, Element.solutions, mem_join, List.mem_singleton, exists_eq_left,
    Solution.merge?_nil_left, Option.some.injEq, exists_eq_right, List.mem_filterMap]
  constructor
  · intro ⟨⟨s, p, o⟩, ht, h⟩
    unfold match? at h
    split at h
    · next hp =>
      dsimp only at h hp
      rw [apart] at h
      cases h
      subst hp
      exact ⟨s, o, ht, rfl⟩
    · cases h
  · intro ⟨s, o, ht, hρ⟩
    exact ⟨_, ht, by simp [match?, verbIri, apart, hρ]⟩

/-- Asking for types, if there are any, binds the variable of what has the types. -/
theorem Chooses.typed {b : Prop} {H : Node → Prop} {Z : List Solution} (h : Chooses v b H Z)
    (different : w ≠ v) {o : Term} (ho : (⟨s, Vocabulary.rdfType, o⟩ : Triple) ∈ g) :
    (∀ ρ ∈ combine g Z [.optional [.triple ⟨v, .isA, .var w⟩]], ρ.value v ≠ none) ∧
      ((∃ ρ ∈ combine g Z [.optional [.triple ⟨v, .isA, .var w⟩]],
        ρ.value v = some (.ofNode s)) ↔ H s) := by
  have types := (mem_typeSolutions (g := g) different).mpr ⟨s, o, ho, rfl⟩
  have value : Solution.value [(v, .ofNode s), (w, o)] v = some (.ofNode s) := by
    simp [Solution.value]
  have merges {μ : Solution} (hμ : μ ∈ Z)
      (valueμ : μ.value v = none ∨ μ.value v = some (.ofNode s)) :
      μ.merge? [(v, .ofNode s), (w, o)] = some (μ ++ [(v, .ofNode s), (w, o)]) :=
    Solution.merge?_eq_some (Chooses.compatible (h.only μ hμ) valueμ (.inr value))
  have bound {ν : Solution} (hν : ν ∈ combine g [[]] [.triple ⟨v, .isA, .var w⟩]) :
      ν.value v ≠ none := by
    obtain ⟨s, o, _, rfl⟩ := (mem_typeSolutions different).mp hν
    simp [Solution.value]
  simp only [combine, filtersOf, List.filterMap_cons, Element.filter?, List.filterMap_nil]
  constructor
  · intro ρ hρ
    obtain ⟨μ, hμ, ⟨rfl, alone⟩ | ⟨ν, hν, merged⟩⟩ := mem_leftJoin hρ
    · intro none
      exact alone _ types _ (merges hμ (.inl none)) (by simp [Solution.passes])
    · rw [Solution.value_of_merge? merged]
      have boundν := bound hν
      cases μ.value v with
      | none => simpa using boundν
      | some t => simp
  · rw [← h.admits]
    constructor
    · intro ⟨ρ, hρ, valueρ⟩
      obtain ⟨μ, hμ, ⟨rfl, _⟩ | ⟨ν, hν, merged⟩⟩ := mem_leftJoin hρ
      · exact ⟨ρ, hμ, .inr valueρ⟩
      · exact ⟨μ, hμ, ((Solution.merge?_allows_iff merged v _).mp (.inr valueρ)).1⟩
    · intro ⟨μ, hμ, valueμ⟩
      refine ⟨_, mem_leftJoin_of_merge? hμ types (merges hμ valueμ) (by simp [Solution.passes]), ?_⟩
      rw [Solution.value_append, value]
      rcases valueμ with unbound | same
      · rw [unbound]
        rfl
      · rw [same]
        rfl

end

end GraphAccess.Sparql
