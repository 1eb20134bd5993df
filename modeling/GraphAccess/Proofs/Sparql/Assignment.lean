import GraphAccess.Proofs.Sparql.Solution

namespace GraphAccess.Sparql

/-- The solution gives no variable another term than the assignment does. -/
def Solution.Agrees (σ : Variable → Term) (μ : Solution) : Prop :=
  ∀ v, μ.value v = none ∨ μ.value v = some (σ v)

/-- One of the solutions agrees with the assignment. -/
def Allows (σ : Variable → Term) (Ω : List Solution) : Prop := ∃ μ ∈ Ω, μ.Agrees σ

/-- The term that an assignment gives to the end of a triple pattern. -/
def objectTerm (σ : Variable → Term) : PatternObject → Term
  | .var v => σ v
  | .iri iri => .named iri

section
variable {σ : Variable → Term} {g : Graph}

theorem Solution.agrees_nil : Solution.Agrees σ [] := fun _ => .inl rfl

theorem Solution.agrees_singleton {v : Variable} {t : Term} :
    Solution.Agrees σ [(v, t)] ↔ t = σ v := by
  constructor
  · intro agrees
    have own := agrees v
    simpa [Solution.value] using own
  · rintro rfl w
    by_cases h : v = w
    · exact .inr (by simp [Solution.value, h])
    · exact .inl (by simp [Solution.value, h])

theorem Solution.agrees_merge? {μ ν ρ : Solution} (h : μ.merge? ν = some ρ) :
    ρ.Agrees σ ↔ μ.Agrees σ ∧ ν.Agrees σ := by
  unfold Solution.Agrees
  rw [← forall_and]
  exact forall_congr' fun v => Solution.merge?_allows_iff h v (σ v)

/-- Solutions that agree with one assignment can be merged. -/
theorem Solution.compatible_of_agrees {μ ν : Solution} (hμ : μ.Agrees σ) (hν : ν.Agrees σ) :
    Solution.compatible μ ν = true := by
  apply Solution.compatible_iff.mpr
  intro v t u ht hu
  have first := hμ v
  have second := hν v
  rw [ht] at first
  rw [hu] at second
  simp only [reduceCtorEq, Option.some.injEq, false_or] at first second
  rw [first, second]

theorem Solution.exists_merge?_agrees {μ ν : Solution} :
    (∃ ρ, μ.merge? ν = some ρ ∧ ρ.Agrees σ) ↔ μ.Agrees σ ∧ ν.Agrees σ := by
  constructor
  · intro merges
    obtain ⟨ρ, merged, agrees⟩ := merges
    exact (agrees_merge? merged).mp agrees
  · intro both
    obtain ⟨hμ, hν⟩ := both
    have merged := merge?_eq_some (compatible_of_agrees hμ hν)
    exact ⟨μ ++ ν, merged, (agrees_merge? merged).mpr ⟨hμ, hν⟩⟩

theorem allows_unit : Allows σ [[]] := ⟨[], List.mem_singleton.mpr rfl, Solution.agrees_nil⟩

theorem allows_join {Ω Ψ : List Solution} :
    Allows σ (join Ω Ψ) ↔ Allows σ Ω ∧ Allows σ Ψ := by
  constructor
  · intro joined
    obtain ⟨ρ, hρ, agrees⟩ := joined
    obtain ⟨μ, hμ, ν, hν, merged⟩ := mem_join.mp hρ
    obtain ⟨agreesμ, agreesν⟩ := (Solution.agrees_merge? merged).mp agrees
    exact ⟨⟨μ, hμ, agreesμ⟩, ⟨ν, hν, agreesν⟩⟩
  · intro both
    obtain ⟨⟨μ, hμ, agreesμ⟩, ⟨ν, hν, agreesν⟩⟩ := both
    obtain ⟨ρ, merged, agrees⟩ := Solution.exists_merge?_agrees.mpr ⟨agreesμ, agreesν⟩
    exact ⟨ρ, mem_join.mpr ⟨μ, hμ, ν, hν, merged⟩, agrees⟩

theorem exists_match?_agrees {p : TriplePattern} {t : Triple} :
    (∃ μ, match? p t = some μ ∧ μ.Agrees σ) ↔
      t.predicate = verbIri p.verb ∧ .ofNode t.subject = σ p.subject ∧
        t.object = objectTerm σ p.object := by
  unfold match?
  by_cases hp : t.predicate = verbIri p.verb
  · rw [if_pos hp]
    cases p.object with
    | iri iri =>
      by_cases ho : t.object = .named iri
      · simp [hp, ho, objectTerm, Solution.agrees_singleton]
      · simp [ho, objectTerm]
    | var w =>
      simp [hp, objectTerm, Solution.exists_merge?_agrees, Solution.agrees_singleton]
  · simp [hp]

theorem allows_triple {p : TriplePattern} :
    Allows σ (groupSolutions g [.triple p]) ↔
      ∃ n, σ p.subject = .ofNode n ∧
        (⟨n, verbIri p.verb, objectTerm σ p.object⟩ : Triple) ∈ g := by
  have all : groupSolutions g [.triple p] = combine g [[]] [.triple p] := by
    simp [groupSolutions, filtersOf, Element.filter?, Solution.passes]
  rw [all, combine, combine, allows_join, Element.solutions]
  · constructor
    · intro allowed
      obtain ⟨_, μ, hμ, agrees⟩ := allowed
      obtain ⟨t, ht, matched⟩ := List.mem_filterMap.mp hμ
      obtain ⟨predicate, subject, object⟩ := exists_match?_agrees.mp ⟨μ, matched, agrees⟩
      rw [← predicate, ← object]
      exact ⟨t.subject, subject.symm, ht⟩
    · intro stated
      obtain ⟨n, subject, ht⟩ := stated
      let t : Triple := ⟨n, verbIri p.verb, objectTerm σ p.object⟩
      obtain ⟨μ, matched, agrees⟩ :=
        (exists_match?_agrees (t := t)).mpr ⟨rfl, subject.symm, rfl⟩
      exact ⟨allows_unit, μ, List.mem_filterMap.mpr ⟨_, ht, matched⟩, agrees⟩
  · simp

/-- Groups next to each other are solved on their own and then joined. -/
theorem allows_combine_groups {Z : List Solution} {bodies : List (List Element)} :
    Allows σ (combine g Z (bodies.map .group)) ↔
      Allows σ Z ∧ ∀ body ∈ bodies, Allows σ (groupSolutions g body) := by
  induction bodies generalizing Z with
  | nil => simp [combine]
  | cons body bodies ih =>
    rw [List.map_cons, combine, ih, allows_join, List.forall_mem_cons, and_assoc]
    · rfl
    · simp

theorem allows_groups {bodies : List (List Element)} :
    Allows σ (groupSolutions g (bodies.map .group)) ↔
      ∀ body ∈ bodies, Allows σ (groupSolutions g body) := by
  have none : filtersOf (bodies.map Element.group) = [] := by
    simp [filtersOf, Element.filter?]
  have all : groupSolutions g (bodies.map .group) = combine g [[]] (bodies.map .group) := by
    simp [groupSolutions, none, Solution.passes]
  rw [all, allows_combine_groups]
  simp [allows_unit]

end

end GraphAccess.Sparql
