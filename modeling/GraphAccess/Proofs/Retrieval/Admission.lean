import GraphAccess.Proofs.Membership.Selection
import GraphAccess.Proofs.Profile.Validity
import GraphAccess.Proofs.Retrieval.VariableUse
import GraphAccess.Proofs.Sparql.Assignment

namespace GraphAccess

open Sparql

/-- The pattern lets the variable have this term. -/
def Pattern.Matches (g : Graph) (v : Variable) (x : Term) (p : Pattern) : Prop :=
  ∃ μ ∈ groupSolutions g p.elements, μ.value v = none ∨ μ.value v = some x

/-- The second term is an RDF type of the first. -/
def HasRdfType (g : Graph) (x y : Term) : Prop :=
  ∃ n, x = .ofNode n ∧ (⟨n, Vocabulary.rdfType, y⟩ : Triple) ∈ g

/-- A rule for values admits the value, if `typed` is what is demanded of the instances of a
type. -/
inductive AdmitsIf (registry : Profile) (g : Graph) (v : Variable) (x : Term) (typed : Prop) :
    Rule → Prop
  | shape {rule : Rule} (kind : rule.kind ∈ shapeKinds) : AdmitsIf registry g v x typed rule
  | inScheme {scheme : Iri} {n : Node} (value : x = .ofNode n)
    (h : (⟨n, Vocabulary.skosInScheme, .named scheme⟩ : Triple) ∈ g) :
    AdmitsIf registry g v x typed (.inScheme scheme)
  | instanceOf (type : TypeId) (h : typed) : AdmitsIf registry g v x typed (.instanceOf type)
  | embeds {id : TypeId} {t : ResourceType} {pattern : Pattern} (found : registry.find? id = some t)
    (membership : t.membership registry v = .ok pattern) (selected : pattern.Matches g v x) :
    AdmitsIf registry g v x typed (.embeds id)
  | allOf {rules : List Rule} (h : ∀ rule ∈ rules, AdmitsIf registry g v x typed rule) :
    AdmitsIf registry g v x typed (.allOf rules)
  | anyOf {rules : List Rule} {rule : Rule} (h : rule ∈ rules)
    (admits : AdmitsIf registry g v x typed rule) : AdmitsIf registry g v x typed (.anyOf rules)

/-- A rule for values admits the value. An instance of a type has to have some RDF type. -/
def Admits (registry : Profile) (g : Graph) (v : Variable) (x : Term) : Rule → Prop :=
  AdmitsIf registry g v x (∃ y, HasRdfType g x y)

namespace Rule

mutual

/-- The rules that a rule leaves the choice between, none of which leaves a choice itself. -/
def choices : Rule → List Rule
  | anyOf rules => choicesOfAll rules
  | rule => [rule]

def choicesOfAll : List Rule → List Rule
  | [] => []
  | rule :: rules => choices rule ++ choicesOfAll rules

end

theorem choicesOfAll_eq_flatMap (rules : List Rule) :
    choicesOfAll rules = rules.flatMap choices := by
  induction rules with
  | nil => rfl
  | cons rule rules ih => rw [choicesOfAll, ih, List.flatMap_cons]

/-- The rule leaves no choice at any depth. -/
def Strict (rule : Rule) : Prop := ∀ rules, .anyOf rules ∉ rule.subrules

/-- No conjunction leaves a choice. -/
def StrictAnds (rule : Rule) : Prop :=
  ∀ rules, .allOf rules ∈ rule.subrules → (Rule.allOf rules).Strict

theorem Strict.of_child {rule child : Rule} (h : rule.Strict) (hc : child ∈ rule.children) :
    child.Strict :=
  fun rules hr => h rules (mem_subrules_of_mem_children hc hr)

theorem StrictAnds.of_child {rule child : Rule} (h : rule.StrictAnds) (hc : child ∈ rule.children) :
    child.StrictAnds :=
  fun rules hr => h rules (mem_subrules_of_mem_children hc hr)

end Rule

section
variable {p : Profile} {settings : Settings} {g : Graph} {v : Variable} {x : Term}
variable {typed : Prop}

theorem admitsIf_allOf {rules : List Rule} :
    AdmitsIf p g v x typed (.allOf rules) ↔ ∀ rule ∈ rules, AdmitsIf p g v x typed rule := by
  constructor
  · intro admits
    cases admits with
    | shape kind => simp [Rule.kind, shapeKinds] at kind
    | allOf h => exact h
  · exact .allOf

theorem admitsIf_anyOf {rules : List Rule} :
    AdmitsIf p g v x typed (.anyOf rules) ↔ ∃ rule ∈ rules, AdmitsIf p g v x typed rule := by
  constructor
  · intro admits
    cases admits with
    | shape kind => simp [Rule.kind, shapeKinds] at kind
    | anyOf h admits => exact ⟨_, h, admits⟩
  · intro some
    obtain ⟨rule, h, admits⟩ := some
    exact .anyOf h admits

theorem admitsIf_instanceOf {type : TypeId} :
    AdmitsIf p g v x typed (.instanceOf type) ↔ typed := by
  constructor
  · intro admits
    cases admits with
    | shape kind => simp [Rule.kind, shapeKinds] at kind
    | instanceOf _ h => exact h
  · exact .instanceOf type

theorem admitsIf_inScheme {scheme : Iri} :
    AdmitsIf p g v x typed (.inScheme scheme) ↔
      ∃ n, x = .ofNode n ∧ (⟨n, Vocabulary.skosInScheme, .named scheme⟩ : Triple) ∈ g := by
  constructor
  · intro admits
    cases admits with
    | shape kind => simp [Rule.kind, shapeKinds] at kind
    | inScheme value h => exact ⟨_, value, h⟩
  · intro stated
    obtain ⟨n, value, h⟩ := stated
    exact .inScheme value h

theorem admitsIf_embeds {id : TypeId} {t : ResourceType} {pattern : Pattern}
    (found : p.find? id = some t) (membership : t.membership p v = .ok pattern) :
    AdmitsIf p g v x typed (.embeds id) ↔ pattern.Matches g v x := by
  constructor
  · intro admits
    cases admits with
    | shape kind => simp [Rule.kind, shapeKinds] at kind
    | embeds found' membership' selected =>
      rw [found] at found'
      cases found'
      rw [membership] at membership'
      cases membership'
      exact selected
  · exact .embeds found membership

/-- What is demanded of instances counts only where a rule asks for them. -/
theorem admitsIf_iff {rule : Rule} (strict : rule.Strict) :
    AdmitsIf p g v x typed rule ↔
      AdmitsIf p g v x True rule ∧ (rule.AsksForTypes → typed) := by
  constructor
  · intro admits
    induction admits with
    | shape kind =>
      have silent := Rule.not_asksForTypes_of_shape kind
      exact ⟨.shape kind, fun asks => absurd asks silent⟩
    | inScheme value h => exact ⟨.inScheme value h, by simp [Rule.AsksForTypes, Rule.subrules]⟩
    | instanceOf type h => exact ⟨.instanceOf type trivial, fun _ => h⟩
    | embeds found membership selected =>
      exact ⟨.embeds found membership selected, by simp [Rule.AsksForTypes, Rule.subrules]⟩
    | @allOf rules _ ih =>
      have each : ∀ rule ∈ rules, AdmitsIf p g v x True rule ∧ (rule.AsksForTypes → typed) :=
        fun rule hr => ih rule hr (strict.of_child hr)
      refine ⟨.allOf fun rule hr => (each rule hr).1, fun asks => ?_⟩
      obtain ⟨child, hchild, asks⟩ := Rule.exists_child_of_asks asks (by simp)
      exact (each child hchild).2 asks
    | @anyOf rules => exact absurd (by simp [Rule.subrules]) (strict rules)
  · intro both
    obtain ⟨admits, demanded⟩ := both
    induction admits with
    | shape kind => exact .shape kind
    | inScheme value h => exact .inScheme value h
    | instanceOf type _ => exact .instanceOf type (demanded ⟨type, by simp [Rule.subrules]⟩)
    | embeds found membership selected => exact .embeds found membership selected
    | allOf _ ih =>
      exact .allOf fun rule hr =>
        ih rule hr (strict.of_child hr) fun asks => demanded (asks.of_child hr)
    | @anyOf rules => exact absurd (by simp [Rule.subrules]) (strict rules)

/-- What decides which resources belong to a type gives terms to no variable but its own. -/
theorem only_of_membership (arranged : Hierarchy.Arranged p.hierarchy) {t : ResourceType}
    {pattern : Pattern} (h : t.membership p v = .ok pattern) {μ : Solution}
    (hμ : μ ∈ groupSolutions g pattern.elements) {w : Variable} (other : w ≠ v) :
    μ.value w = none := by
  obtain ⟨parts, hparts, rfl⟩ :=
    Profile.parts_of_membership (faithful_ruleMembership (g := g) arranged) h
  have chooses := adds_parts hparts .dot _ _ _ .unit
  exact chooses.only μ (List.mem_filter.mp hμ).1 w other

theorem allows_membership_iff (arranged : Hierarchy.Arranged p.hierarchy) {t : ResourceType}
    {pattern : Pattern} (h : t.membership p v = .ok pattern) {σ : Variable → Term} :
    Allows σ (groupSolutions g pattern.elements) ↔ pattern.Matches g v (σ v) := by
  constructor
  · intro allowed
    obtain ⟨μ, hμ, agrees⟩ := allowed
    exact ⟨μ, hμ, agrees v⟩
  · intro selected
    obtain ⟨μ, hμ, own⟩ := selected
    refine ⟨μ, hμ, fun w => ?_⟩
    by_cases other : w = v
    · rw [other]
      exact own
    · exact .inl (only_of_membership arranged h hμ other)

/-- The terms of one variable are those that it has in some assignment. -/
theorem matches_iff {pattern : Pattern} :
    pattern.Matches g v x ↔ ∃ σ, σ v = x ∧ Allows σ (groupSolutions g pattern.elements) := by
  constructor
  · intro selected
    obtain ⟨μ, hμ, own⟩ := selected
    refine ⟨fun w => (μ.value w).getD x, ?_, μ, hμ, fun w => ?_⟩
    · rcases own with none | some <;> simp [*]
    · cases h : μ.value w with
      | none => exact .inl rfl
      | some t => exact .inr (by simp [h])
  · rintro ⟨σ, rfl, μ, hμ, agrees⟩
    exact ⟨μ, hμ, agrees v⟩

theorem elements_merge (as : List Alternative) :
    (Alternative.merge as).condition.elements =
      (as.map fun a => a.condition.elements).map .group := by
  rw [Alternative.merge, Pattern.elements_sequence, List.flatMap_map, List.map_map,
    List.map_eq_flatMap]
  rfl

/-- The alternatives of a rule that leaves no choice allow an assignment exactly if the rule admits
the value, with the types that the assignment gives it. -/
theorem allows_alternatives_iff (arranged : Hierarchy.Arranged p.hierarchy) {rule : Rule}
    {as : List Alternative} (h : rule.alternatives p settings v = .ok as) (strict : rule.Strict)
    (σ : Variable → Term) :
    (∀ a ∈ as, Allows σ (groupSolutions g a.condition.elements)) ↔
      AdmitsIf p g v (σ v) (HasRdfType g (σ v) (σ ⟨v.name ++ settings.typeSuffix⟩)) rule := by
  let typed := HasRdfType g (σ v) (σ ⟨v.name ++ settings.typeSuffix⟩)
  refine Rule.alternatives_induction (motive := fun rule as => rule.Strict →
    ((∀ a ∈ as, Allows σ (groupSolutions g a.condition.elements)) ↔
      AdmitsIf p g v (σ v) typed rule)) ?_ ?_ ?_ ?_ ?_ ?_ h strict
  · intro rules _ _ strict
    exact absurd (by simp [Rule.subrules]) (strict rules)
  · intro rules lists hlists strict
    rw [List.forall_mem_singleton, elements_merge, allows_groups, admitsIf_allOf]
    constructor
    · intro all rule hr
      obtain ⟨list, hlist, each⟩ := exists_mem_right_of_forall₂ hlists hr
      refine (each (strict.of_child hr)).mp fun a ha => ?_
      exact all _ (List.mem_map.mpr ⟨a, List.mem_flatten.mpr ⟨list, hlist, ha⟩, rfl⟩)
    · intro admits body hbody
      obtain ⟨a, ha, rfl⟩ := List.mem_map.mp hbody
      obtain ⟨list, hlist, ha⟩ := List.mem_flatten.mp ha
      obtain ⟨rule, hr, each⟩ := exists_mem_of_forall₂ hlists hlist
      exact (each (strict.of_child hr)).mpr (admits rule hr) a ha
  · intro type _ _
    rw [List.forall_mem_singleton, admitsIf_instanceOf]
    exact allows_triple
  · intro id t type condition found _ membership _
    rw [List.forall_mem_singleton, admitsIf_embeds found membership]
    exact allows_membership_iff arranged membership
  · intro scheme _
    rw [List.forall_mem_singleton, admitsIf_inScheme]
    exact allows_triple
  · intro rule kind _
    simpa using AdmitsIf.shape kind

/-- A rule that leaves no choice makes one alternative, unless it only describes a value. -/
theorem alternatives_of_strict {rule : Rule} {as : List Alternative}
    (h : rule.alternatives p settings v = .ok as) (strict : rule.Strict) :
    (rule.kind ∈ shapeKinds ∧ as = []) ∨ rule.kind ∉ shapeKinds ∧ ∃ a, as = [a] := by
  refine Rule.alternatives_induction (motive := fun rule as => rule.Strict →
    (rule.kind ∈ shapeKinds ∧ as = []) ∨ rule.kind ∉ shapeKinds ∧ ∃ a, as = [a])
    ?_ ?_ ?_ ?_ ?_ ?_ h strict
  · intro rules _ _ strict
    exact absurd (by simp [Rule.subrules]) (strict rules)
  · simp [Rule.kind, shapeKinds]
  · simp [Rule.kind, shapeKinds]
  · simp [Rule.kind, shapeKinds]
  · simp [Rule.kind, shapeKinds]
  · intro rule kind _
    exact .inl ⟨kind, rfl⟩

theorem eq_nil_iff_of_strict {rule : Rule} {as : List Alternative}
    (h : rule.alternatives p settings v = .ok as) (strict : rule.Strict) :
    as = [] ↔ rule.kind ∈ shapeKinds := by
  rcases alternatives_of_strict h strict with ⟨shape, rfl⟩ | ⟨other, a, rfl⟩
  · simp [shape]
  · simp [other]

/-- The rules that a range leaves the choice between are compiled one after the other. -/
theorem alternatives_of_choices {rule : Rule} {as : List Alternative}
    (h : rule.alternatives p settings v = .ok as) :
    ∃ lists, as = lists.flatten ∧ List.Forall₂
      (fun choice list => choice.alternatives p settings v = .ok list) rule.choices lists := by
  induction rule using Rule.inductionOnChildren generalizing as with
  | step rule ih =>
  cases rule with
  | anyOf rules =>
    rw [alternatives_anyOf] at h
    obtain ⟨parts, hparts, rfl⟩ := map_eq_ok_iff.mp h
    rw [Rule.choices, Rule.choicesOfAll_eq_flatMap]
    have each := forall₂_of_mapM hparts fun rule hr _ => ih rule hr
    clear ih h hparts
    induction each with
    | nil => exact ⟨[], rfl, .nil⟩
    | cons head _ tail =>
      obtain ⟨lists, rfl, first⟩ := head
      obtain ⟨others, flat, later⟩ := tail
      refine ⟨lists ++ others, ?_, ?_⟩
      · rw [List.flatten_cons, flat, List.flatten_append]
      · rw [List.flatMap_cons]
        exact List.rel_append first later
  | _ => exact ⟨[as], by simp, .cons h .nil⟩

/-- What is admitted with the types of some assignment. -/
theorem exists_admitsIf_iff {rule : Rule} (strict : rule.Strict) :
    (∃ σ : Variable → Term, σ v = x ∧
      AdmitsIf p g v (σ v) (HasRdfType g (σ v) (σ ⟨v.name ++ settings.typeSuffix⟩)) rule) ↔
    Admits p g v x rule ∧
      (settings.typeSuffix = "" → rule.AsksForTypes → HasRdfType g x x) := by
  constructor
  · rintro ⟨σ, rfl, admits⟩
    obtain ⟨base, demanded⟩ := (admitsIf_iff strict).mp admits
    refine ⟨(admitsIf_iff strict).mpr ⟨base, fun asks => ⟨_, demanded asks⟩⟩, ?_⟩
    intro empty asks
    simpa [empty] using demanded asks
  · intro both
    obtain ⟨admits, own⟩ := both
    obtain ⟨base, types⟩ := (admitsIf_iff strict).mp admits
    by_cases free : rule.AsksForTypes → HasRdfType g x x
    · exact ⟨fun _ => x, rfl, (admitsIf_iff strict).mpr ⟨base, free⟩⟩
    · obtain ⟨asks, notOwn⟩ := Classical.not_imp.mp free
      obtain ⟨y, typed⟩ := types asks
      have other : (⟨v.name ++ settings.typeSuffix⟩ : Variable) ≠ v := by
        intro same
        have name : v.name ++ settings.typeSuffix = v.name := congrArg Variable.name same
        exact notOwn (own (by simpa using name) asks)
      refine ⟨fun u => if u = v then x else y, by simp, ?_⟩
      simp only [if_true, if_neg other]
      exact (admitsIf_iff strict).mpr ⟨base, fun _ => typed⟩

/-- What a range leaves the choice between leaves no choice itself, if no conjunction does. -/
theorem strict_of_mem_choices {rule choice : Rule} {as : List Alternative}
    (ands : rule.StrictAnds) (hc : choice ∈ rule.choices)
    (h : choice.alternatives p settings v = .ok as) : choice.Strict := by
  induction rule using Rule.inductionOnChildren with
  | step rule ih =>
  cases rule with
  | anyOf rules =>
    rw [Rule.choices, Rule.choicesOfAll_eq_flatMap] at hc
    obtain ⟨child, hchild, hc⟩ := List.mem_flatMap.mp hc
    exact ih child hchild (ands.of_child hchild) hc
  | allOf rules =>
    cases List.mem_singleton.mp hc
    exact ands rules (by simp [Rule.subrules])
  | instanceOf | embeds | inScheme | literal | datatype | languageIn | snippet =>
    cases List.mem_singleton.mp hc
    simp [Rule.Strict, Rule.subrules]
  | _ =>
    cases List.mem_singleton.mp hc
    cases h

/-- A range admits what one of its choices admits. -/
theorem admits_iff_choice {rule : Rule} :
    Admits p g v x rule ↔ ∃ choice ∈ rule.choices, Admits p g v x choice := by
  induction rule using Rule.inductionOnChildren with
  | step rule ih =>
  cases rule with
  | anyOf rules =>
    rw [Rule.choices, Rule.choicesOfAll_eq_flatMap]
    constructor
    · intro admits
      obtain ⟨rule, hr, admits⟩ := admitsIf_anyOf.mp admits
      obtain ⟨choice, hc, admits⟩ := (ih rule hr).mp admits
      exact ⟨choice, List.mem_flatMap.mpr ⟨rule, hr, hc⟩, admits⟩
    · intro chosen
      obtain ⟨choice, hc, admits⟩ := chosen
      obtain ⟨rule, hr, hc⟩ := List.mem_flatMap.mp hc
      exact .anyOf hr ((ih rule hr).mpr ⟨choice, hc, admits⟩)
  | _ => simp [Rule.choices]

/-- A choice has an alternative for a value if it admits it, unless it only describes a value. -/
theorem exists_match_of_choice_iff (arranged : Hierarchy.Arranged p.hierarchy) {choice : Rule}
    {as : List Alternative} (h : choice.alternatives p settings v = .ok as)
    (strict : choice.Strict) :
    (∃ a ∈ as, a.condition.Matches g v x) ↔
      choice.kind ∉ shapeKinds ∧ Admits p g v x choice ∧
        (settings.typeSuffix = "" → choice.AsksForTypes → HasRdfType g x x) := by
  rcases alternatives_of_strict h strict with ⟨shape, rfl⟩ | ⟨other, a, rfl⟩
  · simp [shape]
  · have allowed := allows_alternatives_iff (g := g) arranged h strict
    simp only [List.forall_mem_singleton] at allowed
    simp only [List.mem_singleton, exists_eq_left, matches_iff, allowed, other, not_false_eq_true,
      true_and]
    exact exists_admitsIf_iff strict

/-- The value passes the alternatives of its attribute. Without any, all values do. -/
def Passes (g : Graph) (v : Variable) (x : Term) (as : List Alternative) : Prop :=
  as = [] ∨ ∃ a ∈ as, a.condition.Matches g v x

theorem passes_iff (arranged : Hierarchy.Arranged p.hierarchy) {rule : Rule}
    {as : List Alternative} (h : rule.alternatives p settings v = .ok as)
    (ands : rule.StrictAnds) :
    Passes g v x as ↔
      (∀ choice ∈ rule.choices, choice.kind ∈ shapeKinds) ∨
        ∃ choice ∈ rule.choices, choice.kind ∉ shapeKinds ∧ Admits p g v x choice ∧
          (settings.typeSuffix = "" → choice.AsksForTypes → HasRdfType g x x) := by
  obtain ⟨lists, rfl, compiled⟩ := alternatives_of_choices h
  have strict {choice : Rule} {list : List Alternative} (hc : choice ∈ rule.choices)
      (ok : choice.alternatives p settings v = .ok list) : choice.Strict :=
    strict_of_mem_choices ands hc ok
  have nothing : lists.flatten = [] ↔ ∀ choice ∈ rule.choices, choice.kind ∈ shapeKinds := by
    rw [List.flatten_eq_nil_iff]
    constructor
    · intro none choice hc
      obtain ⟨list, hlist, ok⟩ := exists_mem_right_of_forall₂ compiled hc
      exact (eq_nil_iff_of_strict ok (strict hc ok)).mp (none list hlist)
    · intro shapes list hlist
      obtain ⟨choice, hc, ok⟩ := exists_mem_of_forall₂ compiled hlist
      exact (eq_nil_iff_of_strict ok (strict hc ok)).mpr (shapes choice hc)
  have some : (∃ a ∈ lists.flatten, a.condition.Matches g v x) ↔
      ∃ choice ∈ rule.choices, choice.kind ∉ shapeKinds ∧ Admits p g v x choice ∧
        (settings.typeSuffix = "" → choice.AsksForTypes → HasRdfType g x x) := by
    constructor
    · intro one
      obtain ⟨a, ha, selected⟩ := one
      obtain ⟨list, hlist, ha⟩ := List.mem_flatten.mp ha
      obtain ⟨choice, hc, ok⟩ := exists_mem_of_forall₂ compiled hlist
      have admitted := (exists_match_of_choice_iff arranged ok (strict hc ok)).mp ⟨a, ha, selected⟩
      exact ⟨choice, hc, admitted⟩
    · intro chosen
      obtain ⟨choice, hc, admitted⟩ := chosen
      obtain ⟨list, hlist, ok⟩ := exists_mem_right_of_forall₂ compiled hc
      obtain ⟨a, ha, selected⟩ :=
        (exists_match_of_choice_iff arranged ok (strict hc ok)).mpr admitted
      exact ⟨a, List.mem_flatten.mpr ⟨list, hlist, ha⟩, selected⟩
  exact or_congr nothing some

end

/-- A value passes exactly if all choices of the range only describe values, or one that does not
admits it; without a suffix for types it then has to be a type of itself where it needs one. The
range admits a value if any of its choices does, one that only describes values too. -/
theorem value_passes_iff {order : List ResourceType → List ResourceType} {base : Option String}
    {ds : List TypeDeclaration} {p : Profile} {settings : Settings} {t : ResourceType}
    {a : Attribute} {rule : Rule} {as : List Alternative} (reorders : ∀ ts, (order ts).Perm ts)
    (built : Profile.buildIn order base ds = .ok p) (ht : t ∈ p.hierarchy) (ha : a ∈ t.attributes)
    (range : a.range? = some rule) (ands : rule.StrictAnds)
    (h : a.alternatives p settings = .ok as) :
    (∀ g x, Passes g a.valueVariable x as ↔
      (∀ choice ∈ rule.choices, choice.kind ∈ shapeKinds) ∨
        ∃ choice ∈ rule.choices, choice.kind ∉ shapeKinds ∧ Admits p g a.valueVariable x choice ∧
          (settings.typeSuffix = "" → choice.AsksForTypes → HasRdfType g x x)) ∧
      (∀ g x, Admits p g a.valueVariable x rule ↔
        ∃ choice ∈ rule.choices, Admits p g a.valueVariable x choice) ∧
      (p.isWellFormed = true →
        ∀ b ∈ as, readPart b.text.condition = some b.condition.elements) := by
  have arranged := Profile.arranged_of_buildIn built
  have one : rangeCount a.rules ≤ 1 := (Profile.attribute_of_buildIn reorders built ht ha).2.1
  have compiled := Attribute.alternatives_of_range range one h
  refine ⟨fun g x => passes_iff arranged compiled ands, fun g x => admits_iff_choice, ?_⟩
  intro wellFormed b hb
  have readable := Attribute.readable_of_alternatives reorders built wellFormed ht ha h b hb
  exact readable.condition.parses.readPart

/-- Letters come from a place, which may be written out. -/
def letterDeclarations : List TypeDeclaration :=
  [⟨⟨"Letter"⟩, [.hasType ⟨"http://r.example/Letter"⟩],
    [⟨⟨"origin"⟩, "http://r.example/origin",
      [.range (.anyOf [.literal, .inScheme ⟨"http://r.example/places"⟩])]⟩]⟩]

def originAttribute : Attribute :=
  ⟨⟨"origin"⟩, ⟨"Letter"⟩, ⟨"http://r.example/origin"⟩,
    [.range (.anyOf [.literal, .inScheme ⟨"http://r.example/places"⟩])]⟩

def letterType : ResourceType :=
  ⟨⟨"Letter"⟩, [.hasType ⟨"http://r.example/Letter"⟩], [originAttribute]⟩

def letters : Profile := ⟨[letterType]⟩

theorem build_letters : Profile.build none letterDeclarations = .ok letters := by
  decide +kernel

def letterGraph : Graph :=
  ⟨[⟨.named ⟨"http://r.example/1"⟩, ⟨"http://r.example/origin"⟩, .literal (.plain "Lisbon")⟩]⟩

/-- A place that is written out is admitted, but is none of those that can be retrieved. -/
theorem written_origin_dropped :
    ∃ as, originAttribute.alternatives letters .default = .ok as ∧
      Admits letters letterGraph ⟨"origin"⟩ (.literal (.plain "Lisbon"))
        (.anyOf [.literal, .inScheme ⟨"http://r.example/places"⟩]) ∧
      ¬Passes letterGraph ⟨"origin"⟩ (.literal (.plain "Lisbon")) as := by
  obtain ⟨as, has⟩ : ∃ as, originAttribute.alternatives letters .default = .ok as := ⟨_, rfl⟩
  have choices : (Rule.anyOf [.literal, .inScheme ⟨"http://r.example/places"⟩]).choices =
      [.literal, .inScheme ⟨"http://r.example/places"⟩] := rfl
  have ands : (Rule.anyOf [.literal, .inScheme ⟨"http://r.example/places"⟩]).StrictAnds := by
    simp [Rule.StrictAnds, Rule.subrules, Rule.subrulesOfAll]
  obtain ⟨passes, admits, _⟩ :=
    value_passes_iff List.Perm.refl build_letters List.mem_cons_self (List.mem_singleton.mpr rfl)
      rfl ands has
  have written : Admits letters letterGraph ⟨"origin"⟩ (.literal (.plain "Lisbon")) .literal :=
    .shape (by simp [Rule.kind, shapeKinds])
  refine ⟨as, has, (admits _ _).mpr ⟨.literal, by simp [choices], written⟩, fun passed => ?_⟩
  rcases (passes _ _).mp passed with shapes | ⟨choice, hc, other, admitted, _⟩
  · have place := shapes (.inScheme ⟨"http://r.example/places"⟩) (by simp [choices])
    simp [Rule.kind, shapeKinds] at place
  · rw [choices, List.mem_pair] at hc
    rcases hc with rfl | rfl
    · exact other (by simp [Rule.kind, shapeKinds])
    · obtain ⟨n, value, _⟩ := admitsIf_inScheme.mp admitted
      cases n <;> cases value

end GraphAccess
