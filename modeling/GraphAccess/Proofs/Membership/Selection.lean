import GraphAccess.Proofs.Retrieval.Readable
import GraphAccess.Proofs.Sparql.Solution

namespace GraphAccess

open Sparql

variable {registry : Profile} {g : Graph} {s : Node} {v : Variable}

/-- The resource keeps the rule. -/
inductive Keeps (registry : Profile) (g : Graph) (s : Node) : Rule → Prop
  | hasType {type : Iri} (h : (⟨s, Vocabulary.rdfType, .named type⟩ : Triple) ∈ g) :
    Keeps registry g s (.hasType type)
  | inScheme {scheme : Iri}
    (h : (⟨s, Vocabulary.skosInScheme, .named scheme⟩ : Triple) ∈ g) :
    Keeps registry g s (.inScheme scheme)
  | isResource {resource : Iri} (h : s = .named resource) :
    Keeps registry g s (.isResource resource)
  | allOf {rules : List Rule} (h : ∀ rule ∈ rules, Keeps registry g s rule) :
    Keeps registry g s (.allOf rules)
  /-- All rules of the superclasses but their RDF types. -/
  | subclassOf {ids : List TypeId}
    (h : ∀ id ∈ ids, ∀ t, registry.find? id = some t →
      ∀ rule ∈ t.inheritedRules, Keeps registry g s rule) :
    Keeps registry g s (.subclassOf ids)

/-- The rules that stand in a group of their own below a rule. -/
inductive Encloses (registry : Profile) : Rule → List Rule → Prop
  | allOf (rules : List Rule) : Encloses registry (.allOf rules) rules
  | subclassOf {ids : List TypeId} {id : TypeId} {t : ResourceType} (h : id ∈ ids)
    (found : registry.find? id = some t) : Encloses registry (.subclassOf ids) t.inheritedRules

/-- A triple of the rule's pattern binds the variable. -/
inductive Binds (registry : Profile) : Rule → Prop
  | hasType (type : Iri) : Binds registry (.hasType type)
  | inScheme (scheme : Iri) : Binds registry (.inScheme scheme)
  | inside {rule sub : Rule} {rules : List Rule} (group : Encloses registry rule rules)
    (h : sub ∈ rules) (binds : Binds registry sub) : Binds registry rule

/-- Below the rule, a comparison stands in a group that does not bind the variable. -/
inductive Stray (registry : Profile) : Rule → Prop
  | here {rule : Rule} {rules : List Rule} {resource : Iri}
    (group : Encloses registry rule rules) (h : .isResource resource ∈ rules)
    (unbound : ∀ sub ∈ rules, ¬Binds registry sub) : Stray registry rule
  | deeper {rule sub : Rule} {rules : List Rule} (group : Encloses registry rule rules)
    (h : sub ∈ rules) (stray : Stray registry sub) : Stray registry rule

theorem keeps_hasType {type : Iri} :
    Keeps registry g s (.hasType type) ↔
      (⟨s, Vocabulary.rdfType, .named type⟩ : Triple) ∈ g :=
  ⟨fun | .hasType h => h, .hasType⟩

theorem keeps_inScheme {scheme : Iri} :
    Keeps registry g s (.inScheme scheme) ↔
      (⟨s, Vocabulary.skosInScheme, .named scheme⟩ : Triple) ∈ g :=
  ⟨fun | .inScheme h => h, .inScheme⟩

theorem keeps_isResource {resource : Iri} :
    Keeps registry g s (.isResource resource) ↔ s = .named resource :=
  ⟨fun | .isResource h => h, .isResource⟩

theorem Keeps.of_superclass {id : TypeId} {t : ResourceType} (found : registry.find? id = some t)
    (h : ∀ rule ∈ t.inheritedRules, Keeps registry g s rule) :
    Keeps registry g s (.subclassOf [id]) := by
  refine .subclassOf fun id' hid t' found' => ?_
  rw [List.mem_singleton.mp hid, found] at found'
  cases found'
  exact h

theorem not_stray_of_leaf {rule : Rule} (leaf : ∀ rules, ¬Encloses registry rule rules) :
    ¬Stray registry rule := by
  intro stray
  cases stray with
  | here group => exact leaf _ group
  | deeper group => exact leaf _ group

/-- The pattern of the rule picks the resource out. -/
def Picks (registry : Profile) (g : Graph) (s : Node) (rule : Rule) : Prop :=
  Keeps registry g s rule ∧ ¬Stray registry rule

/-- The group of the rules picks the resource out. -/
structure PicksAll (registry : Profile) (g : Graph) (s : Node) (rules : List Rule) : Prop where
  each : ∀ rule ∈ rules, Picks registry g s rule
  bound : ∀ resource, .isResource resource ∈ rules → ∃ rule ∈ rules, Binds registry rule

/-- A rule that is kept in its groups picks out what all of its groups pick out. -/
theorem picks_iff_of_groups {rule : Rule}
    (keeps : Keeps registry g s rule ↔
      ∀ rules, Encloses registry rule rules → ∀ sub ∈ rules, Keeps registry g s sub) :
    Picks registry g s rule ↔
      ∀ rules, Encloses registry rule rules → PicksAll registry g s rules := by
  constructor
  · intro ⟨kept, free⟩ rules group
    constructor
    · intro sub hsub
      exact ⟨keeps.mp kept rules group sub hsub, fun stray => free (.deeper group hsub stray)⟩
    · intro resource h
      apply Classical.byContradiction
      intro none
      exact free (.here group h fun sub hsub binds => none ⟨sub, hsub, binds⟩)
  · intro all
    constructor
    · apply keeps.mpr
      intro rules group sub hsub
      exact ((all rules group).each sub hsub).1
    · intro stray
      cases stray with
      | here group h unbound =>
        obtain ⟨sub, hsub, binds⟩ := (all _ group).bound _ h
        exact unbound sub hsub binds
      | deeper group h stray => exact ((all _ group).each _ h).2 stray

theorem picks_allOf (rules : List Rule) :
    Picks registry g s (.allOf rules) ↔ PicksAll registry g s rules := by
  rw [picks_iff_of_groups]
  · constructor
    · intro all
      exact all rules (.allOf rules)
    · intro picks _ group
      cases group
      exact picks
  · constructor
    · intro kept _ group
      cases group
      cases kept with
      | allOf h => exact h
    · intro all
      exact .allOf (all rules (.allOf rules))

theorem picks_subclassOf (ids : List TypeId) :
    Picks registry g s (.subclassOf ids) ↔
      ∀ id ∈ ids, ∀ t, registry.find? id = some t → PicksAll registry g s t.inheritedRules := by
  rw [picks_iff_of_groups]
  · constructor
    · intro all id hid t found
      exact all _ (.subclassOf hid found)
    · intro picks _ group
      cases group with
      | subclassOf hid found => exact picks _ hid _ found
  · constructor
    · intro kept _ group
      cases group with
      | subclassOf hid found =>
        cases kept with
        | subclassOf h => exact h _ hid _ found
    · intro all
      exact .subclassOf fun id hid t found => all _ (.subclassOf hid found)

/-- What the pattern of a rule adds to the group it stands in. Its own comparison is one of that
group's filters. -/
structure Faithful (registry : Profile) (g : Graph) (v : Variable) (rule : Rule)
    (pattern : Pattern) : Prop where
  adds : Adds g v pattern.elements (Binds registry rule) fun s =>
    (∃ resource, rule = .isResource resource) ∨ Picks registry g s rule
  filters : ∀ f, f ∈ filtersOf pattern.elements ↔
    ∃ resource, rule = .isResource resource ∧ f = (v, resource)

theorem adds_parts {rules : List Rule} {parts : List Pattern}
    (h : List.Forall₂ (Faithful registry g v) rules parts) (separator : Separator) :
    Adds g v (Pattern.sequence separator parts).elements (∃ rule ∈ rules, Binds registry rule)
      fun s => ∀ rule ∈ rules,
        (∃ resource, rule = .isResource resource) ∨ Picks registry g s rule := by
  rw [Pattern.elements_sequence]
  exact Adds.flatMap (h.imp fun _ _ faithful => faithful.adds)

theorem filters_parts {rules : List Rule} {parts : List Pattern}
    (h : List.Forall₂ (Faithful registry g v) rules parts) (separator : Separator)
    (f : Variable × Iri) :
    f ∈ filtersOf (Pattern.sequence separator parts).elements ↔
      ∃ resource, .isResource resource ∈ rules ∧ f = (v, resource) := by
  rw [Pattern.elements_sequence]
  induction h with
  | nil => simp [filtersOf]
  | @cons rule part rules parts faithful _ ih =>
    rw [List.flatMap_cons, filtersOf_append, List.mem_append, faithful.filters, ih]
    simp only [List.mem_cons]
    constructor
    · rintro (⟨resource, rfl, rfl⟩ | ⟨resource, hr, rfl⟩)
      · exact ⟨resource, .inl rfl, rfl⟩
      · exact ⟨resource, .inr hr, rfl⟩
    · rintro ⟨resource, hr | hr, rfl⟩
      · exact .inl ⟨resource, hr.symm, rfl⟩
      · exact .inr ⟨resource, hr, rfl⟩

/-- With their comparisons as filters, rules select what keeps them all. -/
theorem picks_of_filters {rules : List Rule} (s : Node)
    (h : ∀ rule ∈ rules, (∃ resource, rule = .isResource resource) ∨ Picks registry g s rule)
    (compared : ∀ resource, .isResource resource ∈ rules → s = .named resource) :
    ∀ rule ∈ rules, Picks registry g s rule := by
  intro rule hrule
  rcases h rule hrule with ⟨resource, rfl⟩ | picks
  · exact ⟨.isResource (compared resource hrule), not_stray_of_leaf (by rintro _ ⟨⟩)⟩
  · exact picks

theorem adds_group {rules : List Rule} {parts : List Pattern}
    (h : List.Forall₂ (Faithful registry g v) rules parts) :
    Adds g v [.group (Pattern.sequence .dot parts).elements]
      (∃ rule ∈ rules, Binds registry rule) (PicksAll registry g · rules) := by
  have filters := filters_parts h .dot
  have own : ∀ f ∈ filtersOf (Pattern.sequence .dot parts).elements, f.1 = v := by
    intro f hf
    obtain ⟨_, _, rfl⟩ := (filters f).mp hf
    rfl
  refine (Adds.group (adds_parts h .dot) own).congr .rfl fun s => ?_
  constructor
  · intro ⟨all, binds, compared⟩
    constructor
    · apply picks_of_filters s all
      intro resource hr
      exact compared (v, resource) ((filters _).mpr ⟨resource, hr, rfl⟩)
    · intro resource hr
      exact binds (List.ne_nil_of_mem ((filters (v, resource)).mpr ⟨resource, hr, rfl⟩))
  · intro picks
    refine ⟨fun rule hrule => .inr (picks.each rule hrule), ?_, ?_⟩
    · intro nonempty
      obtain ⟨f, hf⟩ := List.exists_mem_of_ne_nil _ nonempty
      obtain ⟨resource, hr, _⟩ := (filters f).mp hf
      exact picks.bound resource hr
    · intro f hf
      obtain ⟨resource, hr, rfl⟩ := (filters f).mp hf
      exact keeps_isResource.mp (picks.each _ hr).1

theorem Faithful.of_adds {rule : Rule} {pattern : Pattern}
    (adds : Adds g v pattern.elements (Binds registry rule) (Picks registry g · rule))
    (other : ∀ resource, rule ≠ .isResource resource) (none : filtersOf pattern.elements = []) :
    Faithful registry g v rule pattern where
  adds := adds.congr .rfl fun s => by simp [other]
  filters := by simp [none, other]

theorem faithful_triple {rule : Rule} {verb : Verb} {iri : Iri} (binds : Binds registry rule)
    (keeps : ∀ {s}, Keeps registry g s rule ↔ (⟨s, verbIri verb, .named iri⟩ : Triple) ∈ g)
    (leaf : ∀ rules, ¬Encloses registry rule rules)
    (other : ∀ resource, rule ≠ .isResource resource) :
    Faithful registry g v rule (.triple ⟨v, verb, .iri iri⟩) := by
  refine .of_adds ((Adds.triple verb iri).congr ?_ ?_) other rfl
  · simp [binds]
  · intro s
    simp [Picks, keeps, not_stray_of_leaf leaf]

theorem faithful_isResource (resource : Iri) :
    Faithful registry g v (.isResource resource) (.equals v resource) where
  adds := by
    refine (Adds.filter resource).congr ?_ (by simp)
    rw [false_iff]
    intro binds
    cases binds with
    | inside group => cases group
  filters := by
    simp [Pattern.elements, filtersOf, Element.filter?]

/-- The groups of superclasses, one after the other, pick out what each of them does. -/
theorem adds_groups {ids : List TypeId} {groups : List Pattern}
    (h : List.Forall₂ (fun id group => ∃ t parts, registry.find? id = some t ∧
      List.Forall₂ (Faithful registry g v) t.inheritedRules parts ∧
        group = .group (.sequence .dot parts)) ids groups) :
    Adds g v (Pattern.sequence .dot groups).elements (Binds registry (.subclassOf ids))
      (Picks registry g · (.subclassOf ids)) := by
  have each : List.Forall₂ (fun id group => Adds g v group.elements
      (∃ t, registry.find? id = some t ∧ ∃ rule ∈ t.inheritedRules, Binds registry rule)
      fun s => ∀ t, registry.find? id = some t → PicksAll registry g s t.inheritedRules)
      ids groups := by
    apply h.imp
    rintro id group ⟨t, parts, found, hparts, rfl⟩
    exact (adds_group hparts).congr (by simp [found]) (by simp [found])
  rw [Pattern.elements_sequence]
  refine (Adds.flatMap each).congr ?_ fun s => (picks_subclassOf ids).symm
  constructor
  · intro ⟨id, hid, t, found, rule, hrule, binds⟩
    exact .inside (.subclassOf hid found) hrule binds
  · intro binds
    cases binds with
    | inside group hrule binds =>
      cases group with
      | subclassOf hid found => exact ⟨_, hid, _, found, _, hrule, binds⟩

theorem filters_groups {ids : List TypeId} {groups : List Pattern} {R : TypeId → Pattern → Prop}
    (h : List.Forall₂ R ids groups)
    (all : ∀ id group, R id group → ∃ body, group = .group body) :
    filtersOf (Pattern.sequence .dot groups).elements = [] := by
  rw [Pattern.elements_sequence]
  induction h with
  | nil => rfl
  | cons head _ ih =>
    obtain ⟨body, rfl⟩ := all _ _ head
    rw [List.flatMap_cons, filtersOf_append, ih]
    rfl

/-- The pattern of a rule picks out what keeps the rule, comparisons in groups that do not bind the
variable apart. -/
theorem faithful_ruleMembership (arranged : Hierarchy.Arranged registry.hierarchy) {rule : Rule}
    {pattern : Pattern} (h : registry.ruleMembership v rule = .ok pattern) :
    Faithful registry g v rule pattern := by
  refine Profile.ruleMembership_induction arranged (motive := Faithful registry g v)
    ?_ faithful_isResource ?_ ?_ ?_ h
  · intro type
    exact faithful_triple (.hasType type) keeps_hasType (by rintro _ ⟨⟩) (by simp)
  · intro scheme
    exact faithful_triple (.inScheme scheme) keeps_inScheme (by rintro _ ⟨⟩) (by simp)
  · intro rules parts hparts
    refine .of_adds ((adds_group hparts).congr ?_ ?_) (by simp) rfl
    · constructor
      · intro ⟨rule, hrule, binds⟩
        exact .inside (.allOf rules) hrule binds
      · intro binds
        cases binds with
        | inside group hrule binds =>
          cases group
          exact ⟨_, hrule, binds⟩
    · intro s
      exact (picks_allOf rules).symm
  · intro ids groups hgroups
    refine .of_adds (adds_groups hgroups) (by simp) (filters_groups hgroups ?_)
    rintro id group ⟨t, parts, _, _, rfl⟩
    exact ⟨_, rfl⟩

/-- The optional parts behind the membership bind its variable to what has types, and take nothing
else away. -/
theorem value_query_iff (arranged : Hierarchy.Arranged registry.hierarchy) {w : Variable}
    (different : w ≠ v) {t : ResourceType} {membership : Pattern}
    (h : t.membership registry v = .ok membership) (blocks : List AttributeBlock) {o : Term}
    (typed : (⟨s, Vocabulary.rdfType, o⟩ : Triple) ∈ g) :
    (∃ ρ ∈ groupSolutions g (ResourceQuery.elements ⟨v, w, membership, none, blocks⟩),
      ρ.value v = some (.ofNode s)) ↔ ∀ rule ∈ t.rules, Picks registry g s rule := by
  obtain ⟨parts, hparts, rfl⟩ :=
    Profile.parts_of_membership (faithful_ruleMembership (g := g) arranged) h
  have chooses := adds_parts hparts .dot _ _ _ .unit
  have filters := filters_parts hparts .dot
  obtain ⟨bound, value⟩ := chooses.typed (s := s) different typed
  have split : ResourceQuery.elements ⟨v, w, .sequence .dot parts, none, blocks⟩ =
      (Pattern.sequence .dot parts).elements ++ ([.optional [.triple ⟨v, .isA, .var w⟩]] ++
        (blocks.map AttributeBlock.elements).map .optional) := by
    simp [ResourceQuery.elements, ResourceQuery.typeTriple]
  have own : filtersOf (ResourceQuery.elements ⟨v, w, .sequence .dot parts, none, blocks⟩) =
      filtersOf (Pattern.sequence .dot parts).elements := by
    simp [split, filtersOf, Element.filter?, Function.comp_def]
  rw [value_groupSolutions, own, split, combine_append, combine_append,
    value_combine_optional bound, value]
  · constructor
    · rintro ⟨⟨_, all⟩, compared⟩
      apply picks_of_filters s all
      intro resource hr
      exact compared (v, resource) ((filters _).mpr ⟨resource, hr, rfl⟩)
    · intro picks
      refine ⟨⟨trivial, fun rule hrule => .inr (picks rule hrule)⟩, ?_⟩
      intro f hf
      obtain ⟨resource, hr, rfl⟩ := (filters f).mp hf
      exact keeps_isResource.mp (picks _ hr).1
  · intro f hf
    rw [own] at hf
    obtain ⟨_, _, rfl⟩ := (filters f).mp hf
    rfl

/-- The query for a type of a built profile selects, of all that has a type, exactly what keeps all
rules of the type, if no comparison stands in a group that does not bind the resource, and nothing
otherwise. -/
theorem query_selects_iff {order : List ResourceType → List ResourceType} {base : Option String}
    {ds : List TypeDeclaration} {p : Profile} {t : ResourceType} {q : ResourceQuery}
    (reorders : ∀ ts, (order ts).Perm ts) (built : Profile.buildIn order base ds = .ok p)
    (wellFormed : p.isWellFormed = true) (ht : t ∈ p.hierarchy)
    (h : p.query .default t none = .ok q) :
    ∃ query, readQuery q.text = some query ∧
      ∀ (g : Graph) (s : Node), (∃ o, (⟨s, Vocabulary.rdfType, o⟩ : Triple) ∈ g) →
        ((∃ μ ∈ groupSolutions g query.pattern,
            μ.value ⟨Settings.defaultResourceName⟩ = some (.ofNode s)) ↔
          (∀ rule ∈ t.rules, ¬Stray p rule) ∧ ∀ rule ∈ t.rules, Keeps p g s rule) := by
  have readable := Profile.readable_of_query reorders built wellFormed ht (by simp) h
  refine ⟨_, ResourceQuery.readQuery_text readable, ?_⟩
  intro g s ⟨o, typed⟩
  obtain ⟨membership, blocks, _, _, hmembership, _, rfl⟩ := Profile.parts_of_query h
  have different : (⟨Settings.defaultResourceName ++ Settings.defaultTypeSuffix⟩ : Variable) ≠
      ⟨Settings.defaultResourceName⟩ := by
    decide
  have picked := value_query_iff (Profile.arranged_of_buildIn built) different hmembership blocks
    typed
  refine picked.trans ?_
  constructor
  · intro picks
    exact ⟨fun rule hr => (picks rule hr).2, fun rule hr => (picks rule hr).1⟩
  · intro ⟨free, kept⟩ rule hr
    exact ⟨kept rule hr, free rule hr⟩

/-- A tree of which one resource is the root. -/
def treeDeclarations : List TypeDeclaration :=
  [⟨⟨"Root"⟩, [.isResource ⟨"http://t.example/root"⟩], []⟩,
   ⟨⟨"Middle"⟩, [.hasType ⟨"http://t.example/Middle"⟩, .subclassOf [⟨"Root"⟩]], []⟩,
   ⟨⟨"Leaf"⟩, [.hasType ⟨"http://t.example/Leaf"⟩, .subclassOf [⟨"Middle"⟩]], []⟩]

def rootType : ResourceType := ⟨⟨"Root"⟩, [.isResource ⟨"http://t.example/root"⟩], []⟩

def middleType : ResourceType :=
  ⟨⟨"Middle"⟩, [.hasType ⟨"http://t.example/Middle"⟩, .subclassOf [⟨"Root"⟩]], []⟩

def leafType : ResourceType :=
  ⟨⟨"Leaf"⟩, [.hasType ⟨"http://t.example/Leaf"⟩, .subclassOf [⟨"Middle"⟩]], []⟩

def tree : Profile := ⟨[leafType, middleType, rootType]⟩

theorem build_tree : Profile.build none treeDeclarations = .ok tree := by
  decide +kernel

/-- The root is a leaf too. -/
def rootIsLeaf : Graph :=
  .ofTriples [⟨.named ⟨"http://t.example/root"⟩, Vocabulary.rdfType,
    .named ⟨"http://t.example/Leaf"⟩⟩]

/-- The only resource that keeps all rules is not selected. -/
theorem tree_query_selects_nothing :
    ∃ q query, tree.query .default leafType none = .ok q ∧ readQuery q.text = some query ∧
      (∀ rule ∈ leafType.rules,
        Keeps tree rootIsLeaf (.named ⟨"http://t.example/root"⟩) rule) ∧
      ∀ μ ∈ groupSolutions rootIsLeaf query.pattern,
        μ.value ⟨"resource"⟩ ≠ some (.named ⟨"http://t.example/root"⟩) := by
  obtain ⟨q, hq⟩ : ∃ q, tree.query .default leafType none = .ok q := ⟨_, rfl⟩
  obtain ⟨query, read, selects⟩ :=
    query_selects_iff List.Perm.refl build_tree (by decide) (by simp [tree]) hq
  have typed : (⟨.named ⟨"http://t.example/root"⟩, Vocabulary.rdfType,
      .named ⟨"http://t.example/Leaf"⟩⟩ : Triple) ∈ rootIsLeaf := by
    simp [rootIsLeaf]
  have toMiddle : Encloses tree (.subclassOf [⟨"Middle"⟩]) middleType.inheritedRules :=
    .subclassOf (List.mem_singleton.mpr rfl) rfl
  have toRoot : Encloses tree (.subclassOf [⟨"Root"⟩]) rootType.inheritedRules :=
    .subclassOf (List.mem_singleton.mpr rfl) rfl
  have middleRules : middleType.inheritedRules = [.subclassOf [⟨"Root"⟩]] := by decide
  have rootRules : rootType.inheritedRules = [.isResource ⟨"http://t.example/root"⟩] := by decide
  have unbound : ∀ sub ∈ rootType.inheritedRules, ¬Binds tree sub := by
    intro sub hsub binds
    rw [rootRules, List.mem_singleton] at hsub
    subst hsub
    cases binds with
    | inside group => cases group
  have stray : Stray tree (.subclassOf [⟨"Middle"⟩]) :=
    .deeper toMiddle (by rw [middleRules]; exact List.mem_singleton.mpr rfl)
      (.here toRoot (by rw [rootRules]; exact List.mem_singleton.mpr rfl) unbound)
  have keepsRoot : ∀ rule ∈ rootType.inheritedRules,
      Keeps tree rootIsLeaf (.named ⟨"http://t.example/root"⟩) rule := by
    rw [rootRules]
    simpa using Keeps.isResource rfl
  have keepsMiddle : ∀ rule ∈ middleType.inheritedRules,
      Keeps tree rootIsLeaf (.named ⟨"http://t.example/root"⟩) rule := by
    rw [middleRules]
    simpa using Keeps.of_superclass rfl keepsRoot
  refine ⟨q, query, hq, read, ?_, ?_⟩
  · simp only [leafType, List.forall_mem_cons]
    exact ⟨.hasType typed, .of_superclass rfl keepsMiddle, by simp⟩
  · intro μ hμ value
    have found := (selects rootIsLeaf _ ⟨_, typed⟩).mp ⟨μ, hμ, value⟩
    exact found.1 _ (by simp [leafType]) stray

end GraphAccess
