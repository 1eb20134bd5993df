import GraphAccess.Proofs.Change.History
import GraphAccess.Proofs.Compilation.Termination
import GraphAccess.Proofs.Profile.Validity

namespace GraphAccess

/-- The same is declared of a type, its attributes in whatever order. -/
structure TypeDeclaration.Repeats (again d : TypeDeclaration) : Prop where
  id : again.id = d.id
  rules : again.rules = d.rules
  attributes : again.attributes.Perm d.attributes

/-- What is made of both declarations is the same type. -/
theorem TypeDeclaration.Repeats.unique {base : Option Reference} {again d : TypeDeclaration}
    (repeats : again.Repeats d) {t u : ResourceType} (ht : d.Makes base t)
    (hu : again.Makes base u) : u = t := by
  have ids : u.id = t.id := by rw [hu.id, ht.id, repeats.id]
  have rules : u.rules = t.rules := by rw [hu.rules, ht.rules, repeats.rules]
  have members (a : Attribute) : a ∈ u.attributes ↔ a ∈ t.attributes := by
    rw [hu.attributes, ht.attributes, repeats.id]
    simp only [repeats.attributes.mem_iff]
  have attributes : u.attributes = t.attributes :=
    eq_of_strictlyAscending hu.ascending ht.ascending members
  cases u
  cases t
  cases ids
  cases rules
  cases attributes
  rfl

/-- All types are declared again, maybe along with others. -/
def Redeclares (more ds : List TypeDeclaration) : Prop :=
  ∀ d ∈ ds, ∃ again ∈ more, again.Repeats d

/-- The profile resolves all types that the rule names, at whatever depth. -/
def Profile.Knows (p : Profile) (rule : Rule) : Prop :=
  ∀ id ∈ rule.references, ∃ t, p.find? id = some t

namespace Profile

theorem Knows.of_child {p : Profile} {rule child : Rule} (h : p.Knows rule)
    (hc : child ∈ rule.children) : p.Knows child := by
  intro id hid
  obtain ⟨sub, hsub, named⟩ := List.mem_flatMap.mp hid
  exact h id (List.mem_flatMap.mpr ⟨sub, Rule.mem_subrules_of_mem_children hc hsub, named⟩)

/-- The second profile has the types of the first, which refer to each other only. -/
structure ExtendedBy (p q : Profile) : Prop where
  arranged : Hierarchy.Arranged p.hierarchy
  arranged_more : Hierarchy.Arranged q.hierarchy
  kept : ∀ {id t}, p.find? id = some t → q.find? id = some t
  closed : ∀ {t}, t ∈ p.hierarchy → ∀ id ∈ t.references, ∃ u, p.find? id = some u

namespace ExtendedBy

variable {p q : Profile} {t : ResourceType} {v : Variable} {settings : Settings}

theorem knows_rule (h : p.ExtendedBy q) (ht : t ∈ p.hierarchy) {rule : Rule}
    (hr : rule ∈ t.rules) : p.Knows rule := by
  intro id hid
  exact h.closed ht id (List.mem_flatMap.mpr ⟨rule, List.mem_append_left _ hr, hid⟩)

theorem knows_attributeRule (h : p.ExtendedBy q) (ht : t ∈ p.hierarchy) {a : Attribute}
    (ha : a ∈ t.attributes) {rule : Rule} (hr : rule ∈ a.rules) : p.Knows rule := by
  intro id hid
  have mem : rule ∈ t.attributes.flatMap Attribute.rules := List.mem_flatMap.mpr ⟨a, ha, hr⟩
  exact h.closed ht id (List.mem_flatMap.mpr ⟨rule, List.mem_append_right _ mem, hid⟩)

/-- A rule that names types of the smaller profile only decides on the same resources in both. The
induction follows what compiling the rule in the smaller profile goes on to. -/
theorem ruleMembership_eq (h : p.ExtendedBy q) {rule : Rule} (knows : p.Knows rule) :
    q.ruleMembership v rule = p.ruleMembership v rule := by
  induction rule using (Descends.wellFounded h.arranged).induction with
  | _ rule ih =>
  cases rule with
  | allOf rules =>
    have parts : rules.mapM (q.ruleMembership v) = rules.mapM (p.ruleMembership v) :=
      mapM_congr_of_mem fun sub hsub => ih sub (.part hsub) (knows.of_child hsub)
    rw [ruleMembership_allOf, ruleMembership_allOf, parts]
  | subclassOf ids =>
    have handed {id : TypeId} (hid : id ∈ ids) :
        inheritedMembership v q.hierarchy id = inheritedMembership v p.hierarchy id := by
      obtain ⟨t, found⟩ := knows id (by simpa [Rule.references, Rule.subrules, Rule.namedTypes])
      have parts : t.inheritedRules.mapM (q.ruleMembership v) =
          t.inheritedRules.mapM (p.ruleMembership v) := by
        refine mapM_congr_of_mem fun sub hsub => ih sub (.inherited hid found hsub) ?_
        exact h.knows_rule (mem_of_find? found) (ResourceType.mem_inheritedRules.mp hsub).1
      rw [inheritedMembership_of_found h.arranged found,
        inheritedMembership_of_found h.arranged_more (h.kept found), parts]
    rw [ruleMembership_subclassOf, ruleMembership_subclassOf,
      mapM_congr_of_mem fun _ => handed]
  | _ => rfl

theorem membership_eq (h : p.ExtendedBy q) (ht : t ∈ p.hierarchy) :
    t.membership q v = t.membership p v := by
  have rules : t.rules.mapM (q.ruleMembership v) = t.rules.mapM (p.ruleMembership v) :=
    mapM_congr_of_mem fun rule hr => h.ruleMembership_eq (h.knows_rule ht hr)
  rw [Profile.membership_eq, Profile.membership_eq, rules]

theorem embeddedAlternative_eq (h : p.ExtendedBy q) {id : TypeId} (found : p.find? id = some t) :
    q.embeddedAlternative v id = p.embeddedAlternative v id := by
  have membership : t.membership q v = t.membership p v := h.membership_eq (mem_of_find? found)
  simp only [embeddedAlternative, found, h.kept found, membership]

theorem alternatives_eq (h : p.ExtendedBy q) {rule : Rule} (knows : p.Knows rule) :
    rule.alternatives q settings v = rule.alternatives p settings v := by
  induction rule using Rule.inductionOnChildren with
  | step rule ih =>
  have children : rule.children.mapM (Rule.alternatives q settings v) =
      rule.children.mapM (Rule.alternatives p settings v) :=
    mapM_congr_of_mem fun child hchild => ih child hchild (knows.of_child hchild)
  cases rule with
  | anyOf rules =>
    rw [alternatives_anyOf, alternatives_anyOf]
    exact congrArg _ children
  | allOf rules =>
    rw [alternatives_allOf, alternatives_allOf]
    exact congrArg _ children
  | embeds id =>
    obtain ⟨t, found⟩ := knows id (by simp [Rule.references, Rule.subrules, Rule.namedTypes])
    rw [Rule.alternatives, Rule.alternatives, h.embeddedAlternative_eq found]
  | _ => rfl

theorem attribute_alternatives_eq (h : p.ExtendedBy q) (ht : t ∈ p.hierarchy) {a : Attribute}
    (ha : a ∈ t.attributes) : a.alternatives q settings = a.alternatives p settings := by
  have each (rule : Rule) (hr : rule ∈ a.rules) :
      rule.attributeAlternatives q settings a.valueVariable =
        rule.attributeAlternatives p settings a.valueVariable := by
    have knows : p.Knows rule := h.knows_attributeRule ht ha hr
    cases rule with
    | range inner => exact h.alternatives_eq (knows.of_child (by simp [Rule.children]))
    | _ => rfl
  rw [Attribute.alternatives, Attribute.alternatives, mapM_congr_of_mem each]

theorem mem_of_embeddedType? {a : Attribute} (embedded : p.embeddedType? a = some t) :
    t ∈ p.hierarchy := by
  unfold embeddedType? at embedded
  split at embedded
  · exact mem_of_find? embedded
  · cases embedded

theorem embeddedType?_eq (h : p.ExtendedBy q) (ht : t ∈ p.hierarchy) {a : Attribute}
    (ha : a ∈ t.attributes) : q.embeddedType? a = p.embeddedType? a := by
  unfold embeddedType?
  split
  · next id range =>
    obtain ⟨rule, hr, range⟩ := List.exists_of_findSome?_eq_some range
    have knows : p.Knows rule := h.knows_attributeRule ht ha hr
    have named : id ∈ rule.references := by
      cases rule with
      | range inner =>
        cases range
        simp [Rule.references, Rule.subrules, Rule.namedTypes]
      | _ => cases range
    obtain ⟨u, found⟩ := knows id named
    rw [found, h.kept found]
  · rfl

theorem embeddedSelection_eq (h : p.ExtendedBy q) (ht : t ∈ p.hierarchy) {a : Attribute}
    (ha : a ∈ t.attributes) : q.embeddedSelection a = p.embeddedSelection a := by
  rw [embeddedSelection, embeddedSelection, h.embeddedType?_eq ht ha]
  cases embedded : p.embeddedType? a with
  | none => rfl
  | some u =>
    have hu : u ∈ p.hierarchy := mem_of_embeddedType? embedded
    simp only [h.membership_eq hu]

theorem query_eq (h : p.ExtendedBy q) (ht : t ∈ p.hierarchy) (restriction : Option Iri) :
    q.query settings t restriction = p.query settings t restriction := by
  have blocks (resource resourceType : Variable) :
      t.attributes.mapM (Attribute.block q settings resource resourceType) =
        t.attributes.mapM (Attribute.block p settings resource resourceType) := by
    refine mapM_congr_of_mem fun a ha => ?_
    rw [Attribute.block, Attribute.block, h.attribute_alternatives_eq ht ha]
  simp only [Profile.query, h.membership_eq ht, blocks]

theorem selection_eq (h : p.ExtendedBy q) (ht : t ∈ p.hierarchy) :
    q.selection settings t = p.selection settings t := by
  simp only [Profile.selection, h.membership_eq ht]

end ExtendedBy

/-- Whatever is compiled for the type is the same with either profile. -/
structure CompilesAlike (p q : Profile) (t : ResourceType) : Prop where
  membership : ∀ v, t.membership q v = t.membership p v
  selection : ∀ settings, q.selection settings t = p.selection settings t
  alternatives : ∀ a ∈ t.attributes, ∀ settings,
    a.alternatives q settings = a.alternatives p settings
  embeddedType : ∀ a ∈ t.attributes, q.embeddedType? a = p.embeddedType? a
  embeddedSelection : ∀ a ∈ t.attributes, q.embeddedSelection a = p.embeddedSelection a
  query : ∀ settings restriction,
    q.query settings t restriction = p.query settings t restriction

theorem ExtendedBy.compilesAlike {p q : Profile} (h : p.ExtendedBy q) {t : ResourceType}
    (ht : t ∈ p.hierarchy) : p.CompilesAlike q t where
  membership := fun _ => h.membership_eq ht
  selection := fun _ => h.selection_eq ht
  alternatives := fun _ ha _ => h.attribute_alternatives_eq ht ha
  embeddedType := fun _ ha => h.embeddedType?_eq ht ha
  embeddedSelection := fun _ ha => h.embeddedSelection_eq ht ha
  query := fun _ restriction => h.query_eq ht restriction

end Profile

/-- A step of an edit that names the attribute it gives values for. -/
inductive NamedStep where
  | mark (direction : Direction)
  | give (direction : Direction) (s : Slot) (values : List Value)
  deriving DecidableEq, Repr

namespace NamedStep

/-- The type of the attribute that the step names. -/
def owner? : NamedStep → Option TypeId
  | mark _ => none
  | give _ s _ => some s.owner

/-- The step with the attribute that a profile has of the name. -/
def resolve? (p : Profile) : NamedStep → Option EditStep
  | mark direction => some (.mark direction)
  | give direction s values => do
    let t ← p.find? s.owner
    let a ← t.attribute? s.id
    some (.give direction a values)

end NamedStep

/-- The edit that named steps make of a fresh one of a type. -/
def Profile.edit? (p : Profile) (type : TypeId) (subject : Node) (steps : List NamedStep) :
    Option ResourceEdit := do
  let t ← p.find? type
  let steps ← steps.mapM (NamedStep.resolve? p)
  some (.run t subject steps)

namespace Profile

variable {p q : Profile}

theorem ExtendedBy.find?_eq (h : p.ExtendedBy q) {id : TypeId} (known : (p.find? id).isSome) :
    q.find? id = p.find? id := by
  obtain ⟨t, found⟩ := Option.isSome_iff_exists.mp known
  rw [found, h.kept found]

theorem ExtendedBy.resolve?_eq (h : p.ExtendedBy q) {step : NamedStep}
    (known : ∀ id ∈ step.owner?, (p.find? id).isSome) : step.resolve? q = step.resolve? p := by
  cases step with
  | mark => rfl
  | give direction s values =>
    rw [NamedStep.resolve?, NamedStep.resolve?, h.find?_eq (known s.owner rfl)]

theorem ExtendedBy.edit?_eq (h : p.ExtendedBy q) {type : TypeId} (known : (p.find? type).isSome)
    (subject : Node) {steps : List NamedStep}
    (owners : ∀ step ∈ steps, ∀ id ∈ step.owner?, (p.find? id).isSome) :
    q.edit? type subject steps = p.edit? type subject steps := by
  have resolved : steps.mapM (NamedStep.resolve? q) = steps.mapM (NamedStep.resolve? p) := by
    induction steps with
    | nil => rfl
    | cons step steps ih =>
      obtain ⟨first, later⟩ := List.forall_mem_cons.mp owners
      simp only [List.mapM_cons, h.resolve?_eq first, ih later]
  rw [edit?, edit?, h.find?_eq known, resolved]

/-- Declaring more extends a profile, whatever the order in which anything is declared or looked
at. -/
theorem extendedBy_of_redeclares {order order' : List ResourceType → List ResourceType}
    {base : Option String} {ds more : List TypeDeclaration}
    (reorders : ∀ ts, (order ts).Perm ts) (reorders' : ∀ ts, (order' ts).Perm ts)
    (built : buildIn order base ds = .ok p) (built' : buildIn order' base more = .ok q)
    (again : Redeclares more ds) : p.ExtendedBy q where
  arranged := arranged_of_buildIn built
  arranged_more := arranged_of_buildIn built'
  closed := closed_of_buildIn reorders built
  kept := by
    intro id t found
    obtain ⟨reference, read, keeps⟩ := keeps_of_buildIn reorders built
    obtain ⟨reference', read', keeps'⟩ := keeps_of_buildIn reorders' built'
    rw [read] at read'
    cases read'
    obtain ⟨d, hd, rfl, makes⟩ := keeps.exists_makes found
    obtain ⟨e, he, repeats⟩ := again d hd
    obtain ⟨u, found', makes'⟩ := keeps'.types e he
    rw [← repeats.id, found', repeats.unique makes makes']

/-- A profile compiles its types alike and makes the same edits of their resources if more is
declared, whatever the order in which anything is declared or looked at. -/
theorem compilesAlike_of_redeclares {order order' : List ResourceType → List ResourceType}
    {base : Option String} {ds more : List TypeDeclaration}
    (reorders : ∀ ts, (order ts).Perm ts) (reorders' : ∀ ts, (order' ts).Perm ts)
    (built : buildIn order base ds = .ok p) (built' : buildIn order' base more = .ok q)
    (again : Redeclares more ds) :
    (∀ id t, p.find? id = some t → q.find? id = some t ∧ p.CompilesAlike q t) ∧
      ∀ type subject steps, (p.find? type).isSome →
        (∀ step ∈ steps, ∀ id ∈ NamedStep.owner? step, (p.find? id).isSome) →
        q.edit? type subject steps = p.edit? type subject steps := by
  have extended := extendedBy_of_redeclares reorders reorders' built built' again
  constructor
  · intro id t found
    exact ⟨extended.kept found, extended.compilesAlike (mem_of_find? found)⟩
  · intro type subject steps known owners
    exact extended.edit?_eq known subject owners

end Profile

/-- The library from its last type on, each attribute in another place, with films in between. -/
def filmDeclarations : List TypeDeclaration :=
  [⟨⟨"Work"⟩, [.hasType ⟨"http://l.example/Work"⟩], []⟩,
    ⟨⟨"Film"⟩, [.hasType ⟨"http://l.example/Film"⟩, .subclassOf [⟨"Work"⟩]],
      [⟨⟨"basis"⟩, "basis", [.range (.embeds ⟨"Book"⟩)]⟩]⟩,
    ⟨⟨"Book"⟩, [.hasType ⟨"http://l.example/Book"⟩, .subclassOf [⟨"Work"⟩]],
      [⟨⟨"about"⟩, "about", [.range (.anyOf [.instanceOf ⟨"Book"⟩, .embeds ⟨"Work"⟩])]⟩,
        ⟨⟨"title"⟩, "http://l.example/title", [.range .literal, .maxCount 1]⟩]⟩]

def filmType : ResourceType :=
  ⟨⟨"Film"⟩, [.hasType ⟨"http://l.example/Film"⟩, .subclassOf [⟨"Work"⟩]],
    [⟨⟨"basis"⟩, ⟨"Film"⟩, ⟨"http://l.example/basis"⟩, [.range (.embeds ⟨"Book"⟩)]⟩]⟩

def filmLibrary : Profile := ⟨filmType :: library.hierarchy⟩

def titleSteps : List NamedStep :=
  [.mark .adding, .give .adding ⟨⟨"Book"⟩, ⟨"title"⟩⟩ [.literal (.plain "Emma")]]

/-- Books are retrieved and written in the same way whether or not there are films. -/
theorem films_leave_books_alone :
    Profile.buildIn id (some "http://l.example/") libraryDeclarations = .ok library ∧
      Profile.buildIn List.reverse (some "http://l.example/") filmDeclarations =
        .ok filmLibrary ∧
      Redeclares filmDeclarations libraryDeclarations ∧
      ∃ t, library.find? ⟨"Book"⟩ = some t ∧ library.CompilesAlike filmLibrary t ∧
        ∀ subject, filmLibrary.edit? ⟨"Book"⟩ subject titleSteps =
          library.edit? ⟨"Book"⟩ subject titleSteps := by
  have built : Profile.buildIn id (some "http://l.example/") libraryDeclarations = .ok library := by
    decide +kernel
  have built' : Profile.buildIn List.reverse (some "http://l.example/") filmDeclarations =
      .ok filmLibrary := by
    decide +kernel
  have again : Redeclares filmDeclarations libraryDeclarations := by
    intro d hd
    rcases List.mem_pair.mp hd with rfl | rfl
    · exact ⟨filmDeclarations[2], List.getElem_mem .., rfl, rfl, .swap ..⟩
    · exact ⟨filmDeclarations[0], List.getElem_mem .., rfl, rfl, .nil⟩
  obtain ⟨t, found⟩ : ∃ t, library.find? ⟨"Book"⟩ = some t := ⟨_, rfl⟩
  obtain ⟨alike, edits⟩ :=
    Profile.compilesAlike_of_redeclares List.Perm.refl List.reverse_perm built built' again
  refine ⟨built, built', again, t, found, (alike _ t found).2, fun subject => ?_⟩
  exact edits _ subject titleSteps (by decide) (by decide)

end GraphAccess
