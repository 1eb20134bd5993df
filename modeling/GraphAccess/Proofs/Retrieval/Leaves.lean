import GraphAccess.Proofs.Retrieval.Readable

namespace GraphAccess

namespace Rule

mutual

/-- How many alternatives a rule for values offers: a conjunction merges those of its children, and
rules that only describe a value offer none. -/
def alternativeCount : Rule → Nat
  | anyOf rules => alternativeCountOfAll rules
  | allOf _ | instanceOf _ | embeds _ | inScheme _ => 1
  | _ => 0

def alternativeCountOfAll : List Rule → Nat
  | [] => 0
  | rule :: rules => alternativeCount rule + alternativeCountOfAll rules

end

mutual

/-- What conjunctions and alternatives are made of in the end, from left to right. -/
def leaves : Rule → List Rule
  | anyOf rules | allOf rules => leavesOfAll rules
  | leaf => [leaf]

def leavesOfAll : List Rule → List Rule
  | [] => []
  | rule :: rules => leaves rule ++ leavesOfAll rules

end

/-- What is retrieved for a leaf: the RDF type of a value, or the scheme that it is in. -/
def leafTriple? (registry : Profile) (settings : Settings) (v : Variable) :
    Rule → Option TriplePattern
  | instanceOf _ => some ⟨v, .isA, .var ⟨v.name ++ settings.typeSuffix⟩⟩
  | embeds id =>
    match (registry.find? id).map ResourceType.rdfTypes with
    | some [type] => some ⟨v, .isA, .iri type⟩
    | _ => none
  | inScheme scheme => some ⟨v, .predicate Vocabulary.skosInScheme, .iri scheme⟩
  | _ => none

/-- The kinds of leaves that something is retrieved for. -/
def retrievedKinds : List Kind := [.instanceOf, .embeds, .inScheme]

end Rule

/-- The triples for the leaves of an attribute's range. -/
def Attribute.leafTriples (registry : Profile) (settings : Settings) (a : Attribute) :
    List TriplePattern :=
  (a.range?.elim [] Rule.leaves).filterMap (Rule.leafTriple? registry settings a.valueVariable)

/-- No IRI of a rule, of whatever type or attribute and at whatever depth, has a line break. -/
def Profile.OneLineIris (p : Profile) : Prop :=
  ∀ t ∈ p.hierarchy, ∀ rule ∈ t.rules ++ t.attributes.flatMap Attribute.rules,
    ∀ sub ∈ rule.subrules, ∀ iri ∈ sub.iri?, '\n' ∉ iri.text.toList

section
variable {p : Profile} {settings : Settings} {v : Variable}

/-- The alternatives of a rule for values list the triples of its leaves. -/
structure Lists (p : Profile) (settings : Settings) (v : Variable) (rule : Rule)
    (as : List Alternative) : Prop where
  count : as.length = rule.alternativeCount
  triples : as.flatMap (fun a => a.template.triples) =
    rule.leaves.filterMap (Rule.leafTriple? p settings v)
  leaf : ∀ leaf ∈ rule.leaves,
    (leaf.leafTriple? p settings v).isSome = true ↔ leaf.kind ∈ Rule.retrievedKinds

theorem Lists.single {leaf : Rule} {a : Alternative} {t : TriplePattern}
    (alone : leaf.leaves = [leaf]) (one : leaf.alternativeCount = 1)
    (retrieved : leaf.kind ∈ Rule.retrievedKinds)
    (triple : leaf.leafTriple? p settings v = some t) (template : a.template = .triple t) :
    Lists p settings v leaf [a] where
  count := one.symm
  triples := by simp [alone, triple, template, Pattern.triples]
  leaf := by simp [alone, triple, retrieved]

theorem Lists.anyOf {rules : List Rule} {lists : List (List Alternative)}
    (h : List.Forall₂ (Lists p settings v) rules lists) :
    Lists p settings v (.anyOf rules) lists.flatten := by
  induction h with
  | nil =>
    constructor
    · rfl
    · rfl
    · simp [Rule.leaves, Rule.leavesOfAll]
  | @cons rule as rules lists first _ others =>
    constructor
    · have count := others.count
      rw [Rule.alternativeCount] at count
      rw [List.flatten_cons, List.length_append, first.count, count, Rule.alternativeCount,
        Rule.alternativeCountOfAll]
    · have triples := others.triples
      rw [Rule.leaves] at triples
      rw [List.flatten_cons, List.flatMap_append, first.triples, triples, Rule.leaves,
        Rule.leavesOfAll, List.filterMap_append]
    · intro leaf hleaf
      rcases List.mem_append.mp hleaf with hleaf | hleaf
      · exact first.leaf leaf hleaf
      · exact others.leaf leaf hleaf

/-- Merging keeps the triples in their order. -/
theorem Lists.allOf {rules : List Rule} {lists : List (List Alternative)}
    (h : List.Forall₂ (Lists p settings v) rules lists) :
    Lists p settings v (.allOf rules) [.merge lists.flatten] where
  count := rfl
  triples := by
    have joined : (Alternative.merge lists.flatten).template.triples =
        lists.flatten.flatMap fun a => a.template.triples :=
      Alternative.template_merge_triples _
    rw [List.flatMap_singleton, joined, (Lists.anyOf h).triples]
    rfl
  leaf := (Lists.anyOf h).leaf

theorem lists_of_alternatives {rule : Rule} {as : List Alternative}
    (h : rule.alternatives p settings v = .ok as) : Lists p settings v rule as := by
  refine Rule.alternatives_induction (motive := Lists p settings v) ?_ ?_ ?_ ?_ ?_ ?_ h
  · intro rules lists each
    exact .anyOf each
  · intro rules lists each
    exact .allOf each
  · intro type _
    exact .single rfl rfl (by simp [Rule.retrievedKinds, Rule.kind]) rfl rfl
  · intro id t type condition found types _
    have triple : (Rule.embeds id).leafTriple? p settings v = some ⟨v, .isA, .iri type⟩ := by
      simp [Rule.leafTriple?, found, types]
    exact .single rfl rfl (by simp [Rule.retrievedKinds, Rule.kind]) triple rfl
  · intro scheme
    exact .single rfl rfl (by simp [Rule.retrievedKinds, Rule.kind]) rfl rfl
  · intro rule shape
    cases rule with
    | literal | datatype | languageIn | snippet =>
      constructor <;> simp [Rule.alternativeCount, Rule.leaves, Rule.leafTriple?, Rule.kind,
        Rule.retrievedKinds]
    | _ => simp [Rule.kind, shapeKinds] at shape

/-- An attribute lists the triples of its range's leaves. -/
theorem Attribute.lists_of_alternatives {a : Attribute} {as : List Alternative}
    (one : rangeCount a.rules ≤ 1) (h : a.alternatives p settings = .ok as) :
    as.length = a.range?.elim 0 Rule.alternativeCount ∧
      as.flatMap (fun b => b.template.triples) = a.leafTriples p settings ∧
      ∀ leaf ∈ a.range?.elim [] Rule.leaves,
        (leaf.leafTriple? p settings a.valueVariable).isSome = true ↔
          leaf.kind ∈ Rule.retrievedKinds := by
  unfold leafTriples
  cases range : a.range? with
  | none =>
    rw [Attribute.eq_nil_of_noRange range h]
    simp
  | some rule =>
    have lists := GraphAccess.lists_of_alternatives (Attribute.alternatives_of_range range one h)
    exact ⟨lists.count, lists.triples, lists.leaf⟩

/-- Cutting what the alternative retrieves at statement ends gives its triples. -/
structure Alternative.Cuttable (a : Alternative) : Prop where
  template : a.template.Template
  oneLine : ∀ t ∈ a.template.triples, t.OneLine

theorem Alternative.Cuttable.statements {a : Alternative} (h : a.Cuttable) :
    Text.statements a.text.template = a.template.triples.map TriplePattern.text :=
  h.template.statements_text h.oneLine

theorem Alternative.cuttable_of_triple {a : Alternative} {t : TriplePattern}
    (template : a.template = .triple t) (oneLine : t.OneLine) : a.Cuttable := by
  constructor
  · rw [template]
    exact .triple t
  · simpa [template, Pattern.triples] using oneLine

theorem Alternative.cuttable_merge {as : List Alternative} (h : ∀ a ∈ as, a.Cuttable) :
    (merge as).Cuttable where
  template := isTemplate_merge fun a ha => (h a ha).template
  oneLine := forall_triples_merge fun a ha => (h a ha).oneLine

theorem oneLine_withIri (name : Variable.isName v.name = true) {verb : Verb}
    (hv : '\n' ∉ verb.text.toList) {iri : Iri} (hi : '\n' ∉ iri.text.toList) :
    (⟨v, verb, .iri iri⟩ : TriplePattern).OneLine :=
  TriplePattern.oneLine_of_parts name hv (oneLine_bracketed hi)

theorem Originates.cuttable (oneLine : p.OneLineIris) (name : Variable.isName v.name = true)
    {rule : Rule} (iris : ∀ sub ∈ rule.subrules, ∀ iri ∈ sub.iri?, '\n' ∉ iri.text.toList)
    {a : Alternative} (h : Originates p settings v rule a) : a.Cuttable := by
  induction h with
  | instanceOf _ nameType =>
    refine Alternative.cuttable_of_triple rfl (TriplePattern.oneLine_of_parts name ?_ ?_)
    · exact (by decide : '\n' ∉ Verb.isA.text.toList)
    · exact oneLine_variable nameType
  | @embeds t type condition ht types _ =>
    have demanded := ResourceType.hasType_mem_of_rdfTypes types
    have iri := oneLine t ht _ (List.mem_append_left _ demanded) (.hasType type)
      (by rw [Rule.subrules_eq]; exact List.mem_cons_self) type rfl
    exact Alternative.cuttable_of_triple rfl (oneLine_withIri name (by decide) iri)
  | @inScheme scheme hs =>
    have verb : '\n' ∉ (Verb.predicate Vocabulary.skosInScheme).text.toList := by decide
    exact Alternative.cuttable_of_triple rfl (oneLine_withIri name verb (iris _ hs scheme rfl))
  | merge _ ih => exact Alternative.cuttable_merge ih

theorem flatMap_eq_of_forall₂ {α β γ : Type} {f : α → List γ} {g : β → List γ} {as : List α}
    {bs : List β} (h : List.Forall₂ (fun a b => g b = f a) as bs) :
    bs.flatMap g = as.flatMap f := by
  induction h with
  | nil => rfl
  | cons same _ ih => rw [List.flatMap_cons, List.flatMap_cons, same, ih]

end

section
variable {order : List ResourceType → List ResourceType} {base : Option String}
variable {ds : List TypeDeclaration} {p : Profile} {settings : Settings} {t : ResourceType}

theorem Attribute.statements_of_alternatives (reorders : ∀ ts, (order ts).Perm ts)
    (built : Profile.buildIn order base ds = .ok p) (oneLine : p.OneLineIris)
    (ht : t ∈ p.hierarchy) {a : Attribute} (ha : a ∈ t.attributes) {as : List Alternative}
    (h : a.alternatives p settings = .ok as) :
    as.flatMap (fun b => Text.statements b.text.template) =
      (a.leafTriples p settings).map TriplePattern.text := by
  obtain ⟨name, one, _⟩ := Profile.attribute_of_buildIn reorders built ht ha
  have cut : ∀ b ∈ as,
      Text.statements b.text.template = b.template.triples.map TriplePattern.text := by
    intro b hb
    obtain ⟨rule, hrule, originates⟩ := originates_of_attribute h b hb
    have listed : rule ∈ t.rules ++ t.attributes.flatMap Attribute.rules :=
      List.mem_append_right _ (List.mem_flatMap.mpr ⟨a, ha, hrule⟩)
    exact (originates.cuttable oneLine name (oneLine t ht rule listed)).statements
  rw [← (Attribute.lists_of_alternatives one h).2.1, List.map_flatMap]
  exact List.flatMap_congr cut

/-- The lines that an attribute adds to the template of a query. -/
def Attribute.templateLines (registry : Profile) (settings : Settings) (resource : Variable)
    (a : Attribute) : List String :=
  (⟨resource, .predicate a.predicate, .var a.valueVariable⟩ : TriplePattern).text ::
    (a.leafTriples registry settings).map TriplePattern.text

theorem Profile.templateLines_of_query (reorders : ∀ ts, (order ts).Perm ts)
    (built : buildIn order base ds = .ok p) (oneLine : p.OneLineIris) (ht : t ∈ p.hierarchy)
    {restriction : Option Iri} {q : ResourceQuery}
    (h : p.query settings t restriction = .ok q) :
    q.templateLines =
      (⟨⟨settings.resourceName⟩, .isA, .var ⟨settings.resourceName ++ settings.typeSuffix⟩⟩ :
        TriplePattern).text ::
        t.attributes.flatMap (Attribute.templateLines p settings ⟨settings.resourceName⟩) := by
  obtain ⟨membership, blocks, _, _, _, hblocks, rfl⟩ := parts_of_query h
  have each : List.Forall₂ (fun a (b : AttributeBlock) => b.templateLines =
      Attribute.templateLines p settings ⟨settings.resourceName⟩ a) t.attributes blocks := by
    refine forall₂_of_mapM hblocks fun a ha b hb => ?_
    obtain ⟨_, _, as, has, rfl⟩ := Attribute.block_eq_ok_iff.mp hb
    have lines := Attribute.statements_of_alternatives reorders built oneLine ht ha has
    rw [AttributeBlock.templateLines, lines]
    rfl
  rw [ResourceQuery.templateLines, flatMap_eq_of_forall₂ each]
  rfl

/-- Whatever the order in which the types are looked at: an attribute has as many alternatives as
its range offers, and the statements of what they retrieve are the triples of the leaves of the
range that retrieve anything, one for each and from left to right. So the template of a query for
the type, whose attributes ascend by their ids, has nothing but these behind each edge. -/
theorem Profile.template_lists_leaves (reorders : ∀ ts, (order ts).Perm ts)
    (built : buildIn order base ds = .ok p) (oneLine : p.OneLineIris) (ht : t ∈ p.hierarchy)
    (settings : Settings) :
    (∀ a ∈ t.attributes, ∀ as, a.alternatives p settings = .ok as →
      as.length = a.range?.elim 0 Rule.alternativeCount ∧
        as.flatMap (fun b => Text.statements b.text.template) =
          (a.leafTriples p settings).map TriplePattern.text ∧
        ∀ leaf ∈ a.range?.elim [] Rule.leaves,
          (leaf.leafTriple? p settings a.valueVariable).isSome = true ↔
            leaf.kind ∈ [.instanceOf, .embeds, .inScheme]) ∧
      StrictlyAscending Attribute.id t.attributes ∧
      ∀ restriction q, p.query settings t restriction = .ok q →
        q.text = "CONSTRUCT \x7b\n  " ++
          ResourceQuery.joinLines
            ((⟨⟨settings.resourceName⟩, .isA, .var ⟨settings.resourceName ++ settings.typeSuffix⟩⟩ :
              TriplePattern).text ::
              t.attributes.flatMap
                (Attribute.templateLines p settings ⟨settings.resourceName⟩)) ++
          " .\n\x7d\nWHERE \x7b\n  " ++ ResourceQuery.joinLines q.patternLines ++ "\n\x7d" := by
  refine ⟨fun a ha as h => ?_, ?_, fun restriction q h => ?_⟩
  · have one : rangeCount a.rules ≤ 1 := (attribute_of_buildIn reorders built ht ha).2.1
    obtain ⟨count, _, leaf⟩ := Attribute.lists_of_alternatives one h
    exact ⟨count, Attribute.statements_of_alternatives reorders built oneLine ht ha h, leaf⟩
  · obtain ⟨_, _, d, _, ok⟩ := type_of_buildIn reorders built ht
    exact (TypeDeclaration.makes_of_toType ok).ascending
  · rw [← templateLines_of_query reorders built oneLine ht h]
    unfold ResourceQuery.text
    rfl

end

/-- Concerts take place in a hall; what they are about may be a hall too, or a theme, or anything
that can be written out. -/
def concertDeclarations : List TypeDeclaration :=
  [⟨⟨"Concert"⟩, [.hasType ⟨"http://c.example/Concert"⟩],
    [⟨⟨"place"⟩, "http://c.example/place", [.range (.embeds ⟨"Hall"⟩)]⟩,
      ⟨⟨"about"⟩, "http://c.example/about",
        [.minCount 1,
          .range (.anyOf
            [.allOf [.allOf [], .anyOf [.instanceOf ⟨"Hall"⟩, .literal],
                .inScheme ⟨"http://c.example/themes ."⟩],
              .anyOf [.embeds ⟨"Hall"⟩, .snippet "title"], .allOf [.literal]])]⟩]⟩,
    ⟨⟨"Hall"⟩, [.hasType ⟨"http://c.example/Hall"⟩, .inScheme ⟨"http://c.example/halls"⟩], []⟩]

def themeAttribute : Attribute :=
  ⟨⟨"about"⟩, ⟨"Concert"⟩, ⟨"http://c.example/about"⟩,
    [.minCount 1,
      .range (.anyOf
        [.allOf [.allOf [], .anyOf [.instanceOf ⟨"Hall"⟩, .literal],
            .inScheme ⟨"http://c.example/themes ."⟩],
          .anyOf [.embeds ⟨"Hall"⟩, .snippet "title"], .allOf [.literal]])]⟩

def placeAttribute : Attribute :=
  ⟨⟨"place"⟩, ⟨"Concert"⟩, ⟨"http://c.example/place"⟩, [.range (.embeds ⟨"Hall"⟩)]⟩

def concertType : ResourceType :=
  ⟨⟨"Concert"⟩, [.hasType ⟨"http://c.example/Concert"⟩], [themeAttribute, placeAttribute]⟩

def hallType : ResourceType :=
  ⟨⟨"Hall"⟩, [.hasType ⟨"http://c.example/Hall"⟩, .inScheme ⟨"http://c.example/halls"⟩], []⟩

def concerts : Profile := ⟨[concertType, hallType]⟩

theorem build_concerts :
    Profile.buildIn List.reverse none concertDeclarations = .ok concerts := by
  decide +kernel

/-- What the template of a query for concerts lists. -/
def concertLines : List String :=
  ["?resource a ?resourceType", "?resource <http://c.example/about> ?about",
    "?about a ?aboutType",
    "?about <http://www.w3.org/2004/02/skos/core#inScheme> <http://c.example/themes .>",
    "?about a <http://c.example/Hall>", "?resource <http://c.example/place> ?place",
    "?place a <http://c.example/Hall>"]

/-- There are three alternatives for what concerts are about, one of them with two triples and one
with none. -/
theorem concerts_list_leaves :
    (∀ ts : List ResourceType, ts.reverse.Perm ts) ∧
      Profile.buildIn List.reverse none concertDeclarations = .ok concerts ∧
      concerts.OneLineIris ∧ concertType ∈ concerts.hierarchy ∧
      (∃ as, themeAttribute.alternatives concerts .default = .ok as ∧ as.length = 3 ∧
        as.flatMap (fun b => Text.statements b.text.template) =
          (concertLines.drop 2).take 3) ∧
      ∃ q, concerts.query .default concertType none = .ok q ∧
        q.text = "CONSTRUCT \x7b\n  " ++ ResourceQuery.joinLines concertLines ++
          " .\n\x7d\nWHERE \x7b\n  " ++ ResourceQuery.joinLines q.patternLines ++ "\n\x7d" := by
  have reorders : ∀ ts : List ResourceType, ts.reverse.Perm ts := List.reverse_perm
  have oneLine : concerts.OneLineIris := by
    unfold Profile.OneLineIris
    decide +kernel
  have concert : concertType ∈ concerts.hierarchy := List.mem_cons_self
  obtain ⟨lists, _, writes⟩ :=
    Profile.template_lists_leaves reorders build_concerts oneLine concert .default
  obtain ⟨as, has⟩ : ∃ as, themeAttribute.alternatives concerts .default = .ok as := ⟨_, rfl⟩
  obtain ⟨q, hq⟩ : ∃ q, concerts.query .default concertType none = .ok q := ⟨_, rfl⟩
  obtain ⟨count, statements, _⟩ := lists themeAttribute List.mem_cons_self as has
  have template : (⟨⟨Settings.default.resourceName⟩, .isA,
      .var ⟨Settings.default.resourceName ++ Settings.default.typeSuffix⟩⟩ : TriplePattern).text ::
      concertType.attributes.flatMap
        (Attribute.templateLines concerts .default ⟨Settings.default.resourceName⟩) =
      concertLines := by
    decide +kernel
  refine ⟨reorders, build_concerts, oneLine, concert, ⟨as, has, count, ?_⟩, q, hq, ?_⟩
  · rw [statements]
    decide +kernel
  · rw [writes none q hq, template]

end GraphAccess
