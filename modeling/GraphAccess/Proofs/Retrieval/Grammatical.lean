import GraphAccess.Proofs.Membership.Selection
import GraphAccess.Proofs.Sparql.Grammar

namespace GraphAccess

open Sparql

/-- In the group of some rules, or in a group below it, a rule without a pattern stands in front of
another rule. -/
inductive HasGap (registry : Profile) : List Rule → Prop
  | here {rules : List Rule} (h : .subclassOf [] ∈ rules.dropLast) : HasGap registry rules
  | deeper {rules inner : List Rule} {rule : Rule} (h : rule ∈ rules)
    (group : Encloses registry rule inner) (gap : HasGap registry inner) : HasGap registry rules

/-- A group below a rule has a gap. -/
def GapBelow (registry : Profile) (rule : Rule) : Prop :=
  ∃ inner, Encloses registry rule inner ∧ HasGap registry inner

/-- A type that a rule embeds has a gap among its rules. -/
def GapEmbedded (registry : Profile) (rule : Rule) : Prop :=
  ∃ id t, .embeds id ∈ rule.subrules ∧ registry.find? id = some t ∧ HasGap registry t.rules

/-- Nothing is missing between the parts of a type's query. -/
structure ResourceType.Seamless (registry : Profile) (t : ResourceType) : Prop where
  /-- Other parts follow the type's own rules. -/
  own : .subclassOf [] ∈ t.rules → t.rules = [.subclassOf []]
  deeper : ∀ rule ∈ t.rules, ¬GapBelow registry rule
  embedded : ∀ a ∈ t.attributes, ∀ rule ∈ a.rules, ¬GapEmbedded registry rule

section
variable {registry : Profile} {v : Variable}

theorem hasGap_iff {rules : List Rule} :
    HasGap registry rules ↔
      .subclassOf [] ∈ rules.dropLast ∨ ∃ rule ∈ rules, GapBelow registry rule := by
  constructor
  · rintro (h | ⟨h, group, gap⟩)
    · exact .inl h
    · exact .inr ⟨_, h, _, group, gap⟩
  · rintro (h | ⟨rule, h, inner, group, gap⟩)
    · exact .here h
    · exact .deeper h group gap

theorem not_gapBelow_of_leaf {rule : Rule} (leaf : ∀ inner, ¬Encloses registry rule inner) :
    ¬GapBelow registry rule :=
  fun ⟨inner, group, _⟩ => leaf inner group

/-- How the tokens of a rule's pattern go with those around them. -/
structure Fits (registry : Profile) (rule : Rule) (tokens : List Token) : Prop where
  nothing : rule = .subclassOf [] → tokens = []
  part : rule ≠ .subclassOf [] → ¬GapBelow registry rule → Part tokens
  gap : GapBelow registry rule → ¬DotsApart tokens

theorem fits_of_leaf {rule : Rule} {tokens : List Token} (other : rule ≠ .subclassOf [])
    (leaf : ∀ inner, ¬Encloses registry rule inner) (part : Part tokens) :
    Fits registry rule tokens where
  nothing e := absurd e other
  part _ _ := part
  gap below := absurd below (not_gapBelow_of_leaf leaf)

section
variable {rules : List Rule} {tss : List (List Token)}

/-- The rules in front of the last one have the tokens in front of the last ones. -/
theorem forall₂_dropLast (h : List.Forall₂ (Fits registry) rules tss) :
    List.Forall₂ (Fits registry) rules.dropLast tss.dropLast := by
  rw [List.dropLast_eq_take, List.dropLast_eq_take, h.length_eq]
  exact List.forall₂_take _ h

theorem body_of_fits (h : List.Forall₂ (Fits registry) rules tss)
    (seamless : ¬HasGap registry rules) : Derives .groupBody ([.dot].intercalate tss) := by
  rw [hasGap_iff, not_or, not_exists] at seamless
  obtain ⟨noGap, below⟩ := seamless
  apply body_intercalate
  · intro ts hts
    obtain ⟨rule, hrule, fits⟩ := exists_mem_of_forall₂ (forall₂_dropLast h) hts
    have other : rule ≠ .subclassOf [] := fun e => noGap (e ▸ hrule)
    exact fits.part other fun gap => below rule ⟨(List.dropLast_sublist rules).subset hrule, gap⟩
  · intro ts hts
    obtain ⟨rule, hrule, fits⟩ := exists_mem_of_forall₂ h (List.mem_of_getLast? hts)
    by_cases e : rule = .subclassOf []
    · rw [fits.nothing e]
      exact .emptyBody
    · exact (fits.part e fun gap => below rule ⟨hrule, gap⟩).alone

theorem not_dotsApart_of_fits (h : List.Forall₂ (Fits registry) rules tss)
    (gap : HasGap registry rules) {t : Token} (opens : t.Opens) :
    ¬DotsApart (t :: [.dot].intercalate tss) := by
  rcases hasGap_iff.mp gap with here | ⟨rule, hrule, below⟩
  · obtain ⟨ts, hts, fits⟩ := exists_mem_right_of_forall₂ (forall₂_dropLast h) here
    rw [fits.nothing rfl] at hts
    exact not_dotsApart_intercalate opens hts
  · obtain ⟨ts, hts, fits⟩ := exists_mem_right_of_forall₂ h hrule
    have inside : ts <:+: t :: [.dot].intercalate tss :=
      (infix_intercalate hts).trans (List.suffix_cons t _).isInfix
    exact fun apart => fits.gap below (apart.of_infix inside)

end

/-- The patterns of rules, in a group of their own. -/
theorem sequence_of_fits {rules : List Rule} {parts : List Pattern}
    (h : List.Forall₂ (fun rule part => Fits registry rule (Pattern.tokens part)) rules parts) :
    (¬HasGap registry rules → Derives .groupBody (Pattern.sequence .dot parts).tokens) ∧
      (HasGap registry rules →
        ¬DotsApart (groupTokens (Pattern.sequence .dot parts).tokens)) := by
  have fits : List.Forall₂ (Fits registry) rules (parts.map Pattern.tokens) :=
    List.forall₂_map_right_iff.mpr h
  rw [Pattern.tokens_sequence]
  constructor
  · exact body_of_fits fits
  · intro gap apart
    have opened := not_dotsApart_of_fits fits gap (t := .openBrace) (.inr rfl)
    exact opened (apart.of_infix (List.prefix_append _ [Token.closeBrace]).isInfix)

theorem gapBelow_allOf {rules : List Rule} :
    GapBelow registry (.allOf rules) ↔ HasGap registry rules := by
  constructor
  · rintro ⟨inner, group, gap⟩
    cases group
    exact gap
  · intro gap
    exact ⟨rules, .allOf rules, gap⟩

theorem gapBelow_subclassOf {ids : List TypeId} :
    GapBelow registry (.subclassOf ids) ↔
      ∃ id ∈ ids, ∃ t, registry.find? id = some t ∧ HasGap registry t.inheritedRules := by
  constructor
  · rintro ⟨inner, group, gap⟩
    cases group with
    | subclassOf hid found => exact ⟨_, hid, _, found, gap⟩
  · rintro ⟨id, hid, t, found, gap⟩
    exact ⟨_, .subclassOf hid found, gap⟩

/-- The groups of superclasses are parts next to each other, so that there is no gap between them;
without superclasses there is no group. -/
theorem fits_subclassOf {ids : List TypeId} {groups : List Pattern}
    (h : List.Forall₂ (fun id group => ∃ t parts, registry.find? id = some t ∧
      List.Forall₂ (fun rule part => Fits registry rule (Pattern.tokens part)) t.inheritedRules
        parts ∧ group = .group (.sequence .dot parts)) ids groups) :
    Fits registry (.subclassOf ids) (Pattern.sequence .dot groups).tokens := by
  rw [Pattern.tokens_sequence]
  constructor
  · intro e
    cases e
    cases h
    rfl
  · intro other seamless
    rw [gapBelow_subclassOf] at seamless
    apply part_intercalate
    · intro none
      rw [List.map_eq_nil_iff] at none
      subst none
      cases h
      exact other rfl
    · intro ts hts
      obtain ⟨group, hgroup, rfl⟩ := List.mem_map.mp hts
      obtain ⟨id, hid, t, parts, found, hparts, rfl⟩ := exists_mem_of_forall₂ h hgroup
      have body := (sequence_of_fits hparts).1 fun gap => seamless ⟨id, hid, t, found, gap⟩
      exact part_of_notTriples (.groupOrUnion (.group body))
  · intro below
    obtain ⟨id, hid, t, found, gap⟩ := gapBelow_subclassOf.mp below
    obtain ⟨group, hgroup, u, parts, found', hparts, rfl⟩ := exists_mem_right_of_forall₂ h hid
    rw [found] at found'
    cases found'
    have inside : (Pattern.group (.sequence .dot parts)).tokens <:+:
        Separator.dot.tokens.intercalate (groups.map Pattern.tokens) :=
      infix_intercalate (List.mem_map.mpr ⟨_, hgroup, rfl⟩)
    exact fun apart => (sequence_of_fits hparts).2 gap (apart.of_infix inside)

theorem fits_of_ruleMembership (arranged : Hierarchy.Arranged registry.hierarchy) {rule : Rule}
    {pattern : Pattern} (h : registry.ruleMembership v rule = .ok pattern) :
    Fits registry rule pattern.tokens := by
  refine Profile.ruleMembership_induction arranged
    (motive := fun rule pattern => Fits registry rule pattern.tokens) ?_ ?_ ?_ ?_ ?_ h
  · intro type
    exact fits_of_leaf (by simp) nofun (part_triple _)
  · intro resource
    exact fits_of_leaf (by simp) nofun (part_of_notTriples (.filter v resource))
  · intro scheme
    exact fits_of_leaf (by simp) nofun (part_triple _)
  · intro rules parts hparts
    obtain ⟨body, notApart⟩ := sequence_of_fits hparts
    constructor
    · simp
    · intro _ seamless
      exact part_of_notTriples (.groupOrUnion (.group (body (gapBelow_allOf.not.mp seamless))))
    · intro below
      exact notApart (gapBelow_allOf.mp below)
  · intro ids groups hgroups
    exact fits_subclassOf hgroups

theorem fits_of_membership (arranged : Hierarchy.Arranged registry.hierarchy) {t : ResourceType}
    {pattern : Pattern} (h : t.membership registry v = .ok pattern) :
    ∃ parts, List.Forall₂ (fun rule part => Fits registry rule (Pattern.tokens part)) t.rules
      parts ∧ pattern = .sequence .dot parts :=
  Profile.parts_of_membership (fits_of_ruleMembership arranged) h

end

/-- The condition of each of the alternatives is the body of a group, unless a type that the rule
embeds has a gap: then a dot is left over in one of them. -/
structure Enclosable (registry : Profile) (rule : Rule) (as : List Alternative) : Prop where
  body : ¬GapEmbedded registry rule → ∀ a ∈ as, Derives .groupBody a.condition.tokens
  gap : GapEmbedded registry rule → ∃ a ∈ as, ¬DotsApart (groupTokens a.condition.tokens)

section
variable {registry : Profile} {settings : Settings} {v : Variable}

theorem gapEmbedded_iff {rule : Rule} (other : ∀ id, rule ≠ .embeds id) :
    GapEmbedded registry rule ↔ ∃ child ∈ rule.children, GapEmbedded registry child := by
  constructor
  · rintro ⟨id, t, embeds, found, gap⟩
    rw [Rule.subrules_eq] at embeds
    rcases List.mem_cons.mp embeds with self | embeds
    · exact absurd self.symm (other id)
    · obtain ⟨child, hchild, embeds⟩ := List.mem_flatMap.mp embeds
      exact ⟨child, hchild, id, t, embeds, found, gap⟩
  · rintro ⟨child, hchild, id, t, embeds, found, gap⟩
    exact ⟨id, t, Rule.mem_subrules_of_mem_children hchild embeds, found, gap⟩

theorem enclosable_of_children {rule : Rule} (other : ∀ id, rule ≠ .embeds id)
    {lists : List (List Alternative)}
    (h : List.Forall₂ (Enclosable registry) rule.children lists) :
    Enclosable registry rule lists.flatten := by
  constructor
  · intro seamless a ha
    obtain ⟨list, hlist, ha⟩ := List.mem_flatten.mp ha
    obtain ⟨child, hchild, enclosable⟩ := exists_mem_of_forall₂ h hlist
    have below : ¬GapEmbedded registry child :=
      fun gap => seamless ((gapEmbedded_iff other).mpr ⟨child, hchild, gap⟩)
    exact enclosable.body below a ha
  · intro gap
    obtain ⟨child, hchild, below⟩ := (gapEmbedded_iff other).mp gap
    obtain ⟨list, hlist, enclosable⟩ := exists_mem_right_of_forall₂ h hchild
    obtain ⟨a, ha, notApart⟩ := enclosable.gap below
    exact ⟨a, List.mem_flatten.mpr ⟨list, hlist, ha⟩, notApart⟩

/-- The condition of merged alternatives is a sequence of groups. -/
theorem enclosable_merge {rule : Rule} {as : List Alternative} (h : Enclosable registry rule as) :
    Enclosable registry rule [.merge as] := by
  have tokens : (Alternative.merge as).condition.tokens =
      [].intercalate (as.map fun a => groupTokens a.condition.tokens) := by
    rw [Alternative.merge, Pattern.tokens_sequence, List.map_map]
    rfl
  constructor
  · intro seamless
    have bodies := h.body seamless
    rw [List.forall_mem_singleton, tokens]
    clear h tokens
    induction as with
    | nil => exact .emptyBody
    | cons a as ih =>
      obtain ⟨first, others⟩ := List.forall_mem_cons.mp bodies
      have whole := Derives.onlyParts (.part (.groupOrUnion (.group first)) (ih others))
      cases as with
      | nil => simpa using whole
      | cons b as => simpa [List.intercalate_cons_cons] using whole
  · intro gap
    obtain ⟨a, ha, notApart⟩ := h.gap gap
    refine ⟨_, List.mem_singleton.mpr rfl, fun apart => notApart (apart.of_infix ?_)⟩
    have inside : groupTokens a.condition.tokens <:+: (Alternative.merge as).condition.tokens := by
      rw [tokens]
      exact infix_intercalate (List.mem_map.mpr ⟨a, ha, rfl⟩)
    exact inside.trans ⟨[.openBrace], [.closeBrace], rfl⟩

theorem enclosable_of_leaf {rule : Rule} (other : ∀ id, rule ≠ .embeds id)
    (leaf : rule.children = []) {as : List Alternative}
    (bodies : ∀ a ∈ as, Derives .groupBody a.condition.tokens) : Enclosable registry rule as where
  body _ := bodies
  gap h := by
    rw [gapEmbedded_iff other, leaf] at h
    simp at h

theorem enclosable_of_alternatives (arranged : Hierarchy.Arranged registry.hierarchy) {rule : Rule}
    {as : List Alternative} (h : rule.alternatives registry settings v = .ok as) :
    Enclosable registry rule as := by
  have ofTriple (t : TriplePattern) :
      ∀ a ∈ [Alternative.ofTriple t], Derives .groupBody a.condition.tokens := by
    simpa [Alternative.ofTriple, Pattern.tokens] using (part_triple t).alone
  refine Rule.alternatives_induction (motive := Enclosable registry) ?_ ?_ ?_ ?_ ?_ ?_ h
  · intro rules lists h
    exact enclosable_of_children (by simp) h
  · intro rules lists h
    exact enclosable_merge (enclosable_of_children (by simp) h)
  · intro type _
    exact enclosable_of_leaf (by simp) rfl (ofTriple _)
  · intro id t type condition found types membership
    obtain ⟨parts, hparts, rfl⟩ := fits_of_membership arranged membership
    obtain ⟨body, notApart⟩ := sequence_of_fits hparts
    have gap : GapEmbedded registry (.embeds id) ↔ HasGap registry t.rules := by
      simp [GapEmbedded, Rule.subrules, found]
    constructor
    · intro seamless
      rw [List.forall_mem_singleton]
      exact body (gap.not.mp seamless)
    · intro embedded
      exact ⟨_, List.mem_singleton.mpr rfl, notApart (gap.mp embedded)⟩
  · intro scheme
    exact enclosable_of_leaf (by simp) rfl (ofTriple _)
  · intro rule kind
    cases rule with
    | literal | datatype | languageIn | snippet =>
      exact enclosable_of_leaf (by simp) rfl (by simp)
    | _ => simp [Rule.kind, shapeKinds] at kind

/-- An attribute is compiled as if its rules were joined by `or`. -/
theorem enclosable_of_attribute (arranged : Hierarchy.Arranged registry.hierarchy) {a : Attribute}
    {as : List Alternative} (h : a.alternatives registry settings = .ok as) :
    Enclosable registry (.anyOf a.rules) as := by
  obtain ⟨lists, rfl, ranges⟩ := Attribute.forall₂_of_alternatives h
  apply enclosable_of_children (by simp)
  apply ranges.imp
  rintro rule list (⟨inner, rfl, ok⟩ | ⟨kind, rfl⟩)
  · have inside := enclosable_of_alternatives arranged ok
    have single : List.Forall₂ (Enclosable registry) (Rule.range inner).children [list] :=
      .cons inside .nil
    simpa using enclosable_of_children (by simp) single
  · cases rule with
    | minCount | maxCount | minPerLanguage | maxPerLanguage =>
      exact enclosable_of_leaf (by simp) rfl (by simp)
    | _ => simp [Rule.kind, countKinds] at kind

end

namespace AttributeBlock

theorem derives_alternatives {a : Alternative} {as : List Alternative}
    (h : ∀ b ∈ a :: as, Derives .groupBody b.condition.tokens) :
    Derives .groupOrUnion (alternativesTokens (a :: as)) := by
  induction as generalizing a with
  | nil => simpa [alternativesTokens] using Derives.group (h a List.mem_cons_self)
  | cons b as ih =>
    obtain ⟨first, others⟩ := List.forall_mem_cons.mp h
    have branches := ih others
    simpa [alternativesTokens, List.intercalate_cons_cons] using Derives.union first branches

/-- An attribute's block is a part of the group it stands in. -/
theorem derives_tokens {b : AttributeBlock}
    (h : ∀ a ∈ b.alternatives, Derives .groupBody a.condition.tokens) :
    Derives .notTriples b.tokens := by
  have branches : Derives .groupBody (alternativesTokens b.alternatives) := by
    cases hb : b.alternatives with
    | nil => exact .emptyBody
    | cons a as =>
      rw [hb] at h
      exact (part_of_notTriples (.groupOrUnion (derives_alternatives h))).alone
  exact .optional ((part_triple b.edge).before _ branches)

theorem infix_tokens {b : AttributeBlock} {a : Alternative} (h : a ∈ b.alternatives) :
    groupTokens a.condition.tokens <:+: b.tokens := by
  have branch : groupTokens a.condition.tokens <:+: alternativesTokens b.alternatives :=
    infix_intercalate (List.mem_map.mpr ⟨a, h, rfl⟩)
  have body : alternativesTokens b.alternatives <:+: b.bodyTokens :=
    ⟨b.edge.tokens ++ [.dot], [], by simp [bodyTokens]⟩
  have block : b.bodyTokens <:+: b.tokens :=
    ⟨[.keyword .optional, .openBrace], [.closeBrace], by simp [tokens, groupTokens]⟩
  exact branch.trans (body.trans block)

end AttributeBlock

namespace ResourceQuery

/-- The tokens of the parts that follow the membership. -/
def laterTokens (q : ResourceQuery) : List (List Token) :=
  (q.restriction.map (equalsTokens q.resource)).toList ++
    [.keyword .optional :: groupTokens q.typeTriple.tokens] ++ q.blocks.map AttributeBlock.tokens

theorem patternTokens_eq (q : ResourceQuery) :
    q.patternTokens = [.dot].intercalate
      ((if q.membership.text = "" then [] else [q.membership.tokens]) ++ q.laterTokens) := by
  have lines : q.lines.map Line.tokens =
      (if q.membership.text = "" then [] else [q.membership.tokens]) ++ q.laterTokens := by
    unfold lines laterTokens
    cases q.restriction <;> split <;> simp [Function.comp_def]
  rw [patternTokens, joinTokens, lines]

theorem infix_patternTokens (q : ResourceQuery) : .openBrace :: q.patternTokens <:+: q.tokens :=
  ⟨.keyword .construct :: groupTokens (q.templateTokens ++ [.dot]) ++ [.keyword .condition],
    [.closeBrace], by simp [tokens, groupTokens]⟩

theorem laterTokens_ne_nil (q : ResourceQuery) : q.laterTokens ≠ [] := by
  simp [laterTokens]

theorem infix_laterTokens (q : ResourceQuery) {ts : List Token} (h : ts ∈ q.laterTokens) :
    ts <:+: q.tokens := by
  have inside : ts <:+: q.patternTokens := by
    rw [patternTokens_eq]
    exact infix_intercalate (List.mem_append_right _ h)
  have behind : q.patternTokens <:+: .openBrace :: q.patternTokens :=
    (List.suffix_cons _ _).isInfix
  exact inside.trans (behind.trans q.infix_patternTokens)

theorem derives_template (q : ResourceQuery) :
    Derives .triplesBlock (q.templateTokens ++ [.dot]) :=
  derives_triples

theorem part_laterTokens {q : ResourceQuery}
    (h : ∀ b ∈ q.blocks, ∀ a ∈ b.alternatives, Derives .groupBody a.condition.tokens) :
    ∀ ts ∈ q.laterTokens, Part ts := by
  intro ts hts
  simp only [laterTokens, List.mem_append, List.mem_map, List.mem_singleton, Option.mem_toList,
    Option.map_eq_some_iff] at hts
  rcases hts with (⟨iri, _, rfl⟩ | rfl) | ⟨b, hb, rfl⟩
  · exact part_of_notTriples (.filter q.resource iri)
  · exact part_of_notTriples (.optional (part_triple q.typeTriple).alone)
  · exact part_of_notTriples (AttributeBlock.derives_tokens (h b hb))

end ResourceQuery

section
variable {registry : Profile} {rules : List Rule} {tss : List (List Token)}

/-- With other parts behind them, rules have no gap if each of them has a pattern. -/
theorem part_of_fits (h : List.Forall₂ (Fits registry) rules tss) (nonempty : tss ≠ [])
    (own : .subclassOf [] ∉ rules) (deeper : ∀ rule ∈ rules, ¬GapBelow registry rule) :
    Part ([.dot].intercalate tss) := by
  apply part_intercalate nonempty
  intro ts hts
  obtain ⟨rule, hrule, fits⟩ := exists_mem_of_forall₂ h hts
  exact fits.part (fun e => own (e ▸ hrule)) (deeper rule hrule)

theorem not_gapBelow_of_fits (h : List.Forall₂ (Fits registry) rules tss)
    (apart : DotsApart ([.dot].intercalate tss)) : ∀ rule ∈ rules, ¬GapBelow registry rule := by
  intro rule hrule below
  obtain ⟨ts, hts, fits⟩ := exists_mem_right_of_forall₂ h hrule
  exact fits.gap below (apart.of_infix (infix_intercalate hts))

theorem notMem_of_fits (h : List.Forall₂ (Fits registry) rules tss)
    (apart : DotsApart (.openBrace :: ([.dot].intercalate tss ++ [.dot]))) :
    .subclassOf [] ∉ rules := by
  intro hrule
  obtain ⟨ts, hts, fits⟩ := exists_mem_right_of_forall₂ h hrule
  rw [fits.nothing rfl] at hts
  rw [← intercalate_concat_nil (List.ne_nil_of_mem hts)] at apart
  exact not_dotsApart_intercalate (.inr rfl) (by simpa using hts) apart

/-- Rules that are written without any token. -/
theorem eq_singleton_of_fits (h : List.Forall₂ (Fits registry) rules tss)
    (nothing : [.dot].intercalate tss = []) (hrule : .subclassOf [] ∈ rules) :
    rules = [.subclassOf []] := by
  cases h with
  | nil => cases hrule
  | cons first others => cases others with
    | nil => rw [List.mem_singleton.mp hrule]
    | cons => simp [List.intercalate_cons_cons] at nothing

end

section
variable {base : Option String} {ds : List TypeDeclaration} {p : Profile} {settings : Settings}
variable {t : ResourceType} {restriction : Option Iri} {q : ResourceQuery}

theorem blocks_of_seamless (arranged : Hierarchy.Arranged p.hierarchy)
    (h : p.query settings t restriction = .ok q) (seamless : t.Seamless p) :
    ∀ b ∈ q.blocks, ∀ a ∈ b.alternatives, Derives .groupBody a.condition.tokens := by
  obtain ⟨_, _, _, _, _, hblocks, rfl⟩ := Profile.parts_of_query h
  intro b hb
  obtain ⟨a, ha, ok⟩ := exists_of_mapM hblocks hb
  obtain ⟨_, _, as, has, rfl⟩ := Attribute.block_eq_ok_iff.mp ok
  apply (enclosable_of_attribute arranged has).body
  intro gap
  obtain ⟨rule, hrule, gap⟩ := (gapEmbedded_iff (by simp)).mp gap
  exact seamless.embedded a ha rule hrule gap

theorem exists_gap_of_query (arranged : Hierarchy.Arranged p.hierarchy)
    (h : p.query settings t restriction = .ok q) {a : Attribute} (ha : a ∈ t.attributes)
    {rule : Rule} (hrule : rule ∈ a.rules) (gap : GapEmbedded p rule) :
    ∃ b ∈ q.blocks, ∃ c ∈ b.alternatives, ¬DotsApart (groupTokens c.condition.tokens) := by
  obtain ⟨_, _, _, _, _, hblocks, rfl⟩ := Profile.parts_of_query h
  obtain ⟨b, hb, ok⟩ := exists_mem_of_mapM hblocks ha
  obtain ⟨_, _, as, has, rfl⟩ := Attribute.block_eq_ok_iff.mp ok
  have embedded : GapEmbedded p (.anyOf a.rules) :=
    (gapEmbedded_iff (by simp)).mpr ⟨rule, hrule, gap⟩
  obtain ⟨c, hc, notApart⟩ := (enclosable_of_attribute arranged has).gap embedded
  exact ⟨_, hb, c, hc, notApart⟩

/-- A type has no pattern if it has no rules, or only one that inherits from no type. -/
theorem text_of_query (h : p.query settings t restriction = .ok q)
    (nothing : t.rules = [] ∨ t.rules = [.subclassOf []]) : q.membership.text = "" := by
  obtain ⟨_, _, _, _, hmembership, _, rfl⟩ := Profile.parts_of_query h
  rw [Profile.membership_eq] at hmembership
  rcases nothing with rules | rules <;>
  · rw [rules] at hmembership
    cases hmembership
    rfl

theorem fits_of_query (arranged : Hierarchy.Arranged p.hierarchy)
    (h : p.query settings t restriction = .ok q) :
    ∃ tss, List.Forall₂ (Fits p) t.rules tss ∧ q.membership.tokens = [.dot].intercalate tss := by
  obtain ⟨_, _, _, _, hmembership, _, rfl⟩ := Profile.parts_of_query h
  obtain ⟨parts, hparts, rfl⟩ := fits_of_membership arranged hmembership
  exact ⟨_, List.forall₂_map_right_iff.mpr hparts, Pattern.tokens_sequence .dot parts⟩

theorem derives_of_seamless (arranged : Hierarchy.Arranged p.hierarchy)
    (h : p.query settings t restriction = .ok q) (seamless : t.Seamless p) :
    Derives .query q.tokens := by
  have later := ResourceQuery.part_laterTokens (blocks_of_seamless arranged h seamless)
  obtain ⟨tss, fits, written⟩ := fits_of_query arranged h
  refine .query q.derives_template ?_
  rw [ResourceQuery.patternTokens_eq]
  split
  · exact (part_intercalate q.laterTokens_ne_nil later).alone
  · next some =>
    have own : .subclassOf [] ∉ t.rules :=
      fun hrule => some (text_of_query h (.inr (seamless.own hrule)))
    have nonempty : tss ≠ [] := by
      rintro rfl
      exact some (text_of_query h (.inl (List.forall₂_nil_right_iff.mp fits)))
    have first : Part q.membership.tokens := by
      rw [written]
      exact part_of_fits fits nonempty own seamless.deeper
    exact (part_intercalate (by simp) (List.forall_mem_cons.mpr ⟨first, later⟩)).alone

/-- What the tokens show of the type's own rules. These are written in front of other parts, or
without any token. -/
theorem own_of_dotsApart (arranged : Hierarchy.Arranged p.hierarchy) (readable : q.Readable)
    (h : p.query settings t restriction = .ok q) (apart : DotsApart q.tokens) :
    (.subclassOf [] ∈ t.rules → t.rules = [.subclassOf []]) ∧
      ∀ rule ∈ t.rules, ¬GapBelow p rule := by
  obtain ⟨tss, fits, written⟩ := fits_of_query arranged h
  have opened := apart.of_infix q.infix_patternTokens
  rw [ResourceQuery.patternTokens_eq] at opened
  split at opened
  · next nothing =>
    have lexed := readable.membership.lex_text
    rw [nothing, written] at lexed
    have none : [.dot].intercalate tss = [] :=
      (Option.some.inj (tokens_nil.symm.trans lexed)).symm
    have empty : DotsApart ([.dot].intercalate tss) := by
      rw [none]
      exact .nil
    exact ⟨eq_singleton_of_fits fits none, not_gapBelow_of_fits fits empty⟩
  · have front : q.membership.tokens ++ [.dot] <+:
        [.dot].intercalate (q.membership.tokens :: q.laterTokens) :=
      prefix_intercalate q.laterTokens_ne_nil
    have ended := opened.of_infix (List.cons_prefix_cons.mpr ⟨rfl, front⟩).isInfix
    rw [written] at ended
    have every : DotsApart ([.dot].intercalate tss) :=
      ended.of_infix ⟨[.openBrace], [.dot], by simp⟩
    have own := notMem_of_fits fits ended
    exact ⟨fun hrule => absurd hrule own, not_gapBelow_of_fits fits every⟩

theorem seamless_of_dotsApart (arranged : Hierarchy.Arranged p.hierarchy) (readable : q.Readable)
    (h : p.query settings t restriction = .ok q) (apart : DotsApart q.tokens) : t.Seamless p := by
  obtain ⟨own, deeper⟩ := own_of_dotsApart arranged readable h apart
  refine ⟨own, deeper, fun a ha rule hrule gap => ?_⟩
  obtain ⟨b, hb, c, hc, notApart⟩ := exists_gap_of_query arranged h ha hrule gap
  have block := q.infix_laterTokens (List.mem_append_right _ (List.mem_map.mpr ⟨b, hb, rfl⟩))
  exact notApart (apart.of_infix ((AttributeBlock.infix_tokens hc).trans block))

end

/-- A query's tokens are derived from the grammar exactly if nothing is missing between its parts.
If something is missing, a dot follows another dot or an opening brace. -/
theorem query_grammatical_iff {order : List ResourceType → List ResourceType}
    {base : Option String} {ds : List TypeDeclaration} {p : Profile} {settings : Settings}
    {t : ResourceType} {restriction : Option Iri} {q : ResourceQuery}
    (reorders : ∀ ts, (order ts).Perm ts) (built : Profile.buildIn order base ds = .ok p)
    (wellFormed : p.isWellFormed = true) (ht : t ∈ p.hierarchy)
    (only : ∀ iri ∈ restriction, isIriRef iri = true)
    (h : p.query settings t restriction = .ok q) :
    ∃ ts, lex q.text = some ts ∧ (Derives .query ts ↔ t.Seamless p) ∧
      (DotsApart ts ↔ t.Seamless p) := by
  have readable := Profile.readable_of_query reorders built wellFormed ht only h
  have arranged := Profile.arranged_of_buildIn built
  have derives := derives_of_seamless arranged h
  have seamless := seamless_of_dotsApart arranged readable h
  refine ⟨q.tokens, ResourceQuery.lex_text readable, ⟨?_, derives⟩, ⟨seamless, ?_⟩⟩
  · intro derived
    exact seamless (dotsApart_of_derives derived)
  · intro whole
    exact dotsApart_of_derives (derives whole)

/-- Guests inherit from no type, and say so. -/
def guestDeclarations : List TypeDeclaration :=
  [⟨⟨"Guest"⟩, [.hasType ⟨"http://g.example/Guest"⟩, .subclassOf []], []⟩]

def guestType : ResourceType :=
  ⟨⟨"Guest"⟩, [.hasType ⟨"http://g.example/Guest"⟩, .subclassOf []], []⟩

def guests : Profile := ⟨[guestType]⟩

theorem build_guests : Profile.build none guestDeclarations = .ok guests := by
  decide +kernel

/-- In the query for guests, a dot follows a dot. -/
theorem guest_query_not_derived :
    ∃ q ts, guests.query .default guestType none = .ok q ∧ lex q.text = some ts ∧
      ¬Derives .query ts ∧ ¬DotsApart ts := by
  obtain ⟨q, hq⟩ : ∃ q, guests.query .default guestType none = .ok q := ⟨_, rfl⟩
  obtain ⟨ts, lexed, derived, apart⟩ :=
    query_grammatical_iff List.Perm.refl build_guests (by decide) (by simp [guests]) (by simp) hq
  have gap : ¬guestType.Seamless guests := by
    intro seamless
    have alone := seamless.own (by simp [guestType])
    simp [guestType] at alone
  exact ⟨q, ts, hq, lexed, derived.not.mpr gap, apart.not.mpr gap⟩

end GraphAccess
