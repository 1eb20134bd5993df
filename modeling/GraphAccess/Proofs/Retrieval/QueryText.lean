import GraphAccess.Proofs.Sparql.Group
import GraphAccess.Retrieval.Query
import Mathlib.Data.List.Basic

namespace GraphAccess

open Sparql

namespace Sparql

/-- A query as it is read: what to construct, and the group to solve. -/
structure Query where
  template : List TriplePattern
  pattern : List Element
  deriving Repr

def Element.triple? : Element → Option TriplePattern
  | .triple t => some t
  | _ => none

/-- Reads the group behind the template. -/
def readWhere (template : List TriplePattern) : List Token → Option Query
  | .keyword .condition :: .openBrace :: ts =>
    match read [] [] ts with
    | some (es, []) => some ⟨template, es⟩
    | _ => none
  | _ => none

def readConstruct : List Token → Option Query
  | .keyword .construct :: .openBrace :: ts =>
    (read [] [] ts).bind fun r =>
      (r.1.mapM Element.triple?).bind fun template => readWhere template r.2
  | _ => none

def readQuery (s : String) : Option Query := (lex s).bind readConstruct

/-- Reads a part of a query as what it adds to the group around it. -/
def readPart (s : String) : Option (List Element) :=
  (lex s).bind fun ts =>
    match read [] [] (ts ++ [.closeBrace]) with
    | some (es, []) => some es
    | _ => none

theorem Reads.closed {ts : List Token} {es : List Element} (h : Reads ts es) (rest : List Token) :
    read [] [] (ts ++ .closeBrace :: rest) = some (es, rest) := by
  rw [h, List.append_nil]
  show some (es.reverse.reverse, rest) = _
  rw [List.reverse_reverse]

theorem Parses.readPart {s : String} {es : List Element} (h : Parses s es) :
    readPart s = some es := by
  obtain ⟨ts, lexS, _, readS⟩ := h
  rw [Sparql.readPart, lexS, Option.bind_some, readS.closed []]

mutual

/-- The triple patterns at any depth of an element. -/
def Element.triples : Element → List TriplePattern
  | .triple t => [t]
  | .filter _ _ => []
  | .optional body => Element.triplesOfAll body
  | .group body => Element.triplesOfAll body
  | .union left right => Element.triples left ++ Element.triplesOfAll right

def Element.triplesOfAll : List Element → List TriplePattern
  | [] => []
  | e :: es => Element.triples e ++ Element.triplesOfAll es

end

theorem Element.triplesOfAll_append (es fs : List Element) :
    Element.triplesOfAll (es ++ fs) = Element.triplesOfAll es ++ Element.triplesOfAll fs := by
  induction es with
  | nil => rfl
  | cons e es ih =>
    rw [List.cons_append, Element.triplesOfAll, ih, Element.triplesOfAll, List.append_assoc]

/-- The triple patterns of a part of a query. -/
def readTriples (s : String) : Option (List TriplePattern) := (readPart s).map Element.triplesOfAll

end Sparql

/-- The patterns that only list triples, with statement ends between them. -/
inductive Pattern.Template : Pattern → Prop
  | triple (t : TriplePattern) : Template (.triple t)
  | sequence {parts : List Pattern} (h : ∀ p ∈ parts, Template p) :
    Template (.sequence .statementEnd parts)

theorem Pattern.Readable.triplesOfAll_elements {p : Pattern} (h : p.Readable) :
    Element.triplesOfAll p.elements = p.triples := by
  induction h with
  | triple => rfl
  | equals => rfl
  | @group body _ ih =>
    have alone : Element.triplesOfAll [.group body.elements] =
        Element.triplesOfAll body.elements := by
      simp [Element.triplesOfAll, Element.triples]
    rw [Pattern.elements, Pattern.triples, alone, ih]
  | @sequence separator parts _ ih =>
    rw [Pattern.elements_sequence, Pattern.triples_sequence]
    induction parts with
    | nil => rfl
    | cons p ps step =>
      have tail := step (by simp_all) fun q hq => ih q (List.mem_cons_of_mem p hq)
      rw [List.flatMap_cons, List.flatMap_cons, Element.triplesOfAll_append, ih p (by simp), tail]

theorem Pattern.Readable.readTriples_text {p : Pattern} (h : p.Readable) :
    readTriples p.text = some p.triples := by
  rw [readTriples, h.parses.readPart, Option.map_some, h.triplesOfAll_elements]

theorem Pattern.Template.readable {p : Pattern} (h : p.Template)
    (readable : ∀ t ∈ p.triples, t.isReadable = true) : p.Readable := by
  induction h with
  | triple t => exact .triple (readable t (by simp [Pattern.triples]))
  | sequence _ ih =>
    apply Pattern.Readable.sequence
    intro part hpart
    apply ih part hpart
    intro t ht
    apply readable
    rw [Pattern.triples_sequence]
    exact List.mem_flatMap.mpr ⟨part, hpart, ht⟩

theorem oneLine_of_isIriRef {iri : Iri} (h : isIriRef iri = true) : '\n' ∉ iri.text.toList := by
  intro hn
  exact absurd (List.all_eq_true.mp h _ hn) (by decide)

theorem oneLine_bracketed {iri : Iri} (h : '\n' ∉ iri.text.toList) :
    '\n' ∉ iri.bracketed.toList := by
  intro hn
  simp only [Iri.bracketed, String.toList_append, List.mem_append] at hn
  rcases hn with (hn | hn) | hn
  · exact absurd hn (by decide)
  · exact h hn
  · exact absurd hn (by decide)

theorem oneLine_variable {v : Variable} (h : Variable.isName v.name = true) :
    '\n' ∉ v.text.toList := by
  obtain ⟨c, cs, hv, first, later⟩ := (Variable.isName_iff v.name).mp h
  intro hn
  simp only [Variable.text, String.toList_append, List.mem_append, hv, List.mem_cons] at hn
  rcases hn with hn | rfl | hn
  · exact absurd hn (by decide)
  · exact absurd first (by decide)
  · exact absurd (later _ hn) (by decide)

namespace TriplePattern

/-- The triple is written in one line. -/
def OneLine (t : TriplePattern) : Prop := '\n' ∉ t.text.toList

theorem oneLine_of_parts {t : TriplePattern} (subject : Variable.isName t.subject.name = true)
    (verb : '\n' ∉ t.verb.text.toList) (object : '\n' ∉ t.object.text.toList) : t.OneLine := by
  have first := oneLine_variable subject
  simp [OneLine, text, first, verb, object]

theorem oneLine_of_isReadable {t : TriplePattern} (h : t.isReadable = true) : t.OneLine := by
  obtain ⟨subject, verb, object⟩ := t
  simp only [isReadable, Bool.and_eq_true] at h
  obtain ⟨⟨hs, hv⟩, ho⟩ := h
  have middle : '\n' ∉ verb.text.toList := by
    cases verb with
    | isA => decide
    | predicate iri => exact oneLine_bracketed (oneLine_of_isIriRef hv)
  have last : '\n' ∉ object.text.toList := by
    cases object with
    | var v => exact oneLine_variable ho
    | iri iri => exact oneLine_bracketed (oneLine_of_isIriRef ho)
  exact oneLine_of_parts hs middle last

theorem statements_text {t : TriplePattern} (h : t.OneLine) : Text.statements t.text = [t.text] :=
  Text.statements_of_oneLine (by simp [text, Variable.text]) h

end TriplePattern

/-- Cutting the text of a template at its statement ends gives its triples. -/
theorem Pattern.Template.statements_text {p : Pattern} (h : p.Template)
    (oneLine : ∀ t ∈ p.triples, t.OneLine) :
    Text.statements p.text = p.triples.map TriplePattern.text := by
  induction h with
  | triple t => exact TriplePattern.statements_text (oneLine t (by simp [Pattern.triples]))
  | @sequence parts _ ih =>
    rw [Pattern.triples_sequence] at oneLine ⊢
    rw [Pattern.text_sequence, Separator.text, Text.statements_intercalate, List.flatMap_map,
      List.map_flatMap]
    apply List.flatMap_congr
    intro p hp
    apply ih p hp
    intro t ht
    exact oneLine t (List.mem_flatMap.mpr ⟨p, hp, ht⟩)

/-- An alternative that can be read back. -/
structure Alternative.Readable (a : Alternative) : Prop where
  template : a.template.Template
  triples : ∀ t ∈ a.template.triples, t.isReadable = true
  condition : a.condition.Readable

structure AttributeBlock.Readable (b : AttributeBlock) : Prop where
  edge : b.edge.isReadable = true
  alternatives : ∀ a ∈ b.alternatives, a.Readable

/-- A query that can be read back. -/
structure ResourceQuery.Readable (q : ResourceQuery) : Prop where
  resource : Variable.isName q.resource.name = true
  resourceType : Variable.isName q.resourceType.name = true
  membership : q.membership.Readable
  restriction : ∀ iri ∈ q.restriction, isIriRef iri = true
  blocks : ∀ b ∈ q.blocks, b.Readable

namespace AttributeBlock

/-- The triples that the block adds to the template. -/
def templateTriples (b : AttributeBlock) : List TriplePattern :=
  b.edge :: b.alternatives.flatMap fun a => a.template.triples

/-- The union of the alternatives' conditions, each in a group of its own. -/
def unionOf (left : Element) (as : List Alternative) : Element :=
  as.foldl (fun left a => .union left a.condition.elements) left

/-- What is optional. -/
def elements (b : AttributeBlock) : List Element :=
  .triple b.edge ::
    match b.alternatives with
    | [] => []
    | a :: as => [unionOf (.group a.condition.elements) as]

theorem templateLines_eq {b : AttributeBlock} (h : b.Readable) :
    b.templateLines = b.templateTriples.map TriplePattern.text := by
  have lines : ∀ a ∈ b.alternatives,
      Text.statements a.text.template = a.template.triples.map TriplePattern.text := by
    intro a ha
    have readable := h.alternatives a ha
    exact readable.template.statements_text fun t ht =>
      TriplePattern.oneLine_of_isReadable (readable.triples t ht)
  rw [templateLines, templateTriples, List.map_cons, List.map_flatMap]
  rw [List.flatMap_congr lines]

/-- A condition is written as a group of its own. -/
theorem lex_conditionText {a : Alternative} (h : a.Readable) :
    lex (conditionText a.text.condition) = some (groupTokens a.condition.tokens) := by
  have condition := h.condition.lex_text
  unfold conditionText
  split
  · next nothing =>
    have nothing : a.condition.text = "" := nothing
    have none : a.condition.tokens = [] := by
      rw [nothing] at condition
      exact (Option.some.inj (tokens_nil.symm.trans condition)).symm
    rw [none]
    decide +kernel
  · exact lex_braced (lex_indent condition h.condition.text_notMem_tokens)

theorem stops_conditionText (condition : String) :
    stops (conditionText condition).toList = true := by
  unfold conditionText
  split
  · decide
  · exact stops_braced _

def alternativesTokens (as : List Alternative) : List Token :=
  [.keyword .union].intercalate (as.map fun a => groupTokens a.condition.tokens)

theorem lex_alternativesText {as : List Alternative} (h : ∀ a ∈ as, a.Readable) :
    lex (alternativesText as) = some (alternativesTokens as) := by
  have word : lex " UNION " = some [.keyword .union] := by decide +kernel
  have starts : ∀ a ∈ as, stops (conditionText a.text.condition).toList = true :=
    fun a _ => stops_conditionText a.text.condition
  exact lex_intercalate word (by decide) (by decide) _ _ (.inr starts)
    fun a ha => lex_conditionText (h a ha)

/-- Each further alternative becomes one more branch of the union. -/
theorem reads_union {as : List Alternative} (h : ∀ a ∈ as, a.Readable) {ts : List Token}
    {left : Element} (first : Reads ts [left]) :
    Reads ([.keyword .union].intercalate (ts :: as.map fun a => groupTokens a.condition.tokens))
      [unionOf left as] := by
  induction as generalizing ts left with
  | nil => simpa [unionOf] using first
  | cons a as ih =>
    obtain ⟨readable, others⟩ := List.forall_mem_cons.mp h
    have branch := first.union readable.condition.reads
    have all := ih others branch
    rw [List.map_cons, List.intercalate_cons_cons]
    cases as with
    | nil => simpa [unionOf, groupTokens] using all
    | cons b as => simpa [unionOf, groupTokens, List.intercalate_cons_cons] using all

/-- What stands between the braces of the block. -/
def bodyText (b : AttributeBlock) : String :=
  b.edge.text ++ " ." ++
    if b.alternatives = [] then "" else "\n    " ++ alternativesText b.alternatives

theorem text_eq (b : AttributeBlock) :
    b.text = "OPTIONAL " ++ ("\x7b\n    " ++ b.bodyText ++ "\n  \x7d") := by
  have opening : "OPTIONAL \x7b\n    " = "OPTIONAL " ++ "\x7b\n    " := by decide
  unfold text bodyText
  rw [opening]
  simp only [String.append_assoc]

def bodyTokens (b : AttributeBlock) : List Token :=
  b.edge.tokens ++ .dot :: alternativesTokens b.alternatives

theorem lex_bodyText {b : AttributeBlock} (h : b.Readable) :
    lex b.bodyText = some b.bodyTokens := by
  have dot : lex " ." = some [.dot] := by decide +kernel
  have front := lex_append (TriplePattern.lex_text h.edge) (by decide) dot
  unfold bodyText bodyTokens
  split
  · next nothing =>
    rw [nothing]
    simpa [alternativesTokens] using front
  · have newline : lex "\n    " = some [] := by decide +kernel
    have back := lex_marks_append (by decide) newline (lex_alternativesText h.alternatives)
    have whole := lex_append front (by rw [String.toList_append]; rfl) back
    simpa using whole

theorem reads_bodyTokens {b : AttributeBlock} (h : b.Readable) :
    Reads b.bodyTokens b.elements := by
  have edge := b.edge.reads.append .dot
  unfold bodyTokens elements
  cases hb : b.alternatives with
  | nil => simpa [alternativesTokens] using edge
  | cons a as =>
    have readable := h.alternatives
    rw [hb] at readable
    obtain ⟨first, others⟩ := List.forall_mem_cons.mp readable
    have union := reads_union others first.condition.reads.group
    simpa [alternativesTokens, groupTokens] using edge.append union

def tokens (b : AttributeBlock) : List Token := .keyword .optional :: groupTokens b.bodyTokens

theorem lex_text {b : AttributeBlock} (h : b.Readable) : lex b.text = some b.tokens := by
  have word : lex "OPTIONAL " = some [.keyword .optional] := by decide +kernel
  have braces : lex ("\x7b\n    " ++ b.bodyText ++ "\n  \x7d") = some (groupTokens b.bodyTokens) :=
    lex_enclosed (by decide +kernel) (by decide) (by decide +kernel) (by decide) (lex_bodyText h)
  rw [text_eq]
  refine lex_append word ?_ braces
  rw [String.append_assoc, String.toList_append]
  rfl

theorem reads_tokens {b : AttributeBlock} (h : b.Readable) :
    Reads b.tokens [.optional b.elements] :=
  (reads_bodyTokens h).optional

end AttributeBlock

namespace ResourceQuery

/-- The triples of the query's template. -/
def templateTriples (q : ResourceQuery) : List TriplePattern :=
  q.typeTriple :: q.blocks.flatMap AttributeBlock.templateTriples

/-- The group of the query's pattern. -/
def elements (q : ResourceQuery) : List Element :=
  q.membership.elements ++ (q.restriction.map (.filter q.resource)).toList ++
    .optional [.triple q.typeTriple] :: q.blocks.map fun b => .optional b.elements

theorem isReadable_typeTriple {q : ResourceQuery} (h : q.Readable) :
    q.typeTriple.isReadable = true := by
  simp [typeTriple, TriplePattern.isReadable, Verb.isReadable, PatternObject.isReadable,
    h.resource, h.resourceType]

def joinTokens (lines : List (List Token)) : List Token := [.dot].intercalate lines

theorem lex_joinLines {α : Type} (text : α → String) (tokens : α → List Token) {as : List α}
    (h : ∀ a ∈ as, lex (text a) = some (tokens a)) :
    lex (joinLines (as.map text)) = some (joinTokens (as.map tokens)) := by
  have separator : lex " .\n  " = some [.dot] := by decide +kernel
  exact lex_intercalate separator (by decide) (by decide) text tokens (.inl (by decide)) h

theorem reads_joinTokens {α : Type} (tokens : α → List Token) (elements : α → List Element)
    {as : List α} (h : ∀ a ∈ as, Reads (tokens a) (elements a)) :
    Reads (joinTokens (as.map tokens)) (as.flatMap elements) :=
  Reads.dot.intercalate tokens elements h

theorem isReadable_templateTriples {q : ResourceQuery} (h : q.Readable) :
    ∀ t ∈ q.templateTriples, t.isReadable = true := by
  intro t ht
  rcases List.mem_cons.mp ht with rfl | ht
  · exact isReadable_typeTriple h
  · obtain ⟨b, hb, ht⟩ := List.mem_flatMap.mp ht
    rcases List.mem_cons.mp ht with rfl | ht
    · exact (h.blocks b hb).edge
    · obtain ⟨a, ha, ht⟩ := List.mem_flatMap.mp ht
      exact ((h.blocks b hb).alternatives a ha).triples t ht

def templateTokens (q : ResourceQuery) : List Token :=
  joinTokens (q.templateTriples.map TriplePattern.tokens)

theorem lex_template {q : ResourceQuery} (h : q.Readable) :
    lex (joinLines q.templateLines) = some q.templateTokens := by
  have lines : q.templateLines = q.templateTriples.map TriplePattern.text := by
    rw [templateLines, templateTriples, List.map_cons, List.map_flatMap]
    congr 1
    exact List.flatMap_congr fun b hb => AttributeBlock.templateLines_eq (h.blocks b hb)
  rw [lines]
  exact lex_joinLines _ _ fun t ht => TriplePattern.lex_text (isReadable_templateTriples h t ht)

theorem reads_template (q : ResourceQuery) :
    Reads q.templateTokens (q.templateTriples.map Element.triple) := by
  rw [List.map_eq_flatMap]
  exact reads_joinTokens _ _ fun t _ => t.reads

/-- A part of a query's pattern: its text, its tokens, and what it adds to the group. -/
structure Line where
  text : String
  tokens : List Token
  elements : List Element

/-- The part is read as what it adds. -/
structure Line.Written (l : Line) : Prop where
  lex_text : lex l.text = some l.tokens
  reads : Reads l.tokens l.elements

def lines (q : ResourceQuery) : List Line :=
  (if q.membership.text = "" then []
    else [⟨q.membership.text, q.membership.tokens, q.membership.elements⟩]) ++
    (q.restriction.map fun iri =>
      ⟨Pattern.equalsText q.resource iri, equalsTokens q.resource iri,
        [.filter q.resource iri]⟩).toList ++
    [⟨"OPTIONAL " ++ Text.braced q.typeTriple.text,
      .keyword .optional :: groupTokens q.typeTriple.tokens, [.optional [.triple q.typeTriple]]⟩] ++
    q.blocks.map fun b => ⟨b.text, b.tokens, [.optional b.elements]⟩

theorem lines_text (q : ResourceQuery) : q.lines.map Line.text = q.patternLines := by
  unfold lines patternLines
  cases q.restriction <;> split <;> simp [Function.comp_def]

theorem lines_elements {q : ResourceQuery} (h : q.Readable) :
    q.lines.flatMap Line.elements = q.elements := by
  have nothing : q.membership.text = "" → q.membership.elements = [] := by
    intro e
    have membership := h.membership.lex_text
    rw [e] at membership
    have none : q.membership.tokens = [] :=
      (Option.some.inj (tokens_nil.symm.trans membership)).symm
    have reads := h.membership.reads
    rw [none] at reads
    exact reads.unique .nil
  have blocks : (q.blocks.map fun b => (⟨b.text, b.tokens, [.optional b.elements]⟩ : Line)).flatMap
      Line.elements = q.blocks.map fun b => .optional b.elements := by
    rw [List.flatMap_map, List.map_eq_flatMap]
  unfold lines elements
  rw [List.flatMap_append, blocks]
  cases q.restriction <;> split <;> simp_all

theorem written_lines {q : ResourceQuery} (h : q.Readable) : ∀ l ∈ q.lines, l.Written := by
  intro l hl
  simp only [lines, List.mem_append, List.mem_map, List.mem_singleton] at hl
  rcases hl with ((hl | hl) | rfl) | ⟨b, hb, rfl⟩
  · split at hl
    · cases hl
    · rw [List.mem_singleton.mp hl]
      exact ⟨h.membership.lex_text, h.membership.reads⟩
  · cases hr : q.restriction with
    | none => simp [hr] at hl
    | some iri =>
      rw [hr] at hl
      rw [List.mem_singleton.mp hl]
      exact ⟨lex_equalsText h.resource (h.restriction iri hr), .filter _ _⟩
  · have word : lex "OPTIONAL " = some [.keyword .optional] := by decide +kernel
    have braces := lex_braced (TriplePattern.lex_text (isReadable_typeTriple h))
    exact ⟨lex_append word (stops_braced _) braces, q.typeTriple.reads.optional⟩
  · exact ⟨AttributeBlock.lex_text (h.blocks b hb), AttributeBlock.reads_tokens (h.blocks b hb)⟩

def patternTokens (q : ResourceQuery) : List Token := joinTokens (q.lines.map Line.tokens)

theorem lex_pattern {q : ResourceQuery} (h : q.Readable) :
    lex (joinLines q.patternLines) = some q.patternTokens := by
  rw [← lines_text]
  exact lex_joinLines _ _ fun l hl => (written_lines h l hl).lex_text

theorem reads_pattern {q : ResourceQuery} (h : q.Readable) :
    Reads q.patternTokens q.elements := by
  rw [← lines_elements h]
  exact reads_joinTokens _ _ fun l hl => (written_lines h l hl).reads

theorem text_eq (q : ResourceQuery) :
    q.text = "CONSTRUCT" ++ (" \x7b\n  " ++ (joinLines q.templateLines ++ (" .\n\x7d\n" ++
      ("WHERE" ++ (" \x7b\n  " ++ (joinLines q.patternLines ++ "\n\x7d")))))) := by
  have opening : "CONSTRUCT \x7b\n  " = "CONSTRUCT" ++ " \x7b\n  " := by decide
  have middle : " .\n\x7d\nWHERE \x7b\n  " = " .\n\x7d\n" ++ ("WHERE" ++ " \x7b\n  ") := by
    decide
  -- `rw [text]` would compare the text with its parts byte by byte.
  unfold text
  rw [opening, middle]
  simp only [String.append_assoc]

theorem mapM_triple? (ts : List TriplePattern) :
    (ts.map Element.triple).mapM Element.triple? = some ts := by
  induction ts with
  | nil => rfl
  | cons t ts ih => simp [List.mapM_cons, Element.triple?, ih]

/-- The tokens that a query is written with. -/
def tokens (q : ResourceQuery) : List Token :=
  .keyword .construct :: groupTokens (q.templateTokens ++ [.dot]) ++
    .keyword .condition :: groupTokens q.patternTokens

theorem lex_text {q : ResourceQuery} (h : q.Readable) : lex q.text = some q.tokens := by
  have construct : lex "CONSTRUCT" = some [.keyword .construct] := by decide +kernel
  have opening : lex " \x7b\n  " = some [.openBrace] := by decide +kernel
  have middle : lex " .\n\x7d\n" = some [.dot, .closeBrace] := by decide +kernel
  have condition : lex "WHERE" = some [.keyword .condition] := by decide +kernel
  have closing : lex "\n\x7d" = some [.closeBrace] := by decide +kernel
  have group := lex_marks_append (by decide) opening
    (lex_append (lex_pattern h) (by decide) closing)
  have body := lex_append condition (by rw [String.toList_append]; rfl) group
  have ended := lex_marks_append (by decide) middle body
  have template := lex_append (lex_template h) (by rw [String.toList_append]; rfl) ended
  have braces := lex_marks_append (by decide) opening template
  have whole := lex_append construct (by rw [String.toList_append]; rfl) braces
  rw [text_eq, whole]
  simp [tokens, groupTokens]

/-- A query is read as the template and the pattern that it was assembled from. -/
theorem readQuery_text {q : ResourceQuery} (h : q.Readable) :
    readQuery q.text = some ⟨q.templateTriples, q.elements⟩ := by
  have readTemplate := (q.reads_template.append .dot).closed
    (.keyword .condition :: groupTokens q.patternTokens)
  have readPattern := (reads_pattern h).closed []
  rw [readQuery, lex_text h, Option.bind_some, tokens]
  simp only [groupTokens, List.cons_append, List.append_assoc, List.append_nil,
    List.nil_append] at readTemplate readPattern ⊢
  rw [readConstruct, readTemplate, Option.bind_some]
  dsimp only
  rw [mapM_triple?, Option.bind_some, readWhere, readPattern]

end ResourceQuery

end GraphAccess
