import GraphAccess.Proofs.Sparql.Lexeme
import GraphAccess.Sparql.Pattern

namespace GraphAccess.Sparql

/-- What a group graph pattern is made of. -/
inductive Element where
  | triple (t : TriplePattern)
  /-- Keeps the solutions of the group around it that bind the variable to the IRI. -/
  | filter (v : Variable) (iri : Iri)
  | optional (body : List Element)
  | group (body : List Element)
  | union (left : Element) (right : List Element)
  deriving Repr

def verb? : Token → Option Verb
  | .keyword .isA => some .isA
  | .iri iri => some (.predicate iri)
  | _ => none

def object? : Token → Option PatternObject
  | .var v => some (.var v)
  | .iri iri => some (.iri iri)
  | _ => none

/-- What an opening brace is the start of. -/
inductive Opening where
  | optional
  | group
  | branch (left : Element)
  deriving Repr

/-- The element that is complete once a brace has been closed. -/
def Opening.close : Opening → List Element → Element
  | optional, body => .optional body
  | group, body => .group body
  | branch left, body => .union left body

/-- Reads a group up to its closing brace. Answers the group and what follows it. The elements read
so far come latest first; those of the groups around it wait, each behind what it opened with. -/
def read (es : List Element) (outer : List (Opening × List Element)) :
    List Token → Option (List Element × List Token)
  | .dot :: ts => read es outer ts
  | .var v :: verb :: object :: ts =>
    match verb? verb, object? object with
    | some verb, some object => read (.triple ⟨v, verb, object⟩ :: es) outer ts
    | _, _ => none
  | .keyword .filter :: .openParen :: .var v :: .equals :: .iri iri :: .closeParen :: ts =>
    read (.filter v iri :: es) outer ts
  | .keyword .optional :: .openBrace :: ts => read [] ((.optional, es) :: outer) ts
  | .openBrace :: ts => read [] ((.group, es) :: outer) ts
  | .keyword .union :: .openBrace :: ts =>
    match es with
    | [] => none
    | e :: es => read [] ((.branch e, es) :: outer) ts
  | .closeBrace :: ts =>
    match outer with
    | [] => some (es.reverse, ts)
    | (opening, before) :: outer => read (opening.close es.reverse :: before) outer ts
  | _ => none

/-- In whatever group they stand, the tokens add these elements to it. -/
def Reads (ts : List Token) (es : List Element) : Prop :=
  ∀ before outer rest, read before outer (ts ++ rest) = read (es.reverse ++ before) outer rest

namespace Reads

variable {ts us : List Token} {es fs : List Element}

theorem nil : Reads [] [] := fun _ _ _ => rfl

theorem append (h : Reads ts es) (h' : Reads us fs) : Reads (ts ++ us) (es ++ fs) := by
  intro before outer rest
  rw [List.append_assoc, h, h', List.reverse_append, List.append_assoc]

theorem unique (h : Reads ts es) (h' : Reads ts fs) : es = fs := by
  have first := h [] [] [.closeBrace]
  rw [h' [] [] [.closeBrace]] at first
  simpa [read] using first.symm

theorem dot : Reads [.dot] [] := fun _ _ _ => rfl

theorem intercalate {α : Type} {sep : List Token} (hsep : Reads sep []) (tokens : α → List Token)
    (elements : α → List Element) {as : List α} (h : ∀ a ∈ as, Reads (tokens a) (elements a)) :
    Reads (sep.intercalate (as.map tokens)) (as.flatMap elements) := by
  induction as with
  | nil => exact nil
  | cons a as ih =>
    obtain ⟨head, others⟩ := List.forall_mem_cons.mp h
    have tail := ih others
    cases as with
    | nil => simpa using head
    | cons b as =>
      have whole := head.append (hsep.append tail)
      simpa [List.intercalate] using whole

theorem filter (v : Variable) (iri : Iri) :
    Reads [.keyword .filter, .openParen, .var v, .equals, .iri iri, .closeParen]
      [.filter v iri] :=
  fun _ _ _ => rfl

/-- What braces enclose becomes what they were opened for. -/
theorem enclosed (h : Reads ts es) (opening : Opening) (before : List Element)
    (outer : List (Opening × List Element)) (rest : List Token) :
    read [] ((opening, before) :: outer) (ts ++ .closeBrace :: rest) =
      read (opening.close es :: before) outer rest := by
  rw [h, List.append_nil]
  show read (opening.close es.reverse.reverse :: before) outer rest = _
  rw [List.reverse_reverse]

theorem group (h : Reads ts es) : Reads (.openBrace :: ts ++ [.closeBrace]) [.group es] := by
  intro before outer rest
  have inner := h.enclosed .group before outer rest
  rw [List.append_assoc]
  exact inner

theorem optional (h : Reads ts es) :
    Reads (.keyword .optional :: .openBrace :: ts ++ [.closeBrace]) [.optional es] := by
  intro before outer rest
  have inner := h.enclosed .optional before outer rest
  rw [List.append_assoc]
  exact inner

theorem union {left : Element} (hl : Reads ts [left]) (h : Reads us es) :
    Reads (ts ++ (.keyword .union :: .openBrace :: us ++ [.closeBrace])) [.union left es] := by
  intro before outer rest
  have inner := h.enclosed (.branch left) before outer rest
  rw [List.append_assoc, List.append_assoc, hl]
  exact inner

end Reads

/-- A text without quotes that adds elements to the group it stands in. -/
def Parses (s : String) (es : List Element) : Prop :=
  ∃ ts, lex s = some ts ∧ (∀ v, .text v ∉ ts) ∧ Reads ts es

theorem mem_of_mem_intercalate {α : Type} {sep : List α} {ls : List (List α)} {a : α}
    (h : a ∈ sep.intercalate ls) : a ∈ sep ∨ ∃ l ∈ ls, a ∈ l := by
  induction ls with
  | nil => simp at h
  | cons l ls ih =>
    cases ls with
    | nil => exact .inr ⟨l, List.mem_cons_self, by simpa using h⟩
    | cons k ls =>
      rw [List.intercalate_cons_cons, List.mem_append, List.mem_append] at h
      rcases h with (h | h) | h
      · exact .inr ⟨l, List.mem_cons_self, h⟩
      · exact .inl h
      · exact (ih h).imp_right fun ⟨m, hm, h⟩ => ⟨m, List.mem_cons_of_mem l hm, h⟩

theorem infix_intercalate {α : Type} {sep l : List α} {ls : List (List α)} (h : l ∈ ls) :
    l <:+: sep.intercalate ls := by
  induction ls with
  | nil => cases h
  | cons k ls ih =>
    cases ls with
    | nil =>
      rw [List.intercalate_singleton]
      cases List.mem_singleton.mp h
      exact List.infix_rfl
    | cons m ls =>
      rw [List.intercalate_cons_cons]
      rcases List.mem_cons.mp h with rfl | h
      · rw [List.append_assoc]
        exact (List.prefix_append l _).isInfix
      · exact (ih h).trans (List.suffix_append _ _).isInfix

/-- Texts with a separator between them are read one after the other, if the separator ends a word
and is none itself, or if no text goes on with one. -/
theorem lex_intercalate {α : Type} {sep : String} {seps : List Token} (hsep : lex sep = some seps)
    (nonempty : sep.toList ≠ []) (start : stops sep.toList = true) (text : α → String)
    (tokens : α → List Token) {as : List α}
    (apart : sep.toList.all isMark = true ∨ ∀ a ∈ as, stops (text a).toList = true)
    (h : ∀ a ∈ as, lex (text a) = some (tokens a)) :
    lex (sep.intercalate (as.map text)) = some (seps.intercalate (as.map tokens)) := by
  induction as with
  | nil => exact tokens_nil
  | cons a as ih =>
    obtain ⟨head, others⟩ := List.forall_mem_cons.mp h
    have tail := ih (apart.imp_right fun starts => (List.forall_mem_cons.mp starts).2) others
    cases as with
    | nil => simpa using head
    | cons b as =>
      have later : lex (sep ++ sep.intercalate ((b :: as).map text)) =
          some (seps ++ seps.intercalate ((b :: as).map tokens)) := by
        rcases apart with marks | starts
        · exact lex_marks_append marks hsep tail
        · refine lex_append hsep (stops_intercalate start ?_) tail
          intro s hs
          obtain ⟨c, hc, rfl⟩ := List.mem_map.mp hs
          exact starts c (List.mem_cons_of_mem a hc)
      have ends : stops (sep ++ sep.intercalate ((b :: as).map text)).toList = true := by
        rw [String.toList_append]
        exact stops_append_of_ne_nil nonempty start
      have whole := lex_append head ends later
      simpa [List.map_cons, String.intercalate_cons_cons, String.append_assoc] using whole

end GraphAccess.Sparql

namespace GraphAccess

open Sparql

namespace Pattern

mutual

def elements : Pattern → List Element
  | triple t => [.triple t]
  | equals v iri => [.filter v iri]
  | group body => [.group (elements body)]
  | sequence _ parts => elementsOfAll parts

def elementsOfAll : List Pattern → List Element
  | [] => []
  | p :: ps => elements p ++ elementsOfAll ps

end

theorem elementsOfAll_eq_flatMap (ps : List Pattern) :
    elementsOfAll ps = ps.flatMap elements := by
  induction ps with
  | nil => rfl
  | cons p ps ih => rw [elementsOfAll, ih, List.flatMap_cons]

theorem elements_sequence (separator : Separator) (parts : List Pattern) :
    (sequence separator parts).elements = parts.flatMap elements := by
  rw [elements, elementsOfAll_eq_flatMap]

end Pattern

def Verb.isReadable : Verb → Bool
  | isA => true
  | predicate iri => isIriRef iri

def PatternObject.isReadable : PatternObject → Bool
  | var v => Variable.isName v.name
  | iri i => isIriRef i

/-- Names that the grammar has, and IRIs that can stand between angle brackets. -/
def TriplePattern.isReadable (t : TriplePattern) : Bool :=
  Variable.isName t.subject.name && t.verb.isReadable && t.object.isReadable

inductive Pattern.Readable : Pattern → Prop
  | triple {t : TriplePattern} (h : t.isReadable = true) : Readable (.triple t)
  | equals {v : Variable} {iri : Iri} (name : Variable.isName v.name = true)
    (reference : isIriRef iri = true) : Readable (.equals v iri)
  | group {body : Pattern} (h : Readable body) : Readable (.group body)
  | sequence {separator : Separator} {parts : List Pattern} (h : ∀ p ∈ parts, Readable p) :
    Readable (.sequence separator parts)

def Verb.token : Verb → Token
  | isA => .keyword .isA
  | predicate iri => .iri iri

def PatternObject.token : PatternObject → Token
  | var v => .var v
  | iri i => .iri i

theorem Verb.lex_text {verb : Verb} (h : verb.isReadable = true) :
    lex verb.text = some [verb.token] := by
  cases verb with
  | isA => decide +kernel
  | predicate iri => exact lex_bracketed h

theorem PatternObject.lex_text {object : PatternObject} (h : object.isReadable = true) :
    lex object.text = some [object.token] := by
  cases object with
  | var v => exact lex_variable h
  | iri iri => exact lex_bracketed h

def TriplePattern.tokens (t : TriplePattern) : List Token :=
  [.var t.subject, t.verb.token, t.object.token]

theorem TriplePattern.lex_text {t : TriplePattern} (h : t.isReadable = true) :
    lex t.text = some t.tokens := by
  obtain ⟨subject, verb, object⟩ := t
  simp only [isReadable, Bool.and_eq_true] at h
  obtain ⟨⟨hs, hv⟩, ho⟩ := h
  have blank : lex " " = some [] := by decide +kernel
  have back := lex_marks_append (by decide) blank (PatternObject.lex_text ho)
  have verbs := lex_append (Verb.lex_text hv) (by rw [String.toList_append]; rfl) back
  have middle := lex_marks_append (by decide) blank verbs
  have whole := lex_append (lex_variable hs) (by rw [String.toList_append]; rfl) middle
  simpa [TriplePattern.text, TriplePattern.tokens, String.append_assoc] using whole

theorem TriplePattern.reads (t : TriplePattern) : Reads t.tokens [.triple t] := by
  intro before outer rest
  obtain ⟨subject, verb, object⟩ := t
  cases verb <;> cases object <;> rfl

theorem TriplePattern.text_notMem_tokens (t : TriplePattern) (value : String) :
    .text value ∉ t.tokens := by
  obtain ⟨subject, verb, object⟩ := t
  cases verb <;> cases object <;> simp [tokens, Verb.token, PatternObject.token]

/-- The tokens of a comparison. -/
def equalsTokens (v : Variable) (iri : Iri) : List Token :=
  [.keyword .filter, .openParen, .var v, .equals, .iri iri, .closeParen]

theorem lex_equalsText {v : Variable} {iri : Iri} (name : Variable.isName v.name = true)
    (reference : isIriRef iri = true) :
    lex (Pattern.equalsText v iri) = some (equalsTokens v iri) := by
  have word : lex "FILTER (" = some [.keyword .filter, .openParen] := by decide +kernel
  have sign : lex " = " = some [.equals] := by decide +kernel
  have closing : lex ")" = some [.closeParen] := by decide +kernel
  have front := lex_append word (stops_variable v) (lex_variable name)
  have middle := lex_append (lex_append front (by decide) sign) (stops_bracketed iri)
    (lex_bracketed reference)
  have whole := lex_append middle (by decide) closing
  simpa [Pattern.equalsText, equalsTokens] using whole

/-- The tokens of a group. -/
def groupTokens (body : List Token) : List Token := .openBrace :: body ++ [.closeBrace]

/-- A text between braces, which blanks and line breaks may be next to. -/
theorem lex_enclosed {before s after : String} {ts : List Token}
    (opening : lex before = some [.openBrace]) (marks : before.toList.all isMark = true)
    (closing : lex after = some [.closeBrace]) (start : stops after.toList = true)
    (h : lex s = some ts) :
    lex (before ++ s ++ after) = some (groupTokens ts) := by
  have back := lex_append h start closing
  have whole := lex_marks_append marks opening back
  rw [String.append_assoc]
  exact whole

theorem lex_braced {s : String} {ts : List Token} (h : lex s = some ts) :
    lex (Text.braced s) = some (groupTokens ts) :=
  lex_enclosed (by decide +kernel) (by decide) (by decide +kernel) (by decide) h

theorem stops_braced (s : String) : stops (Text.braced s).toList = true := by
  rw [Text.toList_braced]
  rfl

def Separator.tokens : Separator → List Token
  | dot | statementEnd => [.dot]
  | lineBreak => []

theorem Separator.lex_text (separator : Separator) :
    lex separator.text = some separator.tokens ∧ separator.text.toList ≠ [] ∧
      separator.text.toList.all isMark = true := by
  cases separator <;> exact ⟨by decide +kernel, by decide, by decide⟩

theorem Separator.reads (separator : Separator) : Reads separator.tokens [] := by
  cases separator with
  | dot | statementEnd => exact .dot
  | lineBreak => exact .nil

namespace Pattern

mutual

/-- The tokens that a pattern is written with. -/
def tokens : Pattern → List Token
  | triple t => t.tokens
  | equals v iri => equalsTokens v iri
  | group body => groupTokens (tokens body)
  | sequence separator parts => separator.tokens.intercalate (tokensOfAll parts)

def tokensOfAll : List Pattern → List (List Token)
  | [] => []
  | p :: ps => tokens p :: tokensOfAll ps

end

theorem tokensOfAll_eq_map (ps : List Pattern) : tokensOfAll ps = ps.map tokens := by
  induction ps with
  | nil => rfl
  | cons p ps ih => rw [tokensOfAll, ih, List.map_cons]

theorem tokens_sequence (separator : Separator) (parts : List Pattern) :
    (sequence separator parts).tokens = separator.tokens.intercalate (parts.map tokens) := by
  rw [tokens, tokensOfAll_eq_map]

theorem Readable.lex_text {p : Pattern} (h : p.Readable) : lex p.text = some p.tokens := by
  induction h with
  | triple h => exact TriplePattern.lex_text h
  | equals name reference => exact lex_equalsText name reference
  | group _ ih =>
    rw [text, tokens]
    exact lex_braced ih
  | @sequence separator parts _ ih =>
    obtain ⟨lexS, nonempty, marks⟩ := separator.lex_text
    rw [text_sequence, tokens_sequence]
    exact lex_intercalate lexS nonempty (stops_of_marks marks) text tokens (.inl marks) ih

/-- A pattern's tokens are read as the elements that the pattern has. -/
theorem Readable.reads {p : Pattern} (h : p.Readable) : Reads p.tokens p.elements := by
  induction h with
  | triple => exact TriplePattern.reads _
  | equals => exact Reads.filter _ _
  | group _ ih =>
    rw [tokens, elements]
    exact ih.group
  | @sequence separator parts _ ih =>
    rw [tokens_sequence, elements_sequence]
    exact separator.reads.intercalate tokens elements ih

theorem Readable.text_notMem_tokens {p : Pattern} (h : p.Readable) (value : String) :
    .text value ∉ p.tokens := by
  induction h with
  | triple => exact TriplePattern.text_notMem_tokens _ value
  | equals => simp [tokens, equalsTokens]
  | group _ ih => simpa [tokens, groupTokens] using ih
  | @sequence separator parts _ ih =>
    have sep : .text value ∉ separator.tokens := by
      cases separator <;> simp [Separator.tokens]
    rw [tokens_sequence]
    intro hmem
    rcases mem_of_mem_intercalate hmem with hmem | ⟨ts, hts, hmem⟩
    · exact sep hmem
    · obtain ⟨part, hpart, rfl⟩ := List.mem_map.mp hts
      exact ih part hpart hmem

/-- A pattern's text is read as the elements that the pattern has. -/
theorem Readable.parses {p : Pattern} (h : p.Readable) : Parses p.text p.elements :=
  ⟨p.tokens, h.lex_text, h.text_notMem_tokens, h.reads⟩

end Pattern

end GraphAccess
