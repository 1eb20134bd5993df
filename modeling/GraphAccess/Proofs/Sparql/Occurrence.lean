import GraphAccess.Proofs.Sparql.Group
import Mathlib.Data.List.Infix

namespace GraphAccess

namespace Text

theorem consToFirst_append (c : Char) {ps : List (List Char)} (h : ps ≠ [])
    (qs : List (List Char)) : consToFirst c (ps ++ qs) = consToFirst c ps ++ qs := by
  cases ps with
  | nil => exact absurd rfl h
  | cons p ps => rfl

theorem fields_append (sep : Char) (cs ds : List Char) :
    fields sep (cs ++ sep :: ds) = fields sep cs ++ fields sep ds := by
  induction cs with
  | nil => simp [fields]
  | cons c cs ih =>
    rw [List.cons_append, fields, fields, ih]
    split
    · rfl
    · exact consToFirst_append c (fields_ne_nil sep cs) _

theorem fields_of_notMem {sep : Char} {cs : List Char} (h : sep ∉ cs) : fields sep cs = [cs] := by
  induction cs with
  | nil => rfl
  | cons c cs ih =>
    obtain ⟨here, later⟩ := List.ne_and_not_mem_of_not_mem_cons h
    rw [fields, if_neg (Ne.symm here), ih later]
    rfl

theorem eq_of_fields {sep : Char} {cs w : List Char} (h : fields sep cs = [w]) : cs = w := by
  rw [← intercalate_fields sep cs, h]
  simp

/-- The character before a separator ends a piece. -/
theorem getLast?_of_infix {sep c : Char} (other : c ≠ sep) {cs ds : List Char} (piece : sep ∉ cs)
    (occurs : [c, sep] <:+: cs ++ sep :: ds) : cs.getLast? = some c ∨ [c, sep] <:+: ds := by
  rcases List.infix_append_iff.mp occurs with inside | behind | ⟨l, r, split, ends, starts⟩
  · exact absurd (inside.subset (by simp)) piece
  · rcases List.infix_cons_iff.mp behind with here | behind
    · exact absurd (List.cons_prefix_cons.mp here).1 other
    · exact .inr behind
  · match l, r with
    | [], r =>
      obtain rfl : [c, sep] = r := split
      exact absurd (List.cons_prefix_cons.mp starts).1 other
    | [d], _ =>
      obtain ⟨before, rfl⟩ := ends
      cases split
      exact .inl (by simp)
    | d :: e :: l, r =>
      obtain ⟨_, rfl, _⟩ : c = d ∧ sep = e ∧ [] = l ++ r := by simpa using split
      exact absurd (ends.subset (by simp)) piece

theorem eq_of_three {α : Type} {a b c m : α} {l r : List α} (hl : l ≠ []) (hr : r ≠ [])
    (h : [a, b, c] = l ++ m :: r) : l = [a] ∧ m = b ∧ r = [c] := by
  match l, r, hl, hr with
  | [x], r, _, _ =>
    simp only [List.cons_append, List.nil_append, List.cons.injEq] at h
    exact ⟨by rw [h.1], h.2.1.symm, h.2.2.symm⟩
  | _ :: _ :: l, _ :: r, _, _ =>
    have lengths := congrArg List.length h
    simp only [List.length_append, List.length_cons, List.length_nil] at lengths
    omega

/-- Where texts are joined by the separator, the text cannot lie across a seam. -/
structure Undivided (n sep : List Char) : Prop where
  first : ∀ c ∈ n.head?, c ∉ sep
  last : ∀ c ∈ n.getLast?, c ∉ sep
  inside : ¬sep <:+: n

namespace Undivided

variable {n sep : List Char}

theorem eq_nil_of_subset (h : Undivided n sep) {l r : List Char} (split : n = l ++ r)
    (within : l ⊆ sep) : l = [] := by
  cases l with
  | nil => rfl
  | cons c l =>
    have begins : c ∈ n.head? := by simp [split]
    exact absurd (within List.mem_cons_self) (h.first c begins)

theorem eq_nil_of_prefix (h : Undivided n sep) {l r b : List Char} (split : n = l ++ r)
    (ahead : r <+: sep ++ b) : r = [] := by
  rcases List.prefix_or_prefix_of_prefix ahead (List.prefix_append sep b) with part | whole
  · cases r using List.reverseRecOn with
    | nil => rfl
    | append_singleton r c =>
      have ends : c ∈ n.getLast? := by simp [split]
      exact absurd (part.subset (by simp)) (h.last c ends)
  · have inside : sep <:+: n := split ▸ whole.isInfix.trans (List.suffix_append l r).isInfix
    exact absurd inside h.inside

theorem infix_append_iff (h : Undivided n sep) {a b : List Char} :
    n <:+: a ++ (sep ++ b) ↔ n <:+: a ∨ n <:+: b := by
  constructor
  · intro occurs
    rcases List.infix_append_iff.mp occurs with left | right | ⟨l, r, split, behind, ahead⟩
    · exact .inl left
    · rcases List.infix_append_iff.mp right with seam | right | ⟨l, r, split, within, ahead⟩
      · rw [h.eq_nil_of_subset (List.append_nil n).symm seam.subset]
        exact .inl List.nil_infix
      · exact .inr right
      · rw [split, h.eq_nil_of_subset split within.subset]
        exact .inr ahead.isInfix
    · rw [split, h.eq_nil_of_prefix split ahead, List.append_nil]
      exact .inl behind.isInfix
  · rintro (left | right)
    · exact left.trans (List.prefix_append a _).isInfix
    · have tail : n <:+: sep ++ b := right.trans (List.suffix_append sep b).isInfix
      exact tail.trans (List.suffix_append a _).isInfix

theorem infix_intercalate_iff (h : Undivided n sep) (nonempty : n ≠ []) {ls : List (List Char)} :
    n <:+: sep.intercalate ls ↔ ∃ l ∈ ls, n <:+: l := by
  induction ls with
  | nil => simp [nonempty]
  | cons l ls ih =>
    cases ls with
    | nil => simp
    | cons k ls =>
      rw [List.intercalate_cons_cons, List.append_assoc, h.infix_append_iff, ih]
      simp

end Undivided

/-- The text lies within braces exactly if it lies in what they enclose. -/
theorem infix_braced_iff {n : List Char} {s : String} (nonempty : n ≠ [])
    (opening : Undivided n ['{', ' ']) (closing : Undivided n [' ', '}']) :
    n <:+: (braced s).toList ↔ n <:+: s.toList := by
  have chars : (braced s).toList = [] ++ (['{', ' '] ++ (s.toList ++ ([' ', '}'] ++ []))) := by
    rw [toList_braced]
    simp
  rw [chars, opening.infix_append_iff, closing.infix_append_iff]
  simp [nonempty]

end Text

open Sparql Text

/-- The characters at which the words of a pattern's text end, but for the dot. -/
def isBreak (c : Char) : Bool := c = ' ' || c = '\n' || c = '{' || c = '}'

theorem Variable.notMem_text {v : Variable} (name : Variable.isName v.name = true) {c : Char}
    (h : c ≠ '?' ∧ Variable.isFirst c = false ∧ Variable.isLater c = false) :
    c ∉ v.text.toList := by
  obtain ⟨d, ds, hv, first, later⟩ := (Variable.isName_iff v.name).mp name
  have chars : v.text.toList = '?' :: d :: ds := by simp [Variable.text, hv]
  rw [chars, List.mem_cons, List.mem_cons]
  rintro (rfl | rfl | tail)
  · exact h.1 rfl
  · rw [first] at h
    cases h.2.1
  · rw [later c tail] at h
    cases h.2.2

section
variable {c : Char} (h : isBreak c = true)
include h

theorem cases_of_isBreak : c = ' ' ∨ c = '\n' ∨ c = '{' ∨ c = '}' := by
  simpa [isBreak, or_assoc] using h

theorem Variable.break_notMem_text {v : Variable} (name : Variable.isName v.name = true) :
    c ∉ v.text.toList := by
  apply notMem_text name
  rcases cases_of_isBreak h with rfl | rfl | rfl | rfl <;> decide

theorem Iri.break_notMem_bracketed {iri : Iri} (reference : isIriRef iri = true) :
    c ∉ iri.bracketed.toList := by
  have chars : iri.bracketed.toList = '<' :: (iri.text.toList ++ ['>']) := by
    simp [Iri.bracketed]
  have apart : c ≠ '<' ∧ c ≠ '>' ∧ isIriChar c = false := by
    rcases cases_of_isBreak h with rfl | rfl | rfl | rfl <;> decide
  rw [chars, List.mem_cons, List.mem_append, List.mem_singleton]
  rintro (rfl | inside | rfl)
  · exact apart.1 rfl
  · rw [List.all_eq_true.mp reference c inside] at apart
    cases apart.2.2
  · exact apart.2.1 rfl

theorem Verb.break_notMem_text {verb : Verb} (readable : verb.isReadable = true) :
    c ∉ verb.text.toList := by
  cases verb with
  | isA => rcases cases_of_isBreak h with rfl | rfl | rfl | rfl <;> decide
  | predicate iri => exact Iri.break_notMem_bracketed h readable

theorem PatternObject.break_notMem_text {object : PatternObject}
    (readable : object.isReadable = true) : c ∉ object.text.toList := by
  cases object with
  | var v => exact Variable.break_notMem_text h readable
  | iri iri => exact Iri.break_notMem_bracketed h readable

end

theorem Variable.text_suffix {v w : Variable} (name : Variable.isName w.name = true)
    (h : v.text.toList <:+ w.text.toList) : v = w := by
  obtain ⟨c, cs, hw, first, later⟩ := (Variable.isName_iff w.name).mp name
  have mark : '?' ∉ w.name.toList := by
    rw [hw, List.mem_cons]
    rintro (rfl | tail)
    · exact absurd first (by decide)
    · exact absurd (later _ tail) (by decide)
  have chars (u : Variable) : u.text.toList = '?' :: u.name.toList := by simp [Variable.text]
  rw [chars, chars] at h
  rcases List.suffix_cons_iff.mp h with same | behind
  · exact Variable.ext (String.toList_injective (List.cons.inj same).2)
  · exact absurd (behind.subset List.mem_cons_self) mark

theorem Iri.bracketed_injective {i j : Iri} (h : i.bracketed = j.bracketed) : i = j := by
  have chars := congrArg String.toList h
  simp only [Iri.bracketed, String.toList_append] at chars
  exact Iri.ext (String.toList_injective
    (List.append_cancel_left (List.append_cancel_right chars)))

def Verb.first : Verb → Char
  | isA => 'a'
  | predicate _ => '<'

def Verb.last : Verb → Char
  | isA => 'a'
  | predicate _ => '>'

theorem Verb.head?_text (verb : Verb) : verb.text.toList.head? = some verb.first := by
  cases verb with
  | isA => rfl
  | predicate iri => simp [text, Iri.bracketed, first]

theorem Verb.getLast?_text (verb : Verb) : verb.text.toList.getLast? = some verb.last := by
  cases verb with
  | isA => rfl
  | predicate iri =>
    rw [text, Iri.bracketed, String.toList_append, List.getLast?_append]
    rfl

theorem Verb.text_ne_cons (verb : Verb) {c : Char} (other : c ≠ 'a' ∧ c ≠ '<') (cs : List Char) :
    verb.text.toList ≠ c :: cs := by
  intro chars
  have begins := verb.head?_text
  rw [chars] at begins
  cases verb with
  | isA => exact other.1 (Option.some.inj begins)
  | predicate iri => exact other.2 (Option.some.inj begins)

theorem Verb.getLast?_text_ne (verb : Verb) {c : Char} (other : c ≠ 'a' ∧ c ≠ '>') :
    verb.text.toList.getLast? ≠ some c := by
  rw [getLast?_text]
  cases verb with
  | isA => exact fun ends => other.1 (Option.some.inj ends).symm
  | predicate iri => exact fun ends => other.2 (Option.some.inj ends).symm

theorem Verb.text_injective {a b : Verb} (h : a.text = b.text) : a = b := by
  have heads : some a.first = some b.first := by rw [← head?_text, h, head?_text]
  cases a with
  | isA => cases b with
    | isA => rfl
    | predicate j => exact absurd heads (by simp [first])
  | predicate i => cases b with
    | isA => exact absurd heads (by simp [first])
    | predicate j => rw [Iri.bracketed_injective h]

/-- The end of an IRI can be told from its text, whatever follows. -/
theorem PatternObject.eq_of_prefix {iri : Iri} {object : PatternObject}
    (readable : object.isReadable = true) (h : iri.bracketed.toList <+: object.text.toList) :
    object = .iri iri := by
  obtain ⟨after, whole⟩ := h
  have chars (i : Iri) : i.bracketed.toList = '<' :: (i.text.toList ++ '>' :: []) := by
    simp [Iri.bracketed]
  have unclosed {i : Iri} (h : isIriRef i = true) : '>' ∉ i.text.toList := by
    intro closing
    exact absurd (List.all_eq_true.mp h _ closing) (by decide)
  cases object with
  | var v =>
    rw [chars, show (PatternObject.var v).text = "?" ++ v.name from rfl] at whole
    simp at whole
  | iri j =>
    rw [show (PatternObject.iri j).text = j.bracketed from rfl, chars, chars, List.cons_append,
      List.append_assoc, List.cons.injEq, List.cons_append] at whole
    have split := (List.append_cons_inj_of_notMem (unclosed readable) List.not_mem_nil).mp
      whole.2.symm
    rw [Iri.ext (String.toList_injective split.1)]

/-- What stands between the parts of a pattern or encloses them. -/
def Pattern.joints : List (List Char) :=
  [['.', ' '], ['\n'], [' ', '.', '\n'], ['{', ' '], [' ', '}']]

namespace TriplePattern

variable {t : TriplePattern}

theorem toList_text (t : TriplePattern) :
    t.text.toList =
      t.subject.text.toList ++ ' ' :: (t.verb.text.toList ++ ' ' :: t.object.text.toList) := by
  simp [text]

theorem break_notMem_words (readable : t.isReadable = true) {c : Char} (h : isBreak c = true) :
    c ∉ t.subject.text.toList ∧ c ∉ t.verb.text.toList ∧ c ∉ t.object.text.toList := by
  simp only [isReadable, Bool.and_eq_true] at readable
  obtain ⟨⟨subject, verb⟩, object⟩ := readable
  exact ⟨Variable.break_notMem_text h subject, Verb.break_notMem_text h verb,
    PatternObject.break_notMem_text h object⟩

theorem fields_text (readable : t.isReadable = true) :
    fields ' ' t.text.toList =
      [t.subject.text.toList, t.verb.text.toList, t.object.text.toList] := by
  obtain ⟨subject, verb, object⟩ := break_notMem_words readable (c := ' ') rfl
  rw [toList_text, fields_append, fields_append, fields_of_notMem subject, fields_of_notMem verb,
    fields_of_notMem object]
  rfl

/-- Where the text of a triple lies in another one, the triple's verb is a word of that. -/
theorem fields_of_infix (readable : t.isReadable = true) {cs : List Char}
    (occurs : t.text.toList <:+: cs) :
    ∃ before after, fields ' ' cs = fields ' ' (before ++ t.subject.text.toList) ++
      t.verb.text.toList :: fields ' ' (t.object.text.toList ++ after) := by
  obtain ⟨before, after, rfl⟩ := occurs
  have verb := (break_notMem_words readable (c := ' ') rfl).2.1
  have chars : before ++ t.text.toList ++ after =
      (before ++ t.subject.text.toList) ++
        ' ' :: (t.verb.text.toList ++ ' ' :: (t.object.text.toList ++ after)) := by
    simp [toList_text]
  refine ⟨before, after, ?_⟩
  rw [chars, fields_append, fields_append, fields_of_notMem verb]
  rfl

/-- A triple in whose text that of another one lies is the other one. -/
theorem eq_of_infix (readable : t.isReadable = true) {iri : Iri} (ends : t.object = .iri iri)
    {u : TriplePattern} (other : u.isReadable = true)
    (occurs : t.text.toList <:+: u.text.toList) : t = u := by
  obtain ⟨before, after, words⟩ := fields_of_infix readable occurs
  rw [fields_text other] at words
  obtain ⟨subject, verb, object⟩ :=
    eq_of_three (fields_ne_nil ' ' _) (fields_ne_nil ' ' _) words
  simp only [isReadable, Bool.and_eq_true] at other
  obtain ⟨⟨name, _⟩, object_readable⟩ := other
  have behind : t.subject.text.toList <:+ u.subject.text.toList := ⟨before, eq_of_fields subject⟩
  have ahead : iri.bracketed.toList <+: u.object.text.toList := by
    have whole := eq_of_fields object
    rw [ends] at whole
    exact ⟨after, whole⟩
  apply TriplePattern.ext
  · exact Variable.text_suffix name behind
  · exact Verb.text_injective (String.toList_injective verb)
  · rw [ends, PatternObject.eq_of_prefix object_readable ahead]

theorem not_infix_equalsText (readable : t.isReadable = true) {v : Variable}
    (name : Variable.isName v.name = true) {iri : Iri} (reference : isIriRef iri = true) :
    ¬t.text.toList <:+: (Pattern.equalsText v iri).toList := by
  intro occurs
  obtain ⟨_, _, words⟩ := fields_of_infix readable occurs
  have chars : (Pattern.equalsText v iri).toList =
      ['F', 'I', 'L', 'T', 'E', 'R'] ++ ' ' :: (('(' :: v.text.toList) ++ ' ' :: (['='] ++ ' ' ::
        (iri.bracketed.toList ++ [')']))) := by
    simp [Pattern.equalsText]
  have blank : isBreak ' ' = true := rfl
  have inName := Variable.break_notMem_text blank name
  have inIri := Iri.break_notMem_bracketed blank reference
  have verb : t.verb.text.toList ∈ fields ' ' (Pattern.equalsText v iri).toList := by
    rw [words]
    simp
  rw [chars, fields_append, fields_append, fields_append, fields_of_notMem (by decide),
    fields_of_notMem (by simpa using inName), fields_of_notMem (by decide),
    fields_of_notMem (by simpa using inIri)] at verb
  simp only [List.cons_append, List.nil_append, List.mem_cons, List.not_mem_nil, or_false] at verb
  rcases verb with word | word | word | word
  · exact t.verb.text_ne_cons (by decide) _ word
  · exact t.verb.text_ne_cons (by decide) _ word
  · exact t.verb.text_ne_cons (by decide) _ word
  · have ends : t.verb.text.toList.getLast? = some ')' := by
      rw [word, List.getLast?_append]
      rfl
    exact t.verb.getLast?_text_ne (by decide) ends

/-- No dot stands before a blank, as neither a name nor a verb ends with one. -/
theorem dot_not_infix (readable : t.isReadable = true) : ¬['.', ' '] <:+: t.text.toList := by
  obtain ⟨subject, verb, object⟩ := break_notMem_words readable (c := ' ') rfl
  simp only [isReadable, Bool.and_eq_true] at readable
  have name : '.' ∉ t.subject.text.toList := Variable.notMem_text readable.1.1 (by decide)
  have last : t.verb.text.toList.getLast? ≠ some '.' := t.verb.getLast?_text_ne (by decide)
  intro occurs
  rw [toList_text] at occurs
  rcases getLast?_of_infix (by decide) subject occurs with ends | occurs
  · exact name (List.mem_of_getLast? ends)
  · rcases getLast?_of_infix (by decide) verb occurs with ends | occurs
    · exact last ends
    · exact object (occurs.subset (by simp))

/-- What joins the parts of a pattern cannot cut a triple that ends with an IRI. -/
theorem undivided (readable : t.isReadable = true) {iri : Iri} (ends : t.object = .iri iri)
    {sep : List Char} (joint : sep ∈ Pattern.joints) : Undivided t.text.toList sep := by
  obtain ⟨mark, bracket, inside⟩ : '?' ∉ sep ∧ '>' ∉ sep ∧
      (sep = ['.', ' '] ∨ sep.any (fun c => c ≠ ' ' && isBreak c) = true) := by
    revert sep
    decide
  constructor
  · rw [toList_text]
    simpa [Variable.text] using mark
  · have last : t.text.toList.getLast? = some '>' := by
      rw [text, ends, PatternObject.text, Iri.bracketed, ← String.append_assoc,
        String.toList_append, List.getLast?_append]
      rfl
    rw [last]
    simpa using bracket
  · rcases inside with rfl | other
    · exact dot_not_infix readable
    · intro within
      obtain ⟨c, hc, notBlank, breaks⟩ : ∃ c ∈ sep, c ≠ ' ' ∧ isBreak c = true := by
        simpa using other
      obtain ⟨subject, verb, object⟩ := break_notMem_words readable breaks
      have inText := within.subset hc
      simp [toList_text, subject, verb, object, notBlank] at inText

end TriplePattern

namespace Pattern

theorem Readable.infix_iff {p : Pattern} (h : p.Readable) {t : TriplePattern}
    (readable : t.isReadable = true) {iri : Iri} (ends : t.object = .iri iri) :
    t.text.toList <:+: p.text.toList ↔ t ∈ p.triples := by
  have nonempty : t.text.toList ≠ [] := by simp [TriplePattern.text, Variable.text]
  have undivided {sep : List Char} (joint : sep ∈ joints) :
      Undivided t.text.toList sep := TriplePattern.undivided readable ends joint
  induction h with
  | @triple u other =>
    rw [text, triples, List.mem_singleton]
    constructor
    · exact TriplePattern.eq_of_infix readable ends other
    · rintro rfl
      exact List.infix_rfl
  | equals name reference =>
    simpa [text, triples] using TriplePattern.not_infix_equalsText readable name reference
  | @group body _ ih =>
    rw [text, triples]
    exact (infix_braced_iff nonempty (undivided (by decide)) (undivided (by decide))).trans ih
  | @sequence separator parts _ ih =>
    have joint : separator.text.toList ∈ joints := by
      cases separator <;> decide
    rw [text_sequence, triples_sequence, List.mem_flatMap, String.toList_intercalate,
      (undivided joint).infix_intercalate_iff nonempty]
    simp only [List.map_map, List.mem_map, Function.comp_apply, exists_exists_and_eq_and]
    exact exists_congr fun part => and_congr_right fun hpart => ih part hpart

end Pattern

end GraphAccess
