import GraphAccess.Sparql.Variable
import GraphAccess.Sparql.GroundTerm
import GraphAccess.Text.Pieces
import Mathlib.Data.List.TakeWhile

namespace GraphAccess.Sparql

inductive Keyword where
  | construct | condition | filter | optional | union | isA
  | delete | insert | data | graph
  deriving DecidableEq, Repr

namespace Keyword

def chars : Keyword → List Char
  | construct => ['C', 'O', 'N', 'S', 'T', 'R', 'U', 'C', 'T']
  | condition => ['W', 'H', 'E', 'R', 'E']
  | filter => ['F', 'I', 'L', 'T', 'E', 'R']
  | optional => ['O', 'P', 'T', 'I', 'O', 'N', 'A', 'L']
  | union => ['U', 'N', 'I', 'O', 'N']
  | isA => ['a']
  | delete => ['D', 'E', 'L', 'E', 'T', 'E']
  | insert => ['I', 'N', 'S', 'E', 'R', 'T']
  | data => ['D', 'A', 'T', 'A']
  | graph => ['G', 'R', 'A', 'P', 'H']

def all : List Keyword :=
  [construct, condition, filter, optional, union, isA, delete, insert, data, graph]

def ofChars? (cs : List Char) : Option Keyword := all.find? fun k => k.chars = cs

end Keyword

inductive Token where
  | keyword (k : Keyword)
  | var (v : Variable)
  | iri (iri : Iri)
  | text (value : String)
  | language (tag : String)
  | datatypeMark
  | openBrace | closeBrace | openParen | closeParen
  | dot | semicolon | equals
  deriving DecidableEq, Repr

def isSpace (c : Char) : Bool := c = ' ' || c = '\t' || c = '\r' || c = '\n'

/-- The characters of an IRI between angle brackets. -/
def isIriChar (c : Char) : Bool :=
  0x20 < c.toNat && !("<>\"\x7b\x7d|^\\`".toList.contains c)

/-- Letters, then subtags of letters and digits, each behind a hyphen. -/
def isLanguageTag (cs : List Char) : Bool :=
  match Text.fields '-' cs with
  | [] => false
  | primary :: subtags =>
    primary ≠ [] && primary.all Char.isAlpha &&
      subtags.all fun s => s ≠ [] && s.all Char.isAlphanum

def isTagChar (c : Char) : Bool := c.isAlphanum || c = '-'

/-- The tokens of one character. -/
def punctuation? : Char → Option Token
  | '{' => some .openBrace
  | '}' => some .closeBrace
  | '(' => some .openParen
  | ')' => some .closeParen
  | '.' => some .dot
  | ';' => some .semicolon
  | '=' => some .equals
  | _ => none

/-- Reads one token off a text and answers what is left. -/
abbrev Reader := List Char → Option (Token × List Char)

namespace Reader

/-- Reads an IRI behind its opening bracket. -/
def iri : Reader := fun cs =>
  match cs.dropWhile isIriChar with
  | '>' :: left => some (.iri ⟨String.ofList (cs.takeWhile isIriChar)⟩, left)
  | _ => none

/-- Reads a variable behind its question mark. -/
def var : Reader
  | c :: cs =>
    if Variable.isFirst c then
      some (.var ⟨String.ofList (c :: cs.takeWhile Variable.isLater)⟩,
        cs.dropWhile Variable.isLater)
    else none
  | [] => none

/-- Reads a language tag behind its sign. -/
def language : Reader := fun cs =>
  if isLanguageTag (cs.takeWhile isTagChar) then
    some (.language (String.ofList (cs.takeWhile isTagChar)), cs.dropWhile isTagChar)
  else none

/-- Reads a text behind the first of its quotes. -/
def text : Reader
  | '\'' :: '\'' :: cs =>
    (LongQuoted.readBy LongQuoted.meaning cs).map fun r => (.text (String.ofList r.1), r.2)
  | _ => none

/-- Reads the mark of a datatype behind its first sign. -/
def datatypeMark : Reader
  | '^' :: cs => some (.datatypeMark, cs)
  | _ => none

def keyword : Reader := fun cs =>
  (Keyword.ofChars? (cs.takeWhile Char.isAlpha)).map fun k =>
    (.keyword k, cs.dropWhile Char.isAlpha)

/-- Reads a keyword that begins with a letter, or a token of one character. -/
def other (c : Char) : Reader := fun cs =>
  match punctuation? c with
  | some t => some (t, cs)
  | none => if c.isAlpha then keyword (c :: cs) else none

/-- Reads what begins with a character behind it. -/
def behind (c : Char) : Reader :=
  match c with
  | '<' => iri
  | '?' => var
  | '@' => language
  | '\'' => text
  | '^' => datatypeMark
  | c => other c

section
variable {cs left : List Char} {t : Token}

theorem iri_eq_some_iff :
    iri cs = some (t, left) ↔
      cs.dropWhile isIriChar = '>' :: left ∧
        t = .iri ⟨String.ofList (cs.takeWhile isIriChar)⟩ := by
  rw [iri]
  split
  · next rest closed => simp [closed, and_comm, @eq_comm _ t]
  · next unclosed => simpa using fun closed => absurd closed (unclosed left)

theorem var_eq_some_iff :
    var cs = some (t, left) ↔
      ∃ c rest, cs = c :: rest ∧ Variable.isFirst c = true ∧
        t = .var ⟨String.ofList (c :: rest.takeWhile Variable.isLater)⟩ ∧
        left = rest.dropWhile Variable.isLater := by
  constructor
  · intro h
    cases cs with
    | nil => cases h
    | cons c rest =>
      rw [var] at h
      split at h
      · next first =>
        cases h
        exact ⟨c, rest, rfl, first, rfl, rfl⟩
      · cases h
  · intro h
    obtain ⟨c, rest, rfl, first, rfl, rfl⟩ := h
    rw [var, if_pos first]

theorem language_eq_some_iff :
    language cs = some (t, left) ↔
      isLanguageTag (cs.takeWhile isTagChar) = true ∧
        t = .language (String.ofList (cs.takeWhile isTagChar)) ∧
        left = cs.dropWhile isTagChar := by
  rw [language]
  split
  · next tag => simp [tag, @eq_comm _ t, @eq_comm _ left]
  · next tag => simp [tag]

theorem text_eq_some_iff :
    text cs = some (t, left) ↔
      ∃ rest value, cs = '\'' :: '\'' :: rest ∧
        LongQuoted.readBy LongQuoted.meaning rest = some (value, left) ∧
        t = .text (String.ofList value) := by
  rw [text.eq_def]
  split
  · next rest => simp [@eq_comm _ t]
  · next unquoted => simpa using fun rest quoted => absurd quoted (unquoted rest)

theorem datatypeMark_eq_some_iff :
    datatypeMark cs = some (t, left) ↔ cs = '^' :: left ∧ t = .datatypeMark := by
  rw [datatypeMark.eq_def]
  split
  · next rest => simp [and_comm, @eq_comm _ t]
  · next unmarked => simpa using fun marked => absurd marked (unmarked left)

theorem keyword_eq_some_iff :
    keyword cs = some (t, left) ↔
      ∃ k, Keyword.ofChars? (cs.takeWhile Char.isAlpha) = some k ∧ t = .keyword k ∧
        left = cs.dropWhile Char.isAlpha := by
  simp [keyword, @eq_comm _ t, @eq_comm _ left]

theorem other_eq_some_iff {c : Char} :
    other c cs = some (t, left) ↔
      punctuation? c = some t ∧ left = cs ∨
        punctuation? c = none ∧ c.isAlpha = true ∧ keyword (c :: cs) = some (t, left) := by
  rw [other]
  cases punctuation? c with
  | some mark => simp [@eq_comm _ left]
  | none => simp

end

/-- The reader leaves no more than there was. -/
def Shrinks (r : Reader) : Prop :=
  ∀ cs t left, r cs = some (t, left) → left.length ≤ cs.length

theorem shrinks_iri : Shrinks iri := by
  intro cs t left h
  have closed := (iri_eq_some_iff.mp h).1
  have shorter := List.length_dropWhile_le isIriChar cs
  rw [closed, List.length_cons] at shorter
  omega

theorem shrinks_var : Shrinks var := by
  intro cs t left h
  obtain ⟨c, rest, rfl, _, _, rfl⟩ := var_eq_some_iff.mp h
  have shorter := List.length_dropWhile_le Variable.isLater rest
  rw [List.length_cons]
  omega

theorem shrinks_language : Shrinks language := by
  intro cs t left h
  obtain ⟨_, _, rfl⟩ := language_eq_some_iff.mp h
  exact List.length_dropWhile_le isTagChar cs

theorem shrinks_text : Shrinks text := by
  intro cs t left h
  obtain ⟨rest, _, rfl, read, _⟩ := text_eq_some_iff.mp h
  have shorter := LongQuoted.length_of_readBy read
  simp only [List.length_cons]
  omega

theorem shrinks_datatypeMark : Shrinks datatypeMark := by
  intro cs t left h
  obtain ⟨rfl, _⟩ := datatypeMark_eq_some_iff.mp h
  simp

theorem shrinks_other (c : Char) : Shrinks (other c) := by
  intro cs t left h
  rcases other_eq_some_iff.mp h with ⟨_, rfl⟩ | ⟨_, letter, word⟩
  · exact Nat.le_refl _
  · obtain ⟨_, _, _, rfl⟩ := keyword_eq_some_iff.mp word
    rw [List.dropWhile_cons, if_pos letter]
    exact List.length_dropWhile_le Char.isAlpha cs

theorem shrinks_behind (c : Char) : Shrinks (behind c) := by
  unfold behind
  split
  · exact shrinks_iri
  · exact shrinks_var
  · exact shrinks_language
  · exact shrinks_text
  · exact shrinks_datatypeMark
  · exact shrinks_other _

end Reader

/-- Reads a text as tokens, which blanks and line breaks may stand between. -/
def tokens : List Char → Option (List Token)
  | [] => some []
  | c :: cs =>
    if isSpace c then tokens cs
    else
      match _read : Reader.behind c cs with
      | none => none
      | some (t, left) => (tokens left).map (t :: ·)
termination_by cs => cs.length
decreasing_by
  · simp
  · have shorter := Reader.shrinks_behind c cs _ _ _read
    simp only [List.length_cons]
    omega

theorem tokens_nil : tokens [] = some [] := by
  rw [tokens]

theorem tokens_of_isSpace {c : Char} (h : isSpace c = true) (cs : List Char) :
    tokens (c :: cs) = tokens cs := by
  rw [tokens, if_pos h]

theorem tokens_of_read {c : Char} {cs left : List Char} {t : Token}
    (noSpace : isSpace c = false) (h : Reader.behind c cs = some (t, left)) :
    tokens (c :: cs) = (tokens left).map (t :: ·) := by
  rw [tokens, if_neg (by simp [noSpace])]
  split
  · next failed => rw [h] at failed; cases failed
  · next success => rw [h] at success; cases success; rfl

/-- What holds of the empty text, is kept by a blank in front, and is kept by a token in front,
holds of every text that is read. -/
theorem tokens_induction {motive : List Char → List Token → Prop} (nil : motive [] [])
    (space : ∀ c cs ts, isSpace c = true → tokens cs = some ts → motive cs ts → motive (c :: cs) ts)
    (token : ∀ c cs t left ts, isSpace c = false → Reader.behind c cs = some (t, left) →
      tokens left = some ts → motive left ts → motive (c :: cs) (t :: ts))
    {cs : List Char} {ts : List Token} (h : tokens cs = some ts) : motive cs ts := by
  fun_induction tokens cs generalizing ts with
  | case1 =>
    cases h
    exact nil
  | case2 c cs hc ih => exact space c cs ts hc h (ih h)
  | case3 => cases h
  | case4 c cs hc t left read ih =>
    obtain ⟨us, hus, h⟩ := Option.map_eq_some_iff.mp h
    cases h
    exact token c cs t left us (by simpa using hc) read hus (ih hus)

end GraphAccess.Sparql
