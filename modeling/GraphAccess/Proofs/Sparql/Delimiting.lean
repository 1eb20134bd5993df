import GraphAccess.Sparql.GroundTerm
import Mathlib.Data.List.Forall2

namespace GraphAccess

namespace LongQuoted

/-- A character by itself, or one with a backslash in front of it. -/
inductive Piece where
  | plain (c : Char)
  | escaped (c : Char)
  deriving DecidableEq, Repr

namespace Piece

/-- The character, with its backslash undone. -/
def char : Piece → Char
  | plain c => c
  | escaped c => c

/-- What a piece is read as, if a backslash and its character have a meaning. -/
def read? (meaning : Char → Option Char) : Piece → Option Char
  | plain c => some c
  | escaped c => meaning c

end Piece

/-- The quotes around a text. -/
def quotes : List Char := ['\'', '\'', '\'']

/-- Characters from behind the opening quotes, the pieces up to the closing ones, and what is left
behind these. -/
inductive Closes : List Char → List Piece → List Char → Prop
  | close {left : List Char} : Closes ('\'' :: '\'' :: '\'' :: left) [] left
  | escaped {c : Char} {cs left : List Char} {pieces : List Piece}
    (rest : Closes cs pieces left) : Closes ('\\' :: c :: cs) (.escaped c :: pieces) left
  | plain {c : Char} {cs left : List Char} {pieces : List Piece} (noBackslash : c ≠ '\\')
    (goesOn : ¬quotes <+: c :: cs) (rest : Closes cs pieces left) :
    Closes (c :: cs) (.plain c :: pieces) left

variable {cs left other text : List Char} {pieces others : List Piece}
variable {meaning : Char → Option Char}

/-- There is only one way to go by the rules. -/
theorem Closes.unique (h : Closes cs pieces left) (h' : Closes cs others other) :
    others = pieces ∧ other = left := by
  induction h generalizing others with
  | close =>
    cases h' with
    | close => exact ⟨rfl, rfl⟩
    | plain _ goesOn _ => exact absurd (List.prefix_append quotes _) goesOn
  | escaped _ ih =>
    cases h' with
    | escaped rest =>
      obtain ⟨rfl, rfl⟩ := ih rest
      exact ⟨rfl, rfl⟩
    | plain noBackslash _ _ => exact absurd rfl noBackslash
  | plain noBackslash goesOn _ ih =>
    cases h' with
    | close => exact absurd (List.prefix_append quotes _) goesOn
    | escaped _ => exact absurd rfl noBackslash
    | plain _ _ rest =>
      obtain ⟨rfl, rfl⟩ := ih rest
      exact ⟨rfl, rfl⟩

theorem quotes_prefix_cons {c : Char} :
    quotes <+: c :: cs ↔ c = '\'' ∧ ∃ rest, cs = '\'' :: '\'' :: rest := by
  constructor
  · rintro ⟨rest, same⟩
    cases same
    exact ⟨rfl, rest, rfl⟩
  · rintro ⟨rfl, rest, rfl⟩
    exact ⟨rest, rfl⟩

/-- Reading goes by the rules: it answers what the pieces up to the closing quotes are read as. -/
theorem readBy_eq_some_iff :
    readBy meaning cs = some (text, left) ↔
      ∃ pieces, Closes cs pieces left ∧
        List.Forall₂ (fun piece c => piece.read? meaning = some c) pieces text := by
  constructor
  · intro h
    fun_induction readBy meaning cs generalizing text with
    | case1 c rest ih =>
      obtain ⟨d, means, h⟩ := Option.bind_eq_some_iff.mp h
      obtain ⟨r, read, h⟩ := Option.map_eq_some_iff.mp h
      cases h
      obtain ⟨pieces, closes, each⟩ := ih read
      exact ⟨.escaped c :: pieces, .escaped closes, .cons means each⟩
    | case2 rest =>
      cases h
      exact ⟨[], .close, .nil⟩
    | case3 => cases h
    | case4 c rest _ noClose noBackslash ih =>
      obtain ⟨r, read, h⟩ := Option.map_eq_some_iff.mp h
      cases h
      obtain ⟨pieces, closes, each⟩ := ih read
      have goesOn : ¬quotes <+: c :: rest := by
        rw [quotes_prefix_cons]
        rintro ⟨quote, behind, more⟩
        exact noClose behind quote more
      exact ⟨.plain c :: pieces, .plain noBackslash goesOn closes, .cons rfl each⟩
    | case5 => cases h
  · rintro ⟨pieces, closes, each⟩
    induction closes generalizing text with
    | close =>
      cases each
      rfl
    | escaped _ ih =>
      cases each with
      | cons means each =>
        have means : meaning _ = some _ := means
        rw [readBy, means, ih each]
        rfl
    | plain noBackslash goesOn _ ih =>
      cases each with
      | cons same each =>
        cases same
        have noClose : ∀ behind, _ = '\'' → _ = '\'' :: '\'' :: behind → False :=
          fun behind quote more => goesOn (quotes_prefix_cons.mpr ⟨quote, behind, more⟩)
        rw [readBy, if_neg noBackslash, ih each]
        · rfl
        · exact fun _ _ backslash _ => noBackslash backslash
        · exact noClose

/-- The backslash and the quote, the only characters with a backslash in front of them where a text
is written. -/
def ownMeaning (c : Char) : Option Char := if c = '\\' ∨ c = '\'' then some c else none

theorem ownMeaning_eq_some_iff {c d : Char} :
    ownMeaning c = some d ↔ (c = '\\' ∨ c = '\'') ∧ d = c := by
  unfold ownMeaning
  split
  · next own => simp [own, eq_comm]
  · next other => simp [other]

/-- A text that is written closes behind its last character, and only backslashes and quotes have a
backslash in front of them. -/
theorem closes_escape (cs rest : List Char) :
    ∃ pieces, Closes (escape cs ++ '\'' :: '\'' :: '\'' :: rest) pieces rest ∧
      (∀ c, .escaped c ∈ pieces → c = '\\' ∨ c = '\'') ∧ pieces.map Piece.char = cs := by
  -- Reading succeeds even if no other character may stand behind a backslash.
  have backslash : ownMeaning '\\' = some '\\' := rfl
  have quote : ownMeaning '\'' = some '\'' := rfl
  have read := readBy_escape backslash quote cs rest
  obtain ⟨pieces, closes, each⟩ := readBy_eq_some_iff.mp read
  refine ⟨pieces, closes, ?_⟩
  clear closes read
  induction each with
  | nil => exact ⟨fun _ h => absurd h List.not_mem_nil, rfl⟩
  | @cons piece c pieces cs means _ ih =>
    obtain ⟨ownOnly, chars⟩ := ih
    cases piece with
    | plain d =>
      cases means
      refine ⟨fun c h => ?_, by rw [List.map_cons, chars]; rfl⟩
      rcases List.mem_cons.mp h with same | h
      · cases same
      · exact ownOnly c h
    | escaped d =>
      obtain ⟨own, rfl⟩ := ownMeaning_eq_some_iff.mp means
      refine ⟨fun c h => ?_, by rw [List.map_cons, chars]; rfl⟩
      rcases List.mem_cons.mp h with same | h
      · cases same
        exact own
      · exact ownOnly c h

end LongQuoted

namespace Literal

open LongQuoted

/-- What is written behind the text of a literal. -/
def qualifier : Literal → String
  | plain _ => "^^" ++ Vocabulary.xsdString.bracketed
  | tagged _ language => "@" ++ language
  | typed _ datatype _ => "^^" ++ datatype.bracketed

theorem sparql_eq (l : Literal) : l.sparql = quote l.value ++ l.qualifier := by
  cases l <;> rfl

theorem toList_sparql_append (l : Literal) (r : String) :
    (l.sparql ++ r).toList =
      quotes ++ (escape l.value.toList ++ '\'' :: '\'' :: '\'' :: (l.qualifier ++ r).toList) := by
  rw [sparql_eq]
  simp [toList_quote, quotes]

/-- Behind its opening quotes a literal has the pieces of its text, with a backslash in front of
backslashes and quotes only, and the text closes right in front of the literal's language or
datatype and nowhere else, whatever follows the literal. So whatever follows two literals of
different texts, what begins with them differs, and no two texts are escaped alike. -/
theorem sparql_delimits_itself (l : Literal) (r : String) :
    ∃ behind pieces, (l.sparql ++ r).toList = quotes ++ behind ∧
      (∀ others left, Closes behind others left ↔
        others = pieces ∧ left = (l.qualifier ++ r).toList) ∧
      (∀ c, .escaped c ∈ pieces → c = '\\' ∨ c = '\'') ∧
      pieces.map Piece.char = l.value.toList ∧
      (∀ (m : Literal) (t : String), m.sparql ++ t = l.sparql ++ r →
        m.value = l.value ∧ m.qualifier ++ t = l.qualifier ++ r) ∧
      Function.Injective escape := by
  obtain ⟨pieces, closes, ownOnly, chars⟩ := closes_escape l.value.toList (l.qualifier ++ r).toList
  refine ⟨_, pieces, l.toList_sparql_append r, fun others left => ⟨closes.unique, ?_⟩, ownOnly,
    chars, fun m t same => ?_, fun _ _ => escape_injective⟩
  · rintro ⟨rfl, rfl⟩
    exact closes
  · obtain ⟨pieces', closes', _, chars'⟩ :=
      closes_escape m.value.toList (m.qualifier ++ t).toList
    have lists : (m.sparql ++ t).toList = (l.sparql ++ r).toList := by rw [same]
    rw [toList_sparql_append, toList_sparql_append] at lists
    rw [List.append_cancel_left lists] at closes'
    obtain ⟨rfl, left⟩ := closes.unique closes'
    exact ⟨String.toList_inj.mp (chars'.symm.trans chars), String.toList_inj.mp left⟩

/-- Neither quotes inside a text nor a backslash and a quote at its end close it. -/
example : (tagged "''' it's \\'" "en").sparql = "'''\\'\\'\\' it\\'s \\\\\\''''@en" := by
  decide +kernel

end Literal

end GraphAccess
