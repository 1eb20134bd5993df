namespace GraphAccess.LongQuoted

def escapeChar (c : Char) : List Char := if c = '\\' ∨ c = '\'' then ['\\', c] else [c]

def escape (cs : List Char) : List Char := cs.flatMap escapeChar

/-- What a backslash and a character stand for, by the grammar of strings. -/
def meaning : Char → Option Char
  | 't' => some '\t'
  | 'b' => some '\x08'
  | 'n' => some '\n'
  | 'r' => some '\r'
  | 'f' => some '\x0c'
  | '\\' => some '\\'
  | '"' => some '"'
  | '\'' => some '\''
  | _ => none

/-- Reads up to the first three quotes that no backslash is in front of. Answers the text, with a
backslash and the character behind it standing for what they mean, and what follows the quotes. -/
def readBy (meaning : Char → Option Char) : List Char → Option (List Char × List Char)
  | '\\' :: c :: rest =>
    (meaning c).bind fun d => (readBy meaning rest).map fun r => (d :: r.1, r.2)
  | '\'' :: '\'' :: '\'' :: rest => some ([], rest)
  | c :: rest =>
    if c = '\\' then none else (readBy meaning rest).map fun r => (c :: r.1, r.2)
  | [] => none

/-- Reads with a backslash standing for the character behind it. -/
def read : List Char → Option (List Char × List Char) := readBy some

theorem readBy_plain {meaning : Char → Option Char} {c : Char} (h : c ≠ '\\') (hq : c ≠ '\'')
    (rest : List Char) :
    readBy meaning (c :: rest) = (readBy meaning rest).map fun r => (c :: r.1, r.2) := by
  rw [readBy]
  · rw [if_neg h]
  · exact fun _ _ e => absurd e h
  · exact fun _ e => absurd e hq

/-- Whatever else a backslash may be followed by, what is written is read back. -/
theorem readBy_escape {meaning : Char → Option Char} (backslash : meaning '\\' = some '\\')
    (quote : meaning '\'' = some '\'') (cs rest : List Char) :
    readBy meaning (escape cs ++ '\'' :: '\'' :: '\'' :: rest) = some (cs, rest) := by
  induction cs with
  | nil => rfl
  | cons c cs ih =>
    rw [escape, List.flatMap_cons, ← escape, escapeChar, List.append_assoc]
    split
    · next special =>
      have means : meaning c = some c := by
        rcases special with rfl | rfl
        · exact backslash
        · exact quote
      rw [List.cons_append, List.cons_append, readBy, List.nil_append, means, ih]
      rfl
    · next h =>
      rw [not_or] at h
      rw [List.cons_append, List.nil_append, readBy_plain h.1 h.2, ih]
      rfl

theorem read_escape (cs rest : List Char) :
    read (escape cs ++ '\'' :: '\'' :: '\'' :: rest) = some (cs, rest) :=
  readBy_escape rfl rfl cs rest

theorem length_of_readBy {meaning : Char → Option Char} {cs read left : List Char}
    (h : readBy meaning cs = some (read, left)) : left.length ≤ cs.length := by
  fun_induction readBy meaning cs generalizing read left with
  | case1 c rest ih =>
    obtain ⟨d, _, h⟩ := Option.bind_eq_some_iff.mp h
    obtain ⟨r, hr, h⟩ := Option.map_eq_some_iff.mp h
    cases h
    have shorter := ih hr
    simp only [List.length_cons]
    omega
  | case2 rest =>
    cases h
    simp only [List.length_cons]
    omega
  | case3 => cases h
  | case4 c rest _ _ _ ih =>
    obtain ⟨r, hr, h⟩ := Option.map_eq_some_iff.mp h
    cases h
    have shorter := ih hr
    simp only [List.length_cons]
    omega
  | case5 => cases h

theorem escape_injective {cs ds : List Char} (h : escape cs = escape ds) : cs = ds := by
  have hc := read_escape cs []
  rw [h, read_escape ds []] at hc
  simpa [eq_comm] using hc

/-- A text between triple quotes. -/
def quote (s : String) : String := "'''" ++ String.ofList (escape s.toList) ++ "'''"

theorem toList_quote (s : String) :
    (quote s).toList = ['\'', '\'', '\''] ++ escape s.toList ++ ['\'', '\'', '\''] := by
  simp [quote]

end GraphAccess.LongQuoted
