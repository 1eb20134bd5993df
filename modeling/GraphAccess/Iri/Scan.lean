import GraphAccess.Text.CharRange

namespace GraphAccess.IriText

inductive IriError where
  | noScheme
  | hostCharacter (c : Char)
  | hostAddress
  | portCharacter (c : Char)
  | codePoint (c : Char)
  | percentEncoding (shown : List Char)
  | pathStartsWithTwoSlashes
  deriving DecidableEq, Repr

def IriError.message : IriError → String
  | noScheme => "No scheme found in an absolute IRI"
  | hostCharacter c => "Invalid character '" ++ String.singleton c ++ "' in host"
  | hostAddress => "Invalid host IP (invalid IPv6 address syntax)"
  | portCharacter c => "Invalid character '" ++ String.singleton c ++ "'"
  | codePoint c => "Invalid IRI code point '" ++ String.singleton c ++ "'"
  | percentEncoding shown =>
    "Invalid IRI percent encoding '" ++ String.ofList shown ++ "'"
  | pathStartsWithTwoSlashes => "An IRI path is not allowed to start with //"

/-- The ASCII characters that stand for themselves in every component. -/
def isPlainAscii (c : Char) : Bool := c.isAlphanum || "!$&'()*+,-.;=_~".toList.contains c

/-- The characters beyond ASCII that stand for themselves in every component; of each plane the
two last code points are no characters. -/
def isPlainWide (c : Char) : Bool :=
  CharRange.covers [⟨0xa0, 0xd7ff⟩, ⟨0xf900, 0xfdcf⟩, ⟨0xfdf0, 0xffef⟩] c ||
    CharRange.contains ⟨0x10000, 0xdffff⟩ c && c.toNat % 0x10000 ≤ 0xfffd ||
    CharRange.contains ⟨0xe1000, 0xefffd⟩ c

/-- The characters that stand for themselves in every component. -/
def isPlain (c : Char) : Bool := isPlainAscii c || isPlainWide c

def isUserInfoChar (c : Char) : Bool := isPlain c || c = ':'

/-- A relative path's first segment has no colon. -/
def isFirstSegmentChar (c : Char) : Bool := isPlain c || c = '@'

def isSegmentChar (c : Char) : Bool := isPlain c || c = ':' || c = '@'

def isFragmentChar (c : Char) : Bool := isSegmentChar c || c = '/' || c = '?'

/-- A query has also the characters for private use. -/
def isQueryChar (c : Char) : Bool :=
  isFragmentChar c ||
    CharRange.covers [⟨0xe000, 0xf8ff⟩, ⟨0xf0000, 0xffffd⟩, ⟨0x100000, 0x10fffd⟩] c

/-- A path ends at a query or a fragment. -/
def endsPath (c : Char) : Bool := c = '?' || c = '#'

def endsSegment (c : Char) : Bool := c = '/' || endsPath c

/-- Reads characters of a class up to the first stop; a percent sign takes two hexadecimal digits
along. Answers what has been read and what is left. -/
def scan (allowed stop : Char → Bool) : List Char → Except IriError (List Char × List Char)
  | [] => .ok ([], [])
  | c :: cs =>
    if stop c then .ok ([], c :: cs)
    else if c = '%' then
      match cs with
      | a :: b :: rest =>
        if isHexDigit a && isHexDigit b then
          (scan allowed stop rest).map fun r => (c :: a :: b :: r.1, r.2)
        else .error (.percentEncoding [c, a, b])
      | short => .error (.percentEncoding (c :: short))
    else if allowed c then (scan allowed stop cs).map fun r => (c :: r.1, r.2)
    else .error (.codePoint c)

/-- Reads all that is left. -/
def scanAll (allowed : Char → Bool) (cs : List Char) : Except IriError (List Char) :=
  (scan allowed (fun _ => false) cs).map Prod.fst

theorem scan_append {allowed stop : Char → Bool} {cs read left : List Char}
    (h : scan allowed stop cs = .ok (read, left)) : read ++ left = cs := by
  fun_induction scan allowed stop cs generalizing read left with
  | case1 => cases h; rfl
  | case2 => cases h; rfl
  | case3 _ _ rest _ _ ih =>
    cases hr : scan allowed stop rest with
    | error e => rw [hr] at h; cases h
    | ok r => rw [hr] at h; cases h; simp [ih hr]
  | case4 => cases h
  | case5 => cases h
  | case6 c cs _ _ _ ih =>
    cases hr : scan allowed stop cs with
    | error e => rw [hr] at h; cases h
    | ok r => rw [hr] at h; cases h; simp [ih hr]
  | case7 => cases h

theorem stop_of_scan {allowed stop : Char → Bool} {cs read left : List Char} {c : Char}
    (h : scan allowed stop cs = .ok (read, c :: left)) : stop c = true := by
  fun_induction scan allowed stop cs generalizing read with
  | case1 => cases h
  | case2 _ _ hc => cases h; exact hc
  | case3 _ _ rest _ _ ih =>
    cases hr : scan allowed stop rest with
    | error e => rw [hr] at h; cases h
    | ok r => rw [hr] at h; obtain ⟨r1, r2⟩ := r; cases h; exact ih hr
  | case4 => cases h
  | case5 => cases h
  | case6 c cs _ _ _ ih =>
    cases hr : scan allowed stop cs with
    | error e => rw [hr] at h; cases h
    | ok r => rw [hr] at h; obtain ⟨r1, r2⟩ := r; cases h; exact ih hr
  | case7 => cases h

end GraphAccess.IriText
