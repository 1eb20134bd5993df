import GraphAccess.Iri.Host
import GraphAccess.Rdf.Term

namespace GraphAccess

open IriText

/-- The components of a reference; a component that is absent is empty. -/
@[ext] structure Reference where
  /-- Ends with its colon. -/
  scheme : List Char
  /-- Begins with its two slashes. -/
  authority : List Char
  path : List Char
  /-- Begins with its question mark. -/
  query : List Char
  /-- Begins with its number sign. -/
  fragment : List Char
  deriving DecidableEq, Repr

namespace Reference

def chars (r : Reference) : List Char :=
  r.scheme ++ r.authority ++ r.path ++ r.query ++ r.fragment

def toIri (r : Reference) : Iri := ⟨String.ofList r.chars⟩

/-- Completes a reference with the fragment that is left. -/
def withFragment (r : Reference) : List Char → Except IriError Reference
  | '#' :: cs => (scanAll isFragmentChar cs).map fun f => { r with fragment := '#' :: f }
  | _ => .ok { r with fragment := [] }

/-- Completes a reference with the query and the fragment that are left. -/
def withQuery (r : Reference) : List Char → Except IriError Reference
  | '?' :: cs => do
    let (q, left) ← scan isQueryChar (· = '#') cs
    { r with query := '?' :: q }.withFragment left
  | cs => { r with query := [] }.withFragment cs

/-- Completes a reference with the path that is left, taken as it is. -/
def withPath (r : Reference) (cs : List Char) : Except IriError Reference := do
  let (p, left) ← scan (fun c => isSegmentChar c || c = '/') endsPath cs
  { r with path := p }.withQuery left

/-- Completes a reference with the authority that is left, behind its two slashes. -/
def withAuthority (r : Reference) (cs : List Char) : Except IriError Reference := do
  let (a, left) ← IriText.authority cs
  { r with authority := '/' :: '/' :: a }.withPath left

def empty : Reference := ⟨[], [], [], [], []⟩

def isSchemeChar (c : Char) : Bool := c.isAlphanum || c = '+' || c = '-' || c = '.'

/-- The scheme with its colon, and what follows it. A scheme begins with a letter. -/
def cutScheme (cs : List Char) : Option (List Char × List Char) :=
  match cs.head?, cs.dropWhile isSchemeChar with
  | some c, ':' :: rest =>
    if c.isAlpha then some (cs.takeWhile isSchemeChar ++ [':'], rest) else none
  | _, _ => none

/-- Reads what follows a scheme. -/
def afterScheme (scheme : List Char) : List Char → Except IriError Reference
  | '/' :: '/' :: cs => { empty with scheme }.withAuthority cs
  | cs => { empty with scheme }.withPath cs

/-- Reads a reference that has no scheme and no base. -/
def readRelative : List Char → Except IriError Reference
  | '/' :: '/' :: cs => empty.withAuthority cs
  | '/' :: cs => empty.withPath ('/' :: cs)
  | cs => do
    let (first, left) ← scan isFirstSegmentChar endsSegment cs
    let r ← empty.withPath left
    .ok { r with path := first ++ r.path }

/-- The directories above a segment, the innermost first. Each stands for its name and a slash. -/
abbrev Directories := List (List Char)

namespace Directories

def chars (ds : Directories) : List Char := ds.reverse.flatMap (· ++ ['/'])

/-- The directories of a path, without its last segment. Below an authority there is at least the
root. -/
def ofPath (below : Bool) (path : List Char) : Directories :=
  match (Text.fields '/' path).reverse.drop 1 with
  | [] => if below then [[]] else []
  | ds => ds

/-- Leaves the innermost directory. Below an authority the root stays. -/
def leave (below : Bool) : Directories → Directories
  | [] => []
  | [_] => if below then [[]] else []
  | _ :: ds => ds

/-- A path that is not below an authority must not look as if it began with one. -/
def checked (below : Bool) (path : List Char) : Except IriError (List Char) :=
  match path with
  | '/' :: '/' :: _ => if below then .ok path else .error .pathStartsWithTwoSlashes
  | _ => .ok path

/-- The directories behind a segment and its slash. -/
def enter (below : Bool) (ds : Directories) (segment : List Char) : Except IriError Directories :=
  if segment = ['.', '.'] then
    (checked below (ds.leave below).chars).map fun _ => ds.leave below
  else if segment = ['.'] then (checked below ds.chars).map fun _ => ds
  else .ok (segment :: ds)

/-- The path that ends in a segment. -/
def close (below : Bool) (ds : Directories) (segment : List Char) :
    Except IriError (List Char) :=
  if segment = ['.', '.'] then checked below (ds.leave below).chars
  else if segment = ['.'] then checked below ds.chars
  else checked below (ds.chars ++ segment)

end Directories

/-- Reads a path from inside some directories and answers it without dot segments, and what is
left. The segment's characters come latest first. -/
def walkPath (below : Bool) (allowed : Char → Bool) (ds : Directories) (segment : List Char) :
    List Char → Except IriError (List Char × List Char)
  | [] => (ds.close below segment.reverse).map (·, [])
  | c :: cs =>
    if endsPath c then (ds.close below segment.reverse).map (·, c :: cs)
    else if c = '/' then do
      walkPath below isSegmentChar (← ds.enter below segment.reverse) [] cs
    else if c = '%' then
      match cs with
      | a :: b :: rest =>
        if isHexDigit a && isHexDigit b then
          walkPath below allowed ds (b :: a :: c :: segment) rest
        else .error (.percentEncoding [c, a, b])
      | short => .error (.percentEncoding (c :: short))
    else if allowed c then walkPath below allowed ds (c :: segment) cs
    else .error (.codePoint c)

/-- Reads a reference that has no scheme against a base: what it leaves out is the base's. -/
def readAgainst (base : Reference) : List Char → Except IriError Reference
  | [] => .ok { base with fragment := [] }
  | '/' :: '/' :: cs => { base with path := [] }.withAuthority cs
  | '/' :: cs => do
    let (p, left) ← walkPath (base.authority ≠ []) isSegmentChar [[]] [] cs
    { base with path := p }.withQuery left
  | '?' :: cs => base.withQuery ('?' :: cs)
  | '#' :: cs => base.withFragment ('#' :: cs)
  | cs => do
    let below : Bool := base.authority ≠ []
    let (p, left) ←
      walkPath below isFirstSegmentChar (Directories.ofPath below base.path) [] cs
    { base with path := p }.withQuery left

/-- Reads an absolute IRI. -/
def parse (s : String) : Except IriError Reference :=
  match s.toList with
  | ':' :: _ => .error .noScheme
  | cs =>
    match cutScheme cs with
    | some (scheme, rest) => afterScheme scheme rest
    | none => (readRelative cs).bind fun _ => .error .noScheme

/-- Reads an IRI that may be relative to a base. -/
def resolve (base : Reference) (s : String) : Except IriError Reference :=
  match s.toList with
  | ':' :: _ => .error .noScheme
  | cs =>
    match cutScheme cs with
    | some (scheme, rest) => afterScheme scheme rest
    | none => base.readAgainst cs

theorem scanAll_eq {allowed : Char → Bool} {cs read : List Char}
    (h : scanAll allowed cs = .ok read) : read = cs := by
  unfold scanAll at h
  cases hs : scan allowed (fun _ => false) cs with
  | error e => rw [hs] at h; cases h
  | ok r =>
    obtain ⟨taken, left⟩ := r
    rw [hs] at h
    cases h
    have whole := scan_append hs
    cases left with
    | nil => simpa using whole
    | cons c left => exact absurd (stop_of_scan hs) (by decide)

/-- What a fragment may begin with. -/
def AtFragment (cs : List Char) : Prop := cs = [] ∨ ∃ rest, cs = '#' :: rest

/-- What a query or a fragment may begin with. -/
def AtQuery (cs : List Char) : Prop := (∃ rest, cs = '?' :: rest) ∨ AtFragment cs

theorem chars_withFragment {r s : Reference} {cs : List Char} (start : AtFragment cs)
    (h : r.withFragment cs = .ok s) :
    s.chars = r.scheme ++ r.authority ++ r.path ++ r.query ++ cs := by
  rcases start with rfl | ⟨rest, rfl⟩
  · cases h; rfl
  · rw [withFragment] at h
    cases hs : scanAll isFragmentChar rest with
    | error e => rw [hs] at h; cases h
    | ok read => rw [hs] at h; cases h; simp [chars, scanAll_eq hs]

theorem chars_withQuery {r s : Reference} {cs : List Char} (start : AtQuery cs)
    (h : r.withQuery cs = .ok s) :
    s.chars = r.scheme ++ r.authority ++ r.path ++ cs := by
  rcases start with ⟨rest, rfl⟩ | start
  · rw [withQuery] at h
    cases hs : scan isQueryChar (· = '#') rest with
    | error e => rw [hs] at h; cases h
    | ok read =>
      obtain ⟨q, left⟩ := read
      rw [hs] at h
      have ends : AtFragment left := by
        cases left with
        | nil => exact .inl rfl
        | cons c left => exact .inr ⟨left, by simpa using stop_of_scan hs⟩
      rw [chars_withFragment ends h, ← scan_append hs]
      simp
  · have h : ({ r with query := [] } : Reference).withFragment cs = .ok s := by
      rcases start with rfl | ⟨rest, rfl⟩ <;> exact h
    rw [chars_withFragment start h]
    simp

theorem chars_withPath {r s : Reference} {cs : List Char} (h : r.withPath cs = .ok s) :
    s.chars = r.scheme ++ r.authority ++ cs := by
  unfold withPath at h
  cases hs : scan (fun c => isSegmentChar c || c = '/') endsPath cs with
  | error e => rw [hs] at h; cases h
  | ok read =>
    obtain ⟨p, left⟩ := read
    rw [hs] at h
    have ends : AtQuery left := by
      cases left with
      | nil => exact .inr (.inl rfl)
      | cons c left =>
        have stop := stop_of_scan hs
        simp only [endsPath, Bool.or_eq_true, decide_eq_true_eq] at stop
        rcases stop with rfl | rfl
        · exact .inl ⟨left, rfl⟩
        · exact .inr (.inr ⟨left, rfl⟩)
    rw [chars_withQuery ends h, ← scan_append hs]
    simp

theorem chars_withAuthority {r s : Reference} {cs : List Char}
    (h : r.withAuthority cs = .ok s) : s.chars = r.scheme ++ '/' :: '/' :: cs := by
  unfold withAuthority at h
  cases ha : IriText.authority cs with
  | error e => rw [ha] at h; cases h
  | ok read =>
    rw [ha] at h
    rw [chars_withPath h, ← authority_append ha]
    simp

theorem chars_afterScheme {scheme cs : List Char} {r : Reference}
    (h : afterScheme scheme cs = .ok r) : r.chars = scheme ++ cs := by
  unfold afterScheme at h
  split at h
  · exact chars_withAuthority h
  · simpa [empty] using chars_withPath h

theorem append_of_cutScheme {cs scheme rest : List Char}
    (h : cutScheme cs = some (scheme, rest)) : scheme ++ rest = cs := by
  unfold cutScheme at h
  split at h
  · next c tail _ hd =>
    split at h
    · cases h
      rw [List.append_assoc, List.singleton_append, ← hd]
      exact List.takeWhile_append_dropWhile
    · cases h
  · cases h

/-- An absolute IRI is kept as it is written. -/
theorem chars_parse {s : String} {r : Reference} (h : parse s = .ok r) :
    r.chars = s.toList := by
  unfold parse at h
  split at h
  · cases h
  · split at h
    · next scheme rest hc => rw [chars_afterScheme h, append_of_cutScheme hc]
    · cases hr : readRelative s.toList with
      | error e => rw [hr] at h; cases h
      | ok _ => rw [hr] at h; cases h

end Reference

/-- The absolute IRI of a text, kept as it is written. -/
def Iri.parse (s : String) : Except IriError Iri := (Reference.parse s).map Reference.toIri

/-- Whatever a text is split into, an IRI that is read from it is the text. -/
theorem Iri.text_parse {s : String} {iri : Iri} (h : Iri.parse s = .ok iri) : iri.text = s := by
  unfold Iri.parse at h
  cases hr : Reference.parse s with
  | error e => rw [hr] at h; cases h
  | ok r =>
    rw [hr] at h
    cases h
    simp [Reference.toIri, Reference.chars_parse hr]

end GraphAccess
