import GraphAccess.Iri.Scan
import GraphAccess.Text.Pieces

namespace GraphAccess.IriText

open Text (fields)

/-- A group of an IPv6 address. -/
def isHexGroup (g : List Char) : Bool :=
  1 ≤ g.length && g.length ≤ 4 && g.all isHexDigit

/-- The number that decimal digits write. -/
def decimalValue (ds : List Char) : Nat :=
  ds.foldl (fun n d => 10 * n + (d.toNat - '0'.toNat)) 0

/-- A number of a dotted address: at most 255, written without leading zeros. -/
def isOctet (ds : List Char) : Bool :=
  1 ≤ ds.length && ds.length ≤ 3 && ds.all Char.isDigit &&
    (ds.length = 1 || ds.head? != some '0') && decimalValue ds ≤ 255

def isDotted (cs : List Char) : Bool :=
  (fields '.' cs).length = 4 && (fields '.' cs).all isOctet

/-- How many groups the fields of an address stand for; a dotted address may end them and stands
for two. -/
def groupCount : List (List Char) → Option Nat
  | [] => some 0
  | [g] => if isHexGroup g then some 1 else if isDotted g then some 2 else none
  | g :: gs => if isHexGroup g then (groupCount gs).map (· + 1) else none

/-- The texts before and after the first two adjacent colons. -/
def cutAtDoubleColon : List Char → Option (List Char × List Char)
  | ':' :: ':' :: rest => some ([], rest)
  | c :: cs => (cutAtDoubleColon cs).map fun r => (c :: r.1, r.2)
  | [] => none

/-- The fields between colons; no text has none. -/
def colonFields (cs : List Char) : List (List Char) :=
  if cs = [] then [] else fields ':' cs

/-- An IPv6 address has eight groups; two adjacent colons stand for at least one of them. -/
def isIpv6 (cs : List Char) : Bool :=
  match cutAtDoubleColon cs with
  | none => groupCount (colonFields cs) = some 8
  | some (head, tail) =>
    (colonFields head).all isHexGroup &&
      match groupCount (colonFields tail) with
      | some n => (colonFields head).length + n ≤ 7
      | none => false

/-- The version of an address in a later format: hexadecimal digits up to a dot. Answers whether
there is a digit, and what follows the dot. -/
def futureVersion : List Char → Except IriError (Bool × List Char)
  | [] => .ok (false, [])
  | c :: cs =>
    if c = '.' then .ok (false, cs)
    else if isHexDigit c then (futureVersion cs).map fun r => (true, r.2)
    else .error (.hostCharacter c)

/-- The first character that an address in a later format may not have. -/
def futureBody : List Char → Except IriError Unit
  | [] => .ok ()
  | c :: cs => if isPlainAscii c || c = ':' then futureBody cs else .error (.hostCharacter c)

/-- An address in a later format, behind its `v`: a version, a dot, and some characters. -/
def checkFuture (cs : List Char) : Except IriError Unit := do
  let (versioned, body) ← futureVersion cs
  match body with
  | [] => .error (.hostCharacter ']')
  | c :: _ => if versioned then futureBody body else .error (.hostCharacter c)

/-- The text between the brackets of a host. -/
def checkAddress (cs : List Char) : Except IriError Unit :=
  match cs with
  | 'v' :: rest | 'V' :: rest => checkFuture rest
  | _ => if isIpv6 cs then .ok () else .error .hostAddress

/-- Digits, up to the path. -/
def port : List Char → Except IriError (List Char × List Char)
  | [] => .ok ([], [])
  | c :: cs =>
    if endsSegment c then .ok ([], c :: cs)
    else if c.isDigit then (port cs).map fun r => (c :: r.1, r.2)
    else .error (.portCharacter c)

/-- What may follow a bracketed host: a port, or the path. -/
def behindBracket : List Char → Except IriError (List Char × List Char)
  | [] => .ok ([], [])
  | c :: cs =>
    if c = ':' then (port cs).map fun r => (':' :: r.1, r.2)
    else if endsSegment c then .ok ([], c :: cs)
    else .error (.hostCharacter c)

def host (cs : List Char) : Except IriError (List Char × List Char) :=
  match cs with
  | '[' :: rest =>
    match rest.dropWhile (· ≠ ']') with
    | [] => .error (.hostCharacter '[')
    | _ :: after => do
      checkAddress (rest.takeWhile (· ≠ ']'))
      let (more, left) ← behindBracket after
      .ok ('[' :: rest.takeWhile (· ≠ ']') ++ ']' :: more, left)
  | _ => do
    match ← scan isPlain (fun c => c = ':' || endsSegment c) cs with
    | (name, ':' :: rest) => (port rest).map fun r => (name ++ ':' :: r.1, r.2)
    | (name, left) => .ok (name, left)

/-- The authority behind its two slashes. User information ends at the first `@` before the path;
without one the text is read again as the host. -/
def authority (cs : List Char) : Except IriError (List Char × List Char) := do
  match ← scan isUserInfoChar (fun c => c = '@' || c = '[' || endsSegment c) cs with
  | (user, '@' :: rest) => (host rest).map fun r => (user ++ '@' :: r.1, r.2)
  | _ => host cs

theorem port_append {cs read left : List Char} (h : port cs = .ok (read, left)) :
    read ++ left = cs := by
  induction cs generalizing read left with
  | nil => cases h; rfl
  | cons c cs ih =>
    rw [port] at h
    split at h
    · cases h; rfl
    · split at h
      · cases hp : port cs with
        | error e => rw [hp] at h; cases h
        | ok r => rw [hp] at h; cases h; simp [ih hp]
      · cases h

theorem behindBracket_append {cs read left : List Char}
    (h : behindBracket cs = .ok (read, left)) : read ++ left = cs := by
  cases cs with
  | nil => cases h; rfl
  | cons c cs =>
    rw [behindBracket] at h
    split at h
    · next colon =>
      cases hp : port cs with
      | error e => rw [hp] at h; cases h
      | ok r => rw [hp] at h; cases h; simp [port_append hp, colon]
    · split at h
      · cases h; rfl
      · cases h

theorem host_append {cs read left : List Char} (h : host cs = .ok (read, left)) :
    read ++ left = cs := by
  unfold host at h
  split at h
  · next rest =>
    have whole := List.takeWhile_append_dropWhile (p := (· ≠ ']')) (l := rest)
    split at h
    · cases h
    · next closing after hd =>
      have hc : closing = ']' := by
        have := List.head?_dropWhile_not (p := (· ≠ ']')) (l := rest)
        rw [hd] at this
        simpa using this
      cases ha : checkAddress (rest.takeWhile (· ≠ ']')) with
      | error e => rw [ha] at h; cases h
      | ok _ =>
        cases hb : behindBracket after with
        | error e => rw [ha] at h; simp [bind, Except.bind, hb] at h
        | ok r =>
          rw [ha] at h
          simp only [bind, Except.bind, hb] at h
          cases h
          rw [hd, hc] at whole
          simpa [behindBracket_append hb] using whole
  · cases hs : scan isPlain (fun c => c = ':' || endsSegment c) cs with
    | error e => rw [hs] at h; cases h
    | ok r =>
      have whole := scan_append hs
      rw [hs] at h
      simp only [bind, Except.bind] at h
      split at h
      · next _ name rest =>
        cases hp : port rest with
        | error e => rw [hp] at h; cases h
        | ok r => rw [hp] at h; cases h; simp [port_append hp, whole]
      · cases h; exact whole

theorem authority_append {cs read left : List Char} (h : authority cs = .ok (read, left)) :
    read ++ left = cs := by
  unfold authority at h
  cases hs : scan isUserInfoChar (fun c => c = '@' || c = '[' || endsSegment c) cs with
  | error e => rw [hs] at h; cases h
  | ok r =>
    have whole := scan_append hs
    rw [hs] at h
    simp only [bind, Except.bind] at h
    split at h
    · next user rest =>
      cases hh : host rest with
      | error e => rw [hh] at h; cases h
      | ok r => rw [hh] at h; cases h; simp [host_append hh, whole]
    · exact host_append h

end GraphAccess.IriText
