import GraphAccess.Text.Pieces

namespace GraphAccess.LanguageTag

inductive TagError where
  | emptyExtension
  | emptyPrivateUse
  | invalidSubtag
  | invalidLanguage
  | subtagTooLong
  | emptySubtag
  | tooManyExtlangs
  deriving DecidableEq, Repr

def TagError.message : TagError → String
  | emptyExtension => "If an extension subtag is present, it must not be empty"
  | emptyPrivateUse => "If the `x` subtag is present, it must not be empty"
  | invalidSubtag => "A subtag fails to parse, it does not match any other subtags"
  | invalidLanguage => "The given language subtag is invalid"
  | subtagTooLong => "A subtag may be eight characters in length at maximum"
  | emptySubtag => "A subtag should not be empty"
  | tooManyExtlangs => "At maximum three extlangs are allowed"

/-- The tags that were registered before the grammar was fixed and do not follow it. -/
def grandfathered : List String :=
  ["art-lojban", "cel-gaulish", "en-gb-oed", "i-ami", "i-bnn", "i-default", "i-enochian",
   "i-hak", "i-klingon", "i-lux", "i-mingo", "i-navajo", "i-pwn", "i-tao", "i-tay", "i-tsu",
   "no-bok", "no-nyn", "sgn-be-fr", "sgn-be-nl", "sgn-ch-de", "zh-guoyu", "zh-hakka", "zh-min",
   "zh-min-nan", "zh-xiang"]

/-- The subtags between the hyphens; no text still is one empty subtag. -/
def subtags : List Char → List (List Char) := Text.fields '-'

/-- What has been read of a tag: the last part of it, and for the parts that need a subtag of
their own whether one has come. -/
inductive Progress where
  | start
  | language (extlangs : Nat)
  | extendedLanguage
  | script
  | region
  | extension (satisfied : Bool)
  | privateUse (satisfied : Bool)
  deriving DecidableEq, Repr

/-- The number of bytes of a subtag. -/
def byteLength : List Char → Nat
  | [] => 0
  | c :: cs => c.utf8Size + byteLength cs

def isWord (s : List Char) : Bool := s.all Char.isAlphanum

def isLetters (s : List Char) : Bool := s.all Char.isAlpha

/-- A variant has five to eight characters, or four if a digit leads. -/
def isVariant : List Char → Bool
  | [] => false
  | c :: cs =>
    isWord (c :: cs) &&
      ((4 ≤ cs.length && c.isAlpha) || (3 ≤ cs.length && c.isDigit))

def isRegion (s : List Char) : Bool :=
  (s.length = 2 && isLetters s) || (s.length = 3 && s.all Char.isDigit)

namespace Progress

/-- No subtag of a part that needs one is missing. -/
def finish : Progress → Except TagError Unit
  | extension false => .error .emptyExtension
  | privateUse false => .error .emptyPrivateUse
  | _ => .ok ()

def mayTakeScript : Progress → Bool
  | language _ | extendedLanguage => true
  | _ => false

def mayTakeRegion : Progress → Bool
  | language _ | extendedLanguage | script => true
  | _ => false

def mayTakeVariant : Progress → Bool
  | language _ | extendedLanguage | script | region => true
  | _ => false

/-- The part that a subtag of the core tag belongs to. -/
def stepCore (p : Progress) (s : List Char) : Except TagError Progress :=
  match p with
  | language extlangs =>
    if s.length = 3 && isLetters s then
      if extlangs < 3 then .ok (.language (extlangs + 1)) else .error .tooManyExtlangs
    else afterLanguage p
  | _ => afterLanguage p
where
  afterLanguage (p : Progress) : Except TagError Progress :=
    if p.mayTakeScript && s.length = 4 && isLetters s then .ok .script
    else if p.mayTakeRegion && isRegion s then .ok .region
    else if p.mayTakeVariant && isVariant s then .ok .region
    else .error .invalidSubtag

/-- Reads one subtag. -/
def step (p : Progress) (s : List Char) : Except TagError Progress :=
  if s = [] then .error .emptySubtag
  else if 8 < byteLength s then .error .subtagTooLong
  else match p with
    | start =>
      if byteLength s < 2 || !isLetters s then .error .invalidLanguage
      else if s.length < 4 then .ok (.language 0) else .ok .extendedLanguage
    | privateUse _ => if isWord s then .ok (.privateUse true) else .error .invalidSubtag
    | _ =>
      if s = ['x'] then p.finish.map fun _ => .privateUse false
      else if s.length = 1 && isWord s then p.finish.map fun _ => .extension false
      else match p with
        | extension _ => if isWord s then .ok (.extension true) else .error .invalidSubtag
        | _ => p.stepCore s

/-- Reads the remaining subtags. -/
def run (p : Progress) : List (List Char) → Except TagError Unit
  | [] => p.finish
  | s :: ss => do (← p.step s).run ss

end Progress

/-- A tag that is private from its start. -/
def checkPrivate (tail : List Char) : Except TagError Unit :=
  if tail = [] then .error .emptyPrivateUse
  else (subtags tail).forM fun s =>
    if s = [] then .error .emptySubtag
    else if 8 < byteLength s then .error .subtagTooLong
    else if isWord s then .ok () else .error .invalidSubtag

/-- Whether a tag in lower case follows the grammar, or which rule it breaks first. -/
def check (tag : String) : Except TagError Unit :=
  if tag ∈ grandfathered then .ok ()
  else match tag.toList with
    | 'x' :: '-' :: tail => checkPrivate tail
    | cs => Progress.start.run (subtags cs)

/-- A tag in lower case, if it follows the grammar. -/
def normalize (tag : String) : Except TagError String :=
  let lower := tag.map Char.toLower
  (check lower).map fun _ => lower

end GraphAccess.LanguageTag
