namespace GraphAccess

/-- An inclusive range of code points. -/
structure CharRange where
  first : Nat
  last : Nat
  deriving DecidableEq, Repr

namespace CharRange

def contains (r : CharRange) (c : Char) : Bool :=
  r.first ≤ c.toNat && c.toNat ≤ r.last

/-- Whether a character lies in one of the ranges. -/
def covers (rs : List CharRange) (c : Char) : Bool :=
  rs.any (·.contains c)

end CharRange

/-- An ASCII hexadecimal digit, in either case. -/
def isHexDigit (c : Char) : Bool :=
  c.isDigit || (('a' ≤ c && c ≤ 'f') || ('A' ≤ c && c ≤ 'F'))

end GraphAccess
