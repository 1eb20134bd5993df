import GraphAccess.Text.CharRange

namespace GraphAccess

/-- A query variable by its name, without the question mark. -/
@[ext] structure Variable where
  name : String
  deriving DecidableEq, Repr

namespace Variable

/-- The characters that may stand anywhere in a name. -/
def bodyRanges : List CharRange :=
  [⟨0x30, 0x39⟩, ⟨0x5f, 0x5f⟩, ⟨0x41, 0x5a⟩, ⟨0x61, 0x7a⟩, ⟨0xc0, 0xd6⟩, ⟨0xd8, 0xf6⟩,
   ⟨0xf8, 0x2ff⟩, ⟨0x370, 0x37d⟩, ⟨0x37f, 0x1fff⟩, ⟨0x200c, 0x200d⟩, ⟨0x2070, 0x218f⟩,
   ⟨0x2c00, 0x2fef⟩, ⟨0x3001, 0xd7ff⟩, ⟨0xf900, 0xfdcf⟩, ⟨0xfdf0, 0xfffd⟩,
   ⟨0x10000, 0xeffff⟩]

/-- The characters that may follow the first one but not be it. -/
def joiningRanges : List CharRange := [⟨0xb7, 0xb7⟩, ⟨0x300, 0x36f⟩, ⟨0x203f, 0x2040⟩]

def isFirst (c : Char) : Bool := c = ':' || CharRange.covers bodyRanges c

def isLater (c : Char) : Bool := CharRange.covers (bodyRanges ++ joiningRanges) c

/-- Whether a text is the name of a variable. -/
def isName (s : String) : Bool :=
  match s.toList with
  | [] => false
  | c :: cs => isFirst c && cs.all isLater

def invalidNameMessage : String := "The variable name is invalid"

/-- The variable of a name, if it is one. -/
def ofName? (s : String) : Option Variable :=
  if isName s then some ⟨s⟩ else none

theorem ofName?_eq_some_iff {s : String} {v : Variable} :
    ofName? s = some v ↔ isName s = true ∧ v = ⟨s⟩ := by
  unfold ofName?
  by_cases h : isName s = true
  · rw [if_pos h, Option.some.injEq]
    exact ⟨fun e => ⟨h, e.symm⟩, fun e => e.2.symm⟩
  · rw [if_neg h]
    exact ⟨fun e => by simp at e, fun e => absurd e.1 h⟩

theorem ofName?_eq_none_iff {s : String} : ofName? s = none ↔ isName s = false := by
  unfold ofName?
  by_cases h : isName s = true <;> simp [h]

theorem isName_iff (s : String) :
    isName s = true ↔
      ∃ c cs, s.toList = c :: cs ∧ isFirst c = true ∧ ∀ d ∈ cs, isLater d = true := by
  unfold isName
  cases h : s.toList with
  | nil => simp
  | cons c cs =>
    rw [Bool.and_eq_true, List.all_eq_true]
    exact ⟨fun hc => ⟨c, cs, rfl, hc⟩, fun ⟨d, ds, e, hd⟩ => by cases e; exact hd⟩

/-- How a query writes the variable. -/
def text (v : Variable) : String := "?" ++ v.name

end Variable

end GraphAccess
