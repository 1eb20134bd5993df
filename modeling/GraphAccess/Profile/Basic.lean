import GraphAccess.Profile.Hierarchy

namespace GraphAccess

/-- Types that refer to each other, each before its superclasses. -/
structure Profile where
  hierarchy : List ResourceType
  deriving DecidableEq, Repr

namespace Profile

def find? (p : Profile) (id : TypeId) : Option ResourceType := Hierarchy.find? p.hierarchy id

/-- The types in ascending order of their ids. -/
def types (p : Profile) : List ResourceType := sortBy ResourceType.id p.hierarchy

def size (p : Profile) : Nat := p.hierarchy.length

def isEmpty (p : Profile) : Bool := p.hierarchy.isEmpty

end Profile

end GraphAccess
