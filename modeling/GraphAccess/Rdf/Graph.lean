import GraphAccess.Collection.Ascending
import GraphAccess.Rdf.Term

namespace GraphAccess

/-- A set of statements, listed. -/
structure Graph where
  triples : List Triple
  deriving DecidableEq, Repr

namespace Graph

instance : Membership Triple Graph := ⟨fun g t => t ∈ g.triples⟩

def ofTriples (ts : List Triple) : Graph := ⟨ts.eraseDups⟩

def size (g : Graph) : Nat := g.triples.length

@[simp] theorem mem_ofTriples {t : Triple} {ts : List Triple} : t ∈ ofTriples ts ↔ t ∈ ts :=
  List.mem_eraseDups

theorem nodup_ofTriples (ts : List Triple) : (ofTriples ts).triples.Nodup :=
  nodup_eraseDups ts

end Graph

end GraphAccess
