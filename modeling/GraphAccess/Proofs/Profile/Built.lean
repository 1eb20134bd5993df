import GraphAccess.Collection.Traversal
import GraphAccess.Profile.Declaration
import GraphAccess.Proofs.Iri.Characters
import Mathlib.Data.List.Basic

namespace GraphAccess

open Sparql

theorem TypeDeclaration.attributes_of_toType {base : Option Reference} {d : TypeDeclaration}
    {t : ResourceType} (h : d.toType base = .ok t) {a : Attribute} (ha : a ∈ t.attributes) :
    ∃ e ∈ d.attributes, e.toAttribute base d.id = .ok a := by
  obtain ⟨_, _, as, traversed, rfl⟩ := toType_eq_ok_iff.mp h
  exact exists_of_mapM traversed (mem_sortBy.mp ha)

namespace Profile

variable {order : List ResourceType → List ResourceType} {base : Option String}
variable {ds : List TypeDeclaration} {p : Profile}

theorem arranged_of_buildIn (built : Profile.buildIn order base ds = .ok p) :
    Hierarchy.Arranged p.hierarchy := by
  obtain ⟨_, _, _, _, hp⟩ := buildIn_eq_ok_iff.mp built
  exact Hierarchy.arranged_of_arrange (ofTypes_eq_ok_iff.mp hp).2

theorem type_of_buildIn (reorders : ∀ ts, (order ts).Perm ts)
    (built : Profile.buildIn order base ds = .ok p) {t : ResourceType} (ht : t ∈ p.hierarchy) :
    ∃ reference, readBase base = .ok reference ∧ ∃ d ∈ ds, d.toType reference = .ok t := by
  obtain ⟨reference, ts, hb, declared, hp⟩ := buildIn_eq_ok_iff.mp built
  have listed : t ∈ order ts := Hierarchy.mem_of_arrange (ofTypes_eq_ok_iff.mp hp).2 ht
  have declaredType : t ∈ ts := (reorders ts).mem_iff.mp listed
  obtain ⟨d, hd, ok⟩ := exists_of_mapM (declaredTypes_eq_ok_iff.mp declared).1 declaredType
  exact ⟨reference, hb, d, hd, ok⟩

/-- What is checked of each attribute. -/
theorem attribute_of_buildIn (reorders : ∀ ts, (order ts).Perm ts)
    (built : Profile.buildIn order base ds = .ok p) {t : ResourceType} (ht : t ∈ p.hierarchy)
    {a : Attribute} (ha : a ∈ t.attributes) :
    Variable.isName a.id.name = true ∧ rangeCount a.rules ≤ 1 ∧
      isIriRef a.predicate = true := by
  obtain ⟨reference, hb, d, _, ok⟩ := type_of_buildIn reorders built ht
  obtain ⟨e, _, he⟩ := TypeDeclaration.attributes_of_toType ok ha
  obtain ⟨name, ranges, predicate, hp, rfl⟩ :=
    AttributeDeclaration.toAttribute_eq_ok_iff.mp he
  exact ⟨name, ranges, isIriRef_of_readPredicate hb hp⟩

theorem mem_of_find? {id : TypeId} {t : ResourceType} (found : p.find? id = some t) :
    t ∈ p.hierarchy :=
  Hierarchy.mem_of_find? found

end Profile

/-- Notes are entries of a list; what a note is about is an entry too, or a place. -/
def noteDeclarations : List TypeDeclaration :=
  [⟨⟨"Note"⟩, [.hasType ⟨"http://n.example/Note"⟩, .subclassOf [⟨"Entry"⟩]],
    [⟨⟨"about"⟩, "http://n.example/about",
      [.range (.anyOf [.inScheme ⟨"http://n.example/places"⟩, .embeds ⟨"Entry"⟩])]⟩]⟩,
   ⟨⟨"Entry"⟩,
    [.hasType ⟨"http://n.example/Entry"⟩, .allOf [.inScheme ⟨"http://n.example/list"⟩]], []⟩]

def entryType : ResourceType :=
  ⟨⟨"Entry"⟩,
    [.hasType ⟨"http://n.example/Entry"⟩, .allOf [.inScheme ⟨"http://n.example/list"⟩]], []⟩

def aboutAttribute : Attribute :=
  ⟨⟨"about"⟩, ⟨"Note"⟩, ⟨"http://n.example/about"⟩,
    [.range (.anyOf [.inScheme ⟨"http://n.example/places"⟩, .embeds ⟨"Entry"⟩])]⟩

def noteType : ResourceType :=
  ⟨⟨"Note"⟩, [.hasType ⟨"http://n.example/Note"⟩, .subclassOf [⟨"Entry"⟩]], [aboutAttribute]⟩

def notes : Profile := ⟨[noteType, entryType]⟩

theorem build_notes : Profile.build none noteDeclarations = .ok notes := by
  decide +kernel

end GraphAccess
