import GraphAccess.Proofs.Retrieval.Leaves

namespace GraphAccess

open Sparql

namespace Text

theorem infix_of_mem_statements {s piece : String} (h : piece ∈ statements s) :
    piece.toList <:+: s.toList := by
  obtain ⟨cs, hcs, rfl⟩ := List.mem_map.mp h
  have joined : cs <:+: statementEnd.intercalate (cutStatements s.toList) :=
    infix_intercalate (List.mem_filter.mp hcs).1
  rw [intercalate_cutStatements] at joined
  simpa using joined

theorem infix_braced (s : String) : s.toList <:+: (braced s).toList :=
  ⟨['{', ' '], [' ', '}'], (toList_braced s).symm⟩

end Text

theorem Pattern.infix_sequence (separator : Separator) {parts : List Pattern} {part : Pattern}
    (h : part ∈ parts) : part.text.toList <:+: (sequence separator parts).text.toList := by
  rw [text_sequence, String.toList_intercalate]
  exact infix_intercalate (List.mem_map.mpr ⟨_, List.mem_map.mpr ⟨part, h, rfl⟩, rfl⟩)

/-- The statements that the alternative retrieves stand in what it demands. -/
def Alternative.Matched (a : Alternative) : Prop :=
  ∀ piece ∈ Text.statements a.text.template, piece.toList <:+: a.text.condition.toList

namespace Alternative

theorem matched_of_infix {a : Alternative}
    (h : a.text.template.toList <:+: a.text.condition.toList) : a.Matched :=
  fun _ hpiece => (Text.infix_of_mem_statements hpiece).trans h

/-- Statements come from one of the alternatives each, whose condition is put into a group. -/
theorem matched_merge {as : List Alternative} (h : ∀ a ∈ as, a.Matched) : (merge as).Matched := by
  intro piece hpiece
  rw [text_merge, Text.statements_intercalate, List.flatMap_map] at hpiece
  obtain ⟨a, ha, hpiece⟩ := List.mem_flatMap.mp hpiece
  have demanded : piece.toList <:+: (Text.braced a.text.condition).toList :=
    (h a ha piece hpiece).trans (Text.infix_braced _)
  have group : Pattern.group a.condition ∈ as.map fun a => .group a.condition :=
    List.mem_map.mpr ⟨a, ha, rfl⟩
  have joined : (Pattern.group a.condition).text.toList <:+: (merge as).condition.text.toList :=
    Pattern.infix_sequence .lineBreak group
  exact demanded.trans joined

end Alternative

section
variable {p : Profile} {settings : Settings} {v : Variable}

/-- The one RDF type of an embedded type is demanded by one of its rules. -/
theorem Originates.matched {rule : Rule} {a : Alternative}
    (h : Originates p settings v rule a) : a.Matched := by
  induction h with
  | instanceOf | inScheme => exact Alternative.matched_of_infix List.infix_rfl
  | @embeds t type condition ht types membership =>
    rw [Profile.membership_eq] at membership
    obtain ⟨parts, hparts, rfl⟩ := map_eq_ok_iff.mp membership
    obtain ⟨part, hpart, compiled⟩ :=
      exists_mem_of_mapM hparts (ResourceType.hasType_mem_of_rdfTypes types)
    cases compiled
    exact Alternative.matched_of_infix (Pattern.infix_sequence .dot hpart)
  | merge _ ih => exact Alternative.matched_merge ih

/-- The condition for embedded values is the pattern that selects them. -/
theorem Attribute.embedded_of_alternatives {a : Attribute} {as : List Alternative}
    (one : rangeCount a.rules ≤ 1) (h : a.alternatives p settings = .ok as) {id : TypeId}
    (range : a.range? = some (.embeds id)) :
    ∃ f s, as = [f] ∧ p.embeddedSelection a = .ok s ∧ f.condition = s.pattern := by
  have compiled := Attribute.alternatives_of_range range one h
  rw [Rule.alternatives] at compiled
  obtain ⟨f, embedded, rfl⟩ := map_eq_ok_iff.mp compiled
  obtain ⟨t, type, condition, found, _, membership, rfl⟩ := of_embeddedAlternative embedded
  have type? : p.embeddedType? a = some t := by rw [Profile.embeddedType?, range]; exact found
  refine ⟨_, ⟨a.valueVariable, t.id, condition⟩, rfl, ?_, rfl⟩
  rw [Profile.embeddedSelection, type?]
  exact map_eq_ok_iff.mpr ⟨condition, membership, rfl⟩

end

/-- Whatever the order in which the types are looked at, and however the range of an attribute
nests: the statements that an alternative retrieves stand in the text of its condition; and if the
range embeds a type at once, there is one alternative, and its condition is the text that selects
the embedded values. -/
theorem Attribute.template_matched {order : List ResourceType → List ResourceType}
    {base : Option String} {ds : List TypeDeclaration} {p : Profile} {settings : Settings}
    {t : ResourceType} {a : Attribute} {as : List Alternative}
    (reorders : ∀ ts, (order ts).Perm ts) (built : Profile.buildIn order base ds = .ok p)
    (ht : t ∈ p.hierarchy) (ha : a ∈ t.attributes) (h : a.alternatives p settings = .ok as) :
    (∀ f ∈ as, ∀ piece ∈ Text.statements f.text.template,
      piece.toList <:+: f.text.condition.toList) ∧
      ∀ id, a.range? = some (.embeds id) →
        ∃ f s, as = [f] ∧ p.embeddedSelection a = .ok s ∧
          f.text.condition = s.pattern.text := by
  constructor
  · intro f hf
    obtain ⟨_, _, originates⟩ := originates_of_attribute h f hf
    exact originates.matched
  · intro id range
    have one : rangeCount a.rules ≤ 1 := (Profile.attribute_of_buildIn reorders built ht ha).2.1
    obtain ⟨f, s, alone, selection, same⟩ := Attribute.embedded_of_alternatives one h range
    exact ⟨f, s, alone, selection, congrArg Pattern.text same⟩

/-- The place of a concert has to be a hall of the scheme, and its RDF type is retrieved; the
alternatives for what concerts are about retrieve nothing else than they demand either. -/
theorem concerts_retrieve_what_is_matched :
    (∀ ts : List ResourceType, ts.reverse.Perm ts) ∧
      Profile.buildIn List.reverse none concertDeclarations = .ok concerts ∧
      concertType ∈ concerts.hierarchy ∧ themeAttribute ∈ concertType.attributes ∧
      placeAttribute ∈ concertType.attributes ∧
      (∃ as, themeAttribute.alternatives concerts .default = .ok as ∧ ∀ f ∈ as, f.Matched) ∧
      ∃ f s, placeAttribute.alternatives concerts .default = .ok [f] ∧
        "?place a <http://c.example/Hall>".toList <:+: f.text.condition.toList ∧
        concerts.embeddedSelection placeAttribute = .ok s ∧
        f.text.condition = s.pattern.text := by
  have reorders : ∀ ts : List ResourceType, ts.reverse.Perm ts := List.reverse_perm
  have concert : concertType ∈ concerts.hierarchy := List.mem_cons_self
  have theme : themeAttribute ∈ concertType.attributes := List.mem_cons_self
  have place : placeAttribute ∈ concertType.attributes := List.mem_cons_of_mem _ (by simp)
  obtain ⟨as, has⟩ : ∃ as, themeAttribute.alternatives concerts .default = .ok as := ⟨_, rfl⟩
  have matched := (Attribute.template_matched reorders build_concerts concert theme has).1
  obtain ⟨f, hf, listed⟩ : ∃ f, placeAttribute.alternatives concerts .default = .ok [f] ∧
      "?place a <http://c.example/Hall>" ∈ Text.statements f.text.template :=
    ⟨_, rfl, by decide +kernel⟩
  obtain ⟨pieces, embedded⟩ :=
    Attribute.template_matched reorders build_concerts concert place hf
  have stands := pieces f (List.mem_singleton_self f) _ listed
  obtain ⟨g, s, alone, selection, same⟩ := embedded ⟨"Hall"⟩ rfl
  obtain rfl : f = g := List.singleton_inj.mp alone
  exact ⟨reorders, build_concerts, concert, theme, place, ⟨as, has, matched⟩, f, s, hf, stands,
    selection, same⟩

end GraphAccess
