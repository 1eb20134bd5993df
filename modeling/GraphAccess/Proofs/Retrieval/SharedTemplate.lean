import GraphAccess.Proofs.Retrieval.Readable

namespace GraphAccess

open Sparql

/-- The variables of the triple. -/
def TriplePattern.mentions (t : TriplePattern) : List Variable :=
  match t.object with
  | .var w => [t.subject, w]
  | .iri _ => [t.subject]

/-- For a value that only matches a condition, constructing the triple asserts nothing new: the
condition demands it, or it mentions a variable that has no term then. -/
def Covers (condition : List TriplePattern) (v : Variable) (t : TriplePattern) : Prop :=
  t ∈ condition ∨ ∃ w ∈ t.mentions, w ≠ v ∧ ∀ u ∈ condition, w ∉ u.mentions

/-- The triple says of the variable's value that it has a fixed object, or binds its type to `w`. -/
def TriplePattern.About (v w : Variable) (t : TriplePattern) : Prop :=
  t = ⟨v, .isA, .var w⟩ ∨ ∃ verb iri, t = ⟨v, verb, .iri iri⟩

theorem TriplePattern.eq_of_mem_mentions {v w u : Variable} {t : TriplePattern}
    (about : t.About v w) (hu : u ∈ t.mentions) (other : u ≠ v) :
    t = ⟨v, .isA, .var w⟩ ∧ u = w := by
  rcases about with rfl | ⟨verb, iri, rfl⟩
  · simpa [mentions, other] using hu
  · simp [mentions, other] at hu

/-- Among triples about one value, only those without a variable of their own may be left out. -/
theorem covers_iff_of_about {v w : Variable} {condition : List TriplePattern}
    (about : ∀ u ∈ condition, u.About v w) {t : TriplePattern} (ht : t.About v w) :
    Covers condition v t ↔ ((∀ u ∈ t.mentions, u = v) → t ∈ condition) := by
  constructor
  · rintro (demanded | ⟨u, hu, other, _⟩) own
    · exact demanded
    · exact absurd (own u hu) other
  · intro demanded
    by_cases own : ∀ u ∈ t.mentions, u = v
    · exact .inl (demanded own)
    · obtain ⟨u, hu, other⟩ : ∃ u ∈ t.mentions, u ≠ v := by simpa using own
      obtain ⟨rfl, rfl⟩ := TriplePattern.eq_of_mem_mentions ht hu other
      -- A condition can only bind the type's variable by the very same triple.
      by_cases bound : ∃ c ∈ condition, u ∈ c.mentions
      · obtain ⟨c, hc, huc⟩ := bound
        obtain ⟨rfl, _⟩ := TriplePattern.eq_of_mem_mentions (about c hc) huc other
        exact .inl hc
      · exact .inr ⟨u, hu, other, fun c hc huc => bound ⟨c, hc, huc⟩⟩

section
variable {p : Profile} {settings : Settings} {v w : Variable}

theorem about_of_sequence {α : Type} {as : List α} {parts : List Pattern} (separator : Separator)
    (h : List.Forall₂ (fun _ part => ∀ t ∈ part.triples, t.About v w) as parts) :
    ∀ t ∈ (Pattern.sequence separator parts).triples, t.About v w := by
  intro t ht
  rw [Pattern.triples_sequence] at ht
  obtain ⟨part, hpart, ht⟩ := List.mem_flatMap.mp ht
  obtain ⟨_, _, about⟩ := exists_mem_of_forall₂ h hpart
  exact about t ht

theorem about_of_ruleMembership (arranged : Hierarchy.Arranged p.hierarchy) {rule : Rule}
    {pattern : Pattern} (h : p.ruleMembership v rule = .ok pattern) :
    ∀ t ∈ pattern.triples, t.About v w := by
  refine Profile.ruleMembership_induction arranged
    (motive := fun _ pattern => ∀ t ∈ pattern.triples, t.About v w) ?_ ?_ ?_ ?_ ?_ h
  · intro type
    simp [Pattern.triples, TriplePattern.About]
  · intro resource
    simp [Pattern.triples]
  · intro scheme
    simp [Pattern.triples, TriplePattern.About]
  · intro rules parts hparts
    exact about_of_sequence .dot hparts
  · intro ids groups hgroups
    apply about_of_sequence .dot
    apply hgroups.imp
    rintro id group ⟨t, parts, _, hparts, rfl⟩
    exact about_of_sequence .dot hparts

/-- What an alternative retrieves and what it demands is about the value. -/
structure Alternative.About (v w : Variable) (a : Alternative) : Prop where
  template : ∀ t ∈ a.template.triples, t.About v w
  condition : ∀ t ∈ a.condition.triples, t.About v w

theorem Alternative.about_ofTriple {t : TriplePattern} (h : t.About v w) :
    (ofTriple t).About v w := by
  constructor <;> simpa [ofTriple, Pattern.triples] using h

theorem Alternative.about_merge {as : List Alternative} (h : ∀ a ∈ as, a.About v w) :
    (merge as).About v w := by
  constructor
  · intro t ht
    rw [template_merge_triples] at ht
    obtain ⟨a, ha, ht⟩ := List.mem_flatMap.mp ht
    exact (h a ha).template t ht
  · intro t ht
    rw [condition_merge_triples] at ht
    obtain ⟨a, ha, ht⟩ := List.mem_flatMap.mp ht
    exact (h a ha).condition t ht

theorem Originates.about (arranged : Hierarchy.Arranged p.hierarchy) {rule : Rule}
    {a : Alternative} (h : Originates p settings v rule a) :
    a.About v ⟨v.name ++ settings.typeSuffix⟩ := by
  induction h with
  | instanceOf => exact Alternative.about_ofTriple (.inl rfl)
  | embeds _ _ membership =>
    obtain ⟨parts, hparts, rfl⟩ :=
      Profile.parts_of_membership (about_of_ruleMembership arranged) membership
    exact ⟨by simp [Pattern.triples, TriplePattern.About], about_of_sequence .dot hparts⟩
  | inScheme => exact Alternative.about_ofTriple (.inr ⟨_, _, rfl⟩)
  | merge _ ih => exact Alternative.about_merge ih

end

/-- For a value that only matches the alternative `g` of an attribute, constructing the triples of
the alternative `f` asserts nothing new exactly if `g` demands those of them that mention no other
variable. Both are read from the texts, if these can be read. -/
theorem shared_template_covers_iff {order : List ResourceType → List ResourceType}
    {base : Option String} {ds : List TypeDeclaration} {p : Profile} {settings : Settings}
    {t : ResourceType} {a : Attribute} {as : List Alternative}
    (reorders : ∀ ts, (order ts).Perm ts) (built : Profile.buildIn order base ds = .ok p)
    (ht : t ∈ p.hierarchy) (ha : a ∈ t.attributes)
    (h : a.alternatives p settings = .ok as) :
    (∀ f ∈ as, ∀ g ∈ as,
      (∀ u ∈ f.template.triples, Covers g.condition.triples a.valueVariable u) ↔
        ∀ u ∈ f.template.triples,
          (∀ w ∈ u.mentions, w = a.valueVariable) → u ∈ g.condition.triples) ∧
      (p.isWellFormed = true → ∀ f ∈ as,
        readTriples f.text.template = some f.template.triples ∧
          readTriples f.text.condition = some f.condition.triples) := by
  constructor
  · intro f hf g hg
    have arranged := Profile.arranged_of_buildIn built
    obtain ⟨_, _, fromF⟩ := originates_of_attribute h f hf
    obtain ⟨_, _, fromG⟩ := originates_of_attribute h g hg
    have aboutF := (fromF.about arranged).template
    have aboutG := (fromG.about arranged).condition
    exact forall₂_congr fun u hu => covers_iff_of_about aboutG (aboutF u hu)
  · intro wellFormed f hf
    have readable :=
      Attribute.readable_of_alternatives reorders built wellFormed ht ha h f hf
    exact ⟨(readable.template.readable readable.triples).readTriples_text,
      readable.condition.readTriples_text⟩

/-- What a note is about becomes a place if it is an entry. -/
theorem about_entry_becomes_place :
    ∃ f g, aboutAttribute.alternatives notes .default = .ok [f, g] ∧
      readTriples f.text.template = some [⟨⟨"about"⟩, .predicate Vocabulary.skosInScheme,
        .iri ⟨"http://n.example/places"⟩⟩] ∧
      ∃ demanded, readTriples g.text.condition = some demanded ∧
        ¬Covers demanded ⟨"about"⟩ ⟨⟨"about"⟩, .predicate Vocabulary.skosInScheme,
          .iri ⟨"http://n.example/places"⟩⟩ := by
  obtain ⟨f, g, alternatives, hf, hg⟩ : ∃ f g,
      aboutAttribute.alternatives notes .default = .ok [f, g] ∧
      f.template.triples = [⟨⟨"about"⟩, .predicate Vocabulary.skosInScheme,
        .iri ⟨"http://n.example/places"⟩⟩] ∧
      g.condition.triples = [⟨⟨"about"⟩, .isA, .iri ⟨"http://n.example/Entry"⟩⟩,
        ⟨⟨"about"⟩, .predicate Vocabulary.skosInScheme, .iri ⟨"http://n.example/list"⟩⟩] :=
    ⟨_, _, rfl, rfl, rfl⟩
  obtain ⟨covers, reads⟩ :=
    shared_template_covers_iff List.Perm.refl build_notes List.mem_cons_self
      (List.mem_singleton.mpr rfl) alternatives
  have readF := (reads (by decide) f (by simp)).1
  have readG := (reads (by decide) g (by simp)).2
  rw [hf] at readF
  refine ⟨f, g, alternatives, readF, _, readG, fun covered => ?_⟩
  have all : ∀ u ∈ f.template.triples, Covers g.condition.triples ⟨"about"⟩ u := by
    rw [hf]
    simpa using covered
  have demanded := (covers f (by simp) g (by simp)).mp all
  have place := demanded _ (by rw [hf]; exact List.mem_singleton.mpr rfl) (by decide)
  rw [hg] at place
  exact absurd place (by decide)

end GraphAccess
