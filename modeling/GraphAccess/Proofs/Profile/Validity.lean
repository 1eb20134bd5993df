import GraphAccess.Proofs.Profile.Built
import GraphAccess.Proofs.Profile.Cycle

namespace GraphAccess

namespace Rule

/-- A rule names a type, at whatever depth. -/
def Mentions (rule : Rule) (id : TypeId) : Prop :=
  ∃ sub : Rule, sub.Within rule ∧
    (sub = .instanceOf id ∨ sub = .embeds id ∨ ∃ ids, sub = .subclassOf ids ∧ id ∈ ids)

theorem mem_references_iff {rule : Rule} {id : TypeId} :
    id ∈ rule.references ↔ rule.Mentions id := by
  simp only [references, List.mem_flatMap, mem_subrules_iff, Mentions]
  constructor
  · rintro ⟨sub, within, named⟩
    refine ⟨sub, within, ?_⟩
    cases sub with
    | instanceOf type => exact .inl (by rw [List.mem_singleton.mp named])
    | embeds type => exact .inr (.inl (by rw [List.mem_singleton.mp named]))
    | subclassOf ids => exact .inr (.inr ⟨ids, rfl, named⟩)
    | _ => cases named
  · rintro ⟨sub, within, rfl | rfl | ⟨ids, rfl, named⟩⟩
    · exact ⟨_, within, List.mem_singleton_self id⟩
    · exact ⟨_, within, List.mem_singleton_self id⟩
    · exact ⟨_, within, named⟩

theorem isSome_range?_iff {rule : Rule} : rule.range?.isSome = true ↔ rule.kind = .range := by
  cases rule <;> simp [range?, kind]

end Rule

theorem rangeCount_eq_zero_iff {rules : List Rule} :
    rangeCount rules = 0 ↔ ∀ rule ∈ rules, rule.kind ≠ .range := by
  simp only [rangeCount, List.countP_eq_zero, Rule.isSome_range?_iff, ne_eq]

theorem rangeCount_le_one_iff {rules : List Rule} :
    rangeCount rules ≤ 1 ↔ rules.Pairwise fun r s => ¬(r.kind = .range ∧ s.kind = .range) := by
  induction rules with
  | nil => simp [rangeCount]
  | cons rule rules ih =>
    have count : rangeCount (rule :: rules) =
        rangeCount rules + if rule.kind = .range then 1 else 0 := by
      simp only [rangeCount, List.countP_cons, Rule.isSome_range?_iff]
    rw [count, List.pairwise_cons, ← ih]
    by_cases range : rule.kind = .range
    · have none_else : rangeCount rules = 0 ↔ ∀ rule ∈ rules, rule.kind ≠ .range :=
        rangeCount_eq_zero_iff
      simp only [range, if_true, true_and]
      constructor
      · intro h
        exact ⟨none_else.mp (by omega), by omega⟩
      · rintro ⟨h, _⟩
        have := none_else.mpr h
        omega
    · simp [range]

/-- What building demands of an attribute on its own. -/
structure AttributeDeclaration.Valid (base : Option Reference) (d : AttributeDeclaration) :
    Prop where
  name : Variable.isName d.id.name = true
  ranges : d.rules.Pairwise fun r s => ¬(r.kind = .range ∧ s.kind = .range)
  predicate : ∃ predicate, readPredicate base d.predicate = .ok predicate

/-- The attribute is what has been declared. -/
structure AttributeDeclaration.Makes (base : Option Reference) (owner : TypeId)
    (d : AttributeDeclaration) (a : Attribute) : Prop where
  id : a.id = d.id
  owner : a.owner = owner
  predicate : readPredicate base d.predicate = .ok a.predicate
  rules : a.rules = d.rules

namespace AttributeDeclaration

variable {base : Option Reference} {owner : TypeId} {d : AttributeDeclaration}

theorem toAttribute_ok_iff_makes {a : Attribute} :
    d.toAttribute base owner = .ok a ↔ d.Valid base ∧ d.Makes base owner a := by
  rw [toAttribute_eq_ok_iff, rangeCount_le_one_iff]
  constructor
  · rintro ⟨name, ranges, predicate, read, rfl⟩
    exact ⟨⟨name, ranges, predicate, read⟩, rfl, rfl, read, rfl⟩
  · rintro ⟨⟨name, ranges, _⟩, id, owner, read, rules⟩
    refine ⟨name, ranges, a.predicate, read, ?_⟩
    rw [← id, ← owner, ← rules]

theorem exists_toAttribute_iff : (∃ a, d.toAttribute base owner = .ok a) ↔ d.Valid base := by
  constructor
  · rintro ⟨a, ok⟩
    exact (toAttribute_ok_iff_makes.mp ok).1
  · intro valid
    obtain ⟨predicate, read⟩ := valid.predicate
    exact ⟨⟨d.id, owner, predicate, d.rules⟩,
      toAttribute_ok_iff_makes.mpr ⟨valid, rfl, rfl, read, rfl⟩⟩

theorem Makes.unique {a b : Attribute} (ha : d.Makes base owner a) (hb : d.Makes base owner b) :
    a = b := by
  have predicates : a.predicate = b.predicate :=
    Except.ok.inj (ha.predicate.symm.trans hb.predicate)
  cases a
  cases b
  cases ha.id.trans hb.id.symm
  cases ha.owner.trans hb.owner.symm
  cases ha.rules.trans hb.rules.symm
  cases predicates
  rfl

end AttributeDeclaration

/-- What building demands of a type on its own. -/
structure TypeDeclaration.Valid (base : Option Reference) (d : TypeDeclaration) : Prop where
  noRange : ∀ rule ∈ d.rules, rule.kind ≠ .range
  attributes : ∀ a ∈ d.attributes, a.Valid base
  distinct : (d.attributes.map AttributeDeclaration.id).Nodup

/-- The type is what has been declared, its attributes in ascending order. -/
structure TypeDeclaration.Makes (base : Option Reference) (d : TypeDeclaration)
    (t : ResourceType) : Prop where
  id : t.id = d.id
  rules : t.rules = d.rules
  ascending : StrictlyAscending Attribute.id t.attributes
  attributes : ∀ a, a ∈ t.attributes ↔ ∃ e ∈ d.attributes, e.Makes base d.id a

/-- A rule of the type or of one of its attributes names a type, at whatever depth. -/
def TypeDeclaration.Mentions (d : TypeDeclaration) (id : TypeId) : Prop :=
  ∃ rule : Rule, (rule ∈ d.rules ∨ ∃ a ∈ d.attributes, rule ∈ a.rules) ∧ rule.Mentions id

namespace TypeDeclaration

variable {base : Option Reference} {d : TypeDeclaration} {t : ResourceType}

theorem exists_toType_iff : (∃ t, d.toType base = .ok t) ↔ d.Valid base := by
  have attributes :
      (∃ as, d.attributes.mapM (AttributeDeclaration.toAttribute base d.id) = .ok as) ↔
        ∀ a ∈ d.attributes, a.Valid base := by
    simp only [exists_mapM_iff, AttributeDeclaration.exists_toAttribute_iff]
  constructor
  · rintro ⟨t, ok⟩
    obtain ⟨none_range, distinct, as, traversed, _⟩ := toType_eq_ok_iff.mp ok
    exact ⟨rangeCount_eq_zero_iff.mp none_range, attributes.mp ⟨as, traversed⟩, distinct⟩
  · rintro ⟨noRange, valid, distinct⟩
    obtain ⟨as, traversed⟩ := attributes.mpr valid
    have none_range := rangeCount_eq_zero_iff.mpr noRange
    exact ⟨_, toType_eq_ok_iff.mpr ⟨none_range, distinct, as, traversed, rfl⟩⟩

theorem makes_of_toType (ok : d.toType base = .ok t) : d.Makes base t := by
  obtain ⟨_, distinct, as, traversed, rfl⟩ := toType_eq_ok_iff.mp ok
  have ids : as.map Attribute.id = d.attributes.map AttributeDeclaration.id :=
    map_eq_of_mapM traversed fun e a h =>
      (AttributeDeclaration.toAttribute_ok_iff_makes.mp h).2.id
  have sorted_ids : ((sortBy Attribute.id as).map Attribute.id).Nodup := by
    rw [((sortBy_perm Attribute.id as).map Attribute.id).nodup_iff, ids]
    exact distinct
  refine ⟨rfl, rfl, strictlyAscending_of_nodup (ascending_sortBy Attribute.id as) sorted_ids, ?_⟩
  intro a
  rw [mem_sortBy]
  constructor
  · intro ha
    obtain ⟨e, he, read⟩ := exists_of_mapM traversed ha
    exact ⟨e, he, (AttributeDeclaration.toAttribute_ok_iff_makes.mp read).2⟩
  · rintro ⟨e, he, makes⟩
    obtain ⟨b, hb, read⟩ := exists_mem_of_mapM traversed he
    have same := makes.unique (AttributeDeclaration.toAttribute_ok_iff_makes.mp read).2
    exact same ▸ hb

theorem Makes.mem_references_iff (makes : d.Makes base t) (valid : d.Valid base) {id : TypeId} :
    id ∈ t.references ↔ d.Mentions id := by
  have attribute_rules (rule : Rule) :
      rule ∈ t.attributes.flatMap Attribute.rules ↔ ∃ a ∈ d.attributes, rule ∈ a.rules := by
    rw [List.mem_flatMap]
    constructor
    · rintro ⟨a, ha, hrule⟩
      obtain ⟨e, he, made⟩ := (makes.attributes a).mp ha
      exact ⟨e, he, made.rules ▸ hrule⟩
    · rintro ⟨e, he, hrule⟩
      obtain ⟨predicate, read⟩ := (valid.attributes e he).predicate
      exact ⟨⟨e.id, d.id, predicate, e.rules⟩,
        (makes.attributes _).mpr ⟨e, he, rfl, rfl, read, rfl⟩, hrule⟩
  simp only [ResourceType.references, List.mem_flatMap, List.mem_append, Rule.mem_references_iff,
    makes.rules, Mentions]
  simp only [← List.mem_flatMap, attribute_rules]

end TypeDeclaration

theorem danglingReference?_eq_none_iff {ts : List ResourceType} :
    danglingReference? ts = none ↔ ∀ t ∈ ts, ∀ id ∈ t.references, ∃ u ∈ ts, u.id = id := by
  have known (id : TypeId) :
      ¬(Hierarchy.find? ts id).isNone = true ↔ ∃ u ∈ ts, u.id = id := by
    rw [Option.isNone_iff_eq_none, Hierarchy.find?_eq_none_iff]
    simp
  simp only [danglingReference?, List.findSome?_eq_none_iff, Option.map_eq_none_iff,
    List.find?_eq_none, known]

/-- What building demands of declarations. -/
structure ValidDeclarations (base : Option Reference) (ds : List TypeDeclaration) : Prop where
  types : ∀ d ∈ ds, d.Valid base
  distinct : (ds.map TypeDeclaration.id).Nodup
  declared : ∀ d ∈ ds, ∀ id, d.Mentions id → id ∈ ds.map TypeDeclaration.id
  acyclic : ∀ id, ¬Hierarchy.OnCycle (ds.map fun d => (d.id, d.rules)) id

/-- What a profile says of the declarations that it has been built from. -/
structure Profile.Keeps (base : Option Reference) (ds : List TypeDeclaration) (p : Profile) :
    Prop where
  resolves : ∀ id, (∃ t, p.find? id = some t) ↔ id ∈ ds.map TypeDeclaration.id
  types : ∀ d ∈ ds, ∃ t, p.find? d.id = some t ∧ d.Makes base t
  listed : (p.hierarchy.map ResourceType.id).Perm (ds.map TypeDeclaration.id)

section Declared

variable {base : Option Reference} {ds : List TypeDeclaration} {ts : List ResourceType}

theorem exists_declaredTypes_iff :
    (∃ ts, declaredTypes base [] ds = .ok ts) ↔
      (∀ d ∈ ds, d.Valid base) ∧ (ds.map TypeDeclaration.id).Nodup := by
  simp only [declaredTypes_eq_ok_iff, exists_and_right, exists_mapM_iff,
    TypeDeclaration.exists_toType_iff]

theorem outline_of_declaredTypes (ok : declaredTypes base [] ds = .ok ts) :
    Hierarchy.outline ts = ds.map fun d => (d.id, d.rules) :=
  map_eq_of_mapM (declaredTypes_eq_ok_iff.mp ok).1 fun d t h => by
    have makes := TypeDeclaration.makes_of_toType h
    rw [makes.id, makes.rules]

theorem ids_of_declaredTypes (ok : declaredTypes base [] ds = .ok ts) :
    ts.map ResourceType.id = ds.map TypeDeclaration.id :=
  map_eq_of_mapM (declaredTypes_eq_ok_iff.mp ok).1 fun _ _ h =>
    (TypeDeclaration.makes_of_toType h).id

/-- The types have no dangling reference exactly if the declarations name declared types only. -/
theorem references_declared_iff (ok : declaredTypes base [] ds = .ok ts) :
    (∀ t ∈ ts, ∀ id ∈ t.references, ∃ u ∈ ts, u.id = id) ↔
      ∀ d ∈ ds, ∀ id, d.Mentions id → id ∈ ds.map TypeDeclaration.id := by
  have traversed := (declaredTypes_eq_ok_iff.mp ok).1
  have valid := (exists_declaredTypes_iff.mp ⟨ts, ok⟩).1
  simp only [← List.mem_map, ids_of_declaredTypes ok]
  constructor
  · intro h d hd id mentions
    obtain ⟨t, ht, made⟩ := exists_mem_of_mapM traversed hd
    have makes := TypeDeclaration.makes_of_toType made
    exact h t ht id ((makes.mem_references_iff (valid d hd)).mpr mentions)
  · intro h t ht id referenced
    obtain ⟨d, hd, made⟩ := exists_of_mapM traversed ht
    have makes := TypeDeclaration.makes_of_toType made
    exact h d hd id ((makes.mem_references_iff (valid d hd)).mp referenced)

end Declared

namespace Profile

variable {order : List ResourceType → List ResourceType} {base : Option String}
  {reference : Option Reference} {ds : List TypeDeclaration} {ts us : List ResourceType}
  {p : Profile}

/-- Types are made a profile exactly if they refer to each other only and lie on no cycle. The
order in which they are looked at does not matter. -/
theorem exists_ofTypes_iff (distinct : (ts.map ResourceType.id).Nodup) (perm : us.Perm ts) :
    (∃ p, ofTypes us = .ok p) ↔
      (∀ t ∈ ts, ∀ id ∈ t.references, ∃ u ∈ ts, u.id = id) ∧
        ∀ id, ¬Hierarchy.OnCycle (Hierarchy.outline ts) id := by
  have distinct : (us.map ResourceType.id).Nodup :=
    (perm.map ResourceType.id).nodup_iff.mpr distinct
  have outlines : (Hierarchy.outline us).Perm (Hierarchy.outline ts) := perm.map _
  simp only [ofTypes_eq_ok_iff, danglingReference?_eq_none_iff, perm.mem_iff, exists_and_left,
    ← Hierarchy.onCycle_of_perm outlines, ← Hierarchy.exists_arrange_iff distinct]
  refine and_congr_right' ⟨?_, ?_⟩
  · rintro ⟨p, ok⟩
    exact ⟨p.hierarchy, ok⟩
  · rintro ⟨arranged, ok⟩
    exact ⟨⟨arranged⟩, ok⟩

theorem keeps_of_ofTypes (declared : declaredTypes reference [] ds = .ok ts) (perm : us.Perm ts)
    (ok : ofTypes us = .ok p) : p.Keeps reference ds := by
  have traversed := (declaredTypes_eq_ok_iff.mp declared).1
  have ids := ids_of_declaredTypes declared
  have distinct : (us.map ResourceType.id).Nodup := by
    rw [(perm.map ResourceType.id).nodup_iff, ids]
    exact (declaredTypes_eq_ok_iff.mp declared).2
  have arranged := (ofTypes_eq_ok_iff.mp ok).2
  have same : p.hierarchy.Perm ts := (Hierarchy.perm_of_arrange distinct arranged).trans perm
  have finished := (Hierarchy.visited_of_arrange arranged).finished
  have found {t : ResourceType} (ht : t ∈ ts) : p.find? t.id = some t :=
    Hierarchy.find?_eq_some_of_mem finished.nodup (same.mem_iff.mpr ht)
  refine ⟨?_, ?_, ?_⟩
  · intro id
    rw [← ids, List.mem_map]
    constructor
    · rintro ⟨t, h⟩
      exact ⟨t, same.mem_iff.mp (mem_of_find? h), Hierarchy.id_of_find? h⟩
    · rintro ⟨t, ht, rfl⟩
      exact ⟨t, found ht⟩
  · intro d hd
    obtain ⟨t, ht, made⟩ := exists_mem_of_mapM traversed hd
    have makes := TypeDeclaration.makes_of_toType made
    exact ⟨t, makes.id ▸ found ht, makes⟩
  · exact ids ▸ same.map ResourceType.id

theorem keeps_of_buildIn (reorders : ∀ ts, (order ts).Perm ts)
    (built : buildIn order base ds = .ok p) :
    ∃ reference, readBase base = .ok reference ∧ p.Keeps reference ds := by
  obtain ⟨reference, ts, read, declared, made⟩ := buildIn_eq_ok_iff.mp built
  exact ⟨reference, read, keeps_of_ofTypes declared (reorders ts) made⟩

/-- What an id is resolved to is what has been declared of it. -/
theorem Keeps.exists_makes (keeps : p.Keeps reference ds) {id : TypeId} {t : ResourceType}
    (found : p.find? id = some t) : ∃ d ∈ ds, d.id = id ∧ d.Makes reference t := by
  obtain ⟨d, hd, rfl⟩ := List.mem_map.mp ((keeps.resolves id).mp ⟨t, found⟩)
  obtain ⟨u, found', makes⟩ := keeps.types d hd
  rw [found] at found'
  cases found'
  exact ⟨d, hd, rfl, makes⟩

/-- The types of a built profile refer to each other only. -/
theorem closed_of_buildIn (reorders : ∀ ts, (order ts).Perm ts)
    (built : buildIn order base ds = .ok p) {t : ResourceType} (ht : t ∈ p.hierarchy)
    {id : TypeId} (hid : id ∈ t.references) : ∃ u, p.find? id = some u := by
  obtain ⟨reference, ts, _, declared, made⟩ := buildIn_eq_ok_iff.mp built
  obtain ⟨dangling, arranged⟩ := ofTypes_eq_ok_iff.mp made
  have keeps : p.Keeps reference ds := keeps_of_ofTypes declared (reorders ts) made
  have listed : t ∈ order ts := Hierarchy.mem_of_arrange arranged ht
  obtain ⟨u, hu, rfl⟩ := danglingReference?_eq_none_iff.mp dangling t listed id hid
  have declaredId : u.id ∈ ds.map TypeDeclaration.id := by
    rw [← ids_of_declaredTypes declared]
    exact List.mem_map.mpr ⟨u, (reorders ts).mem_iff.mp hu, rfl⟩
  exact (keeps.resolves u.id).mpr declaredId

/-- Whatever the order in which the types are looked at, valid declarations and no others make a
profile, and the profile keeps what has been declared. -/
theorem buildIn_ok_iff_valid (reorders : ∀ ts, (order ts).Perm ts)
    (read : readBase base = .ok reference) (ds : List TypeDeclaration) :
    ((∃ p, buildIn order base ds = .ok p) ↔ ValidDeclarations reference ds) ∧
      ∀ p, buildIn order base ds = .ok p → p.Keeps reference ds := by
  have built (p : Profile) : buildIn order base ds = .ok p ↔
      ∃ ts, declaredTypes reference [] ds = .ok ts ∧ ofTypes (order ts) = .ok p := by
    rw [buildIn_eq_ok_iff]
    simp [read]
  have valid {ts : List ResourceType} (declared : declaredTypes reference [] ds = .ok ts) :
      (∃ p, ofTypes (order ts) = .ok p) ↔ ValidDeclarations reference ds := by
    obtain ⟨types, distinct⟩ := exists_declaredTypes_iff.mp ⟨ts, declared⟩
    rw [exists_ofTypes_iff (ids_of_declaredTypes declared ▸ distinct) (reorders ts),
      references_declared_iff declared, outline_of_declaredTypes declared]
    exact ⟨fun h => ⟨types, distinct, h.1, h.2⟩, fun h => ⟨h.declared, h.acyclic⟩⟩
  refine ⟨⟨?_, ?_⟩, ?_⟩
  · rintro ⟨p, ok⟩
    obtain ⟨ts, declared, made⟩ := (built p).mp ok
    exact (valid declared).mp ⟨p, made⟩
  · intro h
    obtain ⟨ts, declared⟩ := exists_declaredTypes_iff.mpr ⟨h.types, h.distinct⟩
    obtain ⟨p, made⟩ := (valid declared).mpr h
    exact ⟨p, (built p).mpr ⟨ts, declared, made⟩⟩
  · intro p ok
    obtain ⟨ts, declared, made⟩ := (built p).mp ok
    exact keeps_of_ofTypes declared (reorders ts) made

end Profile

/-- Two attributes in descending order, the second with a predicate relative to the base. -/
def libraryDeclarations : List TypeDeclaration :=
  [⟨⟨"Book"⟩, [.hasType ⟨"http://l.example/Book"⟩, .subclassOf [⟨"Work"⟩]],
    [⟨⟨"title"⟩, "http://l.example/title", [.range .literal, .maxCount 1]⟩,
      ⟨⟨"about"⟩, "about", [.range (.anyOf [.instanceOf ⟨"Book"⟩, .embeds ⟨"Work"⟩])]⟩]⟩,
    ⟨⟨"Work"⟩, [.hasType ⟨"http://l.example/Work"⟩], []⟩]

def library : Profile :=
  ⟨[⟨⟨"Book"⟩, [.hasType ⟨"http://l.example/Book"⟩, .subclassOf [⟨"Work"⟩]],
      [⟨⟨"about"⟩, ⟨"Book"⟩, ⟨"http://l.example/about"⟩,
          [.range (.anyOf [.instanceOf ⟨"Book"⟩, .embeds ⟨"Work"⟩])]⟩,
        ⟨⟨"title"⟩, ⟨"Book"⟩, ⟨"http://l.example/title"⟩, [.range .literal, .maxCount 1]⟩]⟩,
    ⟨⟨"Work"⟩, [.hasType ⟨"http://l.example/Work"⟩], []⟩]⟩

def libraryBase : Reference := ⟨"http:".toList, "//l.example".toList, "/".toList, [], []⟩

/-- Looked at from the last one on, the declared types are valid and kept. -/
theorem library_built_backwards :
    (∀ ts : List ResourceType, ts.reverse.Perm ts) ∧
      readBase (some "http://l.example/") = .ok (some libraryBase) ∧
      Profile.buildIn List.reverse (some "http://l.example/") libraryDeclarations = .ok library ∧
      ValidDeclarations (some libraryBase) libraryDeclarations ∧
      library.Keeps (some libraryBase) libraryDeclarations := by
  have reorders : ∀ ts : List ResourceType, ts.reverse.Perm ts := List.reverse_perm
  have read : readBase (some "http://l.example/") = .ok (some libraryBase) := by decide +kernel
  have built : Profile.buildIn List.reverse (some "http://l.example/") libraryDeclarations =
      .ok library := by
    decide +kernel
  have exact_build := Profile.buildIn_ok_iff_valid reorders read libraryDeclarations
  exact ⟨reorders, read, built, exact_build.1.mp ⟨library, built⟩, exact_build.2 library built⟩

end GraphAccess
