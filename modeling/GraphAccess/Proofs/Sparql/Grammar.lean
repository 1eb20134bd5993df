import GraphAccess.Proofs.Sparql.Group
import Mathlib.Data.List.Chain

namespace GraphAccess.Sparql

/-- What the grammar has names for. The names are those of the SPARQL grammar, except that `parts`
is all that may follow the first triples of a body. -/
inductive Nonterminal where
  | query | triplesBlock | groupBody | parts | notTriples | groupOrUnion
  deriving DecidableEq, Repr

/-- The token lists that are derived from a nonterminal. A body is
`TriplesBlock? ( GraphPatternNotTriples '.'? TriplesBlock? )*`, so that behind each part that is no
triple there is a body again. -/
inductive Derives : Nonterminal → List Token → Prop
  | query {ts us : List Token} (template : Derives .triplesBlock ts)
    (pattern : Derives .groupBody us) :
    Derives .query
      (.keyword .construct :: groupTokens ts ++ .keyword .condition :: groupTokens us)
  | triple (t : TriplePattern) : Derives .triplesBlock t.tokens
  | tripleDot (t : TriplePattern) : Derives .triplesBlock (t.tokens ++ [.dot])
  | triples (t : TriplePattern) {ts : List Token} (others : Derives .triplesBlock ts) :
    Derives .triplesBlock (t.tokens ++ .dot :: ts)
  | onlyParts {ts : List Token} (parts : Derives .parts ts) : Derives .groupBody ts
  | body {ts us : List Token} (triples : Derives .triplesBlock ts) (parts : Derives .parts us) :
    Derives .groupBody (ts ++ us)
  | noParts : Derives .parts []
  | part {ts us : List Token} (first : Derives .notTriples ts) (others : Derives .groupBody us) :
    Derives .parts (ts ++ us)
  | partDot {ts us : List Token} (first : Derives .notTriples ts)
    (others : Derives .groupBody us) : Derives .parts (ts ++ .dot :: us)
  | filter (v : Variable) (iri : Iri) : Derives .notTriples (equalsTokens v iri)
  | optional {ts : List Token} (body : Derives .groupBody ts) :
    Derives .notTriples (.keyword .optional :: groupTokens ts)
  | groupOrUnion {ts : List Token} (groups : Derives .groupOrUnion ts) : Derives .notTriples ts
  | group {ts : List Token} (body : Derives .groupBody ts) :
    Derives .groupOrUnion (groupTokens ts)
  | union {ts us : List Token} (body : Derives .groupBody ts)
    (others : Derives .groupOrUnion us) :
    Derives .groupOrUnion (groupTokens ts ++ .keyword .union :: us)

/-- Behind this token there has to be something before a dot. -/
def Token.Opens (t : Token) : Prop := t = .dot ∨ t = .openBrace

/-- No dot follows another dot or an opening brace. -/
def DotsApart (ts : List Token) : Prop := ts.IsChain fun t u => u = .dot → ¬t.Opens

section
variable {ts us : List Token}

theorem DotsApart.of_infix (h : DotsApart us) (inside : ts <:+: us) : DotsApart ts :=
  List.IsChain.infix h inside

theorem not_dotsApart_dot {t : Token} (opens : t.Opens) (ts : List Token) :
    ¬DotsApart (t :: .dot :: ts) :=
  fun h => (List.isChain_cons_cons.mp h).1 rfl opens

/-- The tokens can follow whatever a dot cannot follow, and there is no dot too many in them. -/
structure Starts (ts : List Token) : Prop where
  apart : DotsApart ts
  start : ts.head? ≠ some .dot

/-- A dot can follow the tokens. -/
def Stops (ts : List Token) : Prop := ∃ t ∈ ts.getLast?, ¬t.Opens

theorem Stops.append (h : Stops us) (ts : List Token) : Stops (ts ++ us) := by
  obtain ⟨last, hlast, closed⟩ := h
  rw [Option.mem_def] at hlast
  exact ⟨last, by rw [Option.mem_def, List.getLast?_append, hlast, Option.some_or], closed⟩

theorem stops_group (body : List Token) : Stops (groupTokens body) := by
  have closed : Stops [.closeBrace] := ⟨.closeBrace, rfl, by simp [Token.Opens]⟩
  exact closed.append (.openBrace :: body)

namespace Starts

theorem nil : Starts [] := ⟨.nil, by simp⟩

theorem singleton {t : Token} (other : t ≠ .dot) : Starts [t] :=
  ⟨List.isChain_singleton t, by simpa using other⟩

theorem append (hts : Starts ts) (hus : Starts us) : Starts (ts ++ us) where
  apart := by
    refine List.IsChain.append hts.apart hus.apart fun t _ u hu dot => ?_
    rw [Option.mem_def, dot] at hu
    exact absurd hu hus.start
  start := by
    intro dot
    rw [List.head?_append, Option.or_eq_some_iff] at dot
    exact dot.elim hts.start fun h => hus.start h.2

theorem cons {t : Token} (other : t ≠ .dot) (hts : Starts ts) : Starts (t :: ts) :=
  (singleton other).append hts

theorem append_dot (hts : Starts ts) (stop : Stops ts) (hus : Starts us) :
    Starts (ts ++ .dot :: us) := by
  obtain ⟨last, hlast, closed⟩ := stop
  have behind : DotsApart (.dot :: us) := by
    refine List.isChain_cons.mpr ⟨fun u hu dot => ?_, hus.apart⟩
    rw [Option.mem_def, dot] at hu
    exact absurd hu hus.start
  constructor
  · refine List.IsChain.append hts.apart behind fun t ht _ _ _ => ?_
    rw [hlast] at ht
    exact Option.some.inj ht ▸ closed
  · cases ts with
    | nil => cases hlast
    | cons t ts => exact hts.start

theorem group (hts : Starts ts) : Starts (groupTokens ts) :=
  (hts.cons (by simp)).append (singleton (by simp))

theorem triple (t : TriplePattern) : Starts t.tokens ∧ Stops t.tokens := by
  obtain ⟨subject, verb, object⟩ := t
  have verb : verb.token ≠ .dot := by cases verb <;> simp [Verb.token]
  have object : object.token ≠ .dot ∧ ¬object.token.Opens := by
    cases object <;> simp [PatternObject.token, Token.Opens]
  have tokens := ((singleton object.1).cons verb).cons (t := .var subject) (by simp)
  exact ⟨tokens, _, rfl, object.2⟩

theorem filter (v : Variable) (iri : Iri) :
    Starts (equalsTokens v iri) ∧ Stops (equalsTokens v iri) := by
  have closed : Starts [.closeParen] := singleton (by simp)
  have equation := ((closed.cons (t := .iri iri) (by simp)).cons (t := .equals) (by simp)).cons
    (t := .var v) (by simp)
  have tokens := (equation.cons (t := .openParen) (by simp)).cons (t := .keyword .filter) (by simp)
  exact ⟨tokens, .closeParen, rfl, by simp [Token.Opens]⟩

end Starts

/-- What is kept by each production: no dot comes first, and where a dot may follow, nothing that
has to be followed by something else comes last. -/
theorem starts_of_derives {n : Nonterminal} (h : Derives n ts) :
    Starts ts ∧ (n = .notTriples ∨ n = .groupOrUnion → Stops ts) := by
  induction h with
  | query _ _ template pattern =>
    have construct := template.1.group.cons (t := .keyword .construct) (by simp)
    have condition := pattern.1.group.cons (t := .keyword .condition) (by simp)
    exact ⟨construct.append condition, by simp⟩
  | triple t => exact ⟨(Starts.triple t).1, by simp⟩
  | tripleDot t =>
    obtain ⟨start, stop⟩ := Starts.triple t
    exact ⟨start.append_dot stop .nil, by simp⟩
  | triples t _ others =>
    obtain ⟨start, stop⟩ := Starts.triple t
    exact ⟨start.append_dot stop others.1, by simp⟩
  | onlyParts _ parts => exact ⟨parts.1, by simp⟩
  | body _ _ triples parts => exact ⟨triples.1.append parts.1, by simp⟩
  | noParts => exact ⟨.nil, by simp⟩
  | part _ _ first others => exact ⟨first.1.append others.1, by simp⟩
  | partDot _ _ first others => exact ⟨first.1.append_dot (first.2 (.inl rfl)) others.1, by simp⟩
  | filter v iri =>
    obtain ⟨start, stop⟩ := Starts.filter v iri
    exact ⟨start, fun _ => stop⟩
  | optional _ body =>
    exact ⟨body.1.group.cons (by simp), fun _ => (stops_group _).append [.keyword .optional]⟩
  | groupOrUnion _ groups => exact ⟨groups.1, fun _ => groups.2 (.inr rfl)⟩
  | group _ body => exact ⟨body.1.group, fun _ => stops_group _⟩
  | union _ _ body others =>
    have branches := others.1.cons (t := .keyword .union) (by simp)
    have stop := (others.2 (.inr rfl)).append [.keyword .union]
    exact ⟨body.1.group.append branches, fun _ => stop.append (groupTokens _)⟩

theorem dotsApart_of_derives {n : Nonterminal} (h : Derives n ts) : DotsApart ts :=
  (starts_of_derives h).1.apart

/-- A part of a group's body, which may stand alone and in front of others behind a dot. -/
structure Part (ts : List Token) : Prop where
  alone : Derives .groupBody ts
  before : ∀ us, Derives .groupBody us → Derives .groupBody (ts ++ .dot :: us)

theorem Derives.emptyBody : Derives .groupBody [] := .onlyParts .noParts

theorem part_triple (t : TriplePattern) : Part t.tokens := by
  constructor
  · simpa using Derives.body (.triple t) .noParts
  · intro us h
    cases h with
    | onlyParts parts => simpa using Derives.body (.tripleDot t) parts
    | body triples parts => simpa using Derives.body (.triples t triples) parts

theorem part_of_notTriples (h : Derives .notTriples ts) : Part ts := by
  constructor
  · simpa using Derives.onlyParts (.part h .emptyBody)
  · intro us others
    exact .onlyParts (.partDot h others)

/-- Parts with dots between them are a part again. -/
theorem part_intercalate {tss : List (List Token)} (nonempty : tss ≠ [])
    (parts : ∀ ts ∈ tss, Part ts) : Part ([.dot].intercalate tss) := by
  induction tss with
  | nil => exact absurd rfl nonempty
  | cons ts tss ih =>
    obtain ⟨first, others⟩ := List.forall_mem_cons.mp parts
    cases tss with
    | nil => simpa using first
    | cons us tss =>
      have tail := ih (by simp) others
      rw [List.intercalate_cons_cons, List.append_assoc]
      constructor
      · exact first.before _ tail.alone
      · intro vs h
        rw [List.append_assoc]
        exact first.before _ (tail.before vs h)

/-- Parts with dots between them are a group's body. The last of them may be any body. -/
theorem body_intercalate {tss : List (List Token)} (parts : ∀ ts ∈ tss.dropLast, Part ts)
    (last : ∀ ts ∈ tss.getLast?, Derives .groupBody ts) :
    Derives .groupBody ([.dot].intercalate tss) := by
  induction tss with
  | nil => exact .emptyBody
  | cons ts tss ih =>
    cases tss with
    | nil => simpa using last ts rfl
    | cons us tss =>
      rw [List.dropLast_cons_cons] at parts
      obtain ⟨first, others⟩ := List.forall_mem_cons.mp parts
      have tail := ih others (by simpa using last)
      rw [List.intercalate_cons_cons, List.append_assoc]
      exact first.before _ tail

theorem derives_triples {t : TriplePattern} {triples : List TriplePattern} :
    Derives .triplesBlock
      ([.dot].intercalate ((t :: triples).map TriplePattern.tokens) ++ [.dot]) := by
  induction triples generalizing t with
  | nil => simpa using Derives.tripleDot t
  | cons u triples ih =>
    have whole := Derives.triples t (ih (t := u))
    simpa [List.intercalate_cons_cons] using whole

theorem prefix_intercalate {sep : List Token} {tss : List (List Token)} (others : tss ≠ []) :
    ts ++ sep <+: sep.intercalate (ts :: tss) := by
  cases tss with
  | nil => exact absurd rfl others
  | cons us tss =>
    rw [List.intercalate_cons_cons]
    exact List.prefix_append _ _

theorem intercalate_concat_nil {sep : List Token} {tss : List (List Token)} (nonempty : tss ≠ []) :
    sep.intercalate (tss ++ [[]]) = sep.intercalate tss ++ sep := by
  induction tss with
  | nil => exact absurd rfl nonempty
  | cons ts tss ih =>
    cases tss with
    | nil => simp [List.intercalate_cons_cons]
    | cons us tss =>
      have tail := ih (by simp)
      rw [List.cons_append] at tail
      rw [List.cons_append, List.cons_append, List.intercalate_cons_cons, tail,
        List.intercalate_cons_cons]
      simp only [List.append_assoc]

/-- Where there is nothing in front of a dot between parts, the whole cannot follow what has to be
followed by something. -/
theorem not_dotsApart_intercalate {t : Token} (opens : t.Opens) {tss : List (List Token)}
    (gap : [] ∈ tss.dropLast) : ¬DotsApart (t :: [.dot].intercalate tss) := by
  induction tss generalizing t with
  | nil => cases gap
  | cons ts tss ih =>
    cases tss with
    | nil => cases gap
    | cons us tss =>
      rw [List.dropLast_cons_cons] at gap
      rw [List.intercalate_cons_cons]
      rcases List.mem_cons.mp gap with rfl | gap
      · exact not_dotsApart_dot opens _
      · intro apart
        have later := ih (t := .dot) (.inl rfl) gap
        have inside : .dot :: [.dot].intercalate (us :: tss) <:+:
            t :: (ts ++ [.dot] ++ [.dot].intercalate (us :: tss)) :=
          ⟨t :: ts, [], by simp⟩
        exact later (apart.of_infix inside)

end

end GraphAccess.Sparql
