import GraphAccess.Change.Update
import GraphAccess.Collection.Traversal
import GraphAccess.Proofs.Sparql.Lexeme

namespace GraphAccess

open Sparql

namespace Update

/-- An operation as it is read. -/
structure Request where
  operation : Operation
  graph : Option Iri
  triples : List Triple
  deriving DecidableEq, Repr

def readObject : List Token → Option (Term × List Token)
  | .iri iri :: rest => some (.named iri, rest)
  | .text v :: .language tag :: rest => some (.literal (.tagged v tag), rest)
  | .text v :: .datatypeMark :: .iri datatype :: rest =>
    some (.literal (.ofDatatype v datatype), rest)
  | .text v :: rest => some (.literal (.plain v), rest)
  | _ => none

def readTriple : List Token → Option (Triple × List Token)
  | .iri subject :: .iri predicate :: rest =>
    (readObject rest).map fun r => (⟨.named subject, predicate, r.1⟩, r.2)
  | _ => none

theorem length_of_readObject {ts rest : List Token} {o : Term}
    (h : readObject ts = some (o, rest)) : rest.length < ts.length := by
  unfold readObject at h
  split at h <;> cases h <;> simp only [List.length_cons] <;> omega

theorem length_of_readTriple {ts rest : List Token} {t : Triple}
    (h : readTriple ts = some (t, rest)) : rest.length < ts.length := by
  unfold readTriple at h
  split at h
  · obtain ⟨r, hr, h⟩ := Option.map_eq_some_iff.mp h
    cases h
    have shorter := length_of_readObject hr
    simp only [List.length_cons]
    omega
  · cases h

/-- Reads statements up to a closing brace. The last one may do without a dot. -/
def readTriples (ts : List Token) : Option (List Triple × List Token) :=
  match ts with
  | .closeBrace :: rest => some ([], rest)
  | ts =>
    match _read : readTriple ts with
    | some (t, .dot :: rest) => (readTriples rest).map fun r => (t :: r.1, r.2)
    | some (t, .closeBrace :: rest) => some ([t], rest)
    | _ => none
termination_by ts.length
decreasing_by
  have shorter := length_of_readTriple _read
  simp only [List.length_cons] at shorter
  omega

theorem length_of_readTriples {ts rest : List Token} {triples : List Triple}
    (h : readTriples ts = some (triples, rest)) : rest.length < ts.length := by
  fun_induction readTriples ts generalizing triples rest with
  | case1 rest =>
    cases h
    simp
  | case2 ts _ t rest read ih =>
    obtain ⟨r, hr, h⟩ := Option.map_eq_some_iff.mp h
    cases h
    have shorter := length_of_readTriple read
    have later := ih hr
    simp only [List.length_cons] at shorter
    omega
  | case3 ts _ t rest read =>
    cases h
    have shorter := length_of_readTriple read
    simp only [List.length_cons] at shorter
    omega
  | case4 => cases h

/-- Reads the statements of an operation behind its opening brace, which may all be in a graph. -/
def readQuads : List Token → Option ((Option Iri × List Triple) × List Token)
  | .keyword .graph :: .iri g :: .openBrace :: rest =>
    match readTriples rest with
    | some (ts, .closeBrace :: rest) => some ((some g, ts), rest)
    | _ => none
  | rest => (readTriples rest).map fun r => ((none, r.1), r.2)

def readOperation : Keyword → Option Operation
  | .delete => some .deleteData
  | .insert => some .insertData
  | _ => none

def readRequest : List Token → Option (Request × List Token)
  | .keyword k :: .keyword .data :: .openBrace :: rest =>
    (readOperation k).bind fun operation =>
      (readQuads rest).map fun r => (⟨operation, r.1.1, r.1.2⟩, r.2)
  | _ => none

theorem length_of_readQuads {ts rest : List Token} {quads : Option Iri × List Triple}
    (h : readQuads ts = some (quads, rest)) : rest.length < ts.length := by
  unfold readQuads at h
  split at h
  · split at h
    · next hr =>
      cases h
      have shorter := length_of_readTriples hr
      simp only [List.length_cons] at shorter ⊢
      omega
    · cases h
  · obtain ⟨r, hr, h⟩ := Option.map_eq_some_iff.mp h
    cases h
    exact length_of_readTriples hr

theorem length_of_readRequest {ts rest : List Token} {r : Request}
    (h : readRequest ts = some (r, rest)) : rest.length < ts.length := by
  unfold readRequest at h
  split at h
  · obtain ⟨operation, _, h⟩ := Option.bind_eq_some_iff.mp h
    obtain ⟨q, hq, h⟩ := Option.map_eq_some_iff.mp h
    cases h
    have shorter := length_of_readQuads hq
    simp only [List.length_cons]
    omega
  · cases h

/-- Reads operations with semicolons between them; one may follow the last. -/
def readRequests (ts : List Token) : Option (List Request) :=
  match ts with
  | [] => some []
  | ts =>
    match _read : readRequest ts with
    | some (r, []) => some [r]
    | some (r, .semicolon :: rest) => (readRequests rest).map (r :: ·)
    | _ => none
termination_by ts.length
decreasing_by
  have shorter := length_of_readRequest _read
  simp only [List.length_cons] at shorter
  omega

/-- Reads an update. -/
def decode (s : String) : Option (List Request) := (lex s).bind readRequests

theorem readTriples_closeBrace (rest : List Token) :
    readTriples (.closeBrace :: rest) = some ([], rest) := by
  rw [readTriples]

theorem readTriples_of_readTriple {ts rest : List Token} {t : Triple}
    (h : readTriple ts = some (t, .dot :: rest)) :
    readTriples ts = (readTriples rest).map fun r => (t :: r.1, r.2) := by
  have notClosed : ∀ rest, ts ≠ .closeBrace :: rest := by
    intro rest e
    subst e
    cases h
  rw [readTriples]
  · split
    · next read =>
      rw [h] at read
      cases read
      rfl
    · next read => rw [h] at read; cases read
    · next other _ => exact absurd h (other t rest)
  · exact notClosed

theorem readRequests_nil : readRequests [] = some [] := by
  rw [readRequests]

theorem readRequests_of_last {ts : List Token} {r : Request} (h : readRequest ts = some (r, [])) :
    readRequests ts = some [r] := by
  have nonempty : ts ≠ [] := by
    intro e
    subst e
    cases h
  rw [readRequests]
  · split
    · next read =>
      rw [h] at read
      cases read
      rfl
    · next read => rw [h] at read; cases read
    · next other _ => exact absurd h (other r)
  · exact nonempty

theorem readRequests_of_readRequest {ts rest : List Token} {r : Request}
    (h : readRequest ts = some (r, .semicolon :: rest)) :
    readRequests ts = (readRequests rest).map (r :: ·) := by
  have nonempty : ts ≠ [] := by
    intro e
    subst e
    cases h
  rw [readRequests]
  · split
    · next read => rw [h] at read; cases read
    · next read =>
      rw [h] at read
      cases read
      rfl
    · next _ other => exact absurd h (other r rest)
  · exact nonempty

end Update

def Node.isWritable : Node → Bool
  | .named iri => isIriRef iri
  | .blank _ => false

def Literal.isWritable : Literal → Bool
  | .plain _ => true
  | .tagged _ tag => isLanguageTag tag.toList
  | .typed _ datatype _ => isIriRef datatype

def Term.isWritable : Term → Bool
  | .named iri => isIriRef iri
  | .blank _ => false
  | .literal l => l.isWritable

/-- No blank nodes, and IRIs and language tags as the grammar has them. -/
def Triple.isWritable (t : Triple) : Bool :=
  t.subject.isWritable && isIriRef t.predicate && t.object.isWritable

def Literal.tokens (l : Literal) : List Token :=
  .text l.value ::
    match l.language? with
    | some tag => [.language tag]
    | none => [.datatypeMark, .iri l.datatype]

theorem Literal.lex_sparql {l : Literal} (h : l.isWritable = true) :
    lex l.sparql = some l.tokens := by
  cases hl : l.language? with
  | some tag =>
    have tagged : isLanguageTag tag.toList = true := by
      cases l <;> cases hl
      exact h
    have text := lex_append (lex_quote l.value) (stops_language tag) (lex_language tagged)
    simpa [Literal.sparql, Literal.tokens, hl] using text
  | none =>
    have datatype : isIriRef l.datatype = true := by
      cases l with
      | plain v => exact isIriRef_xsdString
      | tagged v tag => cases hl
      | typed v d notString => exact h
    have mark : lex "^^" = some [.datatypeMark] := by decide +kernel
    have typed := lex_append mark (stops_bracketed l.datatype) (lex_bracketed datatype)
    have text := lex_append (lex_quote l.value) (by rw [String.toList_append]; rfl) typed
    simpa [Literal.sparql, Literal.tokens, hl] using text

def Term.tokens : Term → List Token
  | .named iri => [.iri iri]
  | .blank _ => []
  | .literal l => l.tokens

def Node.tokens : Node → List Token
  | .named iri => [.iri iri]
  | .blank _ => []

/-- The tokens of a statement and its dot. -/
def Triple.tokens (t : Triple) : List Token :=
  t.subject.tokens ++ .iri t.predicate :: t.object.tokens ++ [.dot]

theorem Node.lex_sparql {n : Node} (h : n.isWritable = true) :
    ∃ s, n.sparql = .ok s ∧ lex s = some n.tokens ∧ stops s.toList = true := by
  cases n with
  | named iri => exact ⟨_, rfl, lex_bracketed h, stops_bracketed iri⟩
  | blank label => cases h

theorem Term.lex_sparql {o : Term} (h : o.isWritable = true) :
    ∃ s, o.sparql = .ok s ∧ lex s = some o.tokens ∧ stops s.toList = true := by
  cases o with
  | named iri => exact ⟨_, rfl, lex_bracketed h, stops_bracketed iri⟩
  | blank label => cases h
  | literal l =>
    refine ⟨_, rfl, Literal.lex_sparql h, ?_⟩
    rw [Literal.sparql, String.toList_append, LongQuoted.toList_quote]
    rfl

theorem Triple.lex_sparql {t : Triple} (h : t.isWritable = true) :
    ∃ s, t.sparql = .ok s ∧ lex s = some t.tokens ∧ stops s.toList = true := by
  simp only [isWritable, Bool.and_eq_true] at h
  obtain ⟨⟨subject, predicate⟩, object⟩ := h
  obtain ⟨s, hs, lexS, stopsS⟩ := Node.lex_sparql subject
  obtain ⟨o, ho, lexO, stopsO⟩ := Term.lex_sparql object
  have blank : lex " " = some [] := by decide +kernel
  have dot : lex " ." = some [.dot] := by decide +kernel
  refine ⟨s ++ " " ++ t.predicate.bracketed ++ " " ++ o ++ " .", ?_, ?_, ?_⟩
  · simp [Triple.sparql, hs, ho, bind, Except.bind]
  · have front := lex_append lexS (by decide) blank
    have middle := lex_append front (stops_bracketed _) (lex_bracketed predicate)
    have back := lex_append (lex_append middle (by decide) blank) stopsO lexO
    have all := lex_append back (by decide) dot
    simpa [Triple.tokens] using all
  · simp only [String.toList_append, List.append_assoc]
    exact stops_append stopsS rfl

theorem Triple.readTriple_tokens {t : Triple} (h : t.isWritable = true) (rest : List Token) :
    Update.readTriple (t.tokens ++ rest) = some (t, .dot :: rest) := by
  obtain ⟨subject, predicate, object⟩ := t
  cases subject with
  | blank label => cases h
  | named s =>
    cases object with
    | named o => rfl
    | blank label => simp [isWritable, Term.isWritable] at h
    | literal l =>
      cases hl : l.language? with
      | some tag =>
        cases l <;> cases hl
        rfl
      | none =>
        have read : Update.readTriple
            (Triple.tokens ⟨.named s, predicate, .literal l⟩ ++ rest) =
              some (⟨.named s, predicate, .literal (.ofDatatype l.value l.datatype)⟩,
                .dot :: rest) := by
          simp [Triple.tokens, Node.tokens, Term.tokens, Literal.tokens, hl, Update.readTriple,
            Update.readObject]
        rw [read, ← Literal.eq_ofDatatype hl]

namespace Update

theorem readTriples_tokens {ts : List Triple} (h : ∀ t ∈ ts, t.isWritable = true)
    (rest : List Token) :
    readTriples (ts.flatMap Triple.tokens ++ .closeBrace :: rest) = some (ts, rest) := by
  induction ts with
  | nil => exact readTriples_closeBrace rest
  | cons t ts ih =>
    have read := Triple.readTriple_tokens (h t (by simp))
      (ts.flatMap Triple.tokens ++ .closeBrace :: rest)
    have later := ih fun u hu => h u (by simp [hu])
    rw [List.flatMap_cons, List.append_assoc, readTriples_of_readTriple read, later]
    rfl

/-- The statements of an operation are written, line by line. -/
theorem lex_lines (indent : String) (blank : lex indent = some [])
    (stopsIndent : stops indent.toList = true) {ts : List Triple}
    (h : ∀ t ∈ ts, t.isWritable = true) :
    ∃ statements, ts.mapM Triple.sparql = .ok statements ∧
      lex (String.join (statements.map (line indent))) = some (ts.flatMap Triple.tokens) ∧
      stops (String.join (statements.map (line indent))).toList = true := by
  induction ts with
  | nil => exact ⟨[], rfl, by simp [lex, tokens_nil], by simp [stops]⟩
  | cons t ts ih =>
    obtain ⟨s, hs, lexS, stopsS⟩ := Triple.lex_sparql (h t (by simp))
    obtain ⟨statements, hts, lexLines, stopsLines⟩ := ih fun u hu => h u (by simp [hu])
    have newline : lex "\n" = some [] := by decide +kernel
    have front := lex_append (lex_append blank stopsS lexS) (by decide) newline
    refine ⟨s :: statements, mapM_cons_eq_ok_iff.mpr ⟨s, statements, hs, hts, rfl⟩, ?_, ?_⟩
    · rw [List.map_cons, String.join_cons, line, List.flatMap_cons]
      simpa using lex_append front stopsLines lexLines
    · simp only [List.map_cons, String.join_cons, line, String.toList_append, List.append_assoc]
      exact stops_append stopsIndent (stops_append stopsS rfl)

def Operation.keyword : Operation → Keyword
  | .deleteData => .delete
  | .insertData => .insert

theorem Operation.lex_text (operation : Operation) :
    lex operation.text = some [.keyword operation.keyword, .keyword .data] := by
  cases operation <;> decide +kernel

/-- The tokens of a request. -/
def Request.tokens (r : Request) : List Token :=
  [.keyword r.operation.keyword, .keyword .data, .openBrace] ++
    match r.graph with
    | none => r.triples.flatMap Triple.tokens ++ [.closeBrace]
    | some g =>
      [.keyword .graph, .iri g, .openBrace] ++ r.triples.flatMap Triple.tokens ++
        [.closeBrace, .closeBrace]

theorem lex_operation (operation : Operation) {graph : Option Iri} {ts : List Triple}
    (graphIri : ∀ g ∈ graph, isIriRef g = true) (h : ∀ t ∈ ts, t.isWritable = true) :
    ∃ statements, ts.mapM Triple.sparql = .ok statements ∧
      lex (operationText operation graph statements) =
        some (Request.tokens ⟨operation, graph, ts⟩) := by
  have word := Operation.lex_text operation
  cases graph with
  | none =>
    obtain ⟨statements, written, lexLines, stopsLines⟩ :=
      lex_lines "  " (by decide +kernel) (by decide) h
    have opening : lex " \x7b\n" = some [.openBrace] := by decide +kernel
    have closing : lex "\x7d" = some [.closeBrace] := by decide +kernel
    have front := lex_append (lex_append word (by decide) opening) stopsLines lexLines
    have all := lex_append front (by decide) closing
    refine ⟨statements, written, ?_⟩
    simpa [operationText, Request.tokens] using all
  | some g =>
    obtain ⟨statements, written, lexLines, stopsLines⟩ :=
      lex_lines "    " (by decide +kernel) (by decide) h
    have opening : lex " \x7b\n  GRAPH " = some [.openBrace, .keyword .graph] := by decide +kernel
    have inner : lex " \x7b\n" = some [.openBrace] := by decide +kernel
    have closing : lex "  \x7d\n\x7d" = some [.closeBrace, .closeBrace] := by decide +kernel
    have name := lex_append (lex_append word (by decide) opening) (stops_bracketed g)
      (lex_bracketed (graphIri g rfl))
    have front := lex_append (lex_append name (by decide) inner) stopsLines lexLines
    have all := lex_append front (by decide) closing
    refine ⟨statements, written, ?_⟩
    simpa [operationText, Request.tokens] using all

theorem readTriples_keyword (k : Keyword) (rest : List Token) :
    readTriples (.keyword k :: rest) = none := by
  rw [readTriples]
  · split
    · next read => cases read
    · next read => cases read
    · rfl
  · intro _ e
    cases e

theorem readQuads_of_readTriples {ts rest : List Token} {triples : List Triple}
    (h : readTriples ts = some (triples, rest)) : readQuads ts = some ((none, triples), rest) := by
  unfold readQuads
  split
  · rw [readTriples_keyword] at h
    cases h
  · rw [h]
    rfl

theorem readRequest_tokens {r : Request} (h : ∀ t ∈ r.triples, t.isWritable = true)
    (rest : List Token) : readRequest (r.tokens ++ rest) = some (r, rest) := by
  obtain ⟨operation, graph, triples⟩ := r
  have known : readOperation operation.keyword = some operation := by cases operation <;> rfl
  cases graph with
  | none =>
    have read := readQuads_of_readTriples (readTriples_tokens h rest)
    simp [Request.tokens, readRequest, known, read]
  | some g =>
    have read := readTriples_tokens h (.closeBrace :: rest)
    simp [Request.tokens, readRequest, known, readQuads, read]

/-- What an update requests. -/
def requests (graph : Option Iri) (removed added : List Triple) : List Request :=
  (if removed = [] then [] else [⟨.deleteData, graph, removed⟩]) ++
    if added = [] then [] else [⟨.insertData, graph, added⟩]

theorem readRequests_tokens {r : Request} (h : ∀ t ∈ r.triples, t.isWritable = true) :
    readRequests r.tokens = some [r] := by
  have read := readRequest_tokens h []
  rw [List.append_nil] at read
  exact readRequests_of_last read

theorem readRequests_tokens_semicolon {r q : Request}
    (hr : ∀ t ∈ r.triples, t.isWritable = true) (hq : ∀ t ∈ q.triples, t.isWritable = true) :
    readRequests (r.tokens ++ .semicolon :: q.tokens) = some [r, q] := by
  rw [readRequests_of_readRequest (readRequest_tokens hr _), readRequests_tokens hq]
  rfl

theorem operation_nil (operation : Operation) (graph : Option Iri) :
    Update.operation operation graph [] = .ok [] := by
  rw [Update.operation, if_pos rfl]

theorem operation_of_written {operation : Operation} {graph : Option Iri} {ts : List Triple}
    {statements : List String} (nonempty : ts ≠ []) (h : ts.mapM Triple.sparql = .ok statements) :
    Update.operation operation graph ts = .ok [operationText operation graph statements] := by
  rw [Update.operation, if_neg nonempty, h]
  rfl

theorem decode_text {graph : Option Iri} {removed added : List Triple}
    (graphIri : ∀ g ∈ graph, isIriRef g = true) (hr : ∀ t ∈ removed, t.isWritable = true)
    (ha : ∀ t ∈ added, t.isWritable = true) :
    ∃ s, text graph removed added = .ok s ∧ decode s = some (requests graph removed added) := by
  obtain ⟨deletes, writtenR, lexR⟩ := lex_operation .deleteData graphIri hr
  obtain ⟨inserts, writtenA, lexA⟩ := lex_operation .insertData graphIri ha
  have readR : readRequests (Request.tokens ⟨.deleteData, graph, removed⟩) =
      some [⟨.deleteData, graph, removed⟩] := readRequests_tokens hr
  have readA : readRequests (Request.tokens ⟨.insertData, graph, added⟩) =
      some [⟨.insertData, graph, added⟩] := readRequests_tokens ha
  unfold text requests
  by_cases er : removed = []
  · subst er
    rw [operation_nil]
    by_cases ea : added = []
    · subst ea
      rw [operation_nil]
      refine ⟨_, rfl, ?_⟩
      simp [decode, lex, tokens_nil, readRequests_nil]
    · rw [operation_of_written ea writtenA]
      refine ⟨_, rfl, ?_⟩
      simp [decode, lexA, readA, ea]
  · rw [operation_of_written er writtenR]
    by_cases ea : added = []
    · subst ea
      rw [operation_nil]
      refine ⟨_, rfl, ?_⟩
      simp [decode, lexR, readR, er]
    · rw [operation_of_written ea writtenA]
      refine ⟨_, rfl, ?_⟩
      have semicolon : lex ";\n" = some [.semicolon] := by decide +kernel
      have insertion := lex_marks_append (by decide) semicolon lexA
      have whole := lex_append lexR (by rw [String.toList_append]; rfl) insertion
      have read := readRequests_tokens_semicolon (r := ⟨.deleteData, graph, removed⟩)
        (q := ⟨.insertData, graph, added⟩) hr ha
      have joined : ";\n".intercalate ([operationText .deleteData graph deletes] ++
          [operationText .insertData graph inserts]) =
            operationText .deleteData graph deletes ++
              (";\n" ++ operationText .insertData graph inserts) := by
        rw [List.singleton_append, String.intercalate_cons_cons, String.intercalate_singleton,
          String.append_assoc]
      rw [joined, decode, whole, Option.bind_some]
      simpa [er, ea] using read

/-- The statements that some requests remove or add, in order. -/
def statements (operation : Operation) (rs : List Request) : List Triple :=
  (rs.filter (·.operation = operation)).flatMap Request.triples

theorem statements_requests (graph : Option Iri) (removed added : List Triple) :
    statements .deleteData (requests graph removed added) = removed ∧
      statements .insertData (requests graph removed added) = added := by
  unfold requests
  by_cases er : removed = [] <;> by_cases ea : added = [] <;> simp [statements, er, ea]

theorem graph_of_mem_requests {graph : Option Iri} {removed added : List Triple} {r : Request}
    (h : r ∈ requests graph removed added) : r.graph = graph := by
  unfold requests at h
  rcases List.mem_append.mp h with h | h
  · split at h
    · simp at h
    · rw [List.mem_singleton.mp h]
  · split at h
    · simp at h
    · rw [List.mem_singleton.mp h]

theorem requests_ne_nil {graph : Option Iri} {removed added : List Triple}
    (nonempty : removed ++ added ≠ []) : requests graph removed added ≠ [] := by
  unfold requests
  by_cases er : removed = [] <;> by_cases ea : added = [] <;> simp_all

/-- Statements and a graph that an update can name. -/
structure Writable (graph : Option Iri) (removed added : List Triple) : Prop where
  graphIri : ∀ g ∈ graph, isIriRef g = true
  removals : ∀ t ∈ removed, t.isWritable = true
  additions : ∀ t ∈ added, t.isWritable = true

/-- An update is read back as exactly what it was written for: the same statements, in the same
order and as often, to be removed and to be added, all of them in the same graph. So the text of an
update with statements is the text of no other one. -/
theorem text_decodes {graph : Option Iri} {removed added : List Triple}
    (h : Writable graph removed added) :
    (∃ s rs, text graph removed added = .ok s ∧ decode s = some rs ∧
      statements .deleteData rs = removed ∧ statements .insertData rs = added ∧
      (∀ r ∈ rs, r.graph = graph) ∧ (removed ++ added ≠ [] → rs ≠ [])) ∧
    ∀ graph' removed' added', Writable graph' removed' added' →
      removed ++ added ≠ [] →
      text graph removed added = text graph' removed' added' →
      graph = graph' ∧ removed = removed' ∧ added = added' := by
  obtain ⟨s, written, read⟩ := decode_text h.graphIri h.removals h.additions
  have same := statements_requests graph removed added
  constructor
  · exact ⟨s, _, written, read, same.1, same.2, fun _ => graph_of_mem_requests, requests_ne_nil⟩
  · intro graph' removed' added' h' nonempty texts
    obtain ⟨s', written', read'⟩ := decode_text h'.graphIri h'.removals h'.additions
    have same' := statements_requests graph' removed' added'
    rw [written, written'] at texts
    cases texts
    rw [read] at read'
    have both : requests graph removed added = requests graph' removed' added' :=
      Option.some.inj read'
    obtain ⟨r, hr⟩ := List.exists_mem_of_ne_nil _ (requests_ne_nil nonempty)
    have graphs := graph_of_mem_requests hr
    rw [both] at hr same
    exact ⟨graphs.symm.trans (graph_of_mem_requests hr), same.1.symm.trans same'.1,
      same.2.symm.trans same'.2⟩

/-- Statements about a note, one with a text that looks like the end of an update. -/
def noteStatements : List Triple :=
  [⟨.named ⟨"http://n.example/1"⟩, ⟨"http://n.example/title"⟩,
      .literal (.tagged "''' . \x7d \\" "en-gb")⟩,
    ⟨.named ⟨"http://n.example/1"⟩, ⟨"http://n.example/about"⟩, .named ⟨"http://n.example/2"⟩⟩]

theorem text_decodes_noteStatements :
    Writable (some ⟨"http://n.example/graph"⟩) [] noteStatements ∧
      ∃ s rs, text (some ⟨"http://n.example/graph"⟩) [] noteStatements = .ok s ∧
        decode s = some rs ∧ statements .insertData rs = noteStatements := by
  have writable : Writable (some ⟨"http://n.example/graph"⟩) [] noteStatements :=
    ⟨by decide, by decide, by decide⟩
  obtain ⟨⟨s, rs, written, read, _, added, _⟩, _⟩ := text_decodes writable
  exact ⟨writable, s, rs, written, read, added⟩

end Update

end GraphAccess
