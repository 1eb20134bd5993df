import GraphAccess.Proofs.Sparql.Token

namespace GraphAccess.Sparql

/-- What a word may go on with. -/
def isWordChar (c : Char) : Bool := Variable.isLater c || isTagChar c

/-- The text does not begin with what a word may go on with. -/
def stops (cs : List Char) : Bool := cs.head?.all fun c => !isWordChar c

theorem stops_append {cs ds : List Char} (hcs : stops cs = true) (hds : stops ds = true) :
    stops (cs ++ ds) = true := by
  cases cs with
  | nil => exact hds
  | cons c cs => exact hcs

theorem stops_append_of_ne_nil {cs ds : List Char} (nonempty : cs ≠ []) (hcs : stops cs = true) :
    stops (cs ++ ds) = true := by
  cases cs with
  | nil => exact absurd rfl nonempty
  | cons c cs => exact hcs

section
variable {p : Char → Bool} (cs : List Char) {ds : List Char}

/-- A run of characters of a class ends in the first text, or at the start of the second one. -/
theorem span_append (h : cs.dropWhile p ≠ [] ∨ ∀ c ∈ ds.head?, p c = false) :
    (cs ++ ds).takeWhile p = cs.takeWhile p ∧ (cs ++ ds).dropWhile p = cs.dropWhile p ++ ds := by
  induction cs with
  | nil =>
    have hds : ∀ c ∈ ds.head?, p c = false := by
      rcases h with h | h
      · exact absurd rfl h
      · exact h
    cases ds with
    | nil => exact ⟨rfl, rfl⟩
    | cons d ds =>
      have hd := hds d rfl
      constructor <;> simp [hd]
  | cons c cs ih =>
    rw [List.cons_append, List.takeWhile_cons, List.takeWhile_cons, List.dropWhile_cons,
      List.dropWhile_cons]
    cases hc : p c with
    | false => exact ⟨rfl, rfl⟩
    | true =>
      rw [List.dropWhile_cons, if_pos hc] at h
      obtain ⟨taken, dropped⟩ := ih h
      exact ⟨congrArg (c :: ·) taken, dropped⟩

theorem span_append_of_stops (hp : ∀ c, isWordChar c = false → p c = false)
    (h : stops ds = true) :
    (cs ++ ds).takeWhile p = cs.takeWhile p ∧ (cs ++ ds).dropWhile p = cs.dropWhile p ++ ds := by
  apply span_append
  right
  intro c hc
  apply hp
  unfold stops at h
  rw [Option.mem_def.mp hc] at h
  simpa using h

end

theorem isLater_of_not_isWordChar {c : Char} (h : isWordChar c = false) :
    Variable.isLater c = false := by
  simp only [isWordChar, Bool.or_eq_false_iff] at h
  exact h.1

theorem isTagChar_of_not_isWordChar {c : Char} (h : isWordChar c = false) :
    isTagChar c = false := by
  simp only [isWordChar, Bool.or_eq_false_iff] at h
  exact h.2

theorem isAlpha_of_not_isWordChar {c : Char} (h : isWordChar c = false) : c.isAlpha = false := by
  have tag := isTagChar_of_not_isWordChar h
  simp only [isTagChar, Char.isAlphanum, Bool.or_eq_false_iff] at tag
  exact tag.1.1

theorem readBy_append {meaning : Char → Option Char} {cs read left : List Char}
    (h : LongQuoted.readBy meaning cs = some (read, left)) (ds : List Char) :
    LongQuoted.readBy meaning (cs ++ ds) = some (read, left ++ ds) := by
  fun_induction LongQuoted.readBy meaning cs generalizing read left with
  | case1 c rest ih =>
    obtain ⟨d, hd, h⟩ := Option.bind_eq_some_iff.mp h
    obtain ⟨r, hr, h⟩ := Option.map_eq_some_iff.mp h
    cases h
    rw [List.cons_append, List.cons_append, LongQuoted.readBy, hd, ih hr]
    rfl
  | case2 rest =>
    cases h
    rfl
  | case3 => cases h
  | case4 c rest escaped ends hc ih =>
    obtain ⟨r, hr, h⟩ := Option.map_eq_some_iff.mp h
    cases h
    rw [List.cons_append, LongQuoted.readBy]
    · rw [if_neg hc, ih hr]
      rfl
    · intro _ _ e
      exact absurd e hc
    · intro left' hq hrest
      -- The three quotes cannot reach into the second text, as the first one was read to its end.
      cases rest with
      | nil => cases hr
      | cons a rest =>
        cases rest with
        | nil =>
          rw [List.cons_append] at hrest
          obtain ⟨rfl, _⟩ := List.cons.inj hrest
          simp [LongQuoted.readBy] at hr
        | cons b rest =>
          simp only [List.cons_append, List.cons.injEq] at hrest
          obtain ⟨ha, hb, _⟩ := hrest
          exact ends rest hq (by rw [ha, hb])
  | case5 => cases h

namespace Reader

/-- What the reader reads it reads in front of another text too. -/
def Extends (r : Reader) : Prop :=
  ∀ cs t left ds, r cs = some (t, left) → stops ds = true → r (cs ++ ds) = some (t, left ++ ds)

theorem extends_iri : Extends iri := by
  intro cs t left ds h _
  obtain ⟨closed, rfl⟩ := iri_eq_some_iff.mp h
  have more : cs.dropWhile isIriChar ≠ [] := by simp [closed]
  obtain ⟨taken, dropped⟩ := span_append cs (.inl more)
  rw [iri_eq_some_iff, taken, dropped, closed]
  exact ⟨rfl, rfl⟩

theorem extends_var : Extends var := by
  intro cs t left ds h hds
  obtain ⟨c, rest, rfl, first, rfl, rfl⟩ := var_eq_some_iff.mp h
  have span := span_append_of_stops rest (fun _ => isLater_of_not_isWordChar) hds
  exact var_eq_some_iff.mpr ⟨c, rest ++ ds, rfl, first, by rw [span.1], span.2.symm⟩

theorem extends_language : Extends language := by
  intro cs t left ds h hds
  have span := span_append_of_stops cs (fun _ => isTagChar_of_not_isWordChar) hds
  rw [language_eq_some_iff] at h ⊢
  rw [span.1, span.2]
  exact ⟨h.1, h.2.1, by rw [h.2.2]⟩

theorem extends_text : Extends text := by
  intro cs t left ds h _
  obtain ⟨rest, value, rfl, read, rfl⟩ := text_eq_some_iff.mp h
  exact text_eq_some_iff.mpr ⟨rest ++ ds, value, rfl, readBy_append read ds, rfl⟩

theorem extends_datatypeMark : Extends datatypeMark := by
  intro cs t left ds h _
  obtain ⟨rfl, rfl⟩ := datatypeMark_eq_some_iff.mp h
  rfl

theorem extends_keyword : Extends keyword := by
  intro cs t left ds h hds
  have span := span_append_of_stops cs (fun _ => isAlpha_of_not_isWordChar) hds
  obtain ⟨k, word, rfl, rfl⟩ := keyword_eq_some_iff.mp h
  rw [keyword_eq_some_iff, span.1, span.2]
  exact ⟨k, word, rfl, rfl⟩

theorem extends_other (c : Char) : Extends (other c) := by
  intro cs t left ds h hds
  rcases other_eq_some_iff.mp h with ⟨mark, rfl⟩ | ⟨noMark, letter, word⟩
  · exact other_eq_some_iff.mpr (.inl ⟨mark, rfl⟩)
  · have longer := extends_keyword (c :: cs) t left ds word hds
    exact other_eq_some_iff.mpr (.inr ⟨noMark, letter, longer⟩)

theorem extends_behind (c : Char) : Extends (behind c) := by
  unfold behind
  split
  · exact extends_iri
  · exact extends_var
  · exact extends_language
  · exact extends_text
  · exact extends_datatypeMark
  · exact extends_other _

end Reader

/-- Texts next to each other are read one after the other. -/
theorem tokens_append {cs ds : List Char} {ts us : List Token} (h : tokens cs = some ts)
    (hds : stops ds = true) (h' : tokens ds = some us) : tokens (cs ++ ds) = some (ts ++ us) := by
  refine tokens_induction (motive := fun cs ts => tokens (cs ++ ds) = some (ts ++ us))
    ?_ ?_ ?_ h
  · exact h'
  · intro c cs ts hc _ ih
    rw [List.cons_append, tokens_of_isSpace hc]
    exact ih
  · intro c cs t left ts hc read _ ih
    rw [List.cons_append, tokens_of_read hc (Reader.extends_behind c _ _ _ _ read hds), ih]
    rfl

theorem span_indentChars {p : Char → Bool} (hp : p '\n' = false) (cs : List Char) :
    (Text.indentChars cs).takeWhile p = cs.takeWhile p ∧
      (Text.indentChars cs).dropWhile p = Text.indentChars (cs.dropWhile p) := by
  induction cs with
  | nil => exact ⟨rfl, rfl⟩
  | cons c cs ih =>
    by_cases hc : c = '\n'
    · subst hc
      simp [Text.indentChars, Text.indentChar, hp]
    · rw [Text.indentChars_of_ne hc, List.takeWhile_cons, List.takeWhile_cons,
        List.dropWhile_cons, List.dropWhile_cons]
      cases hpc : p c with
      | false => exact ⟨rfl, (Text.indentChars_of_ne hc cs).symm⟩
      | true => exact ⟨congrArg (c :: ·) ih.1, ih.2⟩

namespace Reader

/-- What the reader reads, except for a quoted text, it reads from the moved lines too. -/
def Indents (r : Reader) : Prop :=
  ∀ cs t left, r cs = some (t, left) → (∀ v, t ≠ .text v) →
    r (Text.indentChars cs) = some (t, Text.indentChars left)

theorem indents_iri : Indents iri := by
  intro cs t left h _
  have span := span_indentChars (p := isIriChar) (by decide) cs
  obtain ⟨closed, rfl⟩ := iri_eq_some_iff.mp h
  rw [iri_eq_some_iff, span.1, span.2, closed]
  exact ⟨Text.indentChars_of_ne (by decide) left, rfl⟩

theorem indents_var : Indents var := by
  intro cs t left h _
  obtain ⟨c, rest, rfl, first, rfl, rfl⟩ := var_eq_some_iff.mp h
  have hc : c ≠ '\n' := by
    intro e
    subst e
    exact absurd first (by decide)
  have span := span_indentChars (p := Variable.isLater) (by decide) rest
  rw [Text.indentChars_of_ne hc, var, if_pos first, span.1, span.2]

theorem indents_language : Indents language := by
  intro cs t left h _
  have span := span_indentChars (p := isTagChar) (by decide) cs
  rw [language_eq_some_iff] at h ⊢
  rw [span.1, span.2]
  exact ⟨h.1, h.2.1, by rw [h.2.2]⟩

theorem indents_text : Indents text := by
  intro cs t left h noText
  obtain ⟨_, value, _, _, e⟩ := text_eq_some_iff.mp h
  exact absurd e (noText _)

theorem indents_datatypeMark : Indents datatypeMark := by
  intro cs t left h _
  obtain ⟨rfl, rfl⟩ := datatypeMark_eq_some_iff.mp h
  exact datatypeMark_eq_some_iff.mpr ⟨Text.indentChars_of_ne (by decide) left, rfl⟩

theorem indents_keyword : Indents keyword := by
  intro cs t left h _
  have span := span_indentChars (p := Char.isAlpha) (by decide) cs
  obtain ⟨k, word, rfl, rfl⟩ := keyword_eq_some_iff.mp h
  rw [keyword_eq_some_iff, span.1, span.2]
  exact ⟨k, word, rfl, rfl⟩

theorem indents_other (c : Char) : Indents (other c) := by
  intro cs t left h noText
  rcases other_eq_some_iff.mp h with ⟨mark, rfl⟩ | ⟨noMark, letter, word⟩
  · exact other_eq_some_iff.mpr (.inl ⟨mark, rfl⟩)
  · have hc : c ≠ '\n' := by
      intro e
      subst e
      exact absurd letter (by decide)
    have moved := indents_keyword (c :: cs) t left word noText
    rw [Text.indentChars_of_ne hc] at moved
    exact other_eq_some_iff.mpr (.inr ⟨noMark, letter, moved⟩)

theorem indents_behind (c : Char) : Indents (behind c) := by
  unfold behind
  split
  · exact indents_iri
  · exact indents_var
  · exact indents_language
  · exact indents_text
  · exact indents_datatypeMark
  · exact indents_other _

end Reader

/-- Moving the lines of a text without quotes to the right changes no token. -/
theorem tokens_indentChars {cs : List Char} {ts : List Token} (h : tokens cs = some ts)
    (noText : ∀ v, .text v ∉ ts) : tokens (Text.indentChars cs) = some ts := by
  have all : (∀ v, .text v ∉ ts) → tokens (Text.indentChars cs) = some ts := by
    refine tokens_induction
      (motive := fun cs ts => (∀ v, .text v ∉ ts) → tokens (Text.indentChars cs) = some ts)
      ?_ ?_ ?_ h
    · intro _
      exact tokens_nil
    · intro c cs ts hc _ ih noText
      by_cases newline : c = '\n'
      · subst newline
        have blanks : Text.indentChars ('\n' :: cs) =
            '\n' :: ' ' :: ' ' :: ' ' :: ' ' :: Text.indentChars cs := rfl
        rw [blanks]
        repeat rw [tokens_of_isSpace (by decide)]
        exact ih noText
      · rw [Text.indentChars_of_ne newline, tokens_of_isSpace hc]
        exact ih noText
    · intro c cs t left ts hc read _ ih noText
      have hn : c ≠ '\n' := by
        intro e
        subst e
        exact absurd hc (by decide)
      have notText : ∀ v, t ≠ .text v := by
        intro v e
        exact noText v (by simp [e])
      have indented := Reader.indents_behind c _ _ _ read notText
      have later := ih fun v hv => noText v (by simp [hv])
      rw [Text.indentChars_of_ne hn, tokens_of_read hc indented, later]
      rfl
  exact all noText

/-- What is read from a text, if all of it can be read. -/
def lex (s : String) : Option (List Token) := tokens s.toList

theorem lex_append {s t : String} {ts us : List Token} (h : lex s = some ts)
    (ht : stops t.toList = true) (h' : lex t = some us) : lex (s ++ t) = some (ts ++ us) := by
  unfold lex
  rw [String.toList_append]
  exact tokens_append h ht h'

theorem lex_indent {s : String} {ts : List Token} (h : lex s = some ts)
    (noText : ∀ v, .text v ∉ ts) : lex (Text.indent s) = some ts := by
  unfold lex Text.indent
  rw [String.toList_ofList]
  exact tokens_indentChars h noText

/-- What stands between words: blanks, line breaks and the tokens of one character. -/
def isMark (c : Char) : Bool := isSpace c || (punctuation? c).isSome

theorem behind_punctuation {c : Char} {t : Token} (h : punctuation? c = some t) (cs : List Char) :
    isSpace c = false ∧ Reader.behind c cs = some (t, cs) := by
  unfold punctuation? at h
  split at h <;> cases h <;> exact ⟨by decide, rfl⟩

theorem not_isWordChar_of_isMark {c : Char} (h : isMark c = true) : isWordChar c = false := by
  simp only [isMark, isSpace, Bool.or_eq_true, decide_eq_true_eq] at h
  rcases h with ((((rfl | rfl) | rfl) | rfl) | h)
  · decide
  · decide
  · decide
  · decide
  · unfold punctuation? at h
    split at h <;> first | decide | cases h

theorem stops_of_marks {cs : List Char} (h : cs.all isMark = true) : stops cs = true := by
  cases cs with
  | nil => rfl
  | cons c cs =>
    simp only [List.all_cons, Bool.and_eq_true] at h
    simp [stops, not_isWordChar_of_isMark h.1]

theorem stops_intercalate {sep : String} (hsep : stops sep.toList = true) {ss : List String}
    (h : ∀ s ∈ ss, stops s.toList = true) : stops (sep.intercalate ss).toList = true := by
  induction ss with
  | nil => rfl
  | cons s ss ih =>
    obtain ⟨head, others⟩ := List.forall_mem_cons.mp h
    cases ss with
    | nil => simpa using head
    | cons t ss =>
      rw [String.intercalate_cons_cons, String.toList_append, String.toList_append]
      exact stops_append (stops_append head hsep) (ih others)

/-- Whatever follows marks, they end in front of it. -/
theorem tokens_marks_append {cs ds : List Char} {ts us : List Token} (marks : cs.all isMark = true)
    (h : tokens cs = some ts) (h' : tokens ds = some us) : tokens (cs ++ ds) = some (ts ++ us) := by
  induction cs generalizing ts with
  | nil =>
    rw [tokens_nil] at h
    cases h
    exact h'
  | cons c cs ih =>
    simp only [List.all_cons, Bool.and_eq_true] at marks
    cases space : isSpace c with
    | true =>
      rw [tokens_of_isSpace space] at h
      rw [List.cons_append, tokens_of_isSpace space]
      exact ih marks.2 h
    | false =>
      have mark := marks.1
      rw [isMark, space, Bool.false_or] at mark
      obtain ⟨t, ht⟩ := Option.isSome_iff_exists.mp mark
      rw [tokens_of_read space (behind_punctuation ht cs).2] at h
      obtain ⟨rest, hrest, h⟩ := Option.map_eq_some_iff.mp h
      cases h
      rw [List.cons_append, tokens_of_read space (behind_punctuation ht (cs ++ ds)).2,
        ih marks.2 hrest]
      rfl

theorem lex_marks_append {s t : String} {ts us : List Token} (marks : s.toList.all isMark = true)
    (h : lex s = some ts) (h' : lex t = some us) : lex (s ++ t) = some (ts ++ us) := by
  unfold lex
  rw [String.toList_append]
  exact tokens_marks_append marks h h'

/-- A text that is one token is read as it. -/
theorem tokens_singleton {c : Char} {cs : List Char} {t : Token} (noSpace : isSpace c = false)
    (h : Reader.behind c cs = some (t, [])) : tokens (c :: cs) = some [t] := by
  rw [tokens_of_read noSpace h, tokens_nil]
  rfl

/-- Whether an IRI can stand between angle brackets as it is. -/
def isIriRef (iri : Iri) : Bool := iri.text.toList.all isIriChar

theorem isIriRef_append {s t : String} (hs : s.toList.all isIriChar = true)
    (ht : t.toList.all isIriChar = true) : isIriRef ⟨s ++ t⟩ = true := by
  rw [isIriRef, String.toList_append, List.all_append, hs, ht]
  rfl

theorem isIriRef_xsdString : isIriRef Vocabulary.xsdString = true :=
  isIriRef_append (by decide) (by decide)

theorem isIriRef_skosInScheme : isIriRef Vocabulary.skosInScheme = true :=
  isIriRef_append (by decide) (by decide)

theorem lex_bracketed {iri : Iri} (h : isIriRef iri = true) :
    lex iri.bracketed = some [.iri iri] := by
  have chars : iri.bracketed.toList = '<' :: (iri.text.toList ++ ['>']) := by
    simp [Iri.bracketed]
  unfold lex
  rw [chars]
  apply tokens_singleton (by decide)
  show Reader.iri (iri.text.toList ++ ['>']) = some (.iri iri, [])
  have plain : ∀ c ∈ iri.text.toList, isIriChar c = true := List.all_eq_true.mp h
  have closing : isIriChar '>' = false := by decide
  rw [Reader.iri, List.takeWhile_append_of_pos plain, List.dropWhile_append_of_pos plain]
  simp [closing]

theorem stops_bracketed (iri : Iri) : stops iri.bracketed.toList = true := by
  simp only [Iri.bracketed, String.toList_append]
  rfl

theorem lex_variable {v : Variable} (h : Variable.isName v.name = true) :
    lex v.text = some [.var v] := by
  obtain ⟨c, cs, hv, first, later⟩ := (Variable.isName_iff v.name).mp h
  have chars : v.text.toList = '?' :: c :: cs := by
    simp [Variable.text, hv]
  have name : String.ofList (c :: cs) = v.name := by
    rw [← hv, String.ofList_toList]
  have taken := List.takeWhile_eq_self_iff.mpr later
  have dropped := List.dropWhile_eq_nil_iff.mpr later
  unfold lex
  rw [chars]
  apply tokens_singleton (by decide)
  show Reader.var (c :: cs) = some (.var v, [])
  rw [Reader.var, if_pos first, taken, dropped, name]

theorem stops_variable (v : Variable) : stops v.text.toList = true := by
  simp only [Variable.text, String.toList_append]
  rfl

theorem mem_consToFirst {c d : Char} {ps : List (List Char)}
    (h : d = c ∨ ∃ f ∈ ps, d ∈ f) : ∃ f ∈ Text.consToFirst c ps, d ∈ f := by
  cases ps with
  | nil => simpa [Text.consToFirst] using h
  | cons p ps =>
    simp only [Text.consToFirst, List.mem_cons, exists_eq_or_imp] at h ⊢
    rcases h with h | h | h
    · exact .inl (.inl h)
    · exact .inl (.inr h)
    · exact .inr h

theorem mem_fields (sep : Char) {cs : List Char} {d : Char} (h : d ∈ cs) :
    d = sep ∨ ∃ f ∈ Text.fields sep cs, d ∈ f := by
  induction cs with
  | nil => simp at h
  | cons c cs ih =>
    rw [Text.fields]
    split
    · next hc =>
      rcases List.mem_cons.mp h with rfl | h
      · exact .inl hc
      · obtain e | ⟨f, hf, hd⟩ := ih h
        · exact .inl e
        · exact .inr ⟨f, List.mem_cons_of_mem _ hf, hd⟩
    · rcases List.mem_cons.mp h with rfl | h
      · exact .inr (mem_consToFirst (.inl rfl))
      · obtain e | piece := ih h
        · exact .inl e
        · exact .inr (mem_consToFirst (.inr piece))

theorem isTagChar_of_isLanguageTag {cs : List Char} (h : isLanguageTag cs = true) :
    ∀ c ∈ cs, isTagChar c = true := by
  have words : ∀ f ∈ Text.fields '-' cs, ∀ c ∈ f, c.isAlphanum = true := by
    intro f hf c hc
    unfold isLanguageTag at h
    split at h
    · cases h
    · next primary subtags fields =>
      simp only [Bool.and_eq_true, List.all_eq_true] at h
      rw [fields] at hf
      rcases List.mem_cons.mp hf with rfl | hf
      · rw [Char.isAlphanum, h.1.2 c hc, Bool.true_or]
      · exact (h.2 f hf).2 c hc
  intro c hc
  obtain rfl | ⟨f, hf, hc⟩ := mem_fields '-' hc
  · rfl
  · rw [isTagChar, words f hf c hc, Bool.true_or]

theorem lex_language {tag : String} (h : isLanguageTag tag.toList = true) :
    lex ("@" ++ tag) = some [.language tag] := by
  have taken := List.takeWhile_eq_self_iff.mpr (isTagChar_of_isLanguageTag h)
  have dropped := List.dropWhile_eq_nil_iff.mpr (isTagChar_of_isLanguageTag h)
  unfold lex
  rw [String.toList_append]
  apply tokens_singleton (by decide)
  show Reader.language tag.toList = some (.language tag, [])
  rw [Reader.language, taken, dropped, if_pos h, String.ofList_toList]

theorem stops_language (tag : String) : stops ("@" ++ tag).toList = true := by
  rw [String.toList_append]
  rfl

theorem lex_quote (s : String) : lex (LongQuoted.quote s) = some [.text s] := by
  have read : LongQuoted.readBy LongQuoted.meaning
      (LongQuoted.escape s.toList ++ ['\'', '\'', '\'']) = some (s.toList, []) :=
    LongQuoted.readBy_escape (by rfl) (by rfl) s.toList []
  unfold lex
  rw [LongQuoted.toList_quote]
  apply tokens_singleton (by decide)
  show Reader.text ('\'' :: '\'' :: (LongQuoted.escape s.toList ++ ['\'', '\'', '\''])) = _
  rw [Reader.text, read, Option.map_some, String.ofList_toList]

end GraphAccess.Sparql
