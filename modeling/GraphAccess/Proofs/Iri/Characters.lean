import GraphAccess.Collection.Traversal
import GraphAccess.Profile.Declaration
import GraphAccess.Proofs.Sparql.Lexeme

namespace GraphAccess

open Sparql

namespace IriText

/-- None of the characters ends an IRI between angle brackets. -/
def Clean (cs : List Char) : Prop := ∀ c ∈ cs, isIriChar c = true

@[simp] theorem clean_nil : Clean [] := by
  intro c hc
  cases hc

@[simp] theorem clean_cons {c : Char} {cs : List Char} :
    Clean (c :: cs) ↔ isIriChar c = true ∧ Clean cs := by
  simp [Clean]

@[simp] theorem clean_append {cs ds : List Char} : Clean (cs ++ ds) ↔ Clean cs ∧ Clean ds := by
  simp only [Clean, List.mem_append]
  constructor
  · intro h
    exact ⟨fun c hc => h c (.inl hc), fun c hc => h c (.inr hc)⟩
  · intro h c hc
    exact hc.elim (h.1 c) (h.2 c)

@[simp] theorem clean_reverse {cs : List Char} : Clean cs.reverse ↔ Clean cs := by
  simp [Clean]

theorem isIriChar_of_wide {c : Char} (h : 0x7d < c.toNat) : isIriChar c = true := by
  have special : ∀ d : Char, d.toNat ≤ 0x7d → c ≠ d := by
    intro d hd e
    subst e
    omega
  have members : "<>\"\x7b\x7d|^\\`".toList =
      ['<', '>', '"', '\x7b', '\x7d', '|', '^', '\\', '\x60'] := by
    decide
  rw [isIriChar, members]
  simp only [Bool.and_eq_true, decide_eq_true_eq, Bool.not_eq_true', List.contains_eq_mem,
    decide_eq_false_iff_not, List.mem_cons, List.not_mem_nil, or_false, not_or]
  refine ⟨by omega, ?_⟩
  refine ⟨?_, ?_, ?_, ?_, ?_, ?_, ?_, ?_, ?_⟩ <;> exact special _ (by decide)

/-- The ASCII characters, of which each class has only clean ones. -/
def ascii : List Char := (List.range 128).map Char.ofNat

theorem mem_ascii {c : Char} (h : c.toNat ≤ 0x7d) : c ∈ ascii := by
  rw [ascii, List.mem_map]
  exact ⟨c.toNat, List.mem_range.mpr (by omega), Char.ofNat_toNat c⟩

/-- A class that has only clean characters among the ASCII ones has only clean ones. -/
theorem isIriChar_of_ascii {p : Char → Bool} (h : ascii.all (fun c => !p c || isIriChar c) = true)
    {c : Char} (hc : p c = true) : isIriChar c = true := by
  by_cases wide : 0x7d < c.toNat
  · exact isIriChar_of_wide wide
  · have known := List.all_eq_true.mp h c (mem_ascii (by omega))
    simpa [hc] using known

/-- Each character of a class is a clean one. -/
def Tidy (p : Char → Bool) : Prop := ∀ c, p c = true → isIriChar c = true

theorem tidy_isHexDigit : Tidy isHexDigit := fun _ => isIriChar_of_ascii (by decide)

theorem tidy_isDigit : Tidy Char.isDigit := fun _ => isIriChar_of_ascii (by decide)

theorem tidy_isSchemeChar : Tidy Reference.isSchemeChar := fun _ => isIriChar_of_ascii (by decide)

theorem tidy_isQueryChar : Tidy isQueryChar := fun _ => isIriChar_of_ascii (by decide)

theorem Tidy.mono {p q : Char → Bool} (hq : Tidy q) (h : ∀ c, p c = true → q c = true) : Tidy p :=
  fun c hc => hq c (h c hc)

theorem tidy_isFragmentChar : Tidy isFragmentChar :=
  tidy_isQueryChar.mono fun c h => by simp [isQueryChar, h]

theorem tidy_isSegmentChar : Tidy isSegmentChar :=
  tidy_isFragmentChar.mono fun c h => by simp [isFragmentChar, h]

theorem tidy_isPathChar : Tidy fun c => isSegmentChar c || c = '/' := by
  apply tidy_isFragmentChar.mono
  intro c h
  simp only [Bool.or_eq_true] at h
  rcases h with h | h <;> simp [isFragmentChar, h]

theorem tidy_isFirstSegmentChar : Tidy isFirstSegmentChar := by
  apply tidy_isSegmentChar.mono
  intro c h
  simp only [isFirstSegmentChar, Bool.or_eq_true] at h
  rcases h with h | h <;> simp [isSegmentChar, h]

theorem tidy_isUserInfoChar : Tidy isUserInfoChar := by
  apply tidy_isSegmentChar.mono
  intro c h
  simp only [isUserInfoChar, Bool.or_eq_true] at h
  rcases h with h | h <;> simp [isSegmentChar, h]

theorem tidy_isPlain : Tidy isPlain :=
  tidy_isSegmentChar.mono fun c h => by simp [isSegmentChar, h]

theorem clean_of_all {p : Char → Bool} (hp : Tidy p) {cs : List Char} (h : cs.all p = true) :
    Clean cs := by
  intro c hc
  exact hp c (List.all_eq_true.mp h c hc)

/-- What is read is made of allowed characters and percent-encoded bytes. -/
theorem clean_of_scan {allowed stop : Char → Bool} (ha : Tidy allowed) {cs read left : List Char}
    (h : scan allowed stop cs = .ok (read, left)) : Clean read := by
  fun_induction scan allowed stop cs generalizing read left with
  | case1 => cases h; exact clean_nil
  | case2 => cases h; exact clean_nil
  | case3 a b rest digits _ ih =>
    obtain ⟨r, hr, h⟩ := map_eq_ok_iff.mp h
    cases h
    simp only [Bool.and_eq_true] at digits
    have percent : isIriChar '%' = true := by decide
    simp [percent, tidy_isHexDigit _ digits.1, tidy_isHexDigit _ digits.2, ih hr]
  | case4 => cases h
  | case5 => cases h
  | case6 c cs _ _ hc ih =>
    obtain ⟨r, hr, h⟩ := map_eq_ok_iff.mp h
    cases h
    simp [ha c hc, ih hr]
  | case7 => cases h

theorem clean_of_port {cs read left : List Char} (h : port cs = .ok (read, left)) :
    Clean read := by
  induction cs generalizing read left with
  | nil => cases h; exact clean_nil
  | cons c cs ih =>
    rw [port] at h
    split at h
    · cases h
      exact clean_nil
    · split at h
      · next digit =>
        obtain ⟨r, hr, h⟩ := map_eq_ok_iff.mp h
        cases h
        simp [tidy_isDigit c digit, ih hr]
      · cases h

theorem clean_of_behindBracket {cs read left : List Char}
    (h : behindBracket cs = .ok (read, left)) : Clean read := by
  cases cs with
  | nil => cases h; exact clean_nil
  | cons c cs =>
    rw [behindBracket] at h
    split at h
    · obtain ⟨r, hr, h⟩ := map_eq_ok_iff.mp h
      cases h
      have colon : isIriChar ':' = true := by decide
      simp [colon, clean_of_port hr]
    · split at h
      · cases h
        exact clean_nil
      · cases h

/-- A text is clean if what it is cut at is, and each of its pieces. -/
theorem clean_of_fields (sep : Char) (hsep : isIriChar sep = true) {cs : List Char}
    (h : ∀ f ∈ Text.fields sep cs, Clean f) : Clean cs := by
  intro c hc
  obtain rfl | ⟨f, hf, hc⟩ := mem_fields sep hc
  · exact hsep
  · exact h f hf c hc

theorem clean_of_isHexGroup {g : List Char} (h : isHexGroup g = true) : Clean g := by
  simp only [isHexGroup, Bool.and_eq_true] at h
  exact clean_of_all tidy_isHexDigit h.2

theorem clean_of_isDotted {g : List Char} (h : isDotted g = true) : Clean g := by
  simp only [isDotted, Bool.and_eq_true, List.all_eq_true] at h
  apply clean_of_fields '.' (by decide)
  intro f hf
  have octet := h.2 f hf
  simp only [isOctet, Bool.and_eq_true] at octet
  exact clean_of_all tidy_isDigit octet.1.1.2

theorem clean_of_groupCount {gs : List (List Char)} {n : Nat} (h : groupCount gs = some n) :
    ∀ g ∈ gs, Clean g := by
  induction gs generalizing n with
  | nil => simp
  | cons g gs ih =>
    cases gs with
    | nil =>
      rw [groupCount] at h
      intro f hf
      rw [List.mem_singleton.mp hf]
      split at h
      · next hex => exact clean_of_isHexGroup hex
      · split at h
        · next dotted => exact clean_of_isDotted dotted
        · cases h
    | cons g' gs =>
      rw [groupCount] at h
      · split at h
        · next hex =>
          obtain ⟨m, hm, _⟩ := Option.map_eq_some_iff.mp h
          intro f hf
          rcases List.mem_cons.mp hf with rfl | hf
          · exact clean_of_isHexGroup hex
          · exact ih hm f hf
        · cases h
      · simp

theorem clean_of_colonFields {cs : List Char} (h : ∀ f ∈ colonFields cs, Clean f) : Clean cs := by
  unfold colonFields at h
  split at h
  · next e => rw [e]; exact clean_nil
  · exact clean_of_fields ':' (by decide) h

theorem append_of_cutAtDoubleColon {cs head tail : List Char}
    (h : cutAtDoubleColon cs = some (head, tail)) : head ++ ':' :: ':' :: tail = cs := by
  fun_induction cutAtDoubleColon cs generalizing head tail with
  | case1 rest => cases h; rfl
  | case2 c cs _ ih =>
    obtain ⟨r, hr, h⟩ := Option.map_eq_some_iff.mp h
    cases h
    rw [List.cons_append, ih hr]
  | case3 => cases h

theorem clean_of_isIpv6 {cs : List Char} (h : isIpv6 cs = true) : Clean cs := by
  unfold isIpv6 at h
  split at h
  · simp only [decide_eq_true_eq] at h
    exact clean_of_colonFields (clean_of_groupCount h)
  · next head tail cut =>
    simp only [Bool.and_eq_true, List.all_eq_true] at h
    have colon : isIriChar ':' = true := by decide
    have before : Clean head := clean_of_colonFields fun f hf => clean_of_isHexGroup (h.1 f hf)
    have after : Clean tail := by
      have counted := h.2
      split at counted
      · next count => exact clean_of_colonFields (clean_of_groupCount count)
      · cases counted
    rw [← append_of_cutAtDoubleColon cut]
    simp [before, after, colon]

theorem tidy_isFutureChar : Tidy fun c => isPlainAscii c || c = ':' := by
  apply tidy_isSegmentChar.mono
  intro c h
  simp only [Bool.or_eq_true] at h
  rcases h with h | h <;> simp [isSegmentChar, isPlain, h]

theorem clean_of_futureBody {cs : List Char} (h : futureBody cs = .ok ()) : Clean cs := by
  induction cs with
  | nil => exact clean_nil
  | cons c cs ih =>
    rw [futureBody] at h
    split at h
    · next hc =>
      simp [tidy_isFutureChar c hc, ih h]
    · cases h

/-- What follows the version is left to be checked; what comes before it is clean. -/
theorem clean_of_futureVersion {cs body : List Char} {versioned : Bool}
    (h : futureVersion cs = .ok (versioned, body)) (hbody : Clean body) : Clean cs := by
  induction cs generalizing versioned with
  | nil => exact clean_nil
  | cons c cs ih =>
    rw [futureVersion] at h
    split at h
    · next dot =>
      cases h
      have clean : isIriChar '.' = true := by decide
      simp [dot, clean, hbody]
    · split at h
      · next hex =>
        obtain ⟨r, hr, h⟩ := map_eq_ok_iff.mp h
        cases h
        simp [tidy_isHexDigit c hex, ih hr]
      · cases h

theorem clean_of_checkFuture {cs : List Char} (h : checkFuture cs = .ok ()) : Clean cs := by
  unfold checkFuture at h
  obtain ⟨⟨versioned, body⟩, hv, h⟩ := bind_eq_ok_iff.mp h
  dsimp only at h
  split at h
  · cases h
  · split at h
    · exact clean_of_futureVersion hv (clean_of_futureBody h)
    · cases h

theorem clean_of_checkAddress {cs : List Char} (h : checkAddress cs = .ok ()) : Clean cs := by
  unfold checkAddress at h
  have letters : isIriChar 'v' = true ∧ isIriChar 'V' = true := by decide
  split at h
  · simp [letters, clean_of_checkFuture h]
  · simp [letters, clean_of_checkFuture h]
  · split at h
    · next ip => exact clean_of_isIpv6 ip
    · cases h

theorem clean_of_host {cs read left : List Char} (h : host cs = .ok (read, left)) :
    Clean read := by
  unfold host at h
  split at h
  · split at h
    · cases h
    · obtain ⟨_, address, h⟩ := bind_eq_ok_iff.mp h
      obtain ⟨⟨more, left'⟩, behind, h⟩ := bind_eq_ok_iff.mp h
      cases h
      have brackets : isIriChar '[' = true ∧ isIriChar ']' = true := by decide
      simp only [List.cons_append, clean_cons, clean_append]
      exact ⟨brackets.1, clean_of_checkAddress address, brackets.2, clean_of_behindBracket behind⟩
  · obtain ⟨r, name, h⟩ := bind_eq_ok_iff.mp h
    have clean := clean_of_scan tidy_isPlain name
    split at h
    · obtain ⟨q, hq, h⟩ := map_eq_ok_iff.mp h
      cases h
      have colon : isIriChar ':' = true := by decide
      simp [clean, colon, clean_of_port hq]
    · cases h
      exact clean

theorem clean_of_authority {cs read left : List Char} (h : authority cs = .ok (read, left)) :
    Clean read := by
  unfold authority at h
  obtain ⟨r, user, h⟩ := bind_eq_ok_iff.mp h
  split at h
  · obtain ⟨q, hq, h⟩ := map_eq_ok_iff.mp h
    cases h
    have sign : isIriChar '@' = true := by decide
    simp [clean_of_scan tidy_isUserInfoChar user, sign, clean_of_host hq]
  · exact clean_of_host h

end IriText

namespace Reference

open IriText

theorem clean_of_withFragment {r s : Reference} {cs : List Char}
    (hr : Clean (r.scheme ++ r.authority ++ r.path ++ r.query))
    (h : r.withFragment cs = .ok s) : Clean s.chars := by
  unfold withFragment at h
  split at h
  · obtain ⟨f, hf, h⟩ := map_eq_ok_iff.mp h
    cases h
    obtain ⟨⟨read, left⟩, hs, hf⟩ := map_eq_ok_iff.mp hf
    cases hf
    have sign : isIriChar '#' = true := by decide
    have fragment := clean_of_scan tidy_isFragmentChar hs
    simp only [clean_append] at hr
    simp [chars, hr, sign, fragment]
  · cases h
    simp only [clean_append] at hr
    simp [chars, hr]

theorem clean_of_withQuery {r s : Reference} {cs : List Char}
    (hr : Clean (r.scheme ++ r.authority ++ r.path)) (h : r.withQuery cs = .ok s) :
    Clean s.chars := by
  unfold withQuery at h
  simp only [clean_append] at hr
  split at h
  · obtain ⟨⟨q, left⟩, hq, h⟩ := bind_eq_ok_iff.mp h
    have sign : isIriChar '?' = true := by decide
    have query := clean_of_scan tidy_isQueryChar hq
    exact clean_of_withFragment (by simp [hr, sign, query]) h
  · exact clean_of_withFragment (by simp [hr]) h

theorem clean_of_withPath {r s : Reference} {cs : List Char}
    (hr : Clean (r.scheme ++ r.authority)) (h : r.withPath cs = .ok s) : Clean s.chars := by
  unfold withPath at h
  simp only [clean_append] at hr
  obtain ⟨⟨p, left⟩, hp, h⟩ := bind_eq_ok_iff.mp h
  have path := clean_of_scan tidy_isPathChar hp
  exact clean_of_withQuery (by simp [hr, path]) h

theorem clean_of_withAuthority {r s : Reference} {cs : List Char} (hr : Clean r.scheme)
    (h : r.withAuthority cs = .ok s) : Clean s.chars := by
  unfold withAuthority at h
  obtain ⟨⟨a, left⟩, ha, h⟩ := bind_eq_ok_iff.mp h
  have slash : isIriChar '/' = true := by decide
  have authority := clean_of_authority ha
  exact clean_of_withPath (by simp [hr, slash, authority]) h

theorem clean_of_afterScheme {scheme cs : List Char} {r : Reference} (hs : Clean scheme)
    (h : afterScheme scheme cs = .ok r) : Clean r.chars := by
  unfold afterScheme at h
  split at h
  · exact clean_of_withAuthority hs h
  · exact clean_of_withPath (by simp [hs, empty]) h

theorem clean_of_cutScheme {cs scheme rest : List Char}
    (h : cutScheme cs = some (scheme, rest)) : Clean scheme := by
  unfold cutScheme at h
  split at h
  · split at h
    · cases h
      have colon : isIriChar ':' = true := by decide
      have letters : (cs.takeWhile isSchemeChar).all isSchemeChar = true := List.all_takeWhile
      simp [clean_of_all tidy_isSchemeChar letters, colon]
    · cases h
  · cases h

/-- Each directory has a clean name. -/
def CleanAll (ds : Directories) : Prop := ∀ d ∈ ds, Clean d

theorem clean_chars {ds : Directories} (h : CleanAll ds) : Clean ds.chars := by
  intro c hc
  obtain ⟨d, hd, hc⟩ := List.mem_flatMap.mp hc
  rcases List.mem_append.mp hc with hc | hc
  · exact h d (List.mem_reverse.mp hd) c hc
  · rw [List.mem_singleton.mp hc]
    decide

theorem cleanAll_leave {below : Bool} {ds : Directories} (h : CleanAll ds) :
    CleanAll (ds.leave below) := by
  unfold Directories.leave
  split
  · exact h
  · cases below <;> simp [CleanAll]
  · intro d hd
    exact h d (List.mem_cons_of_mem _ hd)

theorem cleanAll_enter {below : Bool} {ds es : Directories} {segment : List Char}
    (h : CleanAll ds) (hs : Clean segment) (entered : ds.enter below segment = .ok es) :
    CleanAll es := by
  unfold Directories.enter at entered
  split at entered
  · obtain ⟨_, _, entered⟩ := map_eq_ok_iff.mp entered
    cases entered
    exact cleanAll_leave h
  · split at entered
    · obtain ⟨_, _, entered⟩ := map_eq_ok_iff.mp entered
      cases entered
      exact h
    · cases entered
      intro d hd
      rcases List.mem_cons.mp hd with rfl | hd
      · exact hs
      · exact h d hd

theorem eq_of_checked {below : Bool} {path checkedPath : List Char}
    (h : Directories.checked below path = .ok checkedPath) : checkedPath = path := by
  unfold Directories.checked at h
  split at h
  · split at h
    · cases h
      rfl
    · cases h
  · cases h
    rfl

theorem clean_of_close {below : Bool} {ds : Directories} {segment path : List Char}
    (h : CleanAll ds) (hs : Clean segment) (closed : ds.close below segment = .ok path) :
    Clean path := by
  unfold Directories.close at closed
  split at closed
  · rw [eq_of_checked closed]
    exact clean_chars (cleanAll_leave h)
  · split at closed
    · rw [eq_of_checked closed]
      exact clean_chars h
    · rw [eq_of_checked closed]
      simp [clean_chars h, hs]

theorem clean_of_walkPath {below : Bool} {allowed : Char → Bool} (ha : Tidy allowed)
    {ds : Directories} (hds : CleanAll ds) {segment : List Char} (hs : Clean segment)
    {cs path left : List Char} (h : walkPath below allowed ds segment cs = .ok (path, left)) :
    Clean path := by
  fun_induction walkPath below allowed ds segment cs generalizing path left with
  | case1 allowed ds segment =>
    obtain ⟨p, hp, h⟩ := map_eq_ok_iff.mp h
    cases h
    exact clean_of_close hds (by simpa using hs) hp
  | case2 allowed ds segment c cs _ =>
    obtain ⟨p, hp, h⟩ := map_eq_ok_iff.mp h
    cases h
    exact clean_of_close hds (by simpa using hs) hp
  | case3 _ ds segment cs _ ih =>
    obtain ⟨es, he, h⟩ := bind_eq_ok_iff.mp h
    exact ih es tidy_isSegmentChar (cleanAll_enter hds (by simpa using hs) he) clean_nil h
  | case4 _ ds segment a b rest digits _ _ ih =>
    simp only [Bool.and_eq_true] at digits
    have sign : isIriChar '%' = true := by decide
    refine ih ha hds ?_ h
    simp [tidy_isHexDigit _ digits.1, tidy_isHexDigit _ digits.2, sign, hs]
  | case5 => cases h
  | case6 => cases h
  | case7 allowed ds segment c cs _ _ _ hc ih =>
    exact ih ha hds (by simp [ha c hc, hs]) h
  | case8 => cases h

theorem mem_of_mem_consToFirst {c d : Char} {ps : List (List Char)} {f : List Char}
    (hf : f ∈ Text.consToFirst c ps) (hd : d ∈ f) : d = c ∨ ∃ g ∈ ps, d ∈ g := by
  cases ps with
  | nil =>
    rw [List.mem_singleton.mp hf] at hd
    exact .inl (List.mem_singleton.mp hd)
  | cons p ps =>
    rcases List.mem_cons.mp hf with rfl | hf
    · rcases List.mem_cons.mp hd with rfl | hd
      · exact .inl rfl
      · exact .inr ⟨p, by simp, hd⟩
    · exact .inr ⟨f, by simp [hf], hd⟩

theorem mem_of_mem_fields {sep : Char} {cs f : List Char} (hf : f ∈ Text.fields sep cs) {d : Char}
    (hd : d ∈ f) : d ∈ cs := by
  induction cs generalizing f with
  | nil =>
    rw [List.mem_singleton.mp hf] at hd
    cases hd
  | cons c cs ih =>
    rw [Text.fields] at hf
    split at hf
    · rcases List.mem_cons.mp hf with rfl | hf
      · cases hd
      · exact List.mem_cons_of_mem _ (ih hf hd)
    · obtain rfl | ⟨g, hg, hd⟩ := mem_of_mem_consToFirst hf hd
      · simp
      · exact List.mem_cons_of_mem _ (ih hg hd)

theorem cleanAll_ofPath {below : Bool} {path : List Char} (h : Clean path) :
    CleanAll (Directories.ofPath below path) := by
  unfold Directories.ofPath
  split
  · cases below <;> simp [CleanAll]
  · intro d hd c hc
    have piece := List.mem_reverse.mp (List.mem_of_mem_drop hd)
    exact h c (mem_of_mem_fields piece hc)

theorem clean_of_readAgainst {base r : Reference} (hb : Clean base.chars) {cs : List Char}
    (h : base.readAgainst cs = .ok r) : Clean r.chars := by
  simp only [chars, clean_append] at hb
  obtain ⟨⟨⟨⟨scheme, authority⟩, path⟩, query⟩, _⟩ := hb
  unfold readAgainst at h
  split at h
  · cases h
    simp [chars, scheme, authority, path, query]
  · exact clean_of_withAuthority scheme h
  · obtain ⟨⟨p, left⟩, hp, h⟩ := bind_eq_ok_iff.mp h
    have walked := clean_of_walkPath tidy_isSegmentChar (by simp [CleanAll]) clean_nil hp
    exact clean_of_withQuery (by simp [scheme, authority, walked]) h
  · exact clean_of_withQuery (by simp [scheme, authority, path]) h
  · exact clean_of_withFragment (by simp [scheme, authority, path, query]) h
  · obtain ⟨⟨p, left⟩, hp, h⟩ := bind_eq_ok_iff.mp h
    have walked := clean_of_walkPath tidy_isFirstSegmentChar (cleanAll_ofPath path) clean_nil hp
    exact clean_of_withQuery (by simp [scheme, authority, walked]) h

theorem clean_of_parse {s : String} {r : Reference} (h : parse s = .ok r) : Clean r.chars := by
  unfold parse at h
  split at h
  · cases h
  · split at h
    · next cut => exact clean_of_afterScheme (clean_of_cutScheme cut) h
    · cases hr : readRelative s.toList with
      | error e => rw [hr] at h; cases h
      | ok _ => rw [hr] at h; cases h

theorem clean_of_resolve {base r : Reference} (hb : Clean base.chars) {s : String}
    (h : base.resolve s = .ok r) : Clean r.chars := by
  unfold resolve at h
  split at h
  · cases h
  · split at h
    · next cut => exact clean_of_afterScheme (clean_of_cutScheme cut) h
    · exact clean_of_readAgainst hb h

theorem isIriRef_toIri {r : Reference} (h : Clean r.chars) : isIriRef r.toIri = true := by
  rw [isIriRef, toIri, String.toList_ofList, List.all_eq_true]
  exact h

end Reference

theorem isIriRef_of_parse {s : String} {iri : Iri} (h : Iri.parse s = .ok iri) :
    isIriRef iri = true := by
  obtain ⟨r, hr, rfl⟩ := map_eq_ok_iff.mp h
  exact Reference.isIriRef_toIri (Reference.clean_of_parse hr)

/-- A predicate can stand between angle brackets, whatever base it has been read against. -/
theorem isIriRef_of_readPredicate {base : Option String} {reference : Option Reference}
    (hb : readBase base = .ok reference) {text : String} {iri : Iri}
    (h : readPredicate reference text = .ok iri) : isIriRef iri = true := by
  unfold readPredicate at h
  split at h
  · next resolved =>
    obtain ⟨r, hr, rfl⟩ := map_eq_ok_iff.mp h
    have parsed : ∃ s, Reference.parse s = .ok resolved := by
      unfold readBase at hb
      split at hb
      · cases hb
      · split at hb
        · cases hb
        · next hr =>
          cases hb
          exact ⟨_, hr⟩
    obtain ⟨s, hs⟩ := parsed
    exact Reference.isIriRef_toIri (Reference.clean_of_resolve (Reference.clean_of_parse hs) hr)
  · exact isIriRef_of_parse h

end GraphAccess
