import Cql.Proofs.Program.Filling
import Cql.Proofs.Token.Leading

/-!
What reading a text gives, said about its tokens. The canonical text of a query has the tokens of
its source, with a question mark for each placeholder; so the source can be written back from the
canonical text and the names, and the canonical text is its own canonical text.
-/

namespace Cql

namespace Token

variable {ts : List Token}

/-- The tokens that the scanner finds start as their kinds say. -/
theorem opens_of_mem_scan {cs : List Char} {t : Token} (h : scan cs = (ts, none)) (ht : t ∈ ts)
    (hkind : t.kind = .colonNamed) : t.chars = ':' :: t.chars.tail := by
  obtain ⟨c, ds, taken, rest, hchars, hnext⟩ := exists_next_of_mem_scan h ht
  rw [hchars, (next_placeholder hnext).2.1 hkind, List.tail_cons]

theorem name?_eq_some {t : Token} (hkind : t.kind = .colonNamed) : t.name? = some t.chars.tail := by
  rw [name?, hkind]

theorem countP_canonical (ts : List Token) :
    (ts.map canonical).countP (·.kind = .positional) = ts.countP isPlaceholder := by
  rw [List.countP_map]
  refine List.countP_congr fun t _ => ?_
  simp only [Function.comp_apply, canonical]
  by_cases hplace : t.isPlaceholder
  · simp [hplace]
  · simp_all [isPlaceholder]

/-- Names after colons, in place of the question marks, give the text back. -/
theorem fill_canonical (hcolon : ∀ t ∈ ts, t.isPlaceholder → t.kind = .colonNamed)
    (hopens : ∀ t ∈ ts, t.kind = .colonNamed → t.chars = ':' :: t.chars.tail) :
    fill (ts.map canonical) ((ts.filterMap name?).map fun name => ':' :: name) = flatten ts := by
  induction ts with
  | nil => rfl
  | cons t ts ih =>
    have hlater := ih (fun u hu => hcolon u (by simp [hu])) (fun u hu => hopens u (by simp [hu]))
    rw [List.map_cons, canonical, flatten_cons]
    by_cases hplace : t.isPlaceholder
    · have hkind := hcolon t (by simp) hplace
      rw [if_pos hplace, List.filterMap_cons_some (name?_eq_some hkind), List.map_cons, fill,
        if_pos rfl, hlater, ← hopens t (by simp) hkind]
    · have hnone : t.name? = none := name?_eq_none (by simpa using hplace)
      have hother : t.kind ≠ .positional := by
        intro hkind
        simp [isPlaceholder, hkind] at hplace
      rw [if_neg hplace, List.filterMap_cons_none hnone, ← hlater]
      cases (ts.filterMap name?).map fun name => ':' :: name with
      | nil => rw [fill]
      | cons => rw [fill, if_neg hother]

end Token

namespace Query

theorem eq_of_mixture?_eq_none {ds : List Dialect} (h : mixture? ds = none) {d e : Dialect}
    (hd : d ∈ ds) (he : e ∈ ds) : d = e := by
  cases ds with
  | nil => cases hd
  | cons first ds =>
    have hall : ∀ x ∈ first :: ds, x = first := by
      simpa [mixture?] using h
    rw [hall d hd, hall e he]

variable {s : String} {q : Query}

/-- What a text that reads or writes data is read as. -/
theorem read_eq_ok (hverb : Token.isManipulation s.toList) (h : read s = .ok q) :
    ∃ ts, Token.scan s.toList = (ts, none) ∧ mixture? (ts.filterMap dialect?) = none ∧
      q = {
        source := s
        canonical := String.ofList (ts.flatMap canonicalChars)
        names := (ts.filterMap Token.name?).map String.ofList
        parameterCount := ts.countP Token.isPlaceholder } := by
  rw [read, if_pos hverb, Token.readAll] at h
  rcases hscan : Token.scan s.toList with ⟨ts, fault⟩
  cases fault with
  | some fault => simp [hscan] at h
  | none =>
    simp only [hscan, ofTokens] at h
    cases hmixture : mixture? (ts.filterMap dialect?) with
    | some pair => simp [hmixture] at h
    | none =>
      simp only [hmixture, Except.ok.injEq] at h
      exact ⟨ts, rfl, hmixture, h.symm⟩

/-- Next to a name after a colon, a text has only such placeholders. -/
theorem kind_eq_colonNamed {ts : List Token} (hmixture : mixture? (ts.filterMap dialect?) = none)
    (hcolon : ∃ t ∈ ts, t.kind = .colonNamed) {u : Token} (hu : u ∈ ts) (hplace : u.isPlaceholder) :
    u.kind = .colonNamed := by
  obtain ⟨t, ht, hkind⟩ := hcolon
  have hmem : ∀ d, dialect? u = some d → d = .colon := by
    intro d hd
    apply eq_of_mixture?_eq_none hmixture
    · exact List.mem_filterMap.mpr ⟨u, hu, hd⟩
    · exact List.mem_filterMap.mpr ⟨t, ht, by rw [dialect?, hkind]⟩
  obtain ⟨kind, chars⟩ := u
  cases kind with
  | positional => exact absurd (hmem .mark rfl) (by decide)
  | braceNamed => exact absurd (hmem .braces rfl) (by decide)
  | colonNamed => rfl
  | _ => cases hplace

/-- Reading changes the placeholders of a text and nothing else. With names after colons, the
canonical text and the names hold the whole text. -/
theorem readAll_canonical (hverb : Token.isManipulation s.toList) (h : read s = .ok q) :
    ∃ ts, Token.readAll s.toList = .ok ts ∧
      Token.readAll q.canonical.toList = .ok (ts.map Token.canonical) ∧
      ((∃ t ∈ ts, t.kind = .colonNamed) →
        (ts.map Token.canonical).countP (·.kind = .positional) = q.names.length ∧
        Token.fill (ts.map Token.canonical) (q.names.map fun name => ':' :: name.toList) =
          s.toList) := by
  obtain ⟨ts, hscan, hmixture, rfl⟩ := read_eq_ok hverb h
  refine ⟨ts, ?_, ?_, fun hcolon => ?_⟩
  · rw [Token.readAll, hscan]
  · rw [String.toList_ofList, Token.readAll, Token.scan_canonical hscan]
  have hkinds : ∀ u ∈ ts, u.isPlaceholder → u.kind = .colonNamed :=
    fun u hu => kind_eq_colonNamed hmixture hcolon hu
  have hnames : (((ts.filterMap Token.name?).map String.ofList).map
      fun name => ':' :: name.toList) = (ts.filterMap Token.name?).map fun name => ':' :: name := by
    simp
  constructor
  · rw [Token.countP_canonical, List.length_map, List.length_filterMap_eq_countP]
    apply List.countP_congr
    intro u hu
    constructor
    · intro hplace
      rw [Token.name?_eq_some (hkinds u hu hplace), Option.isSome_some]
    · intro hname
      by_contra hplace
      rw [Token.name?_eq_none (by simpa using hplace)] at hname
      cases hname
  · rw [hnames, Token.fill_canonical hkinds, Token.flatten_scan hscan]
    exact fun t ht => Token.opens_of_mem_scan hscan ht

/-- Names next to a comment, to each other, to a colon of their own and to quoted text. -/
theorem readAll_canonical_touching : ∃ ts,
    Token.readAll "SELECT/*:x*/:a:b, ::c':d'--:e".toList = .ok ts ∧
      Token.readAll "SELECT/*:x*/??, :?':d'--:e".toList = .ok (ts.map Token.canonical) ∧
      (ts.map Token.canonical).countP (·.kind = .positional) = 3 ∧
      Token.fill (ts.map Token.canonical) [[':', 'a'], [':', 'b'], [':', 'c']] =
        "SELECT/*:x*/:a:b, ::c':d'--:e".toList := by
  have hread : read "SELECT/*:x*/:a:b, ::c':d'--:e" = .ok {
      source := "SELECT/*:x*/:a:b, ::c':d'--:e"
      canonical := "SELECT/*:x*/??, :?':d'--:e"
      names := ["a", "b", "c"]
      parameterCount := 3 } := by cbv
  obtain ⟨ts, hts, hcanonical, hnames⟩ := readAll_canonical (by cbv) hread
  have hcolon : (Token.readAll "SELECT/*:x*/:a:b, ::c':d'--:e".toList).toOption.any
      fun ts => ts.any (·.kind = .colonNamed) := by cbv
  rw [hts] at hcolon
  obtain ⟨hcount, hfill⟩ := hnames (by simpa [Except.toOption] using hcolon)
  exact ⟨ts, hts, hcanonical, hcount, hfill⟩

theorem dialect?_canonical (t : Token) : ∀ d ∈ dialect? t.canonical, d = .mark := by
  rw [Token.canonical]
  by_cases hplace : t.isPlaceholder
  · rw [if_pos hplace]
    simp [dialect?]
  · rw [if_neg hplace, Token.dialect?_eq_none (by simpa using hplace)]
    simp

theorem name?_canonical (t : Token) : t.canonical.name? = none := by
  rw [Token.canonical]
  by_cases hplace : t.isPlaceholder
  · rw [if_pos hplace]
    rfl
  · rw [if_neg hplace, Token.name?_eq_none (by simpa using hplace)]

theorem isPlaceholder_canonical (t : Token) : t.canonical.isPlaceholder = t.isPlaceholder := by
  rw [Token.canonical]
  by_cases hplace : t.isPlaceholder
  · rw [if_pos hplace, hplace]
    rfl
  · rw [if_neg hplace]

theorem canonicalChars_canonical (t : Token) : canonicalChars t.canonical = canonicalChars t := by
  rw [canonicalChars, isPlaceholder_canonical, Token.chars_canonical]
  by_cases hplace : t.isPlaceholder
  · rw [if_pos hplace, canonicalChars, if_pos hplace]
  · rw [if_neg hplace]

/-- The canonical tokens make a query of their own text, with slots that have no names. -/
theorem ofTokens_canonical (source : String) (ts : List Token) :
    ofTokens source (ts.map Token.canonical) = .ok {
      source
      canonical := String.ofList (ts.flatMap canonicalChars)
      names := []
      parameterCount := ts.countP Token.isPlaceholder } := by
  have hmixture : mixture? ((ts.map Token.canonical).filterMap dialect?) = none := by
    apply Token.mixture?_eq_none
    intro d hd
    obtain ⟨_, ht, hdialect⟩ := List.mem_filterMap.mp hd
    obtain ⟨t, -, rfl⟩ := List.mem_map.mp ht
    exact dialect?_canonical t d hdialect
  have htext : (ts.map Token.canonical).flatMap canonicalChars = ts.flatMap canonicalChars := by
    rw [List.flatMap_map, funext canonicalChars_canonical]
  have hnames : (ts.map Token.canonical).filterMap Token.name? = [] := by
    rw [List.filterMap_map, List.filterMap_eq_nil_iff]
    exact fun t _ => name?_canonical t
  have hcount : (ts.map Token.canonical).countP Token.isPlaceholder =
      ts.countP Token.isPlaceholder := by
    rw [List.countP_map, Function.comp_def, funext isPlaceholder_canonical]
  simp only [ofTokens, hmixture, htext, hnames, hcount, List.map_nil]

/-- The canonical text is read as a text with question marks, unless it has lost its verb. -/
theorem read_canonical_eq (h : read s = .ok q) : read q.canonical = .ok {
    source := q.canonical
    canonical := q.canonical
    names := []
    parameterCount := if Token.isManipulation q.canonical.toList then q.parameterCount else 0 } := by
  by_cases hverb : Token.isManipulation s.toList
  · obtain ⟨ts, hscan, -, rfl⟩ := read_eq_ok hverb h
    by_cases hagain : Token.isManipulation (ts.flatMap canonicalChars)
    · simp only [read, String.toList_ofList, hagain, if_true, Token.readAll,
        Token.scan_canonical hscan, ofTokens_canonical]
    · simp only [read, String.toList_ofList, hagain, if_false, verbatim, Bool.false_eq_true]
  · rw [read, if_neg hverb] at h
    cases h
    rw [verbatim, read, if_neg hverb, if_neg hverb]
    rfl

/-- The verb stays, if no comment before it is taken to end at its first slash. -/
theorem isManipulation_canonical (hverb : Token.isManipulation s.toList) (h : read s = .ok q)
    (hself : ∀ ts, Token.readAll s.toList = .ok ts → ∀ t ∈ Token.leading ts, ¬ t.closesItself) :
    Token.isManipulation q.canonical.toList := by
  obtain ⟨ts, hscan, -, rfl⟩ := read_eq_ok hverb h
  have hkept := hself ts (by rw [Token.readAll, hscan])
  rw [String.toList_ofList, Token.isManipulation, Token.verb?_canonical hscan hkept]
  exact hverb

/-- Reading the canonical text gives it back without names. The slots are counted again, unless a
comment before the verb is taken to end at its first slash. -/
theorem read_canonical (h : read s = .ok q) : ∃ q', read q.canonical = .ok q' ∧
    q'.canonical = q.canonical ∧ q'.names = [] ∧
    q'.parameterCount =
      (if Token.isManipulation q.canonical.toList then q.parameterCount else 0) ∧
    ((∀ ts, Token.readAll s.toList = .ok ts → ∀ t ∈ Token.leading ts, ¬ t.closesItself) →
      q'.parameterCount = q.parameterCount) := by
  refine ⟨_, read_canonical_eq h, rfl, rfl, rfl, fun hself => ?_⟩
  by_cases hverb : Token.isManipulation s.toList
  · exact if_pos (isManipulation_canonical hverb h hself)
  · rw [read, if_neg hverb] at h
    cases h
    exact if_neg hverb

/-- Comments, blanks and a parenthesis before the verb leave it where it is. -/
theorem read_canonical_commented : ∃ q', read "--#\x7ba\n /* */(SELECT/*/?*/?" = .ok q' ∧
    q'.canonical = "--#\x7ba\n /* */(SELECT/*/?*/?" ∧ q'.names = [] ∧ q'.parameterCount = 1 := by
  have hread : read "--#\x7ba\n /* */(SELECT/*/?*/#\x7bb\x7d" = .ok {
      source := "--#\x7ba\n /* */(SELECT/*/?*/#\x7bb\x7d"
      canonical := "--#\x7ba\n /* */(SELECT/*/?*/?"
      names := ["b"]
      parameterCount := 1 } := by cbv
  obtain ⟨q', hagain, hcanonical, hnames, -, hcount⟩ := read_canonical hread
  refine ⟨q', hagain, hcanonical, hnames, hcount fun ts hts t ht => ?_⟩
  have hleading : (Token.readAll "--#\x7ba\n /* */(SELECT/*/?*/#\x7bb\x7d".toList).toOption.all
      fun ts => (Token.leading ts).all fun t => !t.closesItself := by cbv
  rw [hts] at hleading
  simpa using List.all_eq_true.mp hleading t ht

/-- Where the scanner finds a comment and a placeholder, looking for the verb finds a comment that
ends at its first slash and one that runs to the end of the line. With the placeholder goes the end
of the line, and so the verb. -/
theorem read_canonical_loses_verb : ¬ ∀ s q, read s = .ok q → ∃ q', read q.canonical = .ok q' ∧
    q'.canonical = q.canonical ∧ q'.parameterCount = q.parameterCount ∧ q'.names = [] := by
  intro hstable
  obtain ⟨q', hagain, -, hcount, -⟩ := hstable "/*/--*/#\x7ba\nSELECT\x7d" {
      source := "/*/--*/#\x7ba\nSELECT\x7d"
      canonical := "/*/--*/?"
      names := ["a\nSELECT"]
      parameterCount := 1 } (by cbv)
  have hread : read "/*/--*/?" = .ok (verbatim "/*/--*/?") := by cbv
  rw [hread] at hagain
  cases hagain
  cases hcount

end Query

end Cql
