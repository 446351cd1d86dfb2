import Cql.Proofs.Query.Canonical
import Cql.Query.Slotwise

/-!
Slots and placeholders. What is read token by token is told by the placeholders of the text: their
dialects decide whether it is read at all, and either no slot has a name or every slot has the name
of its placeholder.
-/

namespace Cql

namespace Token

variable {cs : List Char} {ts : List Token} {t : Token}

/-- Only a placeholder has a dialect, and only one that is no mark has a name. -/
theorem dialect?_cases (t : Token) :
    (t.isPlaceholder = false ∧ Query.dialect? t = none ∧ t.name? = none) ∨
      (t.isPlaceholder ∧ Query.dialect? t = some .mark ∧ t.name? = none) ∨
      ∃ d name, t.isPlaceholder ∧ Query.dialect? t = some d ∧ d ≠ .mark ∧ t.name? = some name := by
  obtain ⟨kind, chars⟩ := t
  cases kind with
  | positional => exact .inr (.inl ⟨rfl, rfl, rfl⟩)
  | colonNamed => exact .inr (.inr ⟨.colon, _, rfl, rfl, nofun, rfl⟩)
  | braceNamed => exact .inr (.inr ⟨.braces, _, rfl, rfl, nofun, rfl⟩)
  | _ => exact .inl ⟨rfl, rfl, rfl⟩

theorem isSome_dialect? (t : Token) : (Query.dialect? t).isSome = t.isPlaceholder := by
  obtain ⟨hplace, hdialect, -⟩ | ⟨hplace, hdialect, -⟩ | ⟨d, name, hplace, hdialect, -⟩ :=
    dialect?_cases t
  all_goals simp [hplace, hdialect]

theorem isPlaceholder_of_name? (h : t.name?.isSome) : t.isPlaceholder := by
  by_contra hplace
  rw [name?_eq_none (by simpa using hplace)] at h
  cases h

theorem isSome_name?_of_ne (hplace : t.isPlaceholder) (h : Query.dialect? t ≠ some .mark) :
    t.name?.isSome := by
  obtain ⟨hnone, -⟩ | ⟨-, hmark, -⟩ | ⟨d, name, -, -, -, hname⟩ := dialect?_cases t
  · rw [hplace] at hnone
    cases hnone
  · exact absurd hmark h
  · rw [hname]
    rfl

theorem filterMap_name?_eq_nil (h : ∀ t ∈ ts, ∀ d ∈ Query.dialect? t, d = .mark) :
    ts.filterMap name? = [] := by
  rw [List.filterMap_eq_nil_iff]
  intro t ht
  obtain ⟨-, -, hname⟩ | ⟨-, -, hname⟩ | ⟨d, name, -, hdialect, hne, -⟩ := dialect?_cases t
  · exact hname
  · exact hname
  · exact absurd (h t ht d hdialect) hne

/-- Without marks, names and placeholders are as many. -/
theorem length_filterMap_name? (h : ∀ t ∈ ts, Query.dialect? t ≠ some .mark) :
    (ts.filterMap name?).length = ts.countP isPlaceholder := by
  rw [List.length_filterMap_eq_countP]
  exact List.countP_congr fun t ht =>
    ⟨isPlaceholder_of_name?, fun hplace => isSome_name?_of_ne hplace (h t ht)⟩

theorem exists_inner_of_cutBraces {taken rest : List Char}
    (h : cutBraces cs = .ok (taken, rest)) :
    ∃ inner d, taken = inner ++ [d] ∧ Text.Blank.trim inner ≠ [] := by
  rw [cutBraces] at h
  split at h
  · cases h
  · rename_i inner d later hcut
    split at h
    · cases h
    · rename_i hnamed
      cases h
      exact ⟨inner, d, rfl, by simpa using hnamed⟩

/-- The names of placeholders are never empty. -/
theorem name?_ne_nil (h : scan cs = (ts, none)) (ht : t ∈ ts) {name : List Char}
    (hname : t.name? = some name) : name ≠ [] := by
  obtain ⟨c, ds, taken, rest, hchars, hnext⟩ := exists_next_of_mem_scan h ht
  obtain ⟨hkind, hcut⟩ := next_eq_ok_iff.mp hnext
  have hopens := opens_form c ds.head?
  rw [name?, ← hkind, hchars] at hname
  cases hform : form c ds.head? with
  | colon =>
    rw [hform] at hname hcut hopens
    cases hname
    exact Form.ne_nil_of_looksAhead hcut hopens rfl
  | braces =>
    rw [hform] at hname hcut
    cases hname
    rw [Form.cut] at hcut
    cases hbraces : cutBraces ds.tail with
    | error fault =>
      rw [hbraces] at hcut
      cases hcut
    | ok cut =>
      rw [hbraces] at hcut
      cases hcut
      obtain ⟨inner, d, hcut, hinner⟩ := exists_inner_of_cutBraces hbraces
      simpa [Cut.cons, hcut] using hinner
  | _ =>
    rw [hform] at hname
    cases hname

end Token

namespace Query

variable {s : String} {ts : List Token} {ds : List Dialect} {first second d : Dialect}
  {t : Token}

theorem mixture?_eq_some_iff : mixture? ds = some (first, second) ↔
    ∃ before after, ds = first :: (before ++ second :: after) ∧ second ≠ first ∧
      ∀ d ∈ before, d = first := by
  cases ds with
  | nil => simp [mixture?]
  | cons d ds =>
    rw [mixture?, Option.map_eq_some_iff]
    constructor
    · rintro ⟨e, hfind, heq⟩
      cases heq
      obtain ⟨hne, before, after, rfl, hbefore⟩ := List.find?_eq_some_iff_append.mp hfind
      exact ⟨before, after, rfl, by simpa using hne, by simpa using hbefore⟩
    · rintro ⟨before, after, heq, hne, hbefore⟩
      cases heq
      refine ⟨second, List.find?_eq_some_iff_append.mpr ?_, rfl⟩
      exact ⟨by simpa using hne, before, after, rfl, by simpa using hbefore⟩

theorem mixture?_eq_none_iff : mixture? ds = none ↔ ∀ d ∈ ds, ∀ e ∈ ds, d = e := by
  constructor
  · exact fun h d hd e he => eq_of_mixture?_eq_none h hd he
  · intro h
    cases ds with
    | nil => rfl
    | cons d ds =>
      have hall : ∀ e ∈ d :: ds, e = d := fun e he => h e he d (by simp)
      exact Token.mixture?_eq_none hall

theorem mixture?_concat (h : mixture? ds = none) (d : Dialect) : mixture? (ds ++ [d]) =
    if ds.head?.getD d = d then none else some (ds.head?.getD d, d) := by
  cases ds with
  | nil => simp [mixture?]
  | cons e ds =>
    have hfind : ds.find? (· ≠ e) = none := by simpa [mixture?] using h
    rw [List.cons_append, mixture?, List.find?_append, hfind]
    by_cases hd : d = e
    · simp [hd]
    · simp [hd, Ne.symm hd]

namespace Slotwise

variable {names : List String} {name : String} {slot : Nat}

theorem numbered_concat (names : List String) (name : String) :
    numbered (names ++ [name]) = numbered names ++ [(names.length, name)] := by
  simp [numbered, List.zipIdx_append]

theorem keys_numbered (names : List String) :
    (numbered names).map (·.1) = List.range names.length := by
  rw [numbered, List.map_map, List.range_eq_range']
  exact List.zipIdx_map_snd 0 names

theorem put_numbered (names : List String) (name : String) :
    Ordered.put names.length name (numbered names) = numbered (names ++ [name]) := by
  rw [numbered_concat]
  refine Ordered.put_of_lt fun entry hentry => ?_
  have hkey : entry.1 ∈ (numbered names).map (·.1) := List.mem_map_of_mem hentry
  rw [keys_numbered] at hkey
  exact List.mem_range.mp hkey

theorem get?_numbered (names : List String) (slot : Nat) :
    Names.get? (numbered names) slot = names[slot]? := by
  induction names using List.reverseRecOn with
  | nil => rfl
  | append_singleton names name ih =>
    rw [Names.get?] at ih ⊢
    rw [numbered_concat, List.lookup_append, ih]
    by_cases hslot : slot < names.length
    · rw [List.getElem?_append_left hslot, List.getElem?_eq_getElem hslot]
      rfl
    · have hge : names.length ≤ slot := Nat.not_lt.mp hslot
      rw [List.getElem?_append_right hge, List.getElem?_eq_none hge]
      by_cases heq : slot = names.length
      · simp [heq]
      · have hout : slot - names.length ≠ 0 := by omega
        simp [List.lookup_cons, beq_false_of_ne heq, hout]

/-- What tokens come to whose placeholders are of one dialect. -/
def known (ts : List Token) : Tally where
  canonical := ts.flatMap canonicalChars
  names := numbered ((ts.filterMap Token.name?).map String.ofList)
  count := ts.countP Token.isPlaceholder
  dialect := (ts.filterMap dialect?).head?

/-- What tokens come to. -/
def outcome (ts : List Token) : Except Fault Tally :=
  match mixture? (ts.filterMap dialect?) with
  | some (first, second) => .error (.mixed first second)
  | none => .ok (known ts)

theorem known_plain (h : dialect? t = none) :
    known (ts ++ [t]) = { known ts with canonical := (known ts).canonical ++ t.chars } := by
  have hplace : t.isPlaceholder = false := by
    rw [← Token.isSome_dialect?, h]
    rfl
  simp [known, h, hplace, canonicalChars, Token.name?_eq_none hplace]

/-- The slot of a further placeholder has the number of slots before it, under which its name is
put. -/
theorem known_placeholder (h : dialect? t = some d) (hsame : ∀ e ∈ ts.filterMap dialect?, e = d) :
    known (ts ++ [t]) = {
      canonical := (known ts).canonical ++ canonicalMark
      names :=
        match t.name? with
        | some name => Ordered.put (known ts).count (String.ofList name) (known ts).names
        | none => (known ts).names
      count := (known ts).count + 1
      dialect := some d } := by
  have hplace : t.isPlaceholder := by
    rw [← Token.isSome_dialect?, h]
    rfl
  have hnames : (known (ts ++ [t])).names =
      match t.name? with
      | some name => Ordered.put (known ts).count (String.ofList name) (known ts).names
      | none => (known ts).names := by
    cases hname : t.name? with
    | none => simp [known, hname]
    | some name =>
      have hd : d ≠ .mark := by
        obtain ⟨-, -, hnone⟩ | ⟨-, -, hnone⟩ | ⟨e, -, -, he, hne, -⟩ := Token.dialect?_cases t
        · simp [hname] at hnone
        · simp [hname] at hnone
        · exact Option.some.inj (h.symm.trans he) ▸ hne
      have hcount : (ts.filterMap Token.name?).length = ts.countP Token.isPlaceholder :=
        Token.length_filterMap_name? fun u hu hmark =>
          hd (hsame _ (List.mem_filterMap.mpr ⟨u, hu, hmark⟩)).symm
      have hput := put_numbered ((ts.filterMap Token.name?).map String.ofList) (String.ofList name)
      rw [List.length_map, hcount] at hput
      simpa [known, hname] using hput.symm
  have hfirst : (known (ts ++ [t])).dialect = some d := by
    change ((ts ++ [t]).filterMap dialect?).head? = some d
    rw [List.filterMap_append, List.head?_append]
    cases hhead : (ts.filterMap dialect?).head? with
    | none => simp [h]
    | some e => simp [hsame e (List.mem_of_mem_head? hhead)]
  rw [← hnames, ← hfirst]
  simp [known, hplace, canonicalChars]

/-- One more token. -/
theorem add_known (h : mixture? (ts.filterMap dialect?) = none) (t : Token) :
    (known ts).add t = outcome (ts ++ [t]) := by
  rw [outcome, Tally.add, List.filterMap_append]
  cases hdialect : dialect? t with
  | none =>
    have hdialects : [t].filterMap dialect? = [] := by simp [hdialect]
    simp only [hdialects, List.append_nil, h, known_plain hdialect]
  | some d =>
    have hdialects : [t].filterMap dialect? = [d] := by simp [hdialect]
    have hmixture := mixture?_concat h d
    rw [hdialects]
    by_cases hfirst : (ts.filterMap dialect?).head?.getD d = d
    · have hknown : (known ts).dialect.getD d = d := hfirst
      rw [if_pos hfirst] at hmixture
      have hsame : ∀ e ∈ ts.filterMap dialect?, e = d := fun e he =>
        eq_of_mixture?_eq_none hmixture (List.mem_append_left _ he) (by simp)
      simp only [hmixture, hknown, known_placeholder hdialect hsame]
      exact if_neg fun hne => hne rfl
    · rw [if_neg hfirst] at hmixture
      simp only [hmixture]
      exact if_pos hfirst

/-- The loop over the tokens. -/
theorem foldlM_add (ts : List Token) : ts.foldlM Tally.add {} = outcome ts := by
  induction ts using List.reverseRecOn with
  | nil => rfl
  | append_singleton ts t ih =>
    rw [List.foldlM_append, ih, outcome]
    cases hmixture : mixture? (ts.filterMap dialect?) with
    | none =>
      rw [← add_known hmixture]
      exact bind_pure ((known ts).add t)
    | some pair =>
      obtain ⟨first, second⟩ := pair
      obtain ⟨before, after, hdialects, hsecond⟩ := mixture?_eq_some_iff.mp hmixture
      have hlonger : mixture? ((ts ++ [t]).filterMap dialect?) = some (first, second) := by
        rw [List.filterMap_append, hdialects, mixture?_eq_some_iff]
        exact ⟨before, after ++ [t].filterMap dialect?, by simp, hsecond⟩
      rw [outcome, hlonger]
      rfl

/-- Reading token by token gives what is read. -/
theorem read_eq (s : String) : Slotwise.read s = (Query.read s).map ofQuery := by
  rw [Slotwise.read, Query.read]
  by_cases hverb : Token.isManipulation s.toList
  · rw [if_pos hverb, if_pos hverb]
    cases hread : Token.readAll s.toList with
    | error m => rfl
    | ok ts =>
      simp only [foldlM_add, outcome, ofTokens]
      cases mixture? (ts.filterMap dialect?) with
      | none => rfl
      | some pair => rfl
  · rw [if_neg hverb, if_neg hverb]
    rfl

theorem read_eq_of_readAll (hverb : Token.isManipulation s.toList)
    (hread : Token.readAll s.toList = .ok ts) : Slotwise.read s = (outcome ts).map fun tally => {
      source := s
      canonical := String.ofList tally.canonical
      names := tally.names
      parameterCount := tally.count } := by
  rw [Slotwise.read, if_pos hverb, hread]
  simp only [foldlM_add]

/-- Placeholders of one dialect make a query. -/
theorem read_eq_ok (hverb : Token.isManipulation s.toList)
    (hread : Token.readAll s.toList = .ok ts) (hmixture : mixture? (ts.filterMap dialect?) = none) :
    Slotwise.read s = .ok {
      source := s
      canonical := String.ofList (known ts).canonical
      names := (known ts).names
      parameterCount := (known ts).count } := by
  rw [read_eq_of_readAll hverb hread, outcome, hmixture]
  rfl

theorem read_eq_mixed_iff (hverb : Token.isManipulation s.toList)
    (hread : Token.readAll s.toList = .ok ts) :
    Slotwise.read s = .error (.mixed first second) ↔
      mixture? (ts.filterMap dialect?) = some (first, second) := by
  rw [read_eq_of_readAll hverb hread, outcome]
  cases mixture? (ts.filterMap dialect?) with
  | none => simp [Except.map]
  | some pair => simp [Except.map, Prod.ext_iff]

theorem read_eq_malformed_iff (hverb : Token.isManipulation s.toList) {m : Token.Malformed} :
    Slotwise.read s = .error (.malformed m) ↔ Token.readAll s.toList = .error m := by
  cases hread : Token.readAll s.toList with
  | error found =>
    rw [Slotwise.read, if_pos hverb, hread]
    simp
  | ok ts =>
    rw [read_eq_of_readAll hverb hread, outcome]
    cases mixture? (ts.filterMap dialect?) <;> simp [Except.map]

theorem filterMap_filter_isPlaceholder {β : Type} (f : Token → Option β)
    (hf : ∀ t, (f t).isSome → t.isPlaceholder) (ts : List Token) :
    (ts.filter Token.isPlaceholder).filterMap f = ts.filterMap f := by
  rw [List.filterMap_filter]
  refine List.filterMap_congr fun t _ => ?_
  by_cases hplace : t.isPlaceholder
  · rw [if_pos hplace]
  · rw [if_neg hplace, Option.not_isSome_iff_eq_none.mp (mt (hf t) hplace)]

/-- Without marks, the names are those of the placeholders, one for each. -/
theorem map_name?_places (hmark : ∀ t ∈ ts, dialect? t ≠ some .mark) :
    (ts.filterMap Token.name?).map some = (ts.filter Token.isPlaceholder).map Token.name? := by
  rw [← filterMap_filter_isPlaceholder Token.name? fun _ => Token.isPlaceholder_of_name?,
    List.map_filterMap_some_eq_filter_map_isSome, List.filter_eq_self]
  intro found hfound
  obtain ⟨t, ht, rfl⟩ := List.mem_map.mp hfound
  obtain ⟨hmem, hplace⟩ := List.mem_filter.mp ht
  exact Token.isSome_name?_of_ne hplace (hmark t hmem)

/-- With one dialect that is no mark, the slots have the names of the placeholders. -/
theorem names_known (hscan : Token.scan s.toList = (ts, none))
    (hmark : ∀ t ∈ ts, dialect? t ≠ some .mark) :
    (known ts).names.map (·.1) = List.range (known ts).count ∧
      ∀ i t, (ts.filter Token.isPlaceholder)[i]? = some t → ∃ name, t.name? = some name ∧
        name ≠ [] ∧ (known ts).names.get? i = some (String.ofList name) := by
  constructor
  · rw [known, keys_numbered, List.length_map, Token.length_filterMap_name? hmark]
  · intro i t ht
    obtain ⟨hmem, hplace⟩ := List.mem_filter.mp (List.mem_of_getElem? ht)
    obtain ⟨name, hname⟩ :=
      Option.isSome_iff_exists.mp (Token.isSome_name?_of_ne hplace (hmark t hmem))
    refine ⟨name, hname, Token.name?_ne_nil hscan hmem hname, ?_⟩
    have hslot : (ts.filterMap Token.name?)[i]? = some name := by
      have hmapped := congrArg (·[i]?) (map_name?_places hmark)
      simpa [ht, hname] using hmapped
    rw [known, get?_numbered, List.getElem?_map, hslot]
    rfl

/-- A statement is malformed exactly if its tokens are. If not, it is read exactly if its
placeholders are of one dialect; else the fault tells the dialect of the first placeholder and the
earliest one that differs. A query has as many slots as there are placeholders, and it has no names
or a name for every slot, which is that of its placeholder. -/
theorem read_slotwise (hverb : Token.isManipulation s.toList) :
    Slotwise.read s = (Query.read s).map ofQuery ∧
      (∀ m, Slotwise.read s = .error (.malformed m) ↔ Token.readAll s.toList = .error m) ∧
      ∀ ts, Token.readAll s.toList = .ok ts →
        let places := ts.filter Token.isPlaceholder
        let dialects := places.filterMap dialect?
        ((∃ first second, Slotwise.read s = .error (.mixed first second)) ↔
            ∃ d ∈ dialects, ∃ e ∈ dialects, d ≠ e) ∧
          (∀ first second, Slotwise.read s = .error (.mixed first second) ↔
            ∃ before after, dialects = first :: (before ++ second :: after) ∧ second ≠ first ∧
              ∀ d ∈ before, d = first) ∧
          ((∀ d ∈ dialects, ∀ e ∈ dialects, d = e) → ∃ r, Slotwise.read s = .ok r ∧
            r.parameterCount = places.length ∧
            ((∀ t ∈ places, t.kind = .positional) → r.names = []) ∧
            ((∃ t ∈ places, t.kind ≠ .positional) →
              r.names.map (·.1) = List.range r.parameterCount ∧
              ∀ i t, places[i]? = some t → ∃ name, t.name? = some name ∧ name ≠ [] ∧
                r.names.get? i = some (String.ofList name))) := by
  refine ⟨read_eq s, fun m => read_eq_malformed_iff hverb, fun ts hread => ?_⟩
  intro places dialects
  have hdialects : dialects = ts.filterMap dialect? :=
    filterMap_filter_isPlaceholder dialect? (fun t h => by rwa [← Token.isSome_dialect?]) ts
  have hmixed : ∀ first second, Slotwise.read s = .error (.mixed first second) ↔
      mixture? dialects = some (first, second) := by
    intro first second
    rw [hdialects]
    exact read_eq_mixed_iff hverb hread
  refine ⟨?_, fun first second => (hmixed first second).trans mixture?_eq_some_iff, fun hone => ?_⟩
  · constructor
    · rintro ⟨first, second, hfault⟩
      obtain ⟨before, after, heq, hne, -⟩ := mixture?_eq_some_iff.mp ((hmixed _ _).mp hfault)
      exact ⟨first, by simp [heq], second, by simp [heq], hne.symm⟩
    · rintro ⟨d, hd, e, he, hne⟩
      cases hmixture : mixture? dialects with
      | none => exact absurd (mixture?_eq_none_iff.mp hmixture d hd e he) hne
      | some pair => exact ⟨pair.1, pair.2, (hmixed _ _).mpr hmixture⟩
  · have hmixture := mixture?_eq_none_iff.mpr hone
    have hplace : ∀ t ∈ ts, (dialect? t).isSome → t ∈ places := fun t ht h =>
      List.mem_filter.mpr ⟨ht, by rwa [← Token.isSome_dialect?]⟩
    rw [hdialects] at hmixture
    refine ⟨_, read_eq_ok hverb hread hmixture, List.countP_eq_length_filter, fun hmarks => ?_, ?_⟩
    · have hnames : ts.filterMap Token.name? = [] := by
        refine Token.filterMap_name?_eq_nil fun t ht d hd => ?_
        have hkind := hmarks t (hplace t ht (Option.isSome_of_mem hd))
        rw [dialect?, hkind] at hd
        exact (Option.some.inj hd).symm
      simp [known, hnames, numbered]
    · rintro ⟨t, ht, hkind⟩
      refine names_known (Token.readAll_eq_ok_iff.mp hread) fun u hu hmark => ?_
      have hsame : ∀ d ∈ dialect? t, d = .mark := fun d hd =>
        hone d (List.mem_filterMap.mpr ⟨t, ht, hd⟩) .mark
          (List.mem_filterMap.mpr ⟨u, hplace u hu (by rw [hmark]; rfl), hmark⟩)
      obtain ⟨kind, chars⟩ := t
      cases kind with
      | positional => exact hkind rfl
      | colonNamed => exact absurd (hsame .colon rfl) (by decide)
      | braceNamed => exact absurd (hsame .braces rfl) (by decide)
      | _ => cases (List.mem_filter.mp ht).2

/-- A name in two slots, blanks around it, and a mark in quotes that is no placeholder; and a mark
that comes before a third dialect. -/
theorem read_slotwise_repeating :
    (∃ r, Slotwise.read "SELECT #\x7b a \x7d, '?' FROM t WHERE b = #\x7bb\x7d+#\x7ba\x7d" = .ok r ∧
      r.parameterCount = 3 ∧ r.names = [(0, "a"), (1, "b"), (2, "a")]) ∧
      ∃ before after,
        [Dialect.colon, .colon, .mark, .braces] = .colon :: (before ++ .mark :: after) ∧
        Dialect.mark ≠ .colon ∧ ∀ d ∈ before, d = .colon := by
  constructor
  · obtain ⟨hread, -⟩ := read_slotwise
      (s := "SELECT #\x7b a \x7d, '?' FROM t WHERE b = #\x7bb\x7d+#\x7ba\x7d")
      (by cbv)
    have hquery :
        Query.read "SELECT #\x7b a \x7d, '?' FROM t WHERE b = #\x7bb\x7d+#\x7ba\x7d" = .ok {
        source := "SELECT #\x7b a \x7d, '?' FROM t WHERE b = #\x7bb\x7d+#\x7ba\x7d"
        canonical := "SELECT ?, '?' FROM t WHERE b = ?+?"
        names := ["a", "b", "a"]
        parameterCount := 3 } := by cbv
    rw [hquery] at hread
    exact ⟨_, hread, rfl, rfl⟩
  · obtain ⟨-, -, hplaces⟩ := read_slotwise (s := "update :a:b?#\x7bc\x7d") (by cbv)
    obtain ⟨-, hmixed, -⟩ := hplaces [⟨.word, "update".toList⟩, ⟨.blank, [' ']⟩,
      ⟨.colonNamed, ":a".toList⟩, ⟨.colonNamed, ":b".toList⟩, ⟨.positional, ['?']⟩,
      ⟨.braceNamed, "#\x7bc\x7d".toList⟩] (by cbv)
    exact (hmixed .colon .mark).mp (by cbv)

end Slotwise

end Query

end Cql
