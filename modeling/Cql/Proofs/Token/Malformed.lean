import Cql.Proofs.Token.Bytewise
import Cql.Proofs.Token.Canonical
import Cql.Query.Fault

/-!
Where a text is malformed. The tokens before a brace group are those that stand before a question
mark in its place, so the first group that is not closed or has no name is told by the text alone:
by what stands before it, and by what stands after its opening brace.
-/

namespace Cql.Text.Blank

variable {cs : List Char}

theorem trimStart_eq_nil_iff : trimStart cs = [] ↔ ∀ c ∈ cs, isUnicode c := by
  rw [trimStart, List.dropWhile_eq_nil_iff]

/-- Nothing is left of a text that is all blank, and of no other one. -/
theorem trim_eq_nil_iff : trim cs = [] ↔ ∀ c ∈ cs, isUnicode c := by
  rw [trim, List.reverse_eq_nil_iff, trimStart_eq_nil_iff]
  constructor
  · intro hall
    by_contra hblank
    have hne : trimStart cs ≠ [] := mt trimStart_eq_nil_iff.mp hblank
    have hstop : isUnicode ((trimStart cs).head hne) = false :=
      List.head_dropWhile_not isUnicode hne
    have hhead : isUnicode ((trimStart cs).head hne) := hall _ (by simp)
    rw [hstop] at hhead
    cases hhead
  · intro hblank c hc
    rw [trimStart_eq_nil_iff.mpr hblank] at hc
    cases hc

end Cql.Text.Blank

namespace Cql.Token

open Text.Utf8

variable {c d : Char} {cs ds rest rest' : List Char} {us vs : List Token} {fault : Fault}

/-- The starts of two placeholders end the same tokens. -/
theorem stops_of_opensPlaceholder (hc : opensPlaceholder c) (hd : opensPlaceholder d) :
    Stops (c :: cs) (d :: ds) where
  head p hp hgoes := by
    rw [List.head?_cons, Option.any_some] at hgoes ⊢
    rwa [hp.places c hc, ← hp.places d hd]
  word := by
    rintro (hword | ⟨rfl, -⟩)
    · have hmark : isWordChar d = isWordChar '?' :=
        alike_of_opensPlaceholder (p := isWordChar) rfl rfl d hd
      rw [hmark] at hword
      cases hword
    · cases hd

/-- What stands after some tokens of a text is scanned on its own. -/
theorem scan_append {found : Option Fault} (h : scan (flatten us ++ rest) = (us ++ vs, found))
    (hstops : Stops rest rest') :
    scan (flatten us ++ rest') = (us ++ (scan rest').1, (scan rest').2) := by
  induction us with
  | nil => rfl
  | cons u us ih =>
    obtain ⟨c, ds, taken, others, htext, hchars, hnext, hothers⟩ := scan_cons h
    have hrest : others = flatten us ++ rest := by
      rw [flatten_cons, hchars, ← next_append hnext] at htext
      simpa using htext.symm
    rw [hrest] at hnext hothers
    have hsame := next_stops hnext (hstops.append_left (flatten us))
    rw [flatten_cons, hchars, List.append_assoc, List.cons_append, scan, hsame]
    simp only [ih hothers, ← hchars, List.cons_append]

/-- What is wrong with a brace group is told by the text after its opening brace. -/
def Fault.Spoils : Fault → List Char → Prop
  | .unclosed, rest => '\x7d' ∉ rest
  | .unnamed, rest => ∃ name later, rest = name ++ '\x7d' :: later ∧ '\x7d' ∉ name ∧
      ∀ c ∈ name, Text.Blank.isUnicode c

/-- A group ends at the first closing brace. -/
theorem cutWhile_brace {name : List Char} (hname : '\x7d' ∉ name)
    (hrest : ¬ rest.head?.any (· ≠ '\x7d')) :
    cutWhile (· ≠ '\x7d') (name ++ rest) = (name, rest) := by
  refine cutWhile_append_of_all (fun c hc => ?_) hrest
  simpa using fun heq : c = '\x7d' => hname (heq ▸ hc)

theorem cutBraces_of_unclosed (h : '\x7d' ∉ rest) : cutBraces rest = .error .unclosed := by
  have hcut : cutWhile (· ≠ '\x7d') (rest ++ []) = (rest, []) := cutWhile_brace h (by simp)
  rw [List.append_nil] at hcut
  rw [cutBraces, hcut]

theorem cutBraces_of_closed {name later : List Char} (hname : '\x7d' ∉ name) :
    cutBraces (name ++ '\x7d' :: later) =
      if (Text.Blank.trim name).isEmpty then .error .unnamed
      else .ok (name ++ ['\x7d'], later) := by
  have hcut : cutWhile (· ≠ '\x7d') (name ++ '\x7d' :: later) = (name, '\x7d' :: later) :=
    cutWhile_brace hname (by simp)
  rw [cutBraces, hcut]

theorem unnamed_spoils_iff {name later : List Char} (hname : '\x7d' ∉ name) :
    Fault.unnamed.Spoils (name ++ '\x7d' :: later) ↔ ∀ c ∈ name, Text.Blank.isUnicode c := by
  constructor
  · rintro ⟨name', later', heq, hname', hblank⟩
    have hcut : cutWhile (· ≠ '\x7d') (name ++ '\x7d' :: later) = (name, '\x7d' :: later) :=
      cutWhile_brace hname (by simp)
    rw [heq, cutWhile_brace hname' (by simp)] at hcut
    exact (Prod.mk.inj hcut).1 ▸ hblank
  · exact fun hblank => ⟨name, later, rfl, hname, hblank⟩

theorem cutBraces_eq_error_iff : cutBraces rest = .error fault ↔ fault.Spoils rest := by
  by_cases hmem : '\x7d' ∈ rest
  · obtain ⟨name, later, rfl, hname⟩ := List.eq_append_cons_of_mem hmem
    rw [cutBraces_of_closed hname]
    cases fault with
    | unclosed =>
      refine iff_of_false (fun h => ?_) (fun hspoils => hspoils hmem)
      split at h <;> cases h
    | unnamed =>
      rw [unnamed_spoils_iff hname, ← Text.Blank.trim_eq_nil_iff, ← List.isEmpty_iff]
      by_cases hblank : (Text.Blank.trim name).isEmpty <;> simp [hblank]
  · rw [cutBraces_of_unclosed hmem]
    cases fault with
    | unclosed => exact iff_of_true rfl hmem
    | unnamed =>
      refine iff_of_false nofun ?_
      rintro ⟨name, later, rfl, -⟩
      exact hmem (by simp)

/-- Only a brace group can be at fault. -/
theorem next_eq_error_iff_spoils :
    next c cs = .error fault ↔ c = '#' ∧ ∃ rest, cs = '\x7b' :: rest ∧ fault.Spoils rest := by
  rw [next_eq_error_iff]
  constructor
  · intro h
    have hopens := opens_form c cs.head?
    cases hform : form c cs.head? with
    | braces =>
      rw [hform] at h hopens
      obtain ⟨rest, rfl⟩ := List.head?_eq_some_iff.mp hopens.2
      refine ⟨hopens.1, rest, rfl, cutBraces_eq_error_iff.mp ?_⟩
      rw [Form.cut, List.tail_cons] at h
      cases hcut : cutBraces rest with
      | ok cut => simp [hcut, Except.map] at h
      | error found => simpa [hcut, Except.map] using h
    | _ => simp [hform, Form.cut] at h
  · rintro ⟨rfl, rest, rfl, hspoils⟩
    have hcut : cutBraces rest = .error fault := cutBraces_eq_error_iff.mpr hspoils
    have hform : form '#' (some '\x7b') = .braces := rfl
    rw [List.head?_cons, hform, Form.cut, List.tail_cons, hcut]
    rfl

/-- The scanner stops before the group that is at fault. -/
theorem exists_spoils_of_scan (h : scan cs = (us, some fault)) :
    ∃ rest, cs = flatten us ++ '#' :: '\x7b' :: rest ∧ fault.Spoils rest := by
  fun_induction scan cs generalizing us with
  | case1 => cases h
  | case2 c cs found hnext =>
    cases h
    obtain ⟨rfl, rest, rfl, hspoils⟩ := next_eq_error_iff_spoils.mp hnext
    exact ⟨rest, rfl, hspoils⟩
  | case3 c cs kind taken others hnext later =>
    rename_i ih
    obtain ⟨rfl, hlater⟩ := Prod.mk.inj h
    obtain ⟨rest, hothers, hspoils⟩ := ih (Prod.ext rfl hlater)
    refine ⟨rest, ?_, hspoils⟩
    rw [flatten_cons, List.append_assoc, ← hothers, List.cons_append, next_append hnext]

theorem scan_spoils (h : fault.Spoils rest) : scan ('#' :: '\x7b' :: rest) = ([], some fault) := by
  have hnext : next '#' ('\x7b' :: rest) = .error fault :=
    next_eq_error_iff_spoils.mpr ⟨rfl, rest, rfl, h⟩
  rw [scan, hnext]

theorem scan_nil : scan [] = ([], none) := by rw [scan]

theorem scan_mark : scan ['?'] = ([⟨.positional, ['?']⟩], none) := by
  have hnext : next '?' [] = .ok (.positional, [], []) := rfl
  rw [scan, hnext]
  simp only [scan_nil]

/-- A placeholder may start where the text ends: a question mark there is a token of its own. -/
def IsBoundary (cs : List Char) : Prop :=
  ∃ ts t, readAll (cs ++ ['?']) = .ok ts ∧ ts.getLast? = some t ∧ t.kind = .positional

theorem isBoundary_iff :
    IsBoundary cs ↔ ∃ us, flatten us = cs ∧
      scan (cs ++ ['?']) = (us ++ [⟨.positional, ['?']⟩], none) := by
  constructor
  · rintro ⟨ts, t, hread, hlast, hkind⟩
    obtain ⟨us, rfl⟩ := List.getLast?_eq_some_iff.mp hlast
    have hscan := readAll_eq_ok_iff.mp hread
    obtain ⟨c, ds, taken, others, hchars, hnext⟩ :=
      exists_next_of_mem_scan hscan (List.mem_append_right us (List.mem_singleton_self t))
    obtain ⟨rfl, rfl⟩ := (next_placeholder hnext).1 hkind
    have ht : t = ⟨.positional, ['?']⟩ := by
      obtain ⟨kind, chars⟩ := t
      cases hkind
      cases hchars
      rfl
    subst ht
    refine ⟨us, ?_, hscan⟩
    have htext := flatten_scan hscan
    rw [flatten_append] at htext
    exact List.append_cancel_right htext
  · rintro ⟨us, -, hscan⟩
    exact ⟨_, ⟨.positional, ['?']⟩, readAll_eq_ok_iff.mpr hscan, List.getLast?_concat, rfl⟩

theorem scan_eq_fault_iff :
    scan cs = (us, some fault) ↔ ∃ rest, cs = flatten us ++ '#' :: '\x7b' :: rest ∧
      fault.Spoils rest ∧ scan (flatten us ++ ['?']) = (us ++ [⟨.positional, ['?']⟩], none) := by
  constructor
  · intro h
    obtain ⟨rest, rfl, hspoils⟩ := exists_spoils_of_scan h
    refine ⟨rest, rfl, hspoils, ?_⟩
    rw [← List.append_nil us] at h
    rw [flatten_append, flatten_nil, List.append_nil] at h
    rw [scan_append h (stops_of_opensPlaceholder rfl rfl), scan_mark]
  · rintro ⟨rest, rfl, hspoils, hmark⟩
    rw [scan_append hmark (stops_of_opensPlaceholder rfl rfl), scan_spoils hspoils, List.append_nil]

/-- A token starts after `offset` bytes that is a brace group without an end or without a name. -/
def IsMalformedAt (cs : List Char) (offset : Nat) (message : String) : Prop :=
  ∃ before rest, cs = before ++ '#' :: '\x7b' :: rest ∧ byteCount before = offset ∧
    IsBoundary before ∧
    ('\x7d' ∉ rest ∧ message = "unterminated `#\x7b` group" ∨
      (∃ name later, rest = name ++ '\x7d' :: later ∧ '\x7d' ∉ name ∧
        ∀ c ∈ name, Text.Blank.isUnicode c) ∧ message = "empty `#\x7b\x7d` group")

theorem exists_faultText_iff {message : String} :
    (∃ fault : Fault, fault.Spoils rest ∧ Query.faultText fault = message) ↔
      '\x7d' ∉ rest ∧ message = "unterminated `#\x7b` group" ∨
      (∃ name later, rest = name ++ '\x7d' :: later ∧ '\x7d' ∉ name ∧
        ∀ c ∈ name, Text.Blank.isUnicode c) ∧ message = "empty `#\x7b\x7d` group" := by
  constructor
  · rintro ⟨fault, hspoils, rfl⟩
    cases fault with
    | unclosed => exact .inl ⟨hspoils, rfl⟩
    | unnamed => exact .inr ⟨hspoils, rfl⟩
  · rintro (⟨hspoils, rfl⟩ | ⟨hspoils, rfl⟩)
    · exact ⟨.unclosed, hspoils, rfl⟩
    · exact ⟨.unnamed, hspoils, rfl⟩

theorem readAll_eq_error_iff_scan {m : Malformed} : readAll cs = .error m ↔
    ∃ us, scan cs = (us, some m.fault) ∧ byteCount (flatten us) = m.offset := by
  rw [readAll]
  rcases scan cs with ⟨ts, _ | found⟩
  · simp
  · obtain ⟨offset, fault⟩ := m
    simp only [Except.error.injEq, Malformed.mk.injEq, ← Bytewise.byteCount_flatten, Prod.mk.injEq,
      Option.some.injEq]
    constructor
    · rintro ⟨hoffset, hfault⟩
      exact ⟨ts, ⟨rfl, hfault⟩, hoffset⟩
    · rintro ⟨us, ⟨rfl, hfault⟩, hoffset⟩
      exact ⟨hoffset, hfault⟩

/-- A text is refused exactly if a token starts in it that is a brace group without an end or
without a name, and then at the byte where this token starts. No text has two such places, so groups
in quotes, in comments and in other groups are never at fault. -/
theorem readAll_refuses (cs : List Char) :
    (∀ offset message,
      (∃ fault, readAll cs = .error ⟨offset, fault⟩ ∧ Query.faultText fault = message) ↔
        IsMalformedAt cs offset message) ∧
      ∀ offset offset' message message', IsMalformedAt cs offset message →
        IsMalformedAt cs offset' message' → offset = offset' ∧ message = message' := by
  have hrefuses : ∀ offset message,
      (∃ fault, readAll cs = .error ⟨offset, fault⟩ ∧ Query.faultText fault = message) ↔
        IsMalformedAt cs offset message := by
    intro offset message
    constructor
    · rintro ⟨fault, hread, hmessage⟩
      obtain ⟨us, hscan, hoffset⟩ := readAll_eq_error_iff_scan.mp hread
      obtain ⟨rest, htext, hspoils, hmark⟩ := scan_eq_fault_iff.mp hscan
      exact ⟨flatten us, rest, htext, hoffset, isBoundary_iff.mpr ⟨us, rfl, hmark⟩,
        exists_faultText_iff.mp ⟨fault, hspoils, hmessage⟩⟩
    · rintro ⟨before, rest, htext, hoffset, hboundary, hgroup⟩
      obtain ⟨us, rfl, hmark⟩ := isBoundary_iff.mp hboundary
      obtain ⟨fault, hspoils, hmessage⟩ := exists_faultText_iff.mpr hgroup
      have hscan := scan_eq_fault_iff.mpr ⟨rest, htext, hspoils, hmark⟩
      exact ⟨fault, readAll_eq_error_iff_scan.mpr ⟨us, hscan, hoffset⟩, hmessage⟩
  refine ⟨hrefuses, fun offset offset' message message' h h' => ?_⟩
  obtain ⟨fault, hread, rfl⟩ := (hrefuses offset message).mpr h
  obtain ⟨fault', hread', rfl⟩ := (hrefuses offset' message').mpr h'
  obtain ⟨rfl, rfl⟩ := Malformed.mk.inj (Except.error.inj (hread.symm.trans hread'))
  exact ⟨rfl, rfl⟩

/-- The groups in the quoted text, in the comment and in the other group are closed by nothing, by a
blank or by a brace of their own, and still the last one is the one at fault. -/
theorem readAll_refuses_last :
    IsMalformedAt "é '#\x7b' --#\x7b \x7d\n#\x7b#\x7b\x7dx#\x7b \x7d".toList 21
        "empty `#\x7b\x7d` group" ∧
      ∀ offset message,
        IsMalformedAt "é '#\x7b' --#\x7b \x7d\n#\x7b#\x7b\x7dx#\x7b \x7d".toList offset message →
          offset = 21 := by
  have hread : readAll "é '#\x7b' --#\x7b \x7d\n#\x7b#\x7b\x7dx#\x7b \x7d".toList =
      .error ⟨21, .unnamed⟩ := by decide +kernel
  obtain ⟨hrefuses, hunique⟩ :=
    readAll_refuses "é '#\x7b' --#\x7b \x7d\n#\x7b#\x7b\x7dx#\x7b \x7d".toList
  have hmalformed := (hrefuses 21 _).mp ⟨.unnamed, hread, rfl⟩
  exact ⟨hmalformed, fun offset message h => (hunique _ _ _ _ h hmalformed).1⟩

end Cql.Token
