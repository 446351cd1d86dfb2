import Cql.Proofs.Token.Split

/-!
Quoted text. Doubling the quotes of a text can be undone, and a text in quotes is one token before
whatever does not begin with a quote exactly if all quotes in it are doubled. So a text that is put
in quotes as it is reads back as itself exactly if it holds no quote.
-/

namespace Cql

namespace Text.Quoted

variable {q c : Char} {cs : List Char}

theorem unescape_cons (h : c ≠ q) (cs : List Char) :
    unescape q (c :: cs) = c :: unescape q cs := by
  cases cs with
  | nil => rfl
  | cons d cs => rw [unescape, if_neg fun hboth => h hboth.1]

/-- Undoing the doubling gives back what was quoted. -/
theorem unescape_escape (q : Char) (cs : List Char) : unescape q (escape q cs) = cs := by
  induction cs with
  | nil => rfl
  | cons c cs ih =>
    rw [escape]
    by_cases h : c = q
    · rw [if_pos h, unescape, if_pos ⟨rfl, rfl⟩, ih, h]
    · rw [if_neg h, unescape_cons h, ih]

theorem escape_injective (q : Char) : Function.Injective (escape q) :=
  Function.LeftInverse.injective (unescape_escape q)

/-- Each quote takes one character more. -/
theorem length_escape (q : Char) (cs : List Char) :
    (escape q cs).length = cs.length + cs.count q := by
  induction cs with
  | nil => rfl
  | cons c cs ih =>
    rw [escape]
    by_cases h : c = q
    · rw [if_pos h, h, List.count_cons_self]
      simp only [List.length_cons, ih]
      omega
    · rw [if_neg h, List.count_cons_of_ne h]
      simp only [List.length_cons, ih]
      omega

theorem escape_eq_self (h : q ∉ cs) : escape q cs = cs := by
  induction cs with
  | nil => rfl
  | cons c cs ih =>
    simp only [List.mem_cons, not_or] at h
    simp [escape, Ne.symm h.1, ih h.2]

theorem escape_eq_self_iff : escape q cs = cs ↔ q ∉ cs := by
  refine ⟨fun h => ?_, escape_eq_self⟩
  have hlength := congrArg List.length h
  rw [length_escape] at hlength
  apply List.count_eq_zero.mp
  omega

end Text.Quoted

namespace Token

open Text.Quoted (encode escape escape_eq_self escape_eq_self_iff unescape unescape_escape)

variable {q c d : Char} {cs content rest taken : List Char} {kind : Kind}

theorem scan_of_next (h : next c cs = .ok (kind, taken, rest)) :
    scan (c :: cs) = (⟨kind, c :: taken⟩ :: (scan rest).1, (scan rest).2) := by
  rw [scan, h]

theorem cutQuoted_ne_nil (q c : Char) (cs : List Char) : (cutQuoted q (c :: cs)).1 ≠ [] := by
  cases cs with
  | nil => simp [cutQuoted]
  | cons d cs =>
    rw [cutQuoted]
    split
    · split <;> simp [Cut.cons]
    · simp [Cut.cons]

/-- Where a quoted text ends at a quote, the quotes before it are doubled. -/
theorem escape_unescape (hd : d ≠ q)
    (h : (cutQuoted q (cs ++ q :: d :: rest)).1 = cs ++ [q]) :
    escape q (unescape q cs) = cs := by
  fun_induction unescape q cs with
  | case1 => rfl
  | case2 c =>
    have hc : c ≠ q := by
      rintro rfl
      -- The two quotes would be one that is doubled, and the text would go on after them.
      simp only [List.cons_append, List.nil_append, cutQuoted, if_true, Cut.cons,
        List.cons.injEq, true_and] at h
      exact cutQuoted_ne_nil c d rest h
    simp [escape, hc]
  | case3 c e cs hboth ih =>
    obtain ⟨rfl, rfl⟩ := hboth
    simp only [List.cons_append, cutQuoted, if_true, Cut.cons, List.cons.injEq, true_and] at h
    simp [escape, ih h]
  | case4 c e cs hboth ih =>
    have hc : c ≠ q := by
      rintro rfl
      have he : e ≠ c := fun he => hboth ⟨rfl, he⟩
      simp [cutQuoted, he] at h
    rw [List.cons_append, cutQuoted_cons hc] at h
    simp only [Cut.cons, List.cons_append, List.cons.injEq, true_and] at h
    rw [escape, if_neg hc, ih h]

/-- Before whatever does not begin with the quote, the text is one token, and `content` is what
stands between its quotes with the doubling undone. -/
def IsQuotation (q : Char) (kind : Kind) (cs content : List Char) : Prop :=
  ∃ inner, cs = q :: (inner ++ [q]) ∧ unescape q inner = content ∧
    ∀ rest : List Char, rest.head? ≠ some q →
      scan (cs ++ rest) = (⟨kind, cs⟩ :: (scan rest).1, (scan rest).2)

/-- Such a text on its own is this token and no other one. -/
theorem IsQuotation.readAll_eq (h : IsQuotation q kind cs content) :
    readAll cs = .ok [⟨kind, cs⟩] := by
  obtain ⟨inner, -, -, hscan⟩ := h
  have halone := hscan [] (by simp)
  rw [List.append_nil, scan] at halone
  exact readAll_eq_ok_iff.mpr halone

section Quote

-- Both quotes of the language start a token that is cut in this way.
variable (hq : ∀ cs, next q cs = .ok (kind, cutQuoted q cs))
include hq

theorem isQuotation_encode (content : List Char) :
    IsQuotation q kind (encode q content) content := by
  refine ⟨escape q content, rfl, unescape_escape q content, fun rest hrest => ?_⟩
  have hnext := hq (escape q content ++ q :: rest)
  rw [cutQuoted_escape content hrest] at hnext
  simpa [encode] using scan_of_next hnext

/-- There is one way to write a text as one token in quotes. -/
theorem isQuotation_iff : IsQuotation q kind cs content ↔ cs = encode q content := by
  constructor
  · rintro ⟨inner, rfl, rfl, hscan⟩
    -- A character that is no quote must stand behind: at the end of the text every token ends.
    obtain ⟨d, hd⟩ : ∃ d, d ≠ q := by
      by_cases h : q = ' '
      · exact ⟨'a', by simp [h]⟩
      · exact ⟨' ', Ne.symm h⟩
    have hbehind := hscan [d] (by simpa using hd)
    rw [List.cons_append, scan_of_next (hq _)] at hbehind
    have htoken := (List.cons.inj (Prod.mk.inj hbehind).1).1
    have htaken : (cutQuoted q (inner ++ q :: d :: [])).1 = inner ++ [q] := by simpa using htoken
    rw [encode, escape_unescape hd htaken, List.cons_append]
  · rintro rfl
    exact isQuotation_encode hq content

/-- A text that is put in quotes as it is reads back as itself exactly if it holds no quote. -/
theorem isQuotation_self_iff : IsQuotation q kind (q :: (cs ++ [q])) cs ↔ q ∉ cs := by
  rw [isQuotation_iff hq, ← escape_eq_self_iff, encode, List.cons_append, List.cons.injEq]
  simp [eq_comm]

end Quote

end Token

end Cql
