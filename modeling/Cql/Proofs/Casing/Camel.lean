import Cql.Proofs.Casing.Path

/-!
Camel case, character by character. A capital stays a capital where a word begins, and every other
letter becomes small. So the camel case of a name is the name itself exactly if its capitals stand
where words begin.
-/

namespace Cql.Casing

namespace Words

open Text.Split (grow)

variable {mode : Mode} {c : Char} {cs : List Char}

/-- After such letters a capital begins a word, with the rest of the part behind it. -/
def Mode.Begins (mode : Mode) (rest : List Char) : Prop :=
  mode = .small ∨ mode = .capital ∧ rest.head?.any Char.isLower

instance : Decidable (mode.Begins cs) := inferInstanceAs (Decidable (_ ∨ _))

/-- The camel case of what follows in a part, after such letters. -/
def recase (mode : Mode) : List Char → List Char
  | [] => []
  | c :: cs =>
    (if c.isUpper ∧ mode.Begins cs then c else c.toLower) :: recase (mode.after c) cs

theorem Mode.after_of_isUpper (h : c.isUpper) (mode : Mode) : mode.after c = .capital := by
  simp [after, h, Char.not_isLower_of_isUpper h]

theorem Mode.after_of_isLower (h : c.isLower) (mode : Mode) : mode.after c = .small := by
  simp [after, h]

theorem recase_of_not_begins (h : ¬ (c.isUpper ∧ mode.Begins cs)) :
    recase mode (c :: cs) = c.toLower :: recase (mode.after c) cs := by
  rw [recase, if_neg h]

theorem recase_of_begins (hc : c.isUpper) (h : mode.Begins cs) :
    recase mode (c :: cs) = c :: recase (mode.after c) cs := by
  rw [recase, if_pos ⟨hc, h⟩]

/-- What stands before a small letter has no part in what comes from there on. -/
theorem recase_of_isLower (h : c.isLower) (mode mode' : Mode) :
    recase mode (c :: cs) = recase mode' (c :: cs) := by
  have hupper : ∀ mode : Mode, ¬ (c.isUpper ∧ mode.Begins cs) :=
    fun _ hc => Char.not_isUpper_of_isLower h hc.1
  rw [recase_of_not_begins (hupper mode), recase_of_not_begins (hupper mode'),
    Mode.after_of_isLower h, Mode.after_of_isLower h]

theorem lowerCamel_grow (c : Char) (words : List (List Char)) :
    lowerCamel (grow c words) = c.toLower :: lowerCamel words := by
  cases words <;> rfl

theorem capitalize_grow (hc : c.isUpper) (words : List (List Char)) :
    (grow c words).flatMap capitalize = c :: lowerCamel words := by
  have hupper : c.toUpper = c := Char.toUpper_eq_of_not_isLower (Char.not_isLower_of_isUpper hc)
  cases words with
  | nil => simp [grow, capitalize, lower, lowerCamel, hupper]
  | cons word words => simp [grow, capitalize, lowerCamel, hupper]

/-- The first character of a whole part is in its first word. -/
theorem exists_cut_start (c : Char) (cs : List Char) :
    ∃ words, cut .start (c :: cs) = grow c words := by
  cases cs with
  | nil => exact ⟨[], rfl⟩
  | cons d cs =>
    rw [cut]
    split
    · exact ⟨[] :: cut .start (d :: cs), rfl⟩
    · exact ⟨_, if_neg (by simp)⟩

/-- The words of a part, put together in camel case. A capital at which a new word begins after a
small letter stands at the head of a part of its own. -/
theorem lowerCamel_cut (h : mode = .small → ∀ c ∈ cs.head?, ¬ c.isUpper) :
    lowerCamel (cut mode cs) = recase mode cs := by
  fun_induction cut mode cs with
  | case1 => rfl
  | case2 mode c =>
    have hbegins : ¬ (c.isUpper ∧ mode.Begins []) := by
      rintro ⟨hc, hsmall | ⟨-, hnext⟩⟩
      · exact h hsmall c rfl hc
      · cases hnext
    rw [recase_of_not_begins hbegins]
    rfl
  | case3 mode c d cs hbreak ih =>
    obtain ⟨hsmall, hd⟩ := hbreak
    have hc : ¬ c.isUpper := by
      intro hc
      rw [Mode.after_of_isUpper hc] at hsmall
      cases hsmall
    obtain ⟨words, hwords⟩ := exists_cut_start d cs
    have hstart : ¬ (d.isUpper ∧ Mode.start.Begins cs) := by simp [Mode.Begins]
    have hrest := ih (by simp)
    rw [hwords, lowerCamel_grow, recase_of_not_begins hstart, List.cons.injEq,
      Mode.after_of_isUpper hd] at hrest
    rw [recase_of_not_begins fun h => hc h.1, recase_of_begins hd (.inl hsmall),
      Mode.after_of_isUpper hd, ← hrest.2, lowerCamel, hwords, capitalize_grow hd]
    rfl
  | case4 mode c d cs _ hbreak ih =>
    obtain ⟨hcapital, hc, hd⟩ := hbreak
    have hbegins : mode.Begins (d :: cs) := .inr ⟨hcapital, hd⟩
    rw [recase_of_begins hc hbegins, recase_of_isLower hd _ .start, ← ih (by simp)]
    exact capitalize_grow hc _
  | case5 mode c d cs hsmall hcapital ih =>
    have hbegins : ¬ (c.isUpper ∧ mode.Begins (d :: cs)) := by
      rintro ⟨hc, hmode | ⟨hmode, hd⟩⟩
      · exact h hmode c rfl hc
      · exact hcapital ⟨hmode, hc, hd⟩
    have hnext : mode.after c = .small → ∀ e ∈ (d :: cs).head?, ¬ e.isUpper := by
      rintro hmode e he
      obtain rfl : d = e := by simpa using he
      exact fun hd => hsmall ⟨hmode, hd⟩
    rw [lowerCamel_grow, ih hnext, recase_of_not_begins hbegins]

theorem lowerCamel_ofIdentifier (h : ∀ c ∈ cs, c.isAlphanum) :
    lowerCamel (ofIdentifier cs) = recase .start cs := by
  have hpart : Text.Split.splitWhere (!·.isAlphanum) cs = [cs] :=
    Text.Split.splitWhere_of_forall fun c hc => by simp [h c hc]
  rw [ofIdentifier, hpart, List.flatMap_singleton, lowerCamel_cut (by simp)]

/-- Every capital follows a small letter, or it follows a capital and a small letter stands right
behind it. Digits between letters do not count. -/
def IsSettled (cs : List Char) : Prop :=
  ∀ before c after, cs = before ++ c :: after → c.isUpper →
    (before.foldl Mode.after .start).Begins after

theorem recase_eq_self : recase mode cs = cs ↔ ∀ before c after, cs = before ++ c :: after →
    c.isUpper → (before.foldl Mode.after mode).Begins after := by
  induction cs generalizing mode with
  | nil => simp [recase]
  | cons c cs ih =>
    have hhead : (if c.isUpper ∧ mode.Begins cs then c else c.toLower) = c ↔
        (c.isUpper → mode.Begins cs) := by
      by_cases hc : c.isUpper
      · have hlower : c.toLower ≠ c := by
          intro heq
          rw [← heq, Char.isUpper_toLower_eq_false] at hc
          cases hc
        by_cases hbegins : mode.Begins cs <;> simp [hc, hbegins, hlower]
      · simp [hc, Char.toLower_eq_of_not_isUpper hc]
    rw [recase, List.cons.injEq, hhead, ih]
    constructor
    · rintro ⟨hbegins, hrest⟩ (_ | ⟨b, before⟩) d after hsplit hd
      · cases hsplit
        exact hbegins hd
      · cases hsplit
        exact hrest before d after rfl hd
    · intro hall
      refine ⟨hall [] c cs rfl, fun before d after hsplit => ?_⟩
      exact hall (c :: before) d after (by rw [hsplit, List.cons_append])

instance : DecidablePred IsSettled := fun _ => decidable_of_iff _ recase_eq_self

end Words

open Words (IsSettled)

/-- Camel case keeps the name: it is settled, or it begins with a digit and is no identifier. -/
def IsCamel (cs : List Char) : Prop := cs.head?.any Char.isDigit ∨ IsSettled cs

instance : DecidablePred IsCamel := fun _ => inferInstanceAs (Decidable (_ ∨ _))

variable {cs : List Char}

theorem writePath_of_isAlphanum (casing : Casing) (h : ∀ c ∈ cs, c.isAlphanum) :
    casing.writePath cs = casing.writeSegment cs := by
  have hpath : Text.Split.splitWhere (· == '.') cs = [cs] := by
    refine Text.Split.splitWhere_of_forall fun c hc => beq_false_of_ne ?_
    rintro rfl
    exact absurd (h '.' hc) (by decide)
  rw [writePath, hpath]
  exact List.append_nil _

theorem isPlain_cons {c : Char} (h : ∀ d ∈ c :: cs, d.isAlphanum) :
    isPlain (c :: cs) = !c.isDigit := by
  have hrest : (cs.all fun d => d == '_' || d.isAlphanum) = true :=
    List.all_eq_true.mpr fun d hd => by simp [h d (List.mem_cons_of_mem c hd)]
  have hhead : (c.isAlpha || c.isDigit) = true := h c List.mem_cons_self
  rw [isPlain, hrest, Bool.and_true]
  cases hdigit : c.isDigit with
  | false =>
    rw [hdigit, Bool.or_false] at hhead
    simp [hhead]
  | true =>
    obtain ⟨hupper, hlower⟩ := not_isUpper_or_isLower_of_isDigit hdigit
    have hmark : c ≠ '_' := by
      rintro rfl
      cases hdigit
    simp [Char.isAlpha, hupper, hlower, hmark]

theorem writeSegment_eq_self (h : ∀ c ∈ cs, c.isAlphanum) :
    Casing.lowerCamel.writeSegment cs = cs ↔ IsCamel cs := by
  have hwords : Casing.lowerCamel.writeWords (Words.ofIdentifier cs) = cs ↔ IsSettled cs := by
    rw [writeWords, Words.lowerCamel_ofIdentifier h]
    exact Words.recase_eq_self
  rw [writeSegment, IsCamel]
  cases cs with
  | nil => exact iff_of_true rfl (.inr (hwords.mp rfl))
  | cons c cs =>
    rw [isPlain_cons h]
    cases hdigit : c.isDigit with
    | false => simpa [hdigit] using hwords
    | true => simp [hdigit]

/-- A name of letters and digits is its own camel case exactly if it looks like it. -/
theorem lowerCamel_physical_eq_self {name : String} (h : ∀ c ∈ name.toList, c.isAlphanum) :
    Casing.lowerCamel.physical name = name ↔ IsCamel name.toList := by
  rw [physical, writePath_of_isAlphanum _ h, ← String.toList_inj, String.toList_ofList]
  exact writeSegment_eq_self h

end Cql.Casing
