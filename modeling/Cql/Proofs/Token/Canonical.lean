import Cql.Proofs.Token.Split

/-!
The tokens of canonical text. A question mark in place of a placeholder stops every token where the
placeholder stopped it, so the text that the tokens of a text are rewritten to has the rewritten
tokens, whatever stands next to each other.
-/

namespace Cql.Token

/-- The token that stands in the canonical text for a token. -/
def canonical (t : Token) : Token :=
  if t.isPlaceholder then ⟨.positional, Query.canonicalMark⟩ else t

theorem chars_canonical (t : Token) : t.canonical.chars = Query.canonicalChars t := by
  rw [canonical, Query.canonicalChars]
  split <;> rfl

/-- The texts are equal up to a place where a placeholder may start in the first one, and a question
mark stands in the second one. -/
inductive Resembles : List Char → List Char → Prop
  | nil : Resembles [] []
  | cons {cs cs'} (c : Char) : Resembles cs cs' → Resembles (c :: cs) (c :: cs')
  | mark {c cs cs'} : opensPlaceholder c → Resembles (c :: cs) ('?' :: cs')

variable {c : Char} {cs cs' taken rest rest' : List Char} {kind : Kind}

namespace Resembles

theorem append_left (taken : List Char) (h : Resembles rest rest') :
    Resembles (taken ++ rest) (taken ++ rest') := by
  induction taken with
  | nil => exact h
  | cons c taken ih => exact .cons c ih

/-- What does not tell the starts of placeholders apart does not tell the texts apart at once. -/
theorem any_head? {p : Char → Bool} (hp : ∀ c, opensPlaceholder c → p c = p '?')
    (h : Resembles cs cs') : cs'.head?.any p = cs.head?.any p := by
  cases h with
  | nil => rfl
  | cons c h => rfl
  | mark hc => simp [hp _ hc]

theorem takeWhile_eq {p : Char → Bool} (hp : ∀ c, opensPlaceholder c → p c = p '?')
    (hmark : p '?' = false) (h : Resembles cs cs') : cs'.takeWhile p = cs.takeWhile p := by
  induction h with
  | nil => rfl
  | cons c h ih => simp only [List.takeWhile_cons, ih]
  | mark hc => simp [hp _ hc, hmark]

/-- No token goes on with a placeholder or with the mark in its place. -/
theorem stops (h : Resembles cs cs') : Stops cs cs' where
  head p hp hgoes := by rwa [← h.any_head? hp.places]
  word hgoes := by
    cases h with
    | nil => exact hgoes
    | cons c h =>
      have hname := h.any_head? (p := isNameStart) (alike_of_opensPlaceholder rfl rfl)
      rwa [ExtendsWord, hname] at hgoes
    | mark hc => simp [ExtendsWord, isWordChar, isNameChar] at hgoes

end Resembles

/-- The characters that a placeholder of each dialect starts with. -/
theorem next_placeholder (h : next c cs = .ok (kind, taken, rest)) :
    (kind = .positional → c = '?' ∧ taken = []) ∧ (kind = .colonNamed → c = ':') ∧
      (kind = .braceNamed → c = '#') := by
  obtain ⟨rfl, hcut⟩ := next_eq_ok_iff.mp h
  have hopens := opens_form c cs.head?
  generalize form c cs.head? = f at hcut hopens
  cases f with
  | mark =>
    cases hcut
    refine ⟨fun _ => ⟨hopens, rfl⟩, ?_, ?_⟩ <;> simp [Form.kind]
  | colon => exact ⟨by simp [Form.kind], fun _ => hopens.1, by simp [Form.kind]⟩
  | braces => exact ⟨by simp [Form.kind], by simp [Form.kind], fun _ => hopens.1⟩
  | _ => simp [Form.kind]

theorem opensPlaceholder_of_next (h : next c cs = .ok (kind, taken, rest))
    (hplace : isPlaceholder ⟨kind, c :: taken⟩) : opensPlaceholder c := by
  obtain ⟨hmark, hcolon, hbrace⟩ := next_placeholder h
  simp only [isPlaceholder, Bool.decide_or, Bool.or_eq_true, decide_eq_true_eq] at hplace
  obtain hkind | hkind | hkind := hplace
  · rw [(hmark hkind).1]
    rfl
  · rw [hcolon hkind]
    rfl
  · rw [hbrace hkind]
    rfl

variable {ts : List Token}

theorem resembles_canonical (h : scan cs = (ts, none)) :
    Resembles cs (ts.flatMap Query.canonicalChars) := by
  fun_induction scan cs generalizing ts with
  | case1 =>
    cases h
    exact .nil
  | case2 => cases h
  | case3 c cs kind taken rest hnext later =>
    rename_i ih
    obtain ⟨rfl, hlater⟩ := Prod.mk.inj h
    have hrest := ih (Prod.ext rfl hlater)
    rw [List.flatMap_cons, Query.canonicalChars]
    by_cases hplace : isPlaceholder ⟨kind, c :: taken⟩
    · rw [if_pos hplace]
      exact .mark (opensPlaceholder_of_next hnext hplace)
    · rw [if_neg hplace, ← next_append hnext]
      exact hrest.append_left (c :: taken)

theorem scan_canonical (h : scan cs = (ts, none)) :
    scan (ts.flatMap Query.canonicalChars) = (ts.map canonical, none) := by
  fun_induction scan cs generalizing ts with
  | case1 =>
    cases h
    rw [List.flatMap_nil, List.map_nil, scan]
  | case2 => cases h
  | case3 c cs kind taken rest hnext later =>
    rename_i ih
    obtain ⟨rfl, hlater⟩ := Prod.mk.inj h
    have hscan : scan rest = (later.1, none) := Prod.ext rfl hlater
    have hrest := ih hscan
    rw [List.flatMap_cons, List.map_cons, Query.canonicalChars, canonical]
    by_cases hplace : isPlaceholder ⟨kind, c :: taken⟩
    · have hmark : next '?' (later.1.flatMap Query.canonicalChars) =
          .ok (.positional, [], later.1.flatMap Query.canonicalChars) := rfl
      rw [if_pos hplace, if_pos hplace, Query.canonicalMark, List.singleton_append, scan, hmark]
      simp only [hrest]
    · have hsame := next_stops hnext (resembles_canonical hscan).stops
      rw [if_neg hplace, if_neg hplace, List.cons_append, scan, hsame]
      simp only [hrest]

end Cql.Token
