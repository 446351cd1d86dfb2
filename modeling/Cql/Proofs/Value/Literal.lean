import Cql.Proofs.Text.Split
import Cql.Proofs.Token.Legible
import Cql.Value.Literal

/-!
Literals as the scanner reads them. A literal without expressions holds no placeholder: what looks
like one stands in quotes.
-/

namespace Cql

open Token

namespace Decimal

theorem isDigit_of_mem_digits {n : Nat} {c : Char} (h : c ∈ digits n) : c.isDigit :=
  Nat.isDigit_of_mem_toDigits (by decide) (by decide) h

theorem isNumberChar_of_mem_digits {n : Nat} {c : Char} (h : c ∈ digits n) : isNumberChar c :=
  isNumberChar_of_isAlphanum (by simp [Char.isAlphanum, isDigit_of_mem_digits h])

theorem isInert_of_mem_digits {n : Nat} {c : Char} (h : c ∈ digits n) : isInert c :=
  isInert_of_isNumberChar (isNumberChar_of_mem_digits h)

theorem isNumberChar_of_mem_zeros {n : Nat} {c : Char} (h : c ∈ zeros n) : isNumberChar c := by
  obtain rfl : c = '0' := (List.mem_replicate.mp h).2
  rfl

theorem isNumberChar_of_mem_positional {d : Scaled} {c : Char} (h : c ∈ d.positional) :
    isNumberChar c := by
  simp only [Scaled.positional] at h
  split at h
  · obtain h | h := List.mem_append.mp h
    · exact isNumberChar_of_mem_digits h
    · exact isNumberChar_of_mem_zeros h
  split at h
  · obtain h | h := List.mem_append.mp h
    · exact isNumberChar_of_mem_digits (List.mem_of_mem_take h)
    · obtain rfl | h := List.mem_cons.mp h
      · rfl
      · exact isNumberChar_of_mem_digits (List.mem_of_mem_drop h)
  · simp only [List.mem_cons, List.cons_append, List.mem_append] at h
    obtain rfl | rfl | h | h := h
    · rfl
    · rfl
    · exact isNumberChar_of_mem_zeros h
    · exact isNumberChar_of_mem_digits h

theorem exists_digits_cons (n : Nat) : ∃ c cs, digits n = c :: cs ∧ c.isDigit := by
  obtain ⟨c, cs, hdigits⟩ := List.exists_cons_of_ne_nil (Nat.toDigits_ne_nil (n := n) (b := 10))
  exact ⟨c, cs, hdigits, isDigit_of_mem_digits (n := n) (by simp [digits, hdigits])⟩

theorem exists_positional_cons (d : Scaled) : ∃ c cs, d.positional = c :: cs ∧ c.isDigit := by
  obtain ⟨c, cs, hdigits, hc⟩ := exists_digits_cons d.significand
  simp only [Scaled.positional, hdigits]
  split
  · exact ⟨c, _, rfl, hc⟩
  split
  · cases hwhole : (d.order + 1).toNat with
    | zero => omega
    | succ n => exact ⟨c, _, rfl, hc⟩
  · exact ⟨'0', _, rfl, rfl⟩

theorem positional_ne_nil (d : Scaled) : d.positional ≠ [] := by
  obtain ⟨c, cs, hcons, -⟩ := exists_positional_cons d
  simp [hcons]

end Decimal

namespace Text.Hex

theorem isAlphanum_digit : ∀ n < 16, (digit n).isAlphanum := by decide

/-- What all digits satisfy is true of all characters that stand for bytes. -/
theorem forall_mem_ofBytes {P : Char → Prop} (h : ∀ n < 16, P (digit n)) (bs : List UInt8) :
    ∀ c ∈ ofBytes bs, P c := by
  intro c hc
  obtain ⟨b, -, hb⟩ := List.mem_flatMap.mp hc
  have hlt := b.toNat_lt
  simp only [ofByte, List.mem_cons, List.not_mem_nil, or_false] at hb
  obtain rfl | rfl := hb
  · exact h _ (by omega)
  · exact h _ (by omega)

theorem isAlphanum_of_mem_ofBytes {bs : List UInt8} {c : Char} (h : c ∈ ofBytes bs) :
    c.isAlphanum :=
  forall_mem_ofBytes (P := fun c => c.isAlphanum) isAlphanum_digit bs c h

theorem isInert_of_mem_ofBytes {bs : List UInt8} {c : Char} (h : c ∈ ofBytes bs) : isInert c :=
  isInert_of_isNumberChar (isNumberChar_of_isAlphanum (isAlphanum_of_mem_ofBytes h))

theorem ofBytes_ne_nil {bs : List UInt8} (h : bs ≠ []) : ofBytes bs ≠ [] := by
  cases bs with
  | nil => exact absurd rfl h
  | cons b bs => simp [ofBytes, ofByte]

end Text.Hex

namespace Uuid

/-- Some bytes as digits, between two hyphens or at an end. -/
def group (u : Uuid) (start count : Nat) : List Char :=
  Text.Hex.ofBytes ((u.bytes.toList.drop start).take count)

def groups (u : Uuid) : List (List Char) :=
  [u.group 0 4, u.group 4 2, u.group 6 2, u.group 8 2, u.group 10 6]

theorem text_eq_join (u : Uuid) : u.text = Text.Split.join '-' u.groups := by
  simp [text, groups, group, Text.Split.join]

theorem group_ne_nil (u : Uuid) {start count : Nat} (hstart : start < 16) (hcount : 0 < count) :
    u.group start count ≠ [] := by
  have hlength : u.bytes.toList.length = 16 := by simp
  refine Text.Hex.ofBytes_ne_nil (List.ne_nil_of_length_pos ?_)
  simp only [List.length_take, List.length_drop, hlength]
  omega

theorem exists_group {u : Uuid} {g : List Char} (hg : g ∈ u.groups) :
    ∃ start count, start < 16 ∧ 0 < count ∧ g = u.group start count := by
  simp only [groups, List.mem_cons, List.not_mem_nil, or_false] at hg
  rcases hg with rfl | rfl | rfl | rfl | rfl
  · exact ⟨0, 4, by omega, by omega, rfl⟩
  · exact ⟨4, 2, by omega, by omega, rfl⟩
  · exact ⟨6, 2, by omega, by omega, rfl⟩
  · exact ⟨8, 2, by omega, by omega, rfl⟩
  · exact ⟨10, 6, by omega, by omega, rfl⟩

theorem alphanum_groups (u : Uuid) : ∀ g ∈ u.groups, g ≠ [] ∧ ∀ c ∈ g, c.isAlphanum := by
  intro g hg
  obtain ⟨start, count, hstart, hcount, rfl⟩ := exists_group hg
  exact ⟨u.group_ne_nil hstart hcount, fun c => Text.Hex.isAlphanum_of_mem_ofBytes⟩

end Uuid

namespace Value

mutual

/-- An expression, or a list that holds one at any depth. -/
def hasExpr : Value → Bool
  | .expr _ => true
  | .list items => itemsHaveExpr items
  | _ => false

def itemsHaveExpr : List Value → Bool
  | [] => false
  | v :: vs => hasExpr v || itemsHaveExpr vs

end

variable {dialect : Query.Dialect} {cs : List Char} {sk : Skeleton} {ns : List (List Char)}

theorem legible_signed {negative : Bool} {taken : List Char} (hne : taken ≠ [])
    (htaken : ∀ c ∈ taken, isInert c) (h : Legible dialect cs sk ns) :
    Legible dialect (Decimal.signed negative taken ++ cs)
      ((Decimal.signed negative taken).map some ++ sk) ns := by
  cases negative with
  | false => exact h.append_inert htaken
  | true => exact h.minus_append hne htaken

theorem legible_quoted (body : List Char) (hhead : cs.head? ≠ some '\'')
    (h : Legible dialect cs sk ns) :
    Legible dialect (quoted body ++ cs) ((quoted body).map some ++ sk) ns := by
  simpa [quoted, Text.Quoted.encode] using Legible.quoted body (.inl rfl) hhead h

theorem legible_float (x : Float) (h : Legible dialect cs sk ns) :
    Legible dialect ((Decimal.plain "Infinity" x).toList ++ cs)
      ((Decimal.plain "Infinity" x).toList.map some ++ sk) ns := by
  simp only [Decimal.plain, String.toList_ofList]
  split
  · exact h.append_inert (List.all_eq_true.mp rfl)
  · exact legible_signed (by decide) (List.all_eq_true.mp rfl) h
  · exact legible_signed (by decide) (List.all_eq_true.mp rfl) h
  · refine legible_signed (Decimal.positional_ne_nil _) (fun d hd => ?_) h
    exact isInert_of_isNumberChar (Decimal.isNumberChar_of_mem_positional hd)

theorem legible_uuid (u : Uuid) (h : Legible dialect cs sk ns) :
    Legible dialect (u.text ++ cs) (u.text.map some ++ sk) ns := by
  have hinert : ∀ start count, ∀ c ∈ u.group start count, isInert c :=
    fun _ _ _ => Text.Hex.isInert_of_mem_ofBytes
  have h₅ := h.minus_append (u.group_ne_nil (by decide) (by decide)) (hinert 10 6)
  have h₄ := h₅.minus_append (u.group_ne_nil (by decide) (by decide)) (hinert 8 2)
  have h₃ := h₄.minus_append (u.group_ne_nil (by decide) (by decide)) (hinert 6 2)
  have h₂ := h₃.minus_append (u.group_ne_nil (by decide) (by decide)) (hinert 4 2)
  simpa [Uuid.text_eq_join, Uuid.groups, Text.Split.join] using h₂.append_inert (hinert 0 4)

mutual

/-- A literal without expressions is legible before every text that does not go on with a quote. -/
theorem legible_literal : ∀ {v : Value} {cs : List Char} {sk : Skeleton}, v.hasExpr = false →
    cs.head? ≠ some '\'' → Legible dialect cs sk ns →
    Legible dialect (v.literalChars ++ cs) (v.literalChars.map some ++ sk) ns
  | .null, _, _, _, _, h => h.append_inert (List.all_eq_true.mp rfl)
  | .bool true, _, _, _, _, h => h.append_inert (List.all_eq_true.mp rfl)
  | .bool false, _, _, _, _, h => h.append_inert (List.all_eq_true.mp rfl)
  | .int i, _, _, _, _, h =>
    legible_signed Nat.toDigits_ne_nil (fun _ => Decimal.isInert_of_mem_digits) h
  | .float x, _, _, _, _, h => legible_float x h
  | .text s, _, _, _, hhead, h => legible_quoted s.toList hhead h
  | .uuid u, _, _, _, _, h => legible_uuid u h
  | .timestamp t, _, _, _, hhead, h => legible_quoted (t.text 3) hhead h
  | .blob bytes, _, _, _, _, h =>
    .inert rfl (.inert rfl (h.append_inert fun _ => Text.Hex.isInert_of_mem_ofBytes))
  | .list items, cs, sk, hexpr, _, h => by
    have hclose : Legible dialect (']' :: cs) (some ']' :: sk) ns := .inert rfl h
    have hexprs : itemsHaveExpr items = false := by simpa [hasExpr] using hexpr
    have hitems := legible_items hexprs (by simp) hclose
    simpa [literalChars] using Legible.inert (c := '[') rfl hitems

theorem legible_items : ∀ {items : List Value} {cs : List Char} {sk : Skeleton},
    itemsHaveExpr items = false → cs.head? ≠ some '\'' → Legible dialect cs sk ns →
    Legible dialect (itemChars items ++ cs) ((itemChars items).map some ++ sk) ns
  | [], _, _, _, _, h => h
  | [v], cs, sk, hexpr, hhead, h => by
    have hv : v.hasExpr = false := by simpa [itemsHaveExpr] using hexpr
    simpa [itemChars] using legible_literal hv hhead h
  | v :: w :: vs, cs, sk, hexpr, hhead, h => by
    rw [itemsHaveExpr, Bool.or_eq_false_iff] at hexpr
    have hrest := legible_items hexpr.2 hhead h
    have hcomma := Legible.inert (c := ',') rfl (Legible.inert (c := ' ') rfl hrest)
    simpa [itemChars] using legible_literal hexpr.1 (by simp) hcomma

end

end Value

end Cql
