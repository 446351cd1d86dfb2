import Cql.Proofs.Token.Quoted
import Cql.Proofs.Value.Literal

/-!
Values told apart by their literals. A scalar can be read back from its literal. Text is told by the
quote that it begins with and lists by the bracket, and each item of a list ends where a comma or a
bracket stands outside quotes, so no two values without floats, timestamps and expressions have the
same literal.
-/

namespace Cql

open Token (isNumberChar isNumberChar_of_isAlphanum)

namespace Text.Split

variable {α : Type} [DecidableEq α] {separator : α} {parts : List (List α)}

theorem filter_join (h : ∀ part ∈ parts, separator ∉ part) :
    (join separator parts).filter (· ≠ separator) = parts.flatten := by
  have hkeep : ∀ part ∈ parts, part.filter (· ≠ separator) = part := by
    intro part hpart
    refine List.filter_eq_self.mpr fun a ha => decide_eq_true ?_
    rintro rfl
    exact h part hpart ha
  induction parts with
  | nil => rfl
  | cons part parts ih =>
    have hothers := ih (fun other hother => h other (by simp [hother]))
      fun other hother => hkeep other (by simp [hother])
    cases parts with
    | nil =>
      have hone : join separator [part] = part := by simp [join]
      rw [hone, hkeep part (by simp), List.flatten_singleton]
    | cons next parts =>
      rw [join_cons_cons, List.filter_append, hkeep part (by simp), List.filter_cons, hothers]
      simp

end Text.Split

namespace Text.Hex

theorem value?_digit : ∀ n < 16, value? (digit n) = some n := by decide

theorem bytes?_ofBytes (bs : List UInt8) : bytes? (ofBytes bs) = some bs := by
  induction bs with
  | nil => rfl
  | cons b bs ih =>
    have hlt := b.toNat_lt
    have hhigh := value?_digit (b.toNat / 16) (by omega)
    have hlow := value?_digit (b.toNat % 16) (by omega)
    have hbyte : UInt8.ofNat (16 * (b.toNat / 16) + b.toNat % 16) = b := by
      rw [Nat.div_add_mod, UInt8.ofNat_toNat]
    have hcons : ofBytes (b :: bs) =
        digit (b.toNat / 16) :: digit (b.toNat % 16) :: ofBytes bs := rfl
    calc bytes? (ofBytes (b :: bs))
        = some (UInt8.ofNat (16 * (b.toNat / 16) + b.toNat % 16) :: bs) := by
          rw [hcons, bytes?, hhigh, hlow, ih]
          rfl
      _ = some (b :: bs) := by rw [hbyte]

end Text.Hex

namespace Uuid

theorem flatten_groups (u : Uuid) : u.groups.flatten = Text.Hex.ofBytes u.bytes.toList := by
  have hjoin : ∀ start count stop, start + count = stop →
      u.group start count ++ Text.Hex.ofBytes (u.bytes.toList.drop stop) =
        Text.Hex.ofBytes (u.bytes.toList.drop start) := by
    rintro start count _ rfl
    rw [group, Text.Hex.ofBytes, Text.Hex.ofBytes, ← List.flatMap_append, ← List.drop_drop,
      List.take_append_drop]
    rfl
  have hend : u.bytes.toList.drop 16 = [] := List.drop_eq_nil_of_le (by simp)
  calc u.groups.flatten
      = u.group 0 4 ++ (u.group 4 2 ++ (u.group 6 2 ++ (u.group 8 2 ++ (u.group 10 6 ++
          Text.Hex.ofBytes (u.bytes.toList.drop 16))))) := by
        simp [groups, hend, Text.Hex.ofBytes]
    _ = Text.Hex.ofBytes (u.bytes.toList.drop 0) := by
        rw [hjoin 10 6 16 rfl, hjoin 8 2 10 rfl, hjoin 6 2 8 rfl, hjoin 4 2 6 rfl, hjoin 0 4 4 rfl]

/-- Reading the text back gives the identifier. -/
theorem ofText?_text (u : Uuid) : ofText? u.text = some u := by
  have hgroups : ∀ g ∈ u.groups, '-' ∉ g := by
    intro g hg hmem
    cases (u.alphanum_groups g hg).2 '-' hmem
  have hbytes : Text.Hex.bytes? (u.text.filter (· ≠ '-')) = some u.bytes.toList := by
    rw [text_eq_join, Text.Split.filter_join hgroups, flatten_groups, Text.Hex.bytes?_ofBytes]
  have hsize : u.bytes.toList.toArray.size = 16 := by simp
  have hsame : Uuid.mk ⟨u.bytes.toList.toArray, hsize⟩ = u := rfl
  rw [ofText?, hbytes, Option.bind_eq_bind, Option.bind_some, dif_pos hsize, hsame]
  rfl

theorem hyphen_mem_tail_text (u : Uuid) : '-' ∈ u.text.tail := by
  have hfirst : u.group 0 4 ≠ [] := u.group_ne_nil (by omega) (by omega)
  rw [text_eq_join, groups, Text.Split.join_cons_cons, List.tail_append_of_ne_nil hfirst]
  simp

end Uuid

namespace Value

mutual

/-- Neither a float nor a timestamp nor an expression, nor a list that holds one at any depth. -/
def isExact : Value → Bool
  | .null | .bool _ | .int _ | .text _ | .uuid _ | .blob _ => true
  | .list items => itemsExact items
  | .float _ | .timestamp _ | .expr _ => false

def itemsExact : List Value → Bool
  | [] => true
  | v :: vs => isExact v && itemsExact vs

end

/-- The values whose literals have neither quotes nor brackets. -/
def isScalar : Value → Bool
  | .null | .bool _ | .int _ | .uuid _ | .blob _ => true
  | _ => false

/-- The scalar that a literal stands for. -/
def scalar? (cs : List Char) : Option Value :=
  if '-' ∈ cs.tail then (Uuid.ofText? cs).map .uuid
  else match cs with
    | '0' :: 'x' :: ds => (Text.Hex.bytes? ds).map .blob
    | 'n' :: _ => some .null
    | 't' :: _ => some (.bool true)
    | 'f' :: _ => some (.bool false)
    | '-' :: ds => some (.int (-Nat.ofDigitChars 10 ds 0))
    | ds => some (.int (Nat.ofDigitChars 10 ds 0))

variable {c : Char} {cs rest rest' : List Char} {v w : Value} {vs ws : List Value}

theorem scalar?_of_isDigit (hne : cs ≠ []) (h : ∀ c ∈ cs, c.isDigit) :
    scalar? cs = some (.int (Nat.ofDigitChars 10 cs 0)) := by
  have hhyphen : '-' ∉ cs.tail := fun hmem => by cases h '-' (List.mem_of_mem_tail hmem)
  unfold scalar?
  rw [if_neg hhyphen]
  split
  · cases h 'x' (by simp)
  · cases h 'n' (by simp)
  · cases h 't' (by simp)
  · cases h 'f' (by simp)
  · cases h '-' (by simp)
  · rfl

theorem scalar?_minus (h : ∀ c ∈ cs, c.isDigit) :
    scalar? ('-' :: cs) = some (.int (-Nat.ofDigitChars 10 cs 0)) := by
  have hhyphen : '-' ∉ cs := fun hmem => by cases h '-' hmem
  rw [scalar?, List.tail_cons, if_neg hhyphen]

theorem scalar?_intText (i : Int) : scalar? (intText i) = some (.int i) := by
  have hdigits : ∀ c ∈ Decimal.digits i.natAbs, c.isDigit :=
    fun c => Decimal.isDigit_of_mem_digits
  have hvalue : Nat.ofDigitChars 10 (Decimal.digits i.natAbs) 0 = i.natAbs :=
    Nat.ofDigitChars_toDigits (by omega) (by omega)
  rw [intText, Decimal.signed]
  by_cases hneg : i < 0
  · rw [if_pos (by simpa using hneg), scalar?_minus hdigits, hvalue]
    exact congrArg (some ∘ Value.int) (by omega)
  · have hne : Decimal.digits i.natAbs ≠ [] := Nat.toDigits_ne_nil
    rw [if_neg (by simpa using hneg), scalar?_of_isDigit hne hdigits, hvalue]
    exact congrArg (some ∘ Value.int) (by omega)

theorem scalar?_blob (bytes : List UInt8) :
    scalar? ('0' :: 'x' :: Text.Hex.ofBytes bytes) = some (.blob bytes) := by
  have hhyphen : '-' ∉ 'x' :: Text.Hex.ofBytes bytes := by
    intro hmem
    obtain hmem | hmem := List.mem_cons.mp hmem
    · cases hmem
    · cases Text.Hex.isAlphanum_of_mem_ofBytes hmem
  rw [scalar?, List.tail_cons, if_neg hhyphen, Text.Hex.bytes?_ofBytes]
  rfl

/-- Reading the literal of a scalar gives the scalar. -/
theorem scalar?_literalChars (h : v.isScalar) : scalar? v.literalChars = some v := by
  cases v with
  | null => rfl
  | bool b => cases b <;> rfl
  | int i => exact scalar?_intText i
  | uuid u =>
    unfold scalar?
    rw [literalChars, if_pos u.hyphen_mem_tail_text, u.ofText?_text]
    rfl
  | blob bytes => exact scalar?_blob bytes
  | _ => cases h

/-- The characters of scalars. -/
def isScalarChar (c : Char) : Bool := isNumberChar c || c == '-'

theorem isScalarChar_of_isAlphanum (h : c.isAlphanum) : isScalarChar c := by
  simp [isScalarChar, isNumberChar_of_isAlphanum h]

theorem isScalarChar_of_mem_intText {i : Int} (h : c ∈ intText i) : isScalarChar c := by
  have hdigit : ∀ c ∈ Decimal.digits i.natAbs, isScalarChar c := fun c hc =>
    isScalarChar_of_isAlphanum (by simp [Char.isAlphanum, Decimal.isDigit_of_mem_digits hc])
  rw [intText, Decimal.signed] at h
  split at h
  · obtain rfl | h := List.mem_cons.mp h
    · rfl
    · exact hdigit c h
  · exact hdigit c h

theorem isScalarChar_of_mem (hv : v.isScalar) (h : c ∈ v.literalChars) : isScalarChar c := by
  cases v with
  | null => exact List.all_eq_true.mp (by decide : (Value.null).literalChars.all isScalarChar) c h
  | bool b =>
    have hall : ∀ b, (Value.bool b).literalChars.all isScalarChar := by decide
    exact List.all_eq_true.mp (hall b) c h
  | int i => exact isScalarChar_of_mem_intText h
  | uuid u =>
    rw [literalChars, u.text_eq_join] at h
    obtain rfl | ⟨g, hg, hmem⟩ := Text.Split.mem_join h
    · rfl
    · exact isScalarChar_of_isAlphanum ((u.alphanum_groups g hg).2 c hmem)
  | blob bytes =>
    obtain rfl | h := List.mem_cons.mp h
    · rfl
    obtain rfl | h := List.mem_cons.mp h
    · rfl
    · exact isScalarChar_of_isAlphanum (Text.Hex.isAlphanum_of_mem_ofBytes h)
  | _ => cases hv

theorem literalChars_ne_nil (hv : v.isScalar) : v.literalChars ≠ [] := by
  cases v with
  | null => exact List.cons_ne_nil _ _
  | bool b => cases b <;> exact List.cons_ne_nil _ _
  | int i =>
    rw [literalChars, intText, Decimal.signed]
    split
    · exact List.cons_ne_nil _ _
    · exact Nat.toDigits_ne_nil
  | uuid u =>
    intro hnil
    have hmem := u.hyphen_mem_tail_text
    rw [show u.text = [] from hnil] at hmem
    cases hmem
  | blob bytes => exact List.cons_ne_nil _ _
  | _ => cases hv

/-- The first character tells texts, lists and scalars apart. -/
theorem exists_literalChars_cons (hv : v.isExact) :
    ∃ c cs, v.literalChars = c :: cs ∧ ((∃ s, v = .text s) ∧ c = '\'' ∨
      (∃ items, v = .list items) ∧ c = '[' ∨ v.isScalar ∧ isScalarChar c) := by
  have hscalar : v.isScalar → ∃ c cs, v.literalChars = c :: cs ∧ v.isScalar ∧ isScalarChar c := by
    intro hv
    obtain ⟨c, cs, hcons⟩ := List.exists_cons_of_ne_nil (literalChars_ne_nil hv)
    exact ⟨c, cs, hcons, hv, isScalarChar_of_mem hv (by simp [hcons])⟩
  cases v with
  | text s => exact ⟨'\'', _, rfl, .inl ⟨⟨s, rfl⟩, rfl⟩⟩
  | list items => exact ⟨'[', _, rfl, .inr (.inl ⟨⟨items, rfl⟩, rfl⟩)⟩
  | null | bool | int | uuid | blob =>
    obtain ⟨c, cs, hcons, hboth⟩ := hscalar rfl
    exact ⟨c, cs, hcons, .inr (.inr hboth)⟩
  | _ => cases hv

/-- The same is told by the first character of a text that begins with a literal. -/
theorem kind_of_head (hw : w.isExact) (h : c :: cs = w.literalChars ++ rest) :
    (∃ s, w = .text s) ∧ c = '\'' ∨ (∃ items, w = .list items) ∧ c = '[' ∨
      w.isScalar ∧ isScalarChar c := by
  obtain ⟨d, ds, hcons, hkind⟩ := exists_literalChars_cons hw
  rw [hcons] at h
  obtain ⟨rfl, -⟩ := List.cons.inj h
  exact hkind

theorem exists_eq_text (hw : w.isExact) (h : '\'' :: cs = w.literalChars ++ rest) :
    ∃ s, w = .text s := by
  obtain ⟨htext, -⟩ | ⟨-, hc⟩ | ⟨-, hc⟩ := kind_of_head hw h
  · exact htext
  · cases hc
  · cases hc

theorem exists_eq_list (hw : w.isExact) (h : '[' :: cs = w.literalChars ++ rest) :
    ∃ items, w = .list items := by
  obtain ⟨-, hc⟩ | ⟨hlist, -⟩ | ⟨-, hc⟩ := kind_of_head hw h
  · cases hc
  · exact hlist
  · cases hc

theorem isScalar_of_head (hw : w.isExact) (hc : isScalarChar c)
    (h : c :: cs = w.literalChars ++ rest) : w.isScalar := by
  obtain ⟨-, rfl⟩ | ⟨-, rfl⟩ | ⟨hscalar, -⟩ := kind_of_head hw h
  · cases hc
  · cases hc
  · exact hscalar

/-- What stands behind an item: nothing, or the comma before the next item, or the bracket that
closes the list. -/
def EndsItem (rest : List Char) : Prop := ∀ c ∈ rest.head?, c = ',' ∨ c = ']'

theorem EndsItem.not_any_isScalarChar (h : EndsItem rest) : ¬rest.head?.any isScalarChar := by
  cases rest with
  | nil => exact Bool.false_ne_true
  | cons c cs =>
    obtain rfl | rfl := h c rfl
    · exact Bool.false_ne_true
    · exact Bool.false_ne_true

theorem EndsItem.head?_ne_quote (h : EndsItem rest) : rest.head? ≠ some '\'' := by
  intro hquote
  obtain hc | hc := h '\'' hquote
  · cases hc
  · cases hc

theorem scalar_append_inj (hv : v.isScalar) (hw : w.isExact) (hrest : EndsItem rest)
    (hrest' : EndsItem rest') (h : v.literalChars ++ rest = w.literalChars ++ rest') :
    v = w ∧ rest = rest' := by
  obtain ⟨c, cs, hcons⟩ := List.exists_cons_of_ne_nil (literalChars_ne_nil hv)
  have hscalar : w.isScalar := by
    have hwritten : c :: (cs ++ rest) = w.literalChars ++ rest' := by
      rw [← h, hcons, List.cons_append]
    exact isScalar_of_head hw (isScalarChar_of_mem hv (by simp [hcons])) hwritten
  have hcut := Token.cutWhile_append_of_all (fun d => isScalarChar_of_mem hv)
    hrest.not_any_isScalarChar
  have hcut' := Token.cutWhile_append_of_all (fun d => isScalarChar_of_mem hscalar)
    hrest'.not_any_isScalarChar
  rw [h, hcut'] at hcut
  obtain ⟨hchars, hrests⟩ := Prod.mk.inj hcut
  have hread := scalar?_literalChars hv
  rw [← hchars, scalar?_literalChars hscalar] at hread
  exact ⟨(Option.some.inj hread).symm, hrests.symm⟩

theorem text_append_inj {s s' : String} (hrest : EndsItem rest) (hrest' : EndsItem rest')
    (h : quoted s.toList ++ rest = quoted s'.toList ++ rest') : s = s' ∧ rest = rest' := by
  have htails : Text.Quoted.escape '\'' s.toList ++ '\'' :: rest =
      Text.Quoted.escape '\'' s'.toList ++ '\'' :: rest' := by
    simpa [quoted, Text.Quoted.encode] using h
  have hcut := Token.cutQuoted_escape s.toList hrest.head?_ne_quote
  rw [htails, Token.cutQuoted_escape s'.toList hrest'.head?_ne_quote] at hcut
  obtain ⟨hbodies, hrests⟩ := Prod.mk.inj hcut
  have hchars := Text.Quoted.escape_injective '\'' (List.append_cancel_right hbodies)
  exact ⟨(String.toList_inj.mp hchars).symm, hrests.symm⟩

/-- What stands behind the first item. -/
def afterItem : List Value → List Char
  | [] => []
  | v :: vs => ',' :: ' ' :: itemChars (v :: vs)

theorem itemChars_cons (v : Value) (vs : List Value) :
    itemChars (v :: vs) = v.literalChars ++ afterItem vs := by
  cases vs with
  | nil => simp [itemChars, afterItem]
  | cons w ws => rfl

theorem endsItem_afterItem (vs : List Value) (rest : List Char) :
    EndsItem (afterItem vs ++ ']' :: rest) := by
  intro c hc
  cases vs with
  | nil => exact .inr (Option.some.inj hc).symm
  | cons v vs => exact .inl (Option.some.inj hc).symm

/-- No literal begins with the bracket that closes a list. -/
theorem itemChars_cons_ne (hv : v.isExact) : itemChars (v :: vs) ++ rest ≠ ']' :: rest' := by
  intro h
  rw [itemChars_cons, List.append_assoc] at h
  obtain ⟨-, hc⟩ | ⟨-, hc⟩ | ⟨-, hc⟩ := kind_of_head hv h.symm
  · cases hc
  · cases hc
  · cases hc

mutual

/-- A literal determines its value and where it ends. -/
theorem literalChars_append_inj : ∀ {v w : Value} {rest rest' : List Char}, v.isExact → w.isExact →
    EndsItem rest → EndsItem rest' → v.literalChars ++ rest = w.literalChars ++ rest' →
    v = w ∧ rest = rest'
  | .null, _, _, _, _, hw, hrest, hrest', h => scalar_append_inj rfl hw hrest hrest' h
  | .bool _, _, _, _, _, hw, hrest, hrest', h => scalar_append_inj rfl hw hrest hrest' h
  | .int _, _, _, _, _, hw, hrest, hrest', h => scalar_append_inj rfl hw hrest hrest' h
  | .uuid _, _, _, _, _, hw, hrest, hrest', h => scalar_append_inj rfl hw hrest hrest' h
  | .blob _, _, _, _, _, hw, hrest, hrest', h => scalar_append_inj rfl hw hrest hrest' h
  | .text s, w, rest, rest', _, hw, hrest, hrest', h => by
    obtain ⟨s', rfl⟩ := exists_eq_text hw h
    obtain ⟨rfl, rfl⟩ := text_append_inj hrest hrest' h
    exact ⟨rfl, rfl⟩
  | .list vs, w, rest, rest', hv, hw, _, _, h => by
    obtain ⟨ws, rfl⟩ := exists_eq_list hw h
    have hitems : itemChars vs ++ ']' :: rest = itemChars ws ++ ']' :: rest' := by
      simpa [literalChars] using h
    obtain ⟨rfl, rfl⟩ := itemChars_append_inj hv hw hitems
    exact ⟨rfl, rfl⟩

/-- The items up to the bracket that closes their list determine the list and where it ends. -/
theorem itemChars_append_inj : ∀ {vs ws : List Value} {rest rest' : List Char}, itemsExact vs →
    itemsExact ws → itemChars vs ++ ']' :: rest = itemChars ws ++ ']' :: rest' →
    vs = ws ∧ rest = rest'
  | [], [], _, _, _, _, h => ⟨rfl, (List.cons.inj h).2⟩
  | [], w :: ws, _, _, _, hws, h => by
    rw [itemsExact, Bool.and_eq_true] at hws
    exact absurd h.symm (itemChars_cons_ne hws.1)
  | v :: vs, [], _, _, hvs, _, h => by
    rw [itemsExact, Bool.and_eq_true] at hvs
    exact absurd h (itemChars_cons_ne hvs.1)
  | v :: vs, w :: ws, rest, rest', hvs, hws, h => by
    rw [itemsExact, Bool.and_eq_true] at hvs hws
    rw [itemChars_cons, itemChars_cons, List.append_assoc, List.append_assoc] at h
    obtain ⟨rfl, hafter⟩ := literalChars_append_inj hvs.1 hws.1 (endsItem_afterItem vs rest)
      (endsItem_afterItem ws rest') h
    have hothers : vs = ws ∧ rest = rest' := by
      cases vs with
      | nil =>
        cases ws with
        | nil => exact ⟨rfl, (List.cons.inj hafter).2⟩
        | cons w ws => cases hafter
      | cons v' vs =>
        cases ws with
        | nil => cases hafter
        | cons w ws =>
          simp only [afterItem, List.cons_append, List.cons.injEq, true_and] at hafter
          exact itemChars_append_inj hvs.2 hws.2 hafter
    obtain ⟨rfl, rfl⟩ := hothers
    exact ⟨rfl, rfl⟩

end

/-- Different values have different literals. -/
theorem literal_eq_iff (hv : v.isExact) (hw : w.isExact) : v.literal = w.literal ↔ v = w := by
  constructor
  · intro h
    have hchars : v.literalChars ++ [] = w.literalChars ++ [] := by
      rw [literal, literal, String.ofList_inj] at h
      rw [h]
    have hends : EndsItem [] := fun c hc => by cases hc
    exact (literalChars_append_inj hv hw hends hends hchars).1
  · rintro rfl
    rfl

/-- The text of one item looks like two items. -/
theorem literal_ne_of_one_item :
    (Value.list [.text "a', 'b"]).literal ≠ (Value.list [.text "a", .text "b"]).literal := by
  intro h
  have hsame := (literal_eq_iff (v := .list [.text "a', 'b"]) (w := .list [.text "a", .text "b"])
    rfl rfl).mp h
  simp at hsame

end Value

end Cql
