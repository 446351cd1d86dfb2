import Cql.Proofs.Casing.Underscore
import Cql.Proofs.Statement.Kept
import Cql.Proofs.Value.Closed

/-!
Literals in raw text. The words of a literal are resolved like all others, and of these only `null`,
`true` and `false` are reserved: a number that is not finite is taken for the name of a column, and
so is a group of an identifier that begins with a letter.
-/

namespace Cql

open Casing (IsSnakeWord)
open Token (readAll scan flatten)

namespace Text.Hex

theorem isLower_or_isDigit_digit : ∀ n < 16, (digit n).isLower ∨ (digit n).isDigit := by decide

theorem isSome_value?_toUpper_digit : ∀ n < 16, (value? (digit n).toUpper).isSome := by decide

theorem length_ofBytes (bs : List UInt8) : (ofBytes bs).length = 2 * bs.length := by
  induction bs with
  | nil => rfl
  | cons b bs ih =>
    rw [ofBytes, List.flatMap_cons, List.length_append, ← ofBytes, ih]
    simp only [ofByte, List.length_cons, List.length_nil]
    omega

/-- No reserved word of even length is made of hexadecimal digits. -/
theorem not_isReserved_ofBytes (bs : List UInt8) : ¬Reserved.isReserved (ofBytes bs) := by
  have hwords : (Reserved.words.all fun word => word.toList.length % 2 == 1 ||
      word.toList.any fun c => (value? c).isNone) = true := by decide +kernel
  intro hreserved
  have hword := List.all_eq_true.mp hwords _ (of_decide_eq_true hreserved)
  rw [String.toList_ofList, Bool.or_eq_true] at hword
  obtain hodd | hother := hword
  · simp [length_ofBytes] at hodd
  · obtain ⟨c, hc, hnone⟩ := List.any_eq_true.mp hother
    obtain ⟨d, hd, rfl⟩ := List.mem_map.mp hc
    have hsome := forall_mem_ofBytes (P := fun c => (value? c.toUpper).isSome)
      isSome_value?_toUpper_digit bs d hd
    simp [Option.isNone_iff_eq_none.mp hnone] at hsome

end Text.Hex

namespace Uuid

variable {u : Uuid} {g : List Char}

theorem head?_group (hg : g ∈ u.groups) :
    g.head?.any Char.isDigit ↔ ¬g.head?.any Char.isAlpha := by
  obtain ⟨hne, hall⟩ := u.alphanum_groups g hg
  cases g with
  | nil => exact absurd rfl hne
  | cons c cs =>
    have hc : c.isAlpha ∨ c.isDigit := by simpa [Char.isAlphanum] using hall c List.mem_cons_self
    refine ⟨fun hdigit hletter => ?_, hc.resolve_left⟩
    have hnone : c.isAlpha = false := Casing.isAlpha_eq_false_of_isDigit hdigit
    rw [List.head?_cons, Option.any_some, hnone] at hletter
    cases hletter

/-- A group that begins with a letter looks like the name of a column. -/
theorem isSnakeWord_of_mem_groups (hg : g ∈ u.groups) (hletter : g.head?.any Char.isAlpha) :
    IsSnakeWord g ∧ ¬Reserved.isReserved g := by
  have hdigit := mt (head?_group hg).mp (not_not.mpr hletter)
  obtain ⟨start, count, -, -, rfl⟩ := exists_group hg
  have hdigits : ∀ c ∈ u.group start count, c.isLower ∨ c.isDigit :=
    Text.Hex.forall_mem_ofBytes Text.Hex.isLower_or_isDigit_digit _
  refine ⟨⟨?_, hdigits⟩, Text.Hex.not_isReserved_ofBytes _⟩
  generalize u.group start count = cs at hletter hdigit hdigits
  cases cs with
  | nil => cases hletter
  | cons c cs => exact (hdigits c List.mem_cons_self).resolve_right hdigit

theorem keeps_group_iff (casing : Casing) (hg : g ∈ u.groups)
    (hletter : g.head?.any Char.isAlpha) : casing.Keeps g ↔ casing ≠ .upperUnderscore := by
  obtain ⟨hword, hreserved⟩ := isSnakeWord_of_mem_groups hg hletter
  rw [Casing.Keeps, or_iff_right hreserved, Casing.writePath_snakeWord casing hword]
  by_cases hcasing : casing = .upperUnderscore
  · simp [hcasing, Casing.upper_ne_self hword]
  · simp [hcasing]

theorem keeps_groups_iff (u : Uuid) (casing : Casing) :
    (∀ word ∈ u.groups.filter (·.head?.any Char.isAlpha), casing.Keeps word) ↔
      (casing = .upperUnderscore → ∀ group ∈ u.groups, group.head?.any Char.isDigit) := by
  constructor
  · intro hkeeps hcasing g hg
    rw [head?_group hg]
    intro hletter
    exact (keeps_group_iff casing hg hletter).mp (hkeeps g (List.mem_filter.mpr ⟨hg, hletter⟩))
      hcasing
  · intro hdigits g hmem
    obtain ⟨hg, hletter⟩ := List.mem_filter.mp hmem
    exact (keeps_group_iff casing hg hletter).mpr fun hcasing =>
      (head?_group hg).mp (hdigits hcasing g hg) hletter

end Uuid

/-- The number is finite. -/
def Decimal.Binary.IsFinite : Binary → Prop
  | .finite .. => True
  | _ => False

namespace Value

open Token

variable {casing : Casing} {v : Value}

mutual

/-- Raw text in a casing has the literal of the value as it is: every number in it is finite, and
with capitals every group of an identifier begins with a digit. -/
def IsKept (casing : Casing) : Value → Prop
  | .float x => (Decimal.Binary.ofFloat x).IsFinite
  | .uuid u => casing = .upperUnderscore → ∀ group ∈ u.groups, group.head?.any Char.isDigit
  | .list items => AreKept casing items
  | _ => True

def AreKept (casing : Casing) : List Value → Prop
  | [] => True
  | v :: vs => IsKept casing v ∧ AreKept casing vs

end

theorem keeps_floatWords_iff (casing : Casing) (b : Decimal.Binary) :
    (∀ word ∈ floatWords b, casing.Keeps word) ↔ b.IsFinite := by
  cases b with
  | nan =>
    rw [floatWords, List.forall_mem_singleton]
    refine iff_of_false ?_ id
    cases casing <;> decide +kernel
  | infinite negative =>
    rw [floatWords, List.forall_mem_singleton]
    refine iff_of_false ?_ id
    cases casing <;> decide +kernel
  | finite negative mantissa exponent => exact iff_of_true (List.forall_mem_nil _) trivial

mutual

theorem keeps_words_iff (casing : Casing) :
    ∀ v : Value, (∀ word ∈ v.words, casing.Keeps word) ↔ v.IsKept casing
  | .null => iff_of_true (List.forall_mem_singleton.mpr (.inl (by decide +kernel))) trivial
  | .bool true => iff_of_true (List.forall_mem_singleton.mpr (.inl (by decide +kernel))) trivial
  | .bool false => iff_of_true (List.forall_mem_singleton.mpr (.inl (by decide +kernel))) trivial
  | .int i => iff_of_true (List.forall_mem_nil _) trivial
  | .float x => keeps_floatWords_iff casing _
  | .text s => iff_of_true (List.forall_mem_nil _) trivial
  | .uuid u => u.keeps_groups_iff casing
  | .timestamp t => iff_of_true (List.forall_mem_nil _) trivial
  | .blob bytes => iff_of_true (List.forall_mem_nil _) trivial
  | .list items => keeps_itemWords_iff casing items
  | .expr s => iff_of_true (List.forall_mem_nil _) trivial

theorem keeps_itemWords_iff (casing : Casing) :
    ∀ vs : List Value, (∀ word ∈ itemWords vs, casing.Keeps word) ↔ AreKept casing vs
  | [] => iff_of_true (List.forall_mem_nil _) trivial
  | v :: vs => by
    rw [itemWords, List.forall_mem_append, AreKept, keeps_words_iff casing v,
      keeps_itemWords_iff casing vs]

end

theorem isLettered_floatWords (b : Decimal.Binary) : ∀ word ∈ floatWords b, IsLettered word := by
  cases b with
  | nan | infinite negative => exact List.forall_mem_singleton.mpr ⟨rfl, List.all_eq_true.mp rfl⟩
  | finite negative mantissa exponent => exact List.forall_mem_nil _

mutual

theorem isLettered_words : ∀ (v : Value), ∀ word ∈ v.words, IsLettered word
  | .null => List.forall_mem_singleton.mpr ⟨rfl, List.all_eq_true.mp rfl⟩
  | .bool true => List.forall_mem_singleton.mpr ⟨rfl, List.all_eq_true.mp rfl⟩
  | .bool false => List.forall_mem_singleton.mpr ⟨rfl, List.all_eq_true.mp rfl⟩
  | .int i => List.forall_mem_nil _
  | .float x => isLettered_floatWords _
  | .text s => List.forall_mem_nil _
  | .uuid u => fun g hmem => by
    obtain ⟨hg, hletter⟩ := List.mem_filter.mp hmem
    refine ⟨hletter, fun c hc => ?_⟩
    simp [isWordChar, isNameChar, (u.alphanum_groups g hg).2 c hc]
  | .timestamp t => List.forall_mem_nil _
  | .blob bytes => List.forall_mem_nil _
  | .list items => isLettered_itemWords items
  | .expr s => List.forall_mem_nil _

theorem isLettered_itemWords : ∀ (vs : List Value), ∀ word ∈ itemWords vs, IsLettered word
  | [] => List.forall_mem_nil _
  | v :: vs => List.forall_mem_append.mpr ⟨isLettered_words v, isLettered_itemWords vs⟩

end

/-- The names in a literal begin with letters. -/
theorem hasLetters_of_words {ts : List Token} (h : Token.words ts = v.words) :
    Scope.HasLetters ts := by
  have hwords := isLettered_words v
  rw [← h, Token.forall_mem_words] at hwords
  intro t ht hword part hpart
  have hlettered := hwords t ht hword
  have hsplit : Text.Split.splitWhere (· == '.') t.chars = [t.chars] := by
    refine Text.Split.splitWhere_of_forall fun c hc => beq_false_of_ne ?_
    rintro rfl
    cases hlettered.2 '.' hc
  rw [hsplit, List.mem_singleton] at hpart
  rw [hpart]
  exact hlettered.1

/-- In a statement without an entity, a literal is the same in raw text exactly if its numbers are
finite and, with capitals, the groups of its identifiers begin with digits. Then it is the same
between other texts too, and these are written as they are alone, if no token goes on from one text
into the next. -/
theorem raw_literal (style : Style) (hexpr : v.hasExpr = false) :
    ∃ ps, Scope.WritesRaw style v.literal ps ∧
      (Piece.textOf style.binding ps = v.literal ↔ v.IsKept style.casing) ∧
      (v.IsKept style.casing → ∀ before after : String, KeepApart before v.literal after →
        ∃ qs rs us, Scope.WritesRaw style before qs ∧ Scope.WritesRaw style after rs ∧
          Scope.WritesRaw style (before ++ v.literal ++ after) us ∧
          Piece.textOf style.binding us =
            Piece.textOf style.binding qs ++ v.literal ++ Piece.textOf style.binding rs) := by
  obtain ⟨ts, hclosed, hwords⟩ := closed_literal_words hexpr
  obtain ⟨t, us, rfl, hblank, hparen⟩ := hclosed.exists_cons
  have hscan : scan v.literal.toList = (t :: us, none) := by
    rw [literal, String.toList_ofList, hclosed.scan_eq]
  have hread := readAll_eq_ok_iff.mpr hscan
  have hkeeps : (∀ word ∈ Token.words (t :: us), style.casing.Keeps word) ↔
      v.IsKept style.casing := by
    rw [hwords]
    exact keeps_words_iff style.casing v
  refine ⟨_, Scope.writesRaw_of_readAll style hread, ?_, fun hkept before after hapart => ?_⟩
  · rw [← String.toList_inj, ← Scope.flatten_tokens,
      Scope.flatten_tokens_eq_iff hscan (hasLetters_of_words hwords),
      Scope.tokens_eq_self_iff hclosed.parens, hkeeps]
  · exact Scope.writesRaw_of_keepApart style hapart hread hblank hparen (hkeeps.mpr hkept)

/-- An identifier with two groups that begin with letters. -/
def somebody : Uuid :=
  ⟨#v[0x55, 0x0e, 0x84, 0, 0xe2, 0x9b, 0x41, 0xd4, 0xa7, 0x16, 0x44, 0x66, 0x55, 0x44, 0, 0]⟩

/-- The names around the literal are resolved. -/
theorem raw_literal_spliced :
    let v : Value := .list [.null, .uuid somebody]
    v.hasExpr = false ∧ v.IsKept .lowerUnderscore ∧
      v.literal = "[null, 550e8400-e29b-41d4-a716-446655440000]" ∧
      ∃ ps, Scope.WritesRaw {} ("ownerIds = " ++ v.literal ++ " AND isOpen") ps ∧
        Piece.textOf .positional ps =
          "owner_ids = [null, 550e8400-e29b-41d4-a716-446655440000] AND is_open" := by
  intro v
  have hliteral : v.literal = "[null, 550e8400-e29b-41d4-a716-446655440000]" := by decide +kernel
  have hkept : v.IsKept .lowerUnderscore := ⟨trivial, fun h => (nomatch h), trivial⟩
  obtain ⟨-, -, -, hsplice⟩ := raw_literal {} (v := v) rfl
  have hbefore : readAll "ownerIds = ".toList =
      .ok [⟨.word, "ownerIds".toList⟩, ⟨.blank, [' ']⟩, ⟨.punctuation, ['=']⟩, ⟨.blank, [' ']⟩] :=
    readAll_eq_ok_iff.mpr (by decide +kernel)
  have hafter : readAll " AND isOpen".toList =
      .ok [⟨.blank, [' ']⟩, ⟨.word, "AND".toList⟩, ⟨.blank, [' ']⟩, ⟨.word, "isOpen".toList⟩] :=
    readAll_eq_ok_iff.mpr (by decide +kernel)
  obtain ⟨qs, rs, ps, hqs, hrs, hps, htext⟩ :=
    hsplice hkept "ownerIds = " " AND isOpen" (by decide +kernel)
  obtain rfl := hqs.unique (Scope.writesRaw_of_readAll {} hbefore)
  obtain rfl := hrs.unique (Scope.writesRaw_of_readAll {} hafter)
  refine ⟨rfl, hkept, hliteral, ps, hps, htext.trans ?_⟩
  rw [hliteral]
  decide +kernel

/-- A number without digits is taken for a name, and groups of an identifier are put in capitals. -/
theorem literal_recased : ¬ ∀ (style : Style) (v : Value), v.hasExpr = false →
    ∀ ps, Scope.WritesRaw style v.literal ps → Piece.textOf style.binding ps = v.literal := by
  intro hall
  let v : Value := .list [.float (Decimal.Binary.toFloat .nan), .uuid somebody]
  have hliteral : v.literal = "[NaN, 550e8400-e29b-41d4-a716-446655440000]" := by decide +kernel
  have hread : readAll v.literal.toList = .ok
      [⟨.punctuation, ['[']⟩, ⟨.word, "NaN".toList⟩, ⟨.punctuation, [',']⟩, ⟨.blank, [' ']⟩,
        ⟨.number, "550e8400".toList⟩, ⟨.punctuation, ['-']⟩, ⟨.word, "e29b".toList⟩,
        ⟨.punctuation, ['-']⟩, ⟨.number, "41d4".toList⟩, ⟨.punctuation, ['-']⟩,
        ⟨.word, "a716".toList⟩, ⟨.punctuation, ['-']⟩, ⟨.number, "446655440000".toList⟩,
        ⟨.punctuation, [']']⟩] := by
    rw [hliteral]
    exact readAll_eq_ok_iff.mpr (by decide +kernel)
  have hsame := hall ⟨.upperUnderscore, .positional⟩ v rfl _ (Scope.writesRaw_of_readAll _ hread)
  have hwritten : v.literal = "[NA_N, 550e8400-E29B-41d4-A716-446655440000]" :=
    hsame.symm.trans (by decide +kernel)
  rw [hliteral] at hwritten
  revert hwritten
  decide +kernel

end Value

end Cql
