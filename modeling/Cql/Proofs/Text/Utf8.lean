import Mathlib
import Cql.Text.Utf8

/-!
The bytes of a text. A character of one byte is that byte, and no byte of any other character is a
character of one byte, so what looks for characters of one byte finds them among the bytes where
they stand in the text.
-/

namespace Cql.Text.Utf8

variable {c d : Char} {cs : List Char} {p : Char → Bool}

theorem bytesOf_of_lt (h : c.toNat < 128) : bytesOf c = [c] := by
  have hone : c.val.toNat ≤ 127 := by
    rw [Char.toNat_val]
    omega
  have hbyte : (UInt8.ofNat c.val.toNat).toNat = c.toNat := by
    rw [UInt8.toNat_ofNat', Char.toNat_val]
    omega
  rw [bytesOf, String.utf8EncodeChar, if_pos hone, List.map_singleton, hbyte, Char.ofNat_toNat]

theorem bytes_cons_of_lt (h : c.toNat < 128) (cs : List Char) :
    bytes (c :: cs) = c :: bytes cs := by
  rw [bytes_cons, bytesOf_of_lt h, List.singleton_append]

/-- The bytes that lead a longer character or go on with one. -/
theorem le_of_mem_bytesOf (h : 128 ≤ c.toNat) (hd : d ∈ bytesOf c) : 128 ≤ d.toNat := by
  obtain ⟨b, hb, rfl⟩ := List.mem_map.mp hd
  have hmany : ¬ c.val.toNat ≤ 127 := by
    rw [Char.toNat_val]
    omega
  have hbyte : 128 ≤ b.toNat := by
    rw [String.utf8EncodeChar, if_neg hmany] at hb
    split at hb
    · simp only [List.mem_cons, List.not_mem_nil, or_false] at hb
      rcases hb with rfl | rfl <;> rw [UInt8.toNat_ofNat'] <;> omega
    split at hb
    · simp only [List.mem_cons, List.not_mem_nil, or_false] at hb
      rcases hb with rfl | rfl | rfl <;> rw [UInt8.toNat_ofNat'] <;> omega
    · simp only [List.mem_cons, List.not_mem_nil, or_false] at hb
      rcases hb with rfl | rfl | rfl | rfl <;> rw [UInt8.toNat_ofNat'] <;> omega
  have hlt := b.toNat_lt
  rw [Char.toNat_ofNat, if_pos (.inl (by omega))]
  exact hbyte

theorem exists_bytesOf_cons (c : Char) : ∃ b bs, bytesOf c = b :: bs :=
  List.exists_cons_of_ne_nil (by simp [bytesOf])

theorem exists_bytes_cons (c : Char) (cs : List Char) :
    ∃ b later, bytes (c :: cs) = b :: later := by
  obtain ⟨b, bs, hbytes⟩ := exists_bytesOf_cons c
  exact ⟨b, bs ++ bytes cs, by rw [bytes_cons, hbytes, List.cons_append]⟩

section Single

/-! Tests that only characters of one byte pass. -/

variable (hp : ∀ d : Char, 128 ≤ d.toNat → p d = false)
include hp

theorem lt_of_test (hc : p c) : c.toNat < 128 := by
  by_contra hlong
  rw [hp c (by omega)] at hc
  cases hc

theorem any_head?_bytes (cs : List Char) : (bytes cs).head?.any p = cs.head?.any p := by
  cases cs with
  | nil => rfl
  | cons c cs =>
    by_cases hc : c.toNat < 128
    · rw [bytes_cons_of_lt hc]
      rfl
    · obtain ⟨b, bs, hbytes⟩ := exists_bytesOf_cons c
      have hb : 128 ≤ b.toNat := le_of_mem_bytesOf (c := c) (by omega) (by simp [hbytes])
      simp [hbytes, hp b hb, hp c (by omega)]

theorem takeWhile_bytes (cs : List Char) : (bytes cs).takeWhile p = bytes (cs.takeWhile p) := by
  induction cs with
  | nil => rfl
  | cons c cs ih =>
    by_cases hc : p c
    · have hone := lt_of_test hp hc
      rw [bytes_cons_of_lt hone, List.takeWhile_cons_of_pos hc, ih, List.takeWhile_cons_of_pos hc,
        bytes_cons_of_lt hone]
    · have hhead := any_head?_bytes hp (c :: cs)
      rw [List.takeWhile_cons_of_neg hc]
      cases hbytes : bytes (c :: cs) with
      | nil => rfl
      | cons b bs =>
        rw [hbytes] at hhead
        rw [List.takeWhile_cons_of_neg (by simpa [hc] using hhead), bytes_nil]

end Single

end Cql.Text.Utf8
