/-!
Texts as bytes in UTF-8, and parts of a text that are taken out by the numbers of the bytes before
their start and their end. A number of bytes that ends inside a character or after the text gives no
part.
-/

namespace Cql.Text.Utf8

/-- The bytes of a character, each as the character that has the byte for its number. -/
def bytesOf (c : Char) : List Char :=
  (String.utf8EncodeChar c).map fun b => Char.ofNat b.toNat

def bytes (cs : List Char) : List Char := cs.flatMap bytesOf

/-- The number of bytes of a text. -/
def byteCount : List Char → Nat
  | [] => 0
  | c :: cs => c.utf8Size + byteCount cs

/-- What stands before and after the first `n` bytes. -/
def split? : List Char → Nat → Option (List Char × List Char)
  | cs, 0 => some ([], cs)
  | [], _ + 1 => none
  | c :: cs, n + 1 =>
    if c.utf8Size ≤ n + 1 then
      (split? cs (n + 1 - c.utf8Size)).map fun (before, after) => (c :: before, after)
    else none

/-- What stands after the first `start` bytes. -/
def from? (cs : List Char) (start : Nat) : Option (List Char) := (split? cs start).map (·.2)

/-- What stands after the first `start` bytes and before the first `stop` bytes end. -/
def between? (cs : List Char) (start stop : Nat) : Option (List Char) :=
  if start ≤ stop then
    (from? cs start).bind fun after => (split? after (stop - start)).map (·.1)
  else none

@[simp]
theorem bytes_nil : bytes [] = [] := rfl

@[simp]
theorem bytes_cons (c : Char) (cs : List Char) : bytes (c :: cs) = bytesOf c ++ bytes cs := rfl

@[simp]
theorem byteCount_nil : byteCount [] = 0 := rfl

@[simp]
theorem byteCount_cons (c : Char) (cs : List Char) :
    byteCount (c :: cs) = c.utf8Size + byteCount cs := rfl

@[simp]
theorem byteCount_append (cs ds : List Char) :
    byteCount (cs ++ ds) = byteCount cs + byteCount ds := by
  induction cs with
  | nil => simp
  | cons c cs ih => simp [ih, Nat.add_assoc]

theorem bytes_append (cs ds : List Char) : bytes (cs ++ ds) = bytes cs ++ bytes ds :=
  List.flatMap_append

theorem length_bytes (cs : List Char) : (bytes cs).length = byteCount cs := by
  induction cs with
  | nil => rfl
  | cons c cs ih => simp [bytesOf, ih]

theorem split?_append (before after : List Char) :
    split? (before ++ after) (byteCount before) = some (before, after) := by
  induction before with
  | nil => cases after <;> rfl
  | cons c before ih =>
    obtain ⟨n, hn⟩ : ∃ n, byteCount (c :: before) = n + 1 :=
      Nat.exists_eq_succ_of_ne_zero (by have := c.utf8Size_pos; rw [byteCount_cons]; omega)
    have hrest : n + 1 - c.utf8Size = byteCount before := by rw [← hn, byteCount_cons]; omega
    have hfits : c.utf8Size ≤ n + 1 := by rw [← hn, byteCount_cons]; omega
    rw [hn, List.cons_append, split?, if_pos hfits, hrest, ih]
    rfl

theorem append_of_split? {cs before after : List Char} {n : Nat}
    (h : split? cs n = some (before, after)) : cs = before ++ after ∧ n = byteCount before := by
  fun_induction split? cs n generalizing before with
  | case1 cs =>
    cases h
    exact ⟨rfl, rfl⟩
  | case2 n => cases h
  | case3 c cs n hfits ih =>
    obtain ⟨⟨first, after⟩, hsplit, heq⟩ := Option.map_eq_some_iff.mp h
    cases heq
    obtain ⟨rfl, hn⟩ := ih hsplit
    exact ⟨rfl, by rw [byteCount_cons]; omega⟩
  | case4 c cs n hlong => cases h

theorem from?_append (before after : List Char) :
    from? (before ++ after) (byteCount before) = some after := by
  rw [from?, split?_append]
  rfl

theorem between?_append (before part after : List Char) :
    between? (before ++ part ++ after) (byteCount before) (byteCount before + byteCount part) =
      some part := by
  have hlength : byteCount before + byteCount part - byteCount before = byteCount part := by omega
  rw [between?, if_pos (by omega), List.append_assoc, from?_append]
  simp only [Option.bind_some, hlength, split?_append, Option.map_some]

/-- A part has its start and its end between characters of the text. -/
theorem between?_eq_some_iff {cs part : List Char} {start stop : Nat} :
    between? cs start stop = some part ↔
      ∃ before after, cs = before ++ part ++ after ∧ start = byteCount before ∧
        stop = byteCount before + byteCount part := by
  constructor
  · intro h
    rw [between?] at h
    split at h
    · rename_i hle
      obtain ⟨after, hafter, h⟩ := Option.bind_eq_some_iff.mp h
      obtain ⟨⟨found, rest⟩, hpart, hfound⟩ := Option.map_eq_some_iff.mp h
      obtain rfl : found = part := hfound
      obtain ⟨⟨before, _⟩, hbefore, rfl⟩ := Option.map_eq_some_iff.mp hafter
      obtain ⟨rfl, rfl⟩ := append_of_split? hbefore
      obtain ⟨rfl, hstop⟩ := append_of_split? hpart
      exact ⟨before, rest, by rw [List.append_assoc], rfl, by omega⟩
    · cases h
  · rintro ⟨before, after, rfl, rfl, rfl⟩
    exact between?_append before part after

end Cql.Text.Utf8
