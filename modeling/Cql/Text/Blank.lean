/-!
Blank characters and trimming.
-/

namespace Cql.Text.Blank

/-- The blanks that separate the tokens of a statement: space, tab, line feed, form feed and
carriage return. -/
def isAscii (c : Char) : Bool :=
  c == ' ' || c == '\t' || c == '\n' || c == '\x0c' || c == '\r'

/-- The characters of the Unicode property White_Space. -/
def isUnicode (c : Char) : Bool :=
  let n := c.toNat
  (9 ≤ n && n ≤ 13) || n == 0x20 || n == 0x85 || n == 0xA0 || n == 0x1680 ||
    (0x2000 ≤ n && n ≤ 0x200A) || n == 0x2028 || n == 0x2029 || n == 0x202F || n == 0x205F ||
    n == 0x3000

theorem isUnicode_of_isAscii {c : Char} (h : isAscii c = true) : isUnicode c = true := by
  simp only [isAscii, Bool.or_eq_true, beq_iff_eq] at h
  rcases h with (((h | h) | h) | h) | h <;> subst h <;> decide

def trimStart (cs : List Char) : List Char := cs.dropWhile isUnicode

def trim (cs : List Char) : List Char := (trimStart (trimStart cs).reverse).reverse

theorem length_trimStart_le (cs : List Char) : (trimStart cs).length ≤ cs.length :=
  (List.dropWhile_sublist _).length_le

end Cql.Text.Blank
