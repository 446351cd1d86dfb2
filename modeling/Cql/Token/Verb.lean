import Cql.Token.Scan

/-!
The verb of a statement: its first word after blanks, comments and opening parentheses. Here a
block comment may end with the asterisk that opened it, and blanks are those of Unicode.
-/

namespace Cql.Token

theorem length_cutBlock_le (cs : List Char) : (cutBlock cs).2.length ≤ cs.length := by
  have := congrArg List.length (cutBlock_append cs)
  simp only [List.length_append] at this
  omega

/-- What follows the first line feed. -/
def afterLine (cs : List Char) : List Char := (cs.dropWhile (· ≠ '\n')).tail

theorem length_afterLine_le (cs : List Char) : (afterLine cs).length ≤ cs.length := by
  have := (List.dropWhile_sublist (· ≠ '\n') (l := cs)).length_le
  simp only [afterLine, List.length_tail]
  omega

/-- The text without what stands before its first word. -/
def skipLeading (cs : List Char) : List Char :=
  match _h : Text.Blank.trimStart cs with
  | '-' :: '-' :: rest => skipLeading (afterLine rest)
  | '/' :: '/' :: rest => skipLeading (afterLine rest)
  | '/' :: '*' :: rest => skipLeading (cutBlock ('*' :: rest)).2
  | '(' :: rest => skipLeading rest
  | rest => rest
termination_by cs.length
decreasing_by
  all_goals
    have hle := Text.Blank.length_trimStart_le cs
    rw [_h] at hle
    simp only [List.length_cons] at hle
  · have := length_afterLine_le rest; omega
  · have := length_afterLine_le rest; omega
  · have := length_cutBlock_le ('*' :: rest); simp only [List.length_cons] at this; omega
  · omega

/-- The first word in letters, if the statement starts with a letter. -/
def verb? (cs : List Char) : Option (List Char) :=
  match (skipLeading cs).takeWhile Char.isAlpha with
  | [] => none
  | word => some word

def manipulationVerbs : List String := ["SELECT", "INSERT", "UPDATE", "DELETE", "MERGE", "BEGIN"]

/-- Whether the statement reads or writes data; the case of its verb does not matter. -/
def isManipulation (cs : List Char) : Bool :=
  (verb? cs).any fun word => String.ofList (word.map Char.toUpper) ∈ manipulationVerbs

end Cql.Token
