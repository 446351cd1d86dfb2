/-!
Cutting a text at separators and joining the parts again.
-/

namespace Cql.Text.Split

variable {α : Type}

/-- Puts an element in front of the first part. -/
def grow (a : α) : List (List α) → List (List α)
  | [] => [[a]]
  | part :: parts => (a :: part) :: parts

/-- The parts between the separators, which are as many as the separators and one more. -/
def splitWhere (isSeparator : α → Bool) : List α → List (List α)
  | [] => [[]]
  | a :: as =>
    if isSeparator a then [] :: splitWhere isSeparator as
    else grow a (splitWhere isSeparator as)

def join (separator : α) (parts : List (List α)) : List α := [separator].intercalate parts

end Cql.Text.Split
