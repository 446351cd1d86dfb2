/-!
Quoted text: a quote inside is written twice.
-/

namespace Cql.Text.Quoted

/-- The inside of a quoted text. -/
def escape (q : Char) : List Char → List Char
  | [] => []
  | c :: cs => if c = q then q :: q :: escape q cs else c :: escape q cs

def encode (q : Char) (cs : List Char) : List Char := q :: escape q cs ++ [q]

/-- Undoes the doubling of quotes. -/
def unescape (q : Char) : List Char → List Char
  | [] => []
  | [c] => [c]
  | c :: d :: cs => if c = q ∧ d = q then q :: unescape q cs else c :: unescape q (d :: cs)

end Cql.Text.Quoted
