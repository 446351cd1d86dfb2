import Cql.Declaration.Lexeme
import Cql.Text.Split

/-!
Types as trees of brackets, and their written form, in which lifetimes stand before the other
arguments between angle brackets.
-/

namespace Cql.Declaration

inductive Bracket
  | round
  | square
  | curly
  | angle
  deriving DecidableEq, Repr

namespace Bracket

def all : List Bracket := [.round, .square, .curly, .angle]

def opening : Bracket → Char
  | .round => '('
  | .square => '['
  | .curly => '\x7b'
  | .angle => '<'

def closing : Bracket → Char
  | .round => ')'
  | .square => ']'
  | .curly => '\x7d'
  | .angle => '>'

end Bracket

inductive Tree
  | leaf (l : Lexeme)
  | group (b : Bracket) (inner : List Tree)
  deriving Repr

namespace Tree

def isMark (mark : String) : Tree → Bool
  | .leaf l => l.kind = .mark ∧ l.chars = mark.toList
  | .group _ _ => false

def isWord (word : String) : Tree → Bool
  | .leaf l => l.kind = .word ∧ l.chars = word.toList
  | .group _ _ => false

def isKind (kind : Lexeme.Kind) : Tree → Bool
  | .leaf l => l.kind = kind
  | .group _ _ => false

def isGroup (b : Bracket) : Tree → Bool
  | .leaf _ => false
  | .group c _ => b = c

mutual

def chars : Tree → List Char
  | .leaf l => l.chars
  | .group b inner => b.opening :: charsOfAll inner ++ [b.closing]

def charsOfAll : List Tree → List Char
  | [] => []
  | t :: ts => chars t ++ charsOfAll ts

end

/-- An argument between angle brackets, and whether a comma follows it. -/
structure Argument where
  trees : List Tree
  hasComma : Bool

namespace Argument

def comma : Tree := .leaf ⟨.mark, [',']⟩

/-- The arguments that commas end or separate. -/
def ofInner (inner : List Tree) : List Argument :=
  let parts := Text.Split.splitWhere (isMark ",") inner
  let last := parts.getLast?.getD []
  parts.dropLast.map (⟨·, true⟩) ++ if last.isEmpty then [] else [⟨last, false⟩]

/-- A lifetime on its own, or with its bounds; with a plus it begins a type. -/
def isLifetime (a : Argument) : Bool :=
  match a.trees with
  | first :: second :: _ => first.isKind .lifetime && !second.isMark "+"
  | [only] => only.isKind .lifetime
  | [] => false

/-- Whether an argument starts as a constant does. -/
def startsConstant : List Tree → Bool
  | [] => false
  | t :: _ =>
    t.isKind .literal || t.isWord "true" || t.isWord "false" || t.isMark "-" || t.isGroup .curly

/-- A type, and no lifetime, constant, bound or binding. -/
def isType (a : Argument) : Bool :=
  !a.isLifetime && !startsConstant a.trees && !a.trees.any fun t => t.isMark "=" || t.isMark ":"

/-- An argument keeps its comma, and all but the last have one. -/
def layout : List Argument → List Tree
  | [] => []
  | [a] => if a.hasComma then a.trees ++ [comma] else a.trees
  | a :: b :: as => a.trees ++ comma :: layout (b :: as)

/-- Lifetimes first, and otherwise the order as it was. -/
def arrange (inner : List Tree) : List Tree :=
  let arguments := ofInner inner
  layout (arguments.filter (·.isLifetime) ++ arguments.filter (!·.isLifetime))

end Argument

mutual

/-- The written form. -/
def normal : Tree → Tree
  | .leaf l => .leaf l
  | .group b inner =>
    let inner := normalOfAll inner
    .group b (if b = .angle then Argument.arrange inner else inner)

/-- Colons before the arguments of a function are left out. -/
def normalOfAll : List Tree → List Tree
  | [] => []
  | t :: ts =>
    if t.isMark "::" && ts.head?.any (isGroup .round) then normalOfAll ts
    else normal t :: normalOfAll ts

end

end Tree

end Cql.Declaration
