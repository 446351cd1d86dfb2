import Cql.Declaration.Tree

/-!
Reading the tree of a type. Angle brackets are brackets where types stand, and operators in code:
in blocks and in the lengths of arrays. Code has types in it as well: after `as`, after the colon
of a binding or of a parameter between bars, and in the heads of declarations. What is given to a
macro is neither.
-/

namespace Cql.Declaration

/-- What stands at a place of code. -/
inductive Region
  | value
  /-- A type after `as`, which an operator ends. -/
  | cast
  /-- The type of a binding, up to its value. -/
  | typed
  /-- The head of a declaration, up to its body. -/
  | head
  deriving DecidableEq, Repr

inductive Content
  | types
  | code (region : Region)
  /-- What is given to a macro, or an attribute. -/
  | verbatim
  deriving DecidableEq, Repr

/-- A bracket that is still open, with the trees in it so far, the last one first. -/
structure Level where
  /-- Nothing for the whole text. -/
  bracket : Option Bracket := none
  content : Content := .types
  /-- A colon would begin the type of a binding. -/
  binds : Bool := false
  /-- Between the bars of parameters. -/
  inBars : Bool := false
  /-- The body of the declaration holds types. -/
  bodyHoldsTypes : Bool := false
  /-- Braces end the statement. -/
  endsWithBraces : Bool := false
  trees : List Tree := []

namespace Level

/-- Words that no operator follows. -/
def openWords : List String :=
  ["as", "async", "break", "const", "dyn", "else", "extern", "fn", "for", "if", "impl", "in", "let",
    "match", "move", "mut", "ref", "return", "static", "unsafe", "where", "while", "yield"]

/-- Whether an operand may end with the tree. -/
def endsOperand (t : Tree) : Bool :=
  match t with
  | .group _ _ => true
  | .leaf l =>
    match l.kind with
    | .word => !openWords.any t.isWord
    | .literal => true
    | _ => t.isMark "?"

/-- Braces that end a statement stand right before. -/
def afterStatement (level : Level) : Bool :=
  level.bracket = some .curly && level.endsWithBraces && level.trees.head?.any (Tree.isGroup .curly)

/-- Lifetimes that are bound for what follows stand right before. -/
def afterBinder (level : Level) : Bool :=
  match level.trees with
  | t :: w :: _ => t.isGroup .angle && w.isWord "for"
  | _ => false

/-- An operand stands right before. -/
def afterOperand (level : Level) : Bool :=
  level.trees.head?.any endsOperand && !level.afterStatement && !level.afterBinder

def endsWith (level : Level) (mark : String) : Bool := level.trees.head?.any (Tree.isMark mark)

/-- The exclamation mark after the name of a macro. -/
def endsMacro : List Tree → Bool
  | mark :: name :: _ => mark.isMark "!" && endsOperand name
  | _ => false

/-- A macro with or without a name of its own stands right before, or an attribute begins. -/
def startsVerbatim (level : Level) : Bool :=
  match level.trees with
  | [] => false
  | t :: ts =>
    t.isMark "#" || t.isMark "!" && ts.head?.any (Tree.isMark "#") || endsMacro (t :: ts) ||
      t.isKind .word && endsMacro ts

/-- Whether an angle bracket would be a bracket. -/
def opensAngle (level : Level) : Bool :=
  match level.content with
  | .types => true
  | .verbatim => false
  | .code .value => level.endsWith "::" || !level.afterOperand
  | .code _ => true

/-- The bracket that a mark opens at the end of the level. -/
def opened? (level : Level) (mark : List Char) : Option Bracket :=
  (Bracket.all.find? fun b => mark = [b.opening]).filter fun b => b ≠ .angle || level.opensAngle

/-- What stands in a bracket that opens at the end of the level. -/
def inside (level : Level) (b : Bracket) : Content :=
  if level.content = .verbatim || level.startsVerbatim then .verbatim
  else match b, level.content with
    | .angle, _ => .types
    | .curly, .types => if level.bracket = some .curly then .types else .code .value
    | .curly, _ => if level.bodyHoldsTypes then .types else .code .value
    | _, .code .value => .code .value
    | _, _ => .types

/-- The level once a bracket in it was opened: after the braces of a body there is a value. -/
def around (level : Level) (b : Bracket) : Level :=
  match b, level.content with
  | .curly, .code _ => { level with content := .code .value, bodyHoldsTypes := false }
  | _, _ => level

/-- Words that begin a statement which braces end. -/
def bracedWords : List String :=
  ["enum", "extern", "fn", "for", "if", "impl", "loop", "match", "mod", "pub", "struct", "trait",
    "unsafe", "while"]

/-- Whether a tree that is added begins a statement. -/
def startsStatement (level : Level) (t : Tree) : Bool :=
  match level.trees with
  | [] => true
  | last :: _ =>
    last.isMark ";" ||
      level.afterStatement && !(t.isWord "else" || t.isMark "." || t.isMark "?")

def add (level : Level) (t : Tree) : Level :=
  let endsWithBraces :=
    if level.startsStatement t then
      t.isGroup .curly || t.isKind .lifetime || bracedWords.any t.isWord
    else level.endsWithBraces
  { level with trees := t :: level.trees, endsWithBraces }

def close (level outer : Level) : Level :=
  match level.bracket with
  | none => outer
  | some b => outer.add (.group b level.trees.reverse)

/-- After a word where a value stands. -/
def afterWord (level : Level) (word : String) : Level :=
  match word with
  | "as" => { level with content := .code .cast }
  | "let" | "const" | "static" => { level with binds := true }
  | "struct" | "enum" =>
    { level with content := .code .head, binds := false, bodyHoldsTypes := true }
  | "fn" | "trait" | "impl" | "type" => { level with content := .code .head, binds := false }
  | _ => level

/-- After a mark where a value stands. -/
def afterMark (level : Level) (mark : String) : Level :=
  match mark with
  | "->" => { level with content := .code .head }
  | "=" => { level with binds := false, inBars := false }
  | "|" => { level with inBars := !level.inBars && !level.afterOperand }
  | ":" =>
    if level.binds || level.inBars then { level with content := .code .typed, binds := false }
    else level
  | _ => level

def afterValue (level : Level) (l : Lexeme) : Level :=
  match l.kind with
  | .word => level.afterWord (String.ofList l.chars)
  | .mark => level.afterMark (String.ofList l.chars)
  | _ => level

/-- Whether a lexeme goes on with the type after `as`. -/
def continuesCast (level : Level) (l : Lexeme) : Bool :=
  !level.afterOperand || [[':', ':'], ['-', '>'], ['!']].contains l.chars

/-- Whether a mark ends the type of a binding. -/
def endsTyped (level : Level) (mark : List Char) : Bool :=
  mark = ['='] || level.inBars && [[','], ['|']].contains mark

/-- The level once a lexeme that is no bracket is read, which is still to be added. -/
def after (level : Level) (l : Lexeme) : Level :=
  let value := { level with content := .code .value }
  match level.content with
  | .verbatim => level
  | .types => if level.bracket = some .square ∧ l.chars = [';'] then value else level
  | .code region =>
    if l.chars = [';'] then
      { value with binds := false, inBars := false, bodyHoldsTypes := false }
    else match region with
      | .value => level.afterValue l
      | .cast => if level.continuesCast l then level else value.afterValue l
      | .typed => if level.endsTyped l.chars then value.afterValue l else level
      | .head => level

end Level

namespace Tree

/-- The levels after one more lexeme, given the innermost level and those around it. -/
def step : Level × List Level → Lexeme → Level × List Level
  | (level, outer), l =>
    if l.kind ≠ .mark then ((level.after l).add (.leaf l), outer)
    else match level.opened? l.chars with
      | some b => ({ bracket := some b, content := level.inside b }, level.around b :: outer)
      | none =>
        match level.bracket, outer with
        | some b, around :: outer =>
          if l.chars = [b.closing] then (level.close around, outer)
          else ((level.after l).add (.leaf l), around :: outer)
        | _, outer => ((level.after l).add (.leaf l), outer)

/-- As `step`; two angle brackets may be one mark. -/
def stepMark (levels : Level × List Level) (l : Lexeme) : Level × List Level :=
  if l.kind = .mark ∧ l.chars = ['<', '<'] ∧ levels.1.opensAngle then
    step (step levels ⟨.mark, ['<']⟩) ⟨.mark, ['<']⟩
  else step levels l

/-- Closes what is still open. -/
def finish : Level → List Level → List Tree
  | level, [] => level.trees.reverse
  | level, around :: outer => finish (level.close around) outer

def ofLexemes (ls : List Lexeme) : List Tree :=
  let (level, outer) := ls.foldl stepMark ({}, [])
  finish level outer

end Tree

end Cql.Declaration
