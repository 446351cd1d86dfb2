import Cql.Declaration.Level

/-!
Paths to types. The entity behind a nested field is found under any number of wrappers that have
just one argument, a type.
-/

namespace Cql.Declaration.TypePath

/-- A name with its arguments or without; what stands before a first pair of colons; or arguments
after colons. -/
def isSegment : List Tree → Bool
  | [] => true
  | [t] => t.isKind .word || t.isGroup .angle
  | [t, u] => t.isKind .word && (u.isGroup .angle || u.isGroup .round)
  | _ => false

/-- Words that begin a type which is no path. -/
def traitWords : List String := ["dyn", "impl", "for"]

/-- The parts of a path between pairs of colons; other types have none. -/
def segments? (type : List Tree) : Option (List (List Tree)) :=
  let segments := Text.Split.splitWhere (Tree.isMark "::") type
  if segments.all isSegment && !type.head?.any fun t => traitWords.any t.isWord then some segments
  else none

/-- The last name of a path, if arguments follow it, and the arguments. -/
def lastNamed? (type : List Tree) : Option (Tree × List Tree) :=
  match (segments? type).map List.reverse with
  | some ([name, .group .angle inner] :: _) => some (name, inner)
  | some ([.group .angle inner] :: [name] :: _) => some (name, inner)
  | _ => none

def wrappers : List String := ["Option", "Box"]

/-- The only argument of a wrapper, if it is a type. -/
def unwrap? (type : List Tree) : Option (List Tree) :=
  match lastNamed? type with
  | none => none
  | some (name, inner) =>
    match Tree.Argument.ofInner inner with
    | [argument] =>
      if wrappers.any name.isWord && argument.isType then some argument.trees else none
    | _ => none

/-- The type under at most `depth` wrappers. -/
def peelAtMost : (depth : Nat) → List Tree → List Tree
  | 0, type => type
  | depth + 1, type =>
    match unwrap? type with
    | none => type
    | some inner => peelAtMost depth inner

/-- The written form of the type under all wrappers of a type, without blanks. There are fewer
wrappers than lexemes. -/
def peel (text : String) : String :=
  let ls := Lexeme.ofText text
  let type := peelAtMost ls.length (Tree.ofLexemes ls)
  String.ofList ((Tree.charsOfAll (Tree.normalOfAll type)).filter (!Text.Blank.isUnicode ·))

end Cql.Declaration.TypePath
