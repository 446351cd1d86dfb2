/-!
Words of the language of declarations that are no names.
-/

namespace Cql.Declaration.Keyword

def words : List String :=
  ["_", "abstract", "as", "async", "await", "become", "box", "break", "const", "continue", "crate",
    "do", "dyn", "else", "enum", "extern", "false", "final", "fn", "for", "if", "impl", "in", "let",
    "loop", "macro", "match", "mod", "move", "mut", "override", "priv", "pub", "ref", "return",
    "Self", "self", "static", "struct", "super", "trait", "true", "try", "type", "typeof", "unsafe",
    "unsized", "use", "virtual", "where", "while", "yield"]

/-- Keywords that may stand where a path is read. -/
def pathWords : List String := ["crate", "self", "Self", "super", "unsafe"]

def isKeyword (word : String) : Bool := word ∈ words

/-- No path starts with the word. -/
def endsPath (word : String) : Bool := isKeyword word && word ∉ pathWords

end Cql.Declaration.Keyword
