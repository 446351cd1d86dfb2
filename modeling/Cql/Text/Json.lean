import Cql.Text.Hex

/-!
JSON text without spaces. Strings escape the quote, the backslash and the control characters
below the space, and nothing else.
-/

namespace Cql.Text.Json

def escape (c : Char) : List Char :=
  if c = '"' then ['\\', '"']
  else if c = '\\' then ['\\', '\\']
  else if c = '\n' then ['\\', 'n']
  else if c = '\r' then ['\\', 'r']
  else if c = '\t' then ['\\', 't']
  else if c = '\x08' then ['\\', 'b']
  else if c = '\x0c' then ['\\', 'f']
  else if c.toNat < 32 then
    ['\\', 'u', '0', '0', Hex.digit (c.toNat / 16), Hex.digit (c.toNat % 16)]
  else [c]

def string (s : String) : String :=
  String.ofList ('"' :: s.toList.flatMap escape ++ ['"'])

def array (items : List String) : String := "[" ++ String.intercalate "," items ++ "]"

def member (m : String × String) : String := string m.1 ++ ":" ++ m.2

/-- An object whose members stand in the order given. -/
def object (members : List (String × String)) : String :=
  "\x7b" ++ String.intercalate "," (members.map member) ++ "\x7d"

end Cql.Text.Json
