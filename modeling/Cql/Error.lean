import Cql.Grammar
import Cql.Query.Fault
import Cql.Style

/-!
Everything that can be wrong with a statement, and the message for each cause. All of these are
mistakes of the caller; nothing is tried again.
-/

namespace Cql

/-- A clause or a value that does not go with what the statement already holds. -/
inductive Misuse
  | notTaken (clause : ClauseKind) (operation : Operation)
  | targetTaken (clause : ClauseKind)
  | filterTaken
  | guardTaken
  | keysWithoutEntity
  | noKeys (typeName : String)
  | keyCount (typeName : String) (keys given : Nat)
  | keyMissing (typeName field : String)
  /-- Rows count from zero. -/
  | cellMissing (row : Nat) (column : String)
  deriving DecidableEq, Repr

/-- A part that a statement cannot do without. -/
inductive Part
  | insertColumns
  | insertRows
  | selectColumns
  | assignments
  | target (operation : Operation)
  | subqueryTarget
  | subqueryColumns
  deriving DecidableEq, Repr

/-- A combination that no statement of the language expresses. -/
inductive Limitation
  | foreignSubquery (inner outer : Style)
  | namedRows
  | insertAliases
  | selectValues
  | deleteColumns
  deriving DecidableEq, Repr

inductive Error
  | misuse (cause : Misuse)
  | lacking (part : Part)
  /-- The statement was rendered before. -/
  | closed
  | unsupported (cause : Limitation)
  | emptyJunction (connective : Connective)
  /-- Type names on a walk through nested fields; the last one stands on it twice. -/
  | cyclic (walk : List String)
  | query (fault : Query.Fault)
  deriving DecidableEq, Repr

def Misuse.message : Misuse → String
  | .notTaken clause operation => clause.words ++ " is not valid for " ++ operation.word
  | .targetTaken clause => clause.words ++ ": target table already set"
  | .filterTaken => "WHERE already set; combine conditions with Condition::and"
  | .guardTaken => "IF already set"
  | .keysWithoutEntity => "where_ids needs an entity target"
  | .noKeys typeName => typeName ++ " declares no id fields"
  | .keyCount typeName keys given =>
    typeName ++ " id lookup takes 1..=" ++ toString keys ++ " values, got " ++ toString given
  | .keyMissing typeName field => typeName ++ " has no value for id field `" ++ field ++ "`"
  | .cellMissing row column =>
    "INSERT row " ++ toString (row + 1) ++ " has no value for `" ++ column ++ "`"

def Part.words : Part → String
  | .insertColumns => "INSERT columns"
  | .insertRows => "INSERT rows"
  | .selectColumns => "SELECT columns"
  | .assignments => "UPDATE SET assignments"
  | .target operation => operation.word ++ " target table"
  | .subqueryTarget => "subquery target table"
  | .subqueryColumns => "subquery columns"

def Limitation.message : Limitation → String
  | .foreignSubquery inner outer =>
    "subquery rendered with " ++ inner.label ++ " inside a " ++ outer.label ++ " statement"
  | .namedRows => "multi-row INSERT with named parameters repeats placeholder names"
  | .insertAliases => "column aliases in INSERT"
  | .selectValues => "property values in SELECT"
  | .deleteColumns => "DELETE takes column names only"

def Error.message : Error → String
  | .misuse cause => "Usage error: " ++ cause.message
  | .lacking part => "Missing " ++ part.words
  | .closed => "Builder is closed: a statement can only be rendered once"
  | .unsupported cause => "Unsupported: " ++ cause.message
  | .emptyJunction connective => "Empty " ++ connective.word ++ " junction"
  | .cyclic walk => "Cyclic entity reference: " ++ " -> ".intercalate walk
  | .query fault => fault.message

end Cql
