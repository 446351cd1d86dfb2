/-!
Statements by what they do, the clauses that each takes, and the words for them.
-/

namespace Cql

inductive Operation
  | insert
  | select
  | update
  | delete
  deriving DecidableEq, Repr

def Operation.word : Operation → String
  | .insert => "INSERT"
  | .select => "SELECT"
  | .update => "UPDATE"
  | .delete => "DELETE"

inductive ClauseKind
  | into
  | source
  | assignment
  | filter
  | order
  | limit
  | allowFiltering
  | lifetime
  | writeTime
  | guard
  | ifExists
  | ifNotExists
  deriving DecidableEq, Repr

namespace ClauseKind

def words : ClauseKind → String
  | .into => "INTO"
  | .source => "FROM"
  | .assignment => "SET"
  | .filter => "WHERE"
  | .order => "ORDER BY"
  | .limit => "LIMIT"
  | .allowFiltering => "ALLOW FILTERING"
  | .lifetime => "USING TTL"
  | .writeTime => "USING TIMESTAMP"
  | .guard => "IF"
  | .ifExists => "IF EXISTS"
  | .ifNotExists => "IF NOT EXISTS"

/-- The operations whose statements take the clause. -/
def operations : ClauseKind → List Operation
  | .into => [.insert]
  | .source => [.select, .delete]
  | .assignment => [.update]
  | .filter => [.select, .update, .delete]
  | .order => [.select]
  | .limit => [.select]
  | .allowFiltering => [.select]
  | .lifetime => [.insert, .update]
  | .writeTime => [.insert, .update, .delete]
  | .guard => [.update, .delete]
  | .ifExists => [.update, .delete]
  | .ifNotExists => [.insert]

end ClauseKind

inductive Connective
  | and
  | or
  deriving DecidableEq, Repr

def Connective.word : Connective → String
  | .and => "AND"
  | .or => "OR"

inductive Direction
  | ascending
  | descending
  deriving DecidableEq, Repr

def Direction.word : Direction → String
  | .ascending => "ASC"
  | .descending => "DESC"

end Cql
