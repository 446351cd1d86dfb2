/-!
The words of the language that are never names of columns.
-/

namespace Cql.Reserved

def words : List String :=
  ["ADD", "ALLOW", "AND", "APPLY", "AS", "ASC", "BATCH", "BEGIN", "BETWEEN", "BY", "CONTAINS",
    "DELETE", "DESC", "DISTINCT", "EXISTS", "FALSE", "FILTERING", "FROM", "IF", "IN", "INSERT",
    "INTO", "IS", "JSON", "KEY", "LIKE", "LIMIT", "NOT", "NULL", "OR", "ORDER", "PARTITION",
    "PER", "SELECT", "SET", "TIMESTAMP", "TRUE", "TTL", "UPDATE", "USING", "VALUES", "WHERE"]

/-- Case does not matter. -/
def isReserved (word : List Char) : Bool := String.ofList (word.map Char.toUpper) ∈ words

end Cql.Reserved
