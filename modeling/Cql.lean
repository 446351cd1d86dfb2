import Cql.Predicate.Operator
import Cql.Proofs.Casing.Underscore
import Cql.Proofs.Declaration.Grouping
import Cql.Proofs.Declaration.LogicalName
import Cql.Proofs.Declaration.Metadata
import Cql.Proofs.Declaration.Update
import Cql.Proofs.Draft.Life
import Cql.Proofs.Mapping.History
import Cql.Proofs.Predicate.Unique
import Cql.Proofs.Program.EntityWrites
import Cql.Proofs.Program.Expressions
import Cql.Proofs.Program.Filling
import Cql.Proofs.Program.Names
import Cql.Proofs.Program.Nested
import Cql.Proofs.Program.Parameters
import Cql.Proofs.Program.Placeholders
import Cql.Proofs.Program.Values
import Cql.Proofs.Program.Written
import Cql.Proofs.Query.Canonical
import Cql.Proofs.Query.Expiry
import Cql.Proofs.Query.Lookup
import Cql.Proofs.Row.History
import Cql.Proofs.Session.History
import Cql.Proofs.Statement.Lexical
import Cql.Proofs.TextPool.Warnings
import Cql.Proofs.Token.Malformed
import Cql.Proofs.Token.Verb
import Cql.Proofs.Value.Raw
import Cql.Proofs.Value.Unique
import Cql.Query.Json
import Cql.Settings
import Cql.TextPool.Holders
import Cql.Value.Conversion
