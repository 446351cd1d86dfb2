import Cql.Query
import Cql.Text.Json

/-!
A query as JSON text. Names stand under their slots.
-/

namespace Cql.Query

open Text

def json (q : Query) : String :=
  let slots := q.names.zipIdx.map fun (name, slot) => (toString slot, Json.string name)
  Json.object [
    ("source", Json.string q.source),
    ("canonical", Json.string q.canonical),
    ("names", Json.object slots),
    ("parameter_count", toString q.parameterCount),
    ("attrs", Json.object (q.attributes.map fun (name, value) => (name, Json.string value)))]

end Cql.Query
