import Cql.Error
import Cql.Predicate

/-!
Predicates that match an entity by its keys.
-/

namespace Cql.Entity

/-- Equality with each value of the first keys in the order of declaration. -/
def matchKeys (e : Entity) (values : List Value) : Except Error Predicate :=
  match e.keys with
  | [] => .error (.misuse (.noKeys e.typeName))
  | keys =>
    if values.length = 0 ∨ keys.length < values.length then
      .error (.misuse (.keyCount e.typeName keys.length values.length))
    else
      match keys.zipWith (fun key value => Predicate.equal key.name value) values with
      | [single] => .ok single
      | several => .ok (.junction .and several)

end Cql.Entity
