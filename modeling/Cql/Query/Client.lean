import Cql.Query.Cache

/-!
A client of a query cache, who has a clock and remembers which query each text gave last.
-/

namespace Cql.Query

structure Client where
  cache : Cache := {}
  /-- Milliseconds. -/
  clock : Nat := 0
  /-- Serial numbers by texts, the last one first. -/
  seen : List (String × Nat) := []

namespace Client

inductive Request
  | read (text : String)
  | sweep
  | clear
  | isEmpty
  | config
  | wait (millis : Nat)

inductive Answer
  /-- A query, and whether it is the one that its text gave before. -/
  | query (q : Query) (same : Option Bool)
  | removed (count : Nat)
  | flag (b : Bool)
  | config (c : Cache.Config)
  | nothing

def onCache {α : Type} (step : Step Cache α) : Step Client α :=
  Step.within Client.cache (fun cache c => { c with cache }) step

def read (text : String) : Step Client (Except Fault Answer) := do
  let c ← Step.current
  match ← onCache (Cache.request text c.clock c.clock .listed) with
  | .error fault => return .error fault
  | .ok stamped =>
    Step.update fun c => { c with seen := (text, stamped.serial) :: c.seen }
    return .ok (.query stamped.value ((c.seen.lookup text).map (· = stamped.serial)))

def answer : Request → Step Client (Except Fault Answer)
  | .read text => read text
  | .sweep => do
    let c ← Step.current
    return .ok (.removed (← onCache (Cache.sweep c.clock)))
  | .clear => do
    onCache (Step.update Cache.clear)
    return .ok .nothing
  | .isEmpty => return .ok (.flag ((← Step.current).cache.size = 0))
  | .config => return .ok (.config (← Step.current).cache.config)
  | .wait millis => do
    Step.update fun c => { c with clock := c.clock + millis }
    return .ok .nothing

end Client

end Cql.Query
