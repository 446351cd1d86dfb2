import Cql.Query.Cache
import Cql.Settings.Document
import Cql.Style
import Cql.TextPool

/-!
Settings and how they are written. Members that are not known are passed over; members that are
left out have their defaults, but a style names both of its parts and a duration has both of its
numbers and nothing else.
-/

namespace Cql

open Settings

def Casing.word : Casing → String
  | .lowerUnderscore => "lower_underscore"
  | .upperUnderscore => "upper_underscore"
  | .lowerCamel => "lower_camel"

def Binding.word : Binding → String
  | .literal => "literal"
  | .positional => "positional"
  | .named => "named"

structure Settings where
  style : Style := {}
  pool : TextPool.Config := {}
  cache : Query.Cache.Config := {}
  deriving DecidableEq, Repr

namespace Settings

def wordBound : Nat := Nat.pow 2 64

def casing? (d : Document) : Option Casing :=
  d.word?.bind fun word => Casing.all.find? (·.word = word)

def binding? (d : Document) : Option Binding :=
  d.word?.bind fun word => Binding.all.find? (·.word = word)

def style? (d : Document) : Option Style := do
  let members ← d.members?
  let casing ← Document.member? members "naming" casing?
  let binding ← Document.member? members "mode" binding?
  return { casing, binding }

def word64? (d : Document) : Option UInt64 := (d.nat? wordBound).map UInt64.ofNat

def pool? (d : Document) : Option TextPool.Config := do
  let members ← d.members?
  let defaults : TextPool.Config := {}
  let maxPooled ← Document.memberD members "max_pooled_buffers" defaults.maxPooled word64?
  let initialCapacity ←
    Document.memberD members "initial_buffer_capacity" defaults.initialCapacity word64?
  let threshold ←
    Document.memberD members "open_builder_warn_threshold" defaults.threshold word64?
  return { maxPooled, initialCapacity, threshold }

/-- Nanoseconds from a billion on are carried into the seconds. -/
def duration? (d : Document) : Option Duration := do
  let members ← d.members?
  let seconds ← Document.member? members "secs" (Document.nat? wordBound)
  let nanos ← Document.member? members "nanos" (Document.nat? (Nat.pow 2 32))
  let total := seconds + nanos / 1000000000
  if members.all (fun m => m.1 = "secs" ∨ m.1 = "nanos") ∧ total < wordBound then
    return ⟨total, nanos % 1000000000⟩
  else none

def cache? (d : Document) : Option Query.Cache.Config := do
  let members ← d.members?
  let defaults : Query.Cache.Config := {}
  let capacity ← Document.memberD members "capacity" defaults.capacity (Document.nat? wordBound)
  let idle ← Document.memberD members "idle_timeout" defaults.idle duration?
  let lifetime ← Document.memberD members "max_lifetime" defaults.lifetime duration?
  let sweepInterval ← Document.memberD members "sweep_interval" defaults.sweepInterval duration?
  return { capacity, idle, lifetime, sweepInterval }

def read? (d : Document) : Option Settings := do
  let members ← d.members?
  let defaults : Settings := {}
  let casing ← Document.memberD members "naming" defaults.style.casing casing?
  let binding ← Document.memberD members "mode" defaults.style.binding binding?
  let pool ← Document.memberD members "pool" defaults.pool pool?
  let cache ← Document.memberD members "parse_cache" defaults.cache cache?
  return { style := { casing, binding }, pool, cache }

def ofCasing (c : Casing) : Document := .text c.word

def ofBinding (b : Binding) : Document := .text b.word

def ofStyle (s : Style) : Document :=
  .object [("naming", ofCasing s.casing), ("mode", ofBinding s.binding)]

def ofNat (n : Nat) : Document := .int n

def ofPool (c : TextPool.Config) : Document :=
  .object [
    ("max_pooled_buffers", ofNat c.maxPooled.toNat),
    ("initial_buffer_capacity", ofNat c.initialCapacity.toNat),
    ("open_builder_warn_threshold", ofNat c.threshold.toNat)]

def ofDuration (d : Duration) : Document :=
  .object [("secs", ofNat d.seconds), ("nanos", ofNat d.nanos)]

def ofCache (c : Query.Cache.Config) : Document :=
  .object [
    ("capacity", ofNat c.capacity),
    ("idle_timeout", ofDuration c.idle),
    ("max_lifetime", ofDuration c.lifetime),
    ("sweep_interval", ofDuration c.sweepInterval)]

def write (s : Settings) : Document :=
  .object [
    ("naming", ofCasing s.style.casing),
    ("mode", ofBinding s.style.binding),
    ("pool", ofPool s.pool),
    ("parse_cache", ofCache s.cache)]

end Settings

end Cql
