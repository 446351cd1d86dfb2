import Cql.Query
import Cql.Stamped
import Cql.Step

/-!
A bounded store of queries by their texts. A query is dropped when it is older than the lifetime,
when it was not asked for during the idle time, or when the store is full and it was asked for
least recently. Time is given in milliseconds with each request.
-/

namespace Cql

structure Duration where
  seconds : Nat
  nanos : Nat := 0
  deriving DecidableEq, Repr

namespace Duration

def ofMillis (n : Nat) : Duration := ⟨n / 1000, n % 1000 * 1000000⟩

/-- Whole milliseconds, at most what a 64-bit word holds. -/
def millis (d : Duration) : Nat := min (d.seconds * 1000 + d.nanos / 1000000) (Nat.pow 2 64 - 1)

end Duration

namespace Query

structure Cache.Config where
  /-- The most queries that are kept. Nothing is kept or counted if this is zero. -/
  capacity : Nat := 1024
  idle : Duration := ⟨600, 0⟩
  lifetime : Duration := ⟨3600, 0⟩
  /-- The least time between two sweeps that a request starts. -/
  sweepInterval : Duration := ⟨30, 0⟩
  deriving DecidableEq, Repr

structure Cache.Entry where
  text : String
  query : Stamped Query
  created : Nat
  lastUsed : Nat
  /-- Grows with every use of any entry. -/
  rank : Nat
  deriving DecidableEq, Repr

/-- An order in which entries are looked through. -/
structure Cache.Order where
  arrange : List Cache.Entry → List Cache.Entry
  perm : ∀ es, (arrange es).Perm es

/-- The order of the list. -/
def Cache.Order.listed : Order := ⟨id, fun _ => .refl _⟩

structure Cache where
  config : Cache.Config := {}
  entries : List Cache.Entry := []
  lastSweep : Nat := 0
  nextRank : Nat := 0
  nextSerial : Nat := 0
  hits : Nat := 0
  misses : Nat := 0
  evictions : Nat := 0
  deriving Repr

namespace Cache

instance : Inhabited Cache := ⟨{}⟩

def size (c : Cache) : Nat := c.entries.length

/-- Hits by requests, or zero before the first one. -/
def hitRatio (c : Cache) : Float :=
  let total := c.hits + c.misses
  if total = 0 then 0 else Float.ofNat c.hits / Float.ofNat total

def Entry.isExpired (config : Config) (now : Nat) (e : Entry) : Bool :=
  config.lifetime.millis < now - e.created || config.idle.millis < now - e.lastUsed

def find? (c : Cache) (text : String) : Option Entry := c.entries.find? (·.text = text)

/-- The entry of a text, if it has not expired. -/
def held? (c : Cache) (text : String) (now : Nat) : Option Entry :=
  (c.find? text).filter (!·.isExpired c.config now)

def fresh (c : Cache) (now : Nat) : List Entry := c.entries.filter (!·.isExpired c.config now)

/-- Without the expired entries, which count as evicted. -/
def expire (c : Cache) (now : Nat) : Cache :=
  { c with entries := c.fresh now, evictions := c.evictions + (c.size - (c.fresh now).length) }

/-- Removes the expired entries and says how many they were. -/
def sweep (now : Nat) : Step Cache Nat := do
  let c ← Step.current
  Step.put (c.expire now)
  return c.size - (c.fresh now).length

def clear (c : Cache) : Cache := { c with entries := [] }

/-- The sweep that a request starts if enough time has passed since the last one. -/
def sweepIfDue (now : Nat) : Step Cache Unit := do
  let c ← Step.current
  if now - c.lastSweep < c.config.sweepInterval.millis then return
  Step.put { c with lastSweep := now }
  let removed ← sweep now
  if 0 < removed then Step.note (.cacheSwept removed)

/-- The entry as it is after a use. -/
def Entry.used (e : Entry) (now rank : Nat) : Entry := { e with lastUsed := now, rank }

def touch (c : Cache) (text : String) (now : Nat) : Cache :=
  { c with
    entries := c.entries.map fun e => if e.text = text then e.used now c.nextRank else e
    nextRank := c.nextRank + 1 }

/-- The first of the entries that were used least recently. -/
def oldest? : List Entry → Option Entry
  | [] => none
  | e :: es =>
    match oldest? es with
    | none => some e
    | some f => if f.rank < e.rank then some f else some e

/-- Entries without the least recently used ones, so many as are too many. They are looked through
anew for each one that goes. -/
def dropOldest (order : Order) : (excess : Nat) → List Entry → List Entry
  | 0, es => es
  | excess + 1, es =>
    match oldest? (order.arrange es) with
    | none => es
    | some old => dropOldest order excess (es.filter (·.text ≠ old.text))

/-- Makes room if there are too many entries: expired ones go first. -/
def evict (c : Cache) (now : Nat) (order : Order) : Cache :=
  if c.size ≤ c.config.capacity then c
  else
    let c := c.expire now
    let kept := dropOldest order (c.size - c.config.capacity) c.entries
    { c with entries := kept, evictions := c.evictions + (c.size - kept.length) }

/-- Keeps a query under its text. -/
def insert (c : Cache) (text : String) (query : Stamped Query) (now : Nat) : Cache :=
  let entry := { text, query, created := now, lastUsed := now, rank := c.nextRank }
  { c with
    entries := entry :: c.entries.filter (·.text ≠ text)
    nextRank := c.nextRank + 1 }

/-- A query with the next serial number. -/
def stamp (query : Query) : Step Cache (Stamped Query) := do
  let c ← Step.current
  Step.put { c with nextSerial := c.nextSerial + 1 }
  return ⟨c.nextSerial, query⟩

/-- The query of a text that was not found, which is kept from now on. An entry that the text has
by now is used in its place. -/
def readNew (text : String) (now : Nat) (order : Order) :
    Step Cache (Except Fault (Stamped Query)) := do
  match Query.read text with
  | .error fault => return .error fault
  | .ok query =>
    let stamped ← stamp query
    let c ← Step.current
    match c.held? text now with
    | some e =>
      Step.put (c.touch text now)
      return .ok e.query
    | none =>
      Step.put ((c.insert text stamped now).evict now order)
      return .ok stamped

/-- The query of a text, from the store if it holds one that has not expired. -/
def lookUp (text : String) (now later : Nat) (order : Order) :
    Step Cache (Except Fault (Stamped Query)) := do
  let c ← Step.current
  match c.held? text now with
  | some e =>
    Step.put { c.touch text now with hits := c.hits + 1 }
    return .ok e.query
  | none =>
    Step.put { c with misses := c.misses + 1 }
    Step.note (.cacheMissed text.utf8ByteSize)
    readNew text later order

/-- The query of a text. The clock is read when the request comes, and again once a text that was
not found has been read. -/
def request (text : String) (now later : Nat) (order : Order) :
    Step Cache (Except Fault (Stamped Query)) := do
  if (← Step.current).config.capacity = 0 then
    match Query.read text with
    | .error fault => return .error fault
    | .ok query => return .ok (← stamp query)
  sweepIfDue now
  lookUp text now later order

end Cache

end Query

end Cql
