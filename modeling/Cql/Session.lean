import Cql.Mapping.Request
import Cql.Origin
import Cql.Query.Client
import Cql.Slots

/-!
Sessions: drafts in named slots, which share one pool, one query cache and the memo that was
current when they were begun. The style of a session is that of the drafts it begins.
-/

namespace Cql

/-- What can be asked of a draft. -/
inductive Call
  | clause (c : Clause)
  | render
  | text
  | json
  | isClosed
  | operation
  | style

inductive Call.Answer
  /-- For a clause. -/
  | nothing
  | rendered (result : Except Error Rendered)
  | text (result : Except Error String)
  | flag (b : Bool)
  | operation (o : Operation)
  | style (s : Style)

namespace Draft

def answer (d : Draft) : Call → Step Workshop (Call.Answer × Draft)
  | .clause c => do return (.nothing, ← Workshop.onMemo (d.apply c))
  | .render => do
    let (result, d) ← d.render
    return (.rendered result, d)
  | .text => do
    let (result, d) ← d.render
    return (.text (result.map (·.text)), d)
  | .json => do
    let (result, d) ← d.render
    return (.text (result.map (·.json)), d)
  | .isClosed => return (.flag d.isClosed, d)
  | .operation => return (.operation d.statement.operation, d)
  | .style => return (.style d.style, d)

end Draft

/-- A draft and the place of its memo. -/
structure Session.Held where
  draft : Draft
  home : Nat

structure Session where
  style : Style := {}
  catalog : Catalog := []
  pool : TextPool := {}
  /-- The last one is current. -/
  memos : List Memo := []
  client : Query.Client := {}
  slots : Slots Session.Held := []

namespace Session

def ofCatalog (style : Style) (catalog : Catalog) (pool : TextPool.Config)
    (cache : Query.Cache.Config) : Session where
  style
  catalog
  pool := { config := pool }
  memos := [{ catalog }]
  client := { cache := { config := cache } }

inductive Request
  | create (slot : String) (origin : Origin)
  | call (slot : String) (c : Call)
  | drop (slot : String)
  | setStyle (style : Style)
  | renewMemo
  | memo (r : Memo.Request)
  | read (text : String)
  | cache

inductive Answer
  | flag (b : Bool)
  | call (a : Call.Answer)
  | style (s : Style)
  | nothing
  | memo (result : Except Error Memo.Answer)
  | read (result : Except Query.Fault Query.Client.Answer)
  | cache (c : Query.Cache)

variable {α : Type}

def memoAt (s : Session) (home : Nat) : Memo := s.memos.getD home { catalog := s.catalog }

def home (s : Session) : Nat := s.memos.length - 1

def onWorkshop (home : Nat) (step : Step Workshop α) : Step Session α :=
  Step.within (fun s => { memo := s.memoAt home, pool := s.pool })
    (fun w s => { s with memos := s.memos.set home w.memo, pool := w.pool }) step

def onClient (step : Step Query.Client α) : Step Session α :=
  Step.within Session.client (fun client s => { s with client }) step

/-- Drops what a slot holds and says whether it held something. -/
def dropSlot (slot : String) : Step Session Bool := do
  match (← Step.current).slots.get? slot with
  | none => return false
  | some h =>
    Step.update fun s => { s with slots := s.slots.erase slot }
    onWorkshop h.home h.draft.drop
    return true

def create (slot : String) (origin : Origin) : Step Session Bool := do
  let s ← Step.current
  let draft ← onWorkshop s.home (origin.begin s.style)
  let dropped ← dropSlot slot
  Step.update fun t => { t with slots := t.slots.put slot ⟨draft, s.home⟩ }
  return dropped

def call (slot : String) (c : Call) : Step Session Answer := do
  match (← Step.current).slots.get? slot with
  | none => return .nothing
  | some h =>
    let (a, draft) ← onWorkshop h.home (h.draft.answer c)
    Step.update fun t => { t with slots := t.slots.put slot { h with draft } }
    return .call a

def answer : Request → Step Session Answer
  | .create slot origin => return .flag (← create slot origin)
  | .call slot c => call slot c
  | .drop slot => return .flag (← dropSlot slot)
  | .setStyle style => do
    Step.update fun s => { s with style }
    return .style style
  | .renewMemo => do
    Step.update fun s => { s with memos := s.memos ++ [{ catalog := s.catalog }] }
    return .nothing
  | .memo r => do
    let s ← Step.current
    return .memo (← onWorkshop s.home (Workshop.onMemo (Memo.answer r).run))
  | .read text => return .read (← onClient (Query.Client.read text))
  | .cache => return .cache (← Step.current).client.cache

/-- The style in which the draft of a slot is rendered. -/
def styleOf? (s : Session) (slot : String) : Option Style :=
  (s.slots.get? slot).map (·.draft.style)

end Session

/-- A draft from its beginning through some calls, and the answers to them. -/
def Workshop.script (style : Style) (origin : Origin) (calls : List Call) :
    Step Workshop (List Call.Answer) := do
  let rec go (d : Draft) : List Call → Step Workshop (List Call.Answer)
    | [] => do d.drop; return []
    | c :: cs => do
      let (a, d) ← d.answer c
      return a :: (← go d cs)
  go (← origin.begin style) calls

end Cql
