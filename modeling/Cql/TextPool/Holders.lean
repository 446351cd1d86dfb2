import Cql.Slots
import Cql.TextPool

/-!
Buffers of a pool in named slots. When a slot takes a new buffer, the one that it held is given
back after the new one was taken.
-/

namespace Cql.TextPool

structure Holders where
  pool : TextPool := {}
  slots : Slots String := []

namespace Holders

inductive Request
  | acquire (slot : String)
  | append (slot text : String)
  | release (slot : String)

inductive Answer
  | text (s : String)
  | nothing
  | flag (b : Bool)

def onPool {α : Type} (step : Step TextPool α) : Step Holders α :=
  Step.within Holders.pool (fun pool h => { h with pool }) step

def releaseSlot (slot : String) : Step Holders Bool := do
  match (← Step.current).slots.get? slot with
  | none => return false
  | some buffer =>
    Step.update fun h => { h with slots := h.slots.erase slot }
    onPool (release buffer)
    return true

def answer : Request → Step Holders Answer
  | .acquire slot => do
    let buffer ← onPool acquire
    let _ ← releaseSlot slot
    Step.update fun h => { h with slots := h.slots.put slot buffer }
    return .text buffer
  | .append slot text => do
    match (← Step.current).slots.get? slot with
    | none => return .nothing
    | some buffer =>
      Step.update fun h => { h with slots := h.slots.put slot (buffer ++ text) }
      return .text (buffer ++ text)
  | .release slot => return .flag (← releaseSlot slot)

end Holders

end Cql.TextPool
