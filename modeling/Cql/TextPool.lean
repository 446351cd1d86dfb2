import Cql.Step

/-!
A pool of text buffers. A buffer is taken by each open draft and given back empty; the pool
counts the buffers that are held and notes when there are more than expected. Counts are 64-bit
words.
-/

namespace Cql

structure TextPool.Config where
  /-- Buffers that are kept for reuse. -/
  maxPooled : UInt64 := 64
  /-- Bytes that a new buffer has room for. -/
  initialCapacity : UInt64 := 256
  /-- The most buffers that are held without a warning. -/
  threshold : UInt64 := 1024
  deriving DecidableEq, Repr

structure TextPool where
  config : TextPool.Config := {}
  /-- Buffers to reuse, the next one first. -/
  free : List String := []
  /-- How many buffers are held. -/
  held : UInt64 := 0
  deriving Repr

namespace TextPool

instance : Inhabited TextPool := ⟨{}⟩

def pooled (p : TextPool) : Nat := p.free.length

/-- Takes a buffer; the warning is noted when the count passes the threshold. -/
def acquire : Step TextPool String := do
  let p ← Step.current
  let held := p.held + 1
  Step.put { p with free := p.free.tail, held }
  if held = p.config.threshold + 1 then
    Step.note (.manyHeld held p.config.threshold)
  return p.free.headD ""

/-- Gives a buffer back, whatever it holds. -/
def release (_buffer : String) : Step TextPool Unit := do
  let p ← Step.current
  if p.free.length < p.config.maxPooled.toNat then
    Step.put { p with free := "" :: p.free, held := p.held - 1 }
  else
    Step.put { p with held := p.held - 1 }
    Step.note (.bufferDropped p.free.length)

end TextPool

end Cql
