import Cql.Event

/-!
Steps that change a state and note events. Events stand in the order in which they were noted,
also those of a step that works on a part of a larger state.
-/

namespace Cql

structure Logged (σ : Type) where
  state : σ
  log : List Event := []

abbrev Step (σ : Type) := StateM (Logged σ)

namespace Step

variable {σ τ α : Type}

def current : Step σ σ := do return (← get).state

def put (state : σ) : Step σ Unit := modify fun s => { s with state }

def update (f : σ → σ) : Step σ Unit := modify fun s => { s with state := f s.state }

def note (event : Event) : Step σ Unit := modify fun s => { s with log := s.log ++ [event] }

theorem current_bind (next : σ → Step σ α) (s : Logged σ) :
    (current >>= next) s = next s.state s := rfl

/-- A step on a part of the state. -/
def within (part : τ → σ) (replace : σ → τ → τ) (step : Step σ α) : Step τ α := fun s =>
  let (a, t) := step ⟨part s.state, s.log⟩
  (a, ⟨replace t.state s.state, t.log⟩)

/-- The result of a step, the state after it and the events that it notes. -/
def run (step : Step σ α) (state : σ) : α × σ × List Event :=
  let (a, s) := step { state }
  (a, s.state, s.log)

end Step

end Cql
