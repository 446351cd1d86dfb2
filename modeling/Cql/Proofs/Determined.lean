import Cql.Proofs.Step

/-!
Steps that give the same result from every state with an invariant, whatever else the state holds.
-/

namespace Cql

namespace Step

variable {σ α β γ : Type} {I : σ → Prop} {Q : α → Prop} {R : β → Prop} {step : Step σ α}

/-- There is one result for all states with the invariant, and the invariant is kept. -/
def Determined (I : σ → Prop) (step : Step σ α) (Q : α → Prop) : Prop :=
  ∃ a, Q a ∧ Ensures I step (· = a)

namespace Determined

theorem pure {a : α} (h : Q a) : Determined I (pure a) Q := ⟨a, h, .pure rfl⟩

theorem bind {next : α → Step σ β} (h : Determined I step Q)
    (hnext : ∀ a, Q a → Determined I (next a) R) : Determined I (step >>= next) R := by
  obtain ⟨a, ha, hstep⟩ := h
  obtain ⟨b, hb, hb'⟩ := hnext a ha
  exact ⟨b, hb, hstep.bind fun a' ha' => ha' ▸ hb'⟩

/-- A step before it whose result it has no use for. -/
theorem after {before : Step σ γ} (hbefore : Ensures I before fun _ => True)
    (h : Determined I step Q) : Determined I (before >>= fun _ => step) Q := by
  obtain ⟨a, ha, hstep⟩ := h
  exact ⟨a, ha, hbefore.bind fun _ _ => hstep⟩

theorem of_ensures {a : α} (ha : Q a) (h : Ensures I step (· = a)) : Determined I step Q :=
  ⟨a, ha, h⟩

theorem ensures (h : Determined I step Q) : Ensures I step Q := by
  obtain ⟨a, ha, hstep⟩ := h
  exact hstep.mono fun a' ha' => ha' ▸ ha

/-- The one result is that of any run. -/
theorem ensures_eq (h : Determined I step Q) {s : Logged σ} (hs : I s.state) :
    Ensures I step (· = (step s).1) := by
  obtain ⟨a, -, hstep⟩ := h
  rwa [(hstep s hs).2]

end Determined

end Step

namespace Resolving

variable {α β : Type} {I : Memo → Prop} {Q : α → Prop} {R : β → Prop} {x : Resolving α}

/-- There is one result for all memos with the invariant, which may be a failure. -/
def Determined (I : Memo → Prop) (x : Resolving α) (Q : α → Prop) : Prop :=
  Step.Determined I x.run fun result => Yields result Q

namespace Determined

theorem pure {a : α} (h : Q a) : Determined I (pure a) Q := Step.Determined.pure (.ok h)

theorem throw (e : Error) : Determined I (throw e) Q := Step.Determined.pure .error

theorem bind {next : α → Resolving β} (h : Determined I x Q)
    (hnext : ∀ a, Q a → Determined I (next a) R) : Determined I (x >>= next) R := by
  rw [Determined, ExceptT.run_bind]
  refine Step.Determined.bind h fun result hresult => ?_
  cases result with
  | ok a => exact hnext a (hresult a rfl)
  | error e => exact Step.Determined.pure .error

theorem throw_bind (e : Error) {next : α → Resolving β} :
    Determined I (MonadExcept.throw e >>= next) R :=
  (throw e (Q := fun _ => False)).bind fun _ h => h.elim

theorem step {step : Step Memo α} (h : Step.Determined I step Q) : Determined I (liftM step) Q :=
  Step.Determined.bind h fun _ ha => .pure (.ok ha)

theorem except {result : Except Error α} (h : Yields result Q) : Determined I (liftM result) Q :=
  Step.Determined.pure h

end Determined

end Resolving

end Cql
