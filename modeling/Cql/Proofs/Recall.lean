import Cql.Proofs.Step

/-!
What the end of a run tells. A step recalls a property of its results under a condition if every run
that ends in a state with the condition started in such a state, with such a result. The condition
may speak of what later states keep, which is not known before the run.
-/

namespace Cql.Step

variable {σ α β γ : Type} {I : σ → Prop} {Q : α → Prop} {R : β → Prop} {step : Step σ α}

def Recalls (I : σ → Prop) (step : Step σ α) (Q : α → Prop) : Prop :=
  ∀ s : Logged σ, I (step s).2.state → I s.state ∧ Q (step s).1

namespace Recalls

theorem pure {a : α} (h : Q a) : Recalls I (pure a) Q := fun _ hs => ⟨hs, h⟩

/-- What is recalled of the first step is known only at the end, so it cannot serve to prove that the
second one recalls something, but may be used of its result. -/
theorem bind {next : α → Step σ β} (h : Recalls I step Q)
    (hnext : ∀ a, Recalls I (next a) fun b => Q a → R b) : Recalls I (step >>= next) R := by
  intro s hs
  obtain ⟨hmid, hresult⟩ := hnext (step s).1 (step s).2 hs
  obtain ⟨hstart, ha⟩ := h s hmid
  exact ⟨hstart, hresult ha⟩

theorem mono {Q' : α → Prop} (h : Recalls I step Q) (himp : ∀ a, Q a → Q' a) :
    Recalls I step Q' := fun s hs => ⟨(h s hs).1, himp _ (h s hs).2⟩

theorem mapM_eq {f : γ → Step σ β} {g : γ → β} (h : ∀ c, Recalls I (f c) (· = g c))
    (cs : List γ) : Recalls I (cs.mapM f) (· = cs.map g) := by
  induction cs with
  | nil => exact .pure rfl
  | cons c cs ih =>
    rw [List.mapM_cons]
    refine (h c).bind fun b => ih.bind fun bs => .pure fun hbs hb => ?_
    rw [hb, hbs, List.map_cons]

end Recalls

end Cql.Step
