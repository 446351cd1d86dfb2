import Cql.Proofs.Step

/-!
Two computations side by side. They agree if both return, with related results, or both fail with
the same error; steps keep a relation between their states besides.
-/

namespace Cql

section Except

variable {ε α β γ δ : Type} {R : α → β → Prop} {S : γ → δ → Prop} {x : Except ε α} {y : Except ε β}

/-- Related results, or the same error. -/
inductive Matches (R : α → β → Prop) : Except ε α → Except ε β → Prop
  | ok {a : α} {b : β} : R a b → Matches R (.ok a) (.ok b)
  | error (e : ε) : Matches R (.error e) (.error e)

namespace Matches

theorem eq_refl (x : Except ε α) : Matches (fun a b => a = b) x x := by
  cases x with
  | ok a => exact .ok rfl
  | error e => exact .error e

theorem mono {R' : α → β → Prop} (h : Matches R x y) (himp : ∀ a b, R a b → R' a b) :
    Matches R' x y := by
  cases h with
  | ok hab => exact .ok (himp _ _ hab)
  | error e => exact .error e

theorem refl (x : Except ε α) : Matches (fun _ _ => True) x x :=
  (eq_refl x).mono fun _ _ _ => trivial

theorem isOk_eq (h : Matches R x y) : x.isOk = y.isOk := by cases h <;> rfl

theorem bind {f : α → Except ε γ} {g : β → Except ε δ} (h : Matches R x y)
    (hnext : ∀ a b, R a b → Matches S (f a) (g b)) : Matches S (x >>= f) (y >>= g) := by
  cases h with
  | ok hab => exact hnext _ _ hab
  | error e => exact .error e

theorem map {f : α → γ} {g : β → δ} (h : Matches R x y) (himp : ∀ a b, R a b → S (f a) (g b)) :
    Matches S (x.map f) (y.map g) := by
  cases h with
  | ok hab => exact .ok (himp _ _ hab)
  | error e => exact .error e

theorem map_right {f : β → γ} {T : α → γ → Prop} (h : Matches (fun a b => T a (f b)) x y) :
    Matches T x (y.map f) := by
  cases h with
  | ok hab => exact .ok hab
  | error e => exact .error e

/-- What each computation says of its own result is said of both. -/
theorem both {Q : α → Prop} {Q' : β → Prop} (h : Matches R x y) (hx : Yields x Q)
    (hy : Yields y Q') : Matches (fun a b => R a b ∧ Q a ∧ Q' b) x y := by
  cases h with
  | ok hab => exact .ok ⟨hab, hx _ rfl, hy _ rfl⟩
  | error e => exact .error e

theorem trans {z : Except ε γ} {T : β → γ → Prop} (h : Matches R x y) (h' : Matches T y z) :
    Matches (fun a c => ∃ b, R a b ∧ T b c) x z := by
  cases h with
  | ok hab =>
    cases h' with
    | ok hbc => exact .ok ⟨_, hab, hbc⟩
  | error e =>
    cases h' with
    | error => exact .error e

theorem through {z : Except ε γ} {T : α → γ → Prop} {T' : β → γ → Prop} (h : Matches T x z)
    (h' : Matches T' y z) : Matches (fun a b => ∃ c, T a c ∧ T' b c) x y := by
  cases h with
  | ok ha =>
    cases h' with
    | ok hb => exact .ok ⟨_, ha, hb⟩
  | error e =>
    cases h' with
    | error => exact .error e

theorem mapM {f : γ → Except ε α} {g : γ → Except ε β} {cs : List γ}
    (h : ∀ c ∈ cs, Matches (fun _ _ => True) (f c) (g c)) :
    Matches (fun _ _ => True) (cs.mapM f) (cs.mapM g) := by
  induction cs with
  | nil => exact .ok trivial
  | cons c cs ih =>
    rw [List.mapM_cons, List.mapM_cons]
    refine (h c (by simp)).bind fun a b _ => ?_
    exact (ih fun d hd => h d (by simp [hd])).bind fun _ _ _ => .ok trivial

end Matches

end Except

namespace Step

variable {σ τ υ ω α β γ δ : Type} {I : σ → τ → Prop} {R : α → β → Prop} {S : γ → δ → Prop}
  {step : Step σ α} {step' : Step τ β}

/-- Runs of the two steps from related states end in related states, with related results. -/
def Agree (I : σ → τ → Prop) (step : Step σ α) (step' : Step τ β) (R : α → β → Prop) : Prop :=
  ∀ (s : Logged σ) (t : Logged τ), I s.state t.state →
    I (step s).2.state (step' t).2.state ∧ R (step s).1 (step' t).1

namespace Agree

theorem pure {a : α} {b : β} (h : R a b) : Agree I (pure a) (pure b) R := fun _ _ hst => ⟨hst, h⟩

theorem bind {f : α → Step σ γ} {g : β → Step τ δ} (h : Agree I step step' R)
    (hnext : ∀ a b, R a b → Agree I (f a) (g b) S) : Agree I (step >>= f) (step' >>= g) S := by
  intro s t hst
  obtain ⟨hmid, hab⟩ := h s t hst
  exact hnext _ _ hab _ _ hmid

theorem mono {R' : α → β → Prop} (h : Agree I step step' R) (himp : ∀ a b, R a b → R' a b) :
    Agree I step step' R' := fun s t hst => ⟨(h s t hst).1, himp _ _ (h s t hst).2⟩

theorem mapM {f : γ → Step σ α} {g : γ → Step τ α} {cs : List γ}
    (h : ∀ c ∈ cs, Agree I (f c) (g c) (· = ·)) : Agree I (cs.mapM f) (cs.mapM g) (· = ·) := by
  induction cs with
  | nil => exact .pure rfl
  | cons c cs ih =>
    rw [List.mapM_cons, List.mapM_cons]
    refine (h c (by simp)).bind fun a a' ha => ?_
    refine (ih fun d hd => h d (by simp [hd])).bind fun as as' has => .pure ?_
    rw [ha, has]

theorem foldlM {f : α → γ → Step σ α} {g : β → γ → Step τ β} {cs : List γ} {a : α} {b : β}
    (hab : R a b) (h : ∀ a b, R a b → ∀ c ∈ cs, Agree I (f a c) (g b c) R) :
    Agree I (cs.foldlM f a) (cs.foldlM g b) R := by
  induction cs generalizing a b with
  | nil => exact .pure hab
  | cons c cs ih =>
    rw [List.foldlM_cons, List.foldlM_cons]
    exact (h a b hab c (by simp)).bind fun a b hab => ih hab fun a b hab d hd =>
      h a b hab d (by simp [hd])

theorem within {J : υ → ω → Prop} {part : υ → σ} {replace : σ → υ → υ} {part' : ω → τ}
    {replace' : τ → ω → ω} (h : Agree I step step' R) (hpart : ∀ u v, J u v → I (part u) (part' v))
    (hreplace : ∀ s t u v, I s t → J u v → J (replace s u) (replace' t v)) :
    Agree J (within part replace step) (within part' replace' step') R := by
  intro u v huv
  obtain ⟨hst, hab⟩ := h ⟨part u.state, u.log⟩ ⟨part' v.state, v.log⟩ (hpart _ _ huv)
  exact ⟨hreplace _ _ _ _ hst huv, hab⟩

end Agree

end Step

namespace Resolving

variable {α β γ δ : Type} {I : Memo → Memo → Prop} {R : α → β → Prop} {S : γ → δ → Prop}
  {x : Resolving α} {y : Resolving β}

/-- Runs of the two computations from related memos end in related memos, and agree. -/
def Agree (I : Memo → Memo → Prop) (x : Resolving α) (y : Resolving β) (R : α → β → Prop) : Prop :=
  Step.Agree I x.run y.run (Matches R)

namespace Agree

theorem pure {a : α} {b : β} (h : R a b) : Agree I (pure a) (pure b) R := Step.Agree.pure (.ok h)

theorem throw (e : Error) : Agree I (throw e) (throw e) R := Step.Agree.pure (.error e)

theorem bind {f : α → Resolving γ} {g : β → Resolving δ} (h : Agree I x y R)
    (hnext : ∀ a b, R a b → Agree I (f a) (g b) S) : Agree I (x >>= f) (y >>= g) S := by
  rw [Agree, ExceptT.run_bind, ExceptT.run_bind]
  refine Step.Agree.bind h fun result result' hmatches => ?_
  cases hmatches with
  | ok hab => exact hnext _ _ hab
  | error e => exact Step.Agree.pure (.error e)

theorem throw_bind (e : Error) {f : α → Resolving γ} {g : β → Resolving δ} :
    Agree I (MonadExcept.throw e >>= f) (MonadExcept.throw e >>= g) S :=
  (throw (R := fun _ _ => False) e).bind fun _ _ h => h.elim

theorem mono {R' : α → β → Prop} (h : Agree I x y R) (himp : ∀ a b, R a b → R' a b) :
    Agree I x y R' := Step.Agree.mono h fun _ _ hmatches => hmatches.mono himp

theorem step {step : Step Memo α} {step' : Step Memo β} (h : Step.Agree I step step' R) :
    Agree I (liftM step) (liftM step') R := Step.Agree.bind h fun _ _ hab => .pure (.ok hab)

theorem except {x : Except Error α} {y : Except Error β} (h : Matches R x y) :
    Agree I (liftM x) (liftM y) R := Step.Agree.pure h

/-- What the other computation gives is known. -/
theorem known {z : Except Error γ} {T : α → γ → Prop} (h : Agree I x (liftM z) T) :
    Agree I x (liftM z) fun a c => T a c ∧ z = .ok c := by
  intro s t hst
  obtain ⟨hmid, hmatches⟩ := h s t hst
  have hboth := hmatches.both (Q := fun _ => True) (fun _ _ => trivial) yields_self
  exact ⟨hmid, hboth.mono fun a c ⟨hac, _, hc⟩ => ⟨hac, hc⟩⟩

variable {K : Memo → Prop}

/-- A step before the first computation alone, where the other memo has no part in the relation. -/
theorem step_left {step : Step Memo γ} {next : γ → Resolving α} {Q : γ → Prop}
    (h : Step.Ensures K step Q) (hnext : ∀ c, Q c → Agree (fun m _ => K m) (next c) y R) :
    Agree (fun m _ => K m) (liftM step >>= next) y R := by
  intro s t hs
  obtain ⟨hstate, hc⟩ := h s hs
  exact hnext _ hc _ t hstate

theorem ensures {z : Except Error γ} {T : α → γ → Prop}
    (h : Agree (fun m _ => K m) x (liftM z) T) :
    Step.Ensures K x.run fun result => Matches T result z := fun s hs => h s s hs

end Agree

end Resolving

end Cql
