import Mathlib.Data.List.Forall2
import Cql.Mapping.Memo

/-!
What steps ensure. A step ensures a property of its results under an invariant if every run that
starts in a state with the invariant ends in such a state, with such a result. A step that may fail
ensures nothing of its failures.
-/

namespace Cql

theorem mapM_eq_map_mapM {m : Type → Type} [Monad m] [LawfulMonad m] {α β γ : Type} {f : α → m β}
    {f' : α → m γ} {g : β → γ} (hf : ∀ a, f' a = g <$> f a) (as : List α) :
    as.mapM f' = List.map g <$> as.mapM f := by
  induction as with
  | nil => simp
  | cons a as ih =>
    simp only [List.mapM_cons, hf, ih, bind_map_left, map_bind, map_pure, List.map_cons]

section Except

variable {ε α β γ : Type} {x : Except ε α} {Q : α → Prop} {R : β → Prop}

/-- What a computation that may fail says of its result. -/
def Yields (x : Except ε α) (Q : α → Prop) : Prop := ∀ a, x = .ok a → Q a

theorem exists_of_map_eq_ok {f : α → β} {b : β} (h : x.map f = .ok b) :
    ∃ a, x = .ok a ∧ b = f a := by
  cases x with
  | ok a => exact ⟨a, rfl, (Except.ok.inj h).symm⟩
  | error e => cases h

/-- What a computation that may fail says of how it ends, with a result or an error. -/
def Ends (Q : α → Prop) (E : ε → Prop) : Except ε α → Prop
  | .ok a => Q a
  | .error e => E e

theorem Ends.map {f : α → β} {E : ε → Prop} (h : Ends Q E x) (himp : ∀ a, Q a → R (f a)) :
    Ends R E (x.map f) := by
  cases x with
  | ok a => exact himp a h
  | error e => exact h

theorem Yields.ok {a : α} (h : Q a) : Yields (ε := ε) (.ok a) Q := fun b hb => by cases hb; exact h

theorem Yields.error {e : ε} : Yields (.error e) Q := fun b hb => by cases hb

theorem Yields.bind {next : α → Except ε β} (h : Yields x Q)
    (hnext : ∀ a, Q a → Yields (next a) R) : Yields (x >>= next) R := by
  cases x with
  | ok a => exact hnext a (h a rfl)
  | error e => exact .error

theorem Yields.mono {Q' : α → Prop} (h : Yields x Q) (himp : ∀ a, Q a → Q' a) : Yields x Q' :=
  fun a ha => himp a (h a ha)

theorem yields_self : Yields x fun a => x = .ok a := fun _ ha => ha

theorem yields_mapM {f : γ → Except ε β} {cs : List γ} :
    Yields (cs.mapM f) fun bs => List.Forall₂ (fun c b => f c = .ok b) cs bs := by
  induction cs with
  | nil => exact .ok .nil
  | cons c cs ih =>
    rw [List.mapM_cons]
    exact yields_self.bind fun b hb => ih.bind fun bs hbs => .ok (.cons hb hbs)

theorem yields_mapM_of_forall {f : γ → Except ε β} {cs : List γ} (h : ∀ c ∈ cs, Yields (f c) R) :
    Yields (cs.mapM f) fun bs => ∀ b ∈ bs, R b := by
  refine yields_mapM.mono fun bs hbs b hb => ?_
  obtain ⟨i, hi, rfl⟩ := List.getElem_of_mem hb
  have hlength := hbs.length_eq
  exact h _ (List.getElem_mem (by omega)) _ (hbs.get (by omega) hi)

/-- Going through a list fails nowhere if it fails at no item. -/
theorem mapM_eq_ok {f : γ → Except ε β} {cs : List γ} (h : ∀ c ∈ cs, ∃ b, f c = .ok b) :
    ∃ bs, cs.mapM f = .ok bs ∧ bs.length = cs.length := by
  induction cs with
  | nil => exact ⟨[], rfl, rfl⟩
  | cons c cs ih =>
    obtain ⟨b, hb⟩ := h c (by simp)
    obtain ⟨bs, hbs, hlength⟩ := ih fun d hd => h d (by simp [hd])
    refine ⟨b :: bs, ?_, congrArg (· + 1) hlength⟩
    rw [List.mapM_cons, hb, hbs]
    rfl

end Except

namespace Step

variable {σ τ α β : Type} {I : σ → Prop} {Q : α → Prop} {R : β → Prop}

def Ensures (I : σ → Prop) (step : Step σ α) (Q : α → Prop) : Prop :=
  ∀ s : Logged σ, I s.state → I (step s).2.state ∧ Q (step s).1

theorem ensures_any {step : Step σ α} : Ensures (fun _ => True) step fun _ => True :=
  fun _ _ => ⟨trivial, trivial⟩

theorem bind_eq {step : Step σ α} {next : α → Step σ β} {s t : Logged σ} {a : α}
    (h : step s = (a, t)) : (step >>= next) s = next a t := by
  change next (step s).1 (step s).2 = _
  rw [h]

namespace Ensures

theorem pure {a : α} (h : Q a) : Ensures I (pure a) Q := fun _ hs => ⟨hs, h⟩

theorem bind {step : Step σ α} {next : α → Step σ β} (h : Ensures I step Q)
    (hnext : ∀ a, Q a → Ensures I (next a) R) : Ensures I (step >>= next) R := by
  intro s hs
  obtain ⟨hmid, ha⟩ := h s hs
  exact hnext _ ha _ hmid

theorem mono {step : Step σ α} {Q' : α → Prop} (h : Ensures I step Q) (himp : ∀ a, Q a → Q' a) :
    Ensures I step Q' := fun s hs => ⟨(h s hs).1, himp _ (h s hs).2⟩

/-- What the invariant says of the state before the step may be used of the step. -/
theorem given {step : Step σ α} (h : ∀ s, I s → Ensures I step Q) : Ensures I step Q :=
  fun s hs => h s.state hs s hs

theorem current : Ensures I current I := fun _ hs => ⟨hs, hs⟩

theorem put {t : σ} (ht : I t) : Ensures I (put t) fun _ => True := fun _ _ => ⟨ht, trivial⟩

theorem update {f : σ → σ} (h : ∀ s, I s → I (f s)) : Ensures I (update f) fun _ => True :=
  fun _ hs => ⟨h _ hs, trivial⟩

theorem note {event : Event} : Ensures I (note event) fun _ => True := fun _ hs => ⟨hs, trivial⟩

theorem mapM {γ : Type} {f : γ → Step σ β} {as : List γ} (h : ∀ a ∈ as, Ensures I (f a) R) :
    Ensures I (as.mapM f) fun bs => ∀ b ∈ bs, R b := by
  induction as with
  | nil => exact .pure (by simp)
  | cons a as ih =>
    rw [List.mapM_cons]
    refine (h a (by simp)).bind fun b hb => ?_
    refine (ih fun a ha => h a (by simp [ha])).bind fun bs hbs => .pure ?_
    intro c hc
    obtain rfl | hc := List.mem_cons.mp hc
    · exact hb
    · exact hbs c hc

theorem mapM_eq {γ : Type} {f : γ → Step σ β} {g : γ → β} (h : ∀ c, Ensures I (f c) (· = g c))
    (cs : List γ) : Ensures I (cs.mapM f) (· = cs.map g) := by
  induction cs with
  | nil => exact .pure rfl
  | cons c cs ih =>
    rw [List.mapM_cons]
    refine (h c).bind fun b hb => ih.bind fun bs hbs => .pure ?_
    rw [hb, hbs, List.map_cons]

theorem foldlM {γ : Type} {f : α → γ → Step σ α} {as : List γ} {a : α} (ha : Q a)
    (h : ∀ a, Q a → ∀ c ∈ as, Ensures I (f a c) Q) : Ensures I (as.foldlM f a) Q := by
  induction as generalizing a with
  | nil => exact .pure ha
  | cons c as ih =>
    rw [List.foldlM_cons]
    exact (h a ha c (by simp)).bind fun b hb => ih hb fun a ha d hd => h a ha d (by simp [hd])

theorem within {J : τ → Prop} {part : τ → σ} {replace : σ → τ → τ} {step : Step σ α}
    (h : Ensures I step Q) (hpart : ∀ t, J t → I (part t))
    (hreplace : ∀ s t, I s → J t → J (replace s t)) : Ensures J (within part replace step) Q := by
  intro t ht
  obtain ⟨hs, ha⟩ := h ⟨part t.state, t.log⟩ (hpart _ ht)
  exact ⟨hreplace _ _ hs ht, ha⟩

end Ensures

end Step

section Failing

variable {σ α β : Type} {x : ExceptT Error (Step σ) α} {next : α → ExceptT Error (Step σ) β}
  {s t : Logged σ}

theorem run_bind_ok {a : α} (h : x.run s = (.ok a, t)) : (x >>= next).run s = (next a).run t := by
  rw [ExceptT.run_bind]
  simp only [Bind.bind, StateT.bind, h]

theorem run_bind_error {err : Error} (h : x.run s = (.error err, t)) :
    (x >>= next).run s = (.error err, t) := by
  rw [ExceptT.run_bind]
  simp only [Bind.bind, StateT.bind, h]
  rfl

end Failing

namespace Resolving

variable {α β : Type} {I : Memo → Prop} {Q : α → Prop} {R : β → Prop}

def Ensures (I : Memo → Prop) (x : Resolving α) (Q : α → Prop) : Prop :=
  Step.Ensures I x.run fun result => Yields result Q

namespace Ensures

theorem pure {a : α} (h : Q a) : Ensures I (pure a) Q :=
  Step.Ensures.pure fun b hb => by cases hb; exact h

theorem any (x : Resolving α) : Ensures (fun _ => True) x fun _ => True :=
  fun _ _ => ⟨trivial, fun _ _ => trivial⟩

theorem throw {e : Error} : Ensures I (throw e) Q := Step.Ensures.pure fun _ hb => by cases hb

theorem bind {x : Resolving α} {next : α → Resolving β} (h : Ensures I x Q)
    (hnext : ∀ a, Q a → Ensures I (next a) R) : Ensures I (x >>= next) R := by
  rw [Ensures]
  rw [ExceptT.run_bind]
  refine Step.Ensures.bind h fun result hresult => ?_
  cases result with
  | ok a => exact hnext a (hresult a rfl)
  | error e => exact Step.Ensures.pure fun _ hb => by cases hb

theorem throw_bind {e : Error} {next : α → Resolving β} :
    Ensures I (MonadExcept.throw e >>= next) R :=
  (throw (Q := fun _ => False)).bind fun _ h => h.elim

theorem mono {x : Resolving α} {Q' : α → Prop} (h : Ensures I x Q) (himp : ∀ a, Q a → Q' a) :
    Ensures I x Q' := Step.Ensures.mono h fun _ hr a ha => himp a (hr a ha)

theorem step {step : Step Memo α} (h : Step.Ensures I step Q) : Ensures I (liftM step) Q :=
  Step.Ensures.bind h fun _ ha => .pure fun _ hb => by cases hb; exact ha

theorem except {result : Except Error α} (h : Yields result Q) : Ensures I (liftM result) Q :=
  Step.Ensures.pure h

end Ensures

/-- What a computation that may fail says of its result, and of its error if it fails. -/
def Settles (I : Memo → Prop) (x : Resolving α) (Q : α → Prop) (E : Error → Prop) : Prop :=
  Step.Ensures I x.run (Ends Q E)

namespace Settles

variable {E : Error → Prop} {x : Resolving α}

theorem pure {a : α} (h : Q a) : Settles I (pure a) Q E := Step.Ensures.pure h

theorem throw {e : Error} (h : E e) : Settles I (throw e) Q E := Step.Ensures.pure h

theorem bind {next : α → Resolving β} (h : Settles I x Q E)
    (hnext : ∀ a, Q a → Settles I (next a) R E) : Settles I (x >>= next) R E := by
  rw [Settles, ExceptT.run_bind]
  refine Step.Ensures.bind h fun result hresult => ?_
  cases result with
  | ok a => exact hnext a hresult
  | error e => exact Step.Ensures.pure hresult

theorem throw_bind {e : Error} {next : α → Resolving β} (h : E e) :
    Settles I (MonadExcept.throw e >>= next) R E :=
  (throw (Q := fun _ => False) h).bind fun _ h => h.elim

theorem mono {Q' : α → Prop} {E' : Error → Prop} (h : Settles I x Q E) (hQ : ∀ a, Q a → Q' a)
    (hE : ∀ e, E e → E' e) : Settles I x Q' E' := by
  refine Step.Ensures.mono h fun result hresult => ?_
  cases result with
  | ok a => exact hQ a hresult
  | error e => exact hE e hresult

theorem step {step : Step Memo α} (h : Step.Ensures I step Q) : Settles I (liftM step) Q E :=
  Step.Ensures.bind h fun _ ha => .pure ha

end Settles

/-- What a computation that succeeds makes of the memo, with its result. -/
def Turns (x : Resolving α) (P : Memo → α → Memo → Prop) : Prop :=
  ∀ s a t, x.run s = (.ok a, t) → P s.state a t.state

namespace Turns

variable {x : Resolving α} {P : Memo → α → Memo → Prop} {P' : Memo → β → Memo → Prop}

theorem pure (a : α) : Turns (pure a) fun m b m' => b = a ∧ m' = m := by
  rintro s b t h
  cases h
  exact ⟨rfl, rfl⟩

theorem bind {next : α → Resolving β} {R : α → Memo → β → Memo → Prop} (h : Turns x P)
    (hnext : ∀ a, Turns (next a) (R a)) :
    Turns (x >>= next) fun m b m'' => ∃ a m', P m a m' ∧ R a m' b m'' := by
  intro s b u hrun
  rcases hx : x.run s with ⟨err | a, t⟩
  · rw [run_bind_error hx] at hrun
    cases hrun
  · rw [run_bind_ok hx] at hrun
    exact ⟨a, t.state, h s a t hx, hnext a t b u hrun⟩

theorem throw_bind {e : Error} {next : α → Resolving β} :
    Turns (MonadExcept.throw e >>= next) P' := by
  rintro s b t h
  cases h

theorem mono {P' : Memo → α → Memo → Prop} (h : Turns x P) (himp : ∀ m a m', P m a m' → P' m a m') :
    Turns x P' := fun s a t hrun => himp _ _ _ (h s a t hrun)

theorem step {step : Step Memo α} (h : ∀ s, P s.state (step s).1 (step s).2.state) :
    Turns (liftM step) P := by
  rintro s a t hrun
  cases hrun
  exact h s

end Turns

/-- What a computation that starts with such a memo says of its result and the memo after it, and of
its error if it fails. -/
def Leads (P : Memo → Prop) (x : Resolving α) (Q : α → Memo → Prop) (E : Error → Prop) : Prop :=
  ∀ s : Logged Memo, P s.state → match x.run s with
    | (.ok a, t) => Q a t.state
    | (.error err, _) => E err

namespace Leads

variable {P : Memo → Prop} {x : Resolving α} {Q : α → Memo → Prop} {R : β → Memo → Prop}
  {E : Error → Prop}

theorem pure {a : α} (h : ∀ m, P m → Q a m) : Leads P (pure a) Q E := fun s hs => h s.state hs

theorem throw {err : Error} (h : ∀ m, P m → E err) : Leads P (throw err) Q E :=
  fun s hs => h s.state hs

theorem bind {next : α → Resolving β} (h : Leads P x Q E) (hnext : ∀ a, Leads (Q a) (next a) R E) :
    Leads P (x >>= next) R E := by
  intro s hs
  have hx := h s hs
  rcases hrun : x.run s with ⟨err | a, t⟩ <;> rw [hrun] at hx
  · rw [run_bind_error hrun]
    exact hx
  · rw [run_bind_ok hrun]
    exact hnext a t hx

theorem throw_bind {err : Error} {next : α → Resolving β} (h : ∀ m, P m → E err) :
    Leads P (MonadExcept.throw err >>= next) R E :=
  (throw (Q := fun _ _ => False) h).bind fun _ _ h => h.elim

theorem step {step : Step Memo α} (h : ∀ s, P s.state → Q (step s).1 (step s).2.state) :
    Leads P (liftM step) Q E := fun s hs => h s hs

/-- What is known of the memo before the computation may be used of it. -/
theorem given (h : ∀ m, P m → Leads (· = m) x Q E) : Leads P x Q E :=
  fun s hs => h s.state hs s rfl

theorem mono {P' : Memo → Prop} {Q' : α → Memo → Prop} {E' : Error → Prop} (h : Leads P x Q E)
    (hP : ∀ m, P' m → P m) (hQ : ∀ a m, Q a m → Q' a m) (hE : ∀ err, E err → E' err) :
    Leads P' x Q' E' := by
  intro s hs
  have hx := h s (hP _ hs)
  revert hx
  rcases x.run s with ⟨err | a, t⟩
  · exact hE err
  · exact hQ a t.state

end Leads

theorem liftM_map (f : α → β) (x : Except Error α) :
    (liftM (x.map f) : Resolving β) = f <$> liftM x := by
  cases x <;> rfl

/-- Going through a list in a monad without state is one computation. -/
theorem mapM_liftM {γ : Type} (f : γ → Except Error α) (cs : List γ) :
    cs.mapM (fun c => (liftM (f c) : Resolving α)) = liftM (cs.mapM f) := by
  induction cs with
  | nil => rfl
  | cons c cs ih =>
    rw [List.mapM_cons, List.mapM_cons, ih]
    cases hc : f c with
    | error e => rfl
    | ok a => cases hcs : cs.mapM f <;> rfl

end Resolving

end Cql
