import Cql.Proofs.TextPool.Accounts

/-!
When a pool warns. An acquire is warned of exactly if it finds as many buffers held as may be held
without a warning. The sum that this is tested with is that of numbers unless the threshold is the
largest word; then it is zero, which no count is after an acquire.
-/

namespace Cql.TextPool

inductive Call
  | acquire
  | release (text : String)
  deriving DecidableEq, Repr

namespace Call

def step : Call → Step TextPool Unit
  | acquire => do
    let _ ← TextPool.acquire
  | release text => TextPool.release text

/-- The buffers that are held after a call. -/
def held (n : ℕ) : Call → ℕ
  | acquire => n + 1
  | release _ => n - 1

/-- A buffer that is given back is one of those that are held; with one that is taken, a word can
still count them. -/
def Fits (n : ℕ) : Call → Prop
  | acquire => n + 1 < 2 ^ 64
  | release _ => 0 < n

instance (n : ℕ) : (c : Call) → Decidable (c.Fits n)
  | acquire => inferInstanceAs (Decidable (n + 1 < 2 ^ 64))
  | release _ => inferInstanceAs (Decidable (0 < n))

/-- The pool after a call. -/
def left (p : TextPool) : Call → TextPool
  | acquire => p.taken
  | release _ => p.returned

def noted (p : TextPool) : Call → List Event
  | acquire => p.alarm
  | release _ => p.dropped

end Call

/-- Each call finds the buffers held that those before it have left. -/
def Lawful : ℕ → List Call → Prop
  | _, [] => True
  | n, c :: calls => c.Fits n ∧ Lawful (c.held n) calls

instance decidableLawful : (n : ℕ) → (calls : List Call) → Decidable (Lawful n calls)
  | _, [] => inferInstanceAs (Decidable True)
  | n, c :: calls =>
    have := decidableLawful (c.held n) calls
    inferInstanceAs (Decidable (c.Fits n ∧ Lawful (c.held n) calls))

/-- How many buffers each acquire finds held, in order. -/
def heights : ℕ → List Call → List ℕ
  | _, [] => []
  | n, .acquire :: calls => n :: heights (n + 1) calls
  | n, .release _ :: calls => heights (n - 1) calls

/-- A pool of which nothing is held, after calls, and all that is noted of them. -/
def ran (config : Config) (calls : List Call) : TextPool × List Event :=
  ((calls.forM Call.step).run { config }).2

def warnings (events : List Event) : List Event := events.filter (·.level = .warn)

/-- A warning for each time that the threshold is found. -/
def crossings (config : Config) (found : List ℕ) : List Event :=
  List.replicate (found.count config.threshold.toNat)
    (.manyHeld (config.threshold + 1) config.threshold)

variable {p : TextPool} {config : Config} {n : ℕ} {c : Call} {calls : List Call}

theorem warnings_append (events events' : List Event) :
    warnings (events ++ events') = warnings events ++ warnings events' :=
  List.filter_append ..

theorem crossings_append (config : Config) (found found' : List ℕ) :
    crossings config (found ++ found') = crossings config found ++ crossings config found' := by
  rw [crossings, List.count_append, List.replicate_add, crossings, crossings]

theorem crossings_singleton (config : Config) (n : ℕ) :
    crossings config [n] = if n = config.threshold.toNat then
      [.manyHeld (config.threshold + 1) config.threshold] else [] := by
  rw [crossings, List.count_singleton]
  by_cases h : n = config.threshold.toNat
  · rw [if_pos h, if_pos (by simpa using h)]
    rfl
  · rw [if_neg h, if_neg (by simpa using h)]
    rfl

theorem warnings_dropped (p : TextPool) : warnings p.dropped = [] := by
  rw [dropped]
  split <;> rfl

/-- The sums on both sides of the test may wrap, but they do so together. -/
theorem Accounts.warnings_alarm (h : p.Accounts config n) (hn : n < 2 ^ 64) :
    warnings p.alarm = crossings config [n] := by
  have hiff : p.held + 1 = p.config.threshold + 1 ↔ n = config.threshold.toNat := by
    rw [UInt64.add_left_inj, h.configured, ← UInt64.toNat_inj, h.toNat_held hn]
  rw [alarm, crossings_singleton]
  by_cases hcross : n = config.threshold.toNat
  · have hsum := hiff.mpr hcross
    rw [if_pos hsum, if_pos hcross, hsum, h.configured]
    rfl
  · rw [if_neg fun hsum => hcross (hiff.mp hsum), if_neg hcross]
    rfl

namespace Call

theorem step_run (c : Call) (p : TextPool) (log : List Event) :
    c.step ⟨p, log⟩ = ((), ⟨c.left p, log ++ c.noted p⟩) := by
  cases c with
  | acquire => exact (Step.bind_eq (acquire_run p log))
  | release text => exact release_run p text log

theorem run_step (c : Call) (p : TextPool) : c.step.run p = ((), c.left p, c.noted p) := by
  rw [Step.run, step_run, List.nil_append]

theorem Fits.accounts (hc : c.Fits n) (h : p.Accounts config n) :
    (c.left p).Accounts config (c.held n) := by
  cases c with
  | acquire => exact h.taken
  | release text =>
    obtain ⟨m, rfl⟩ := Nat.exists_eq_add_one.mpr hc
    exact h.returned

theorem Fits.lt (hc : c.Fits n) (hn : n < 2 ^ 64) : c.held n < 2 ^ 64 := by
  cases c with
  | acquire => exact hc
  | release text => exact Nat.lt_of_le_of_lt (Nat.sub_le n 1) hn

theorem warnings_noted (c : Call) (h : p.Accounts config n) (hn : n < 2 ^ 64) :
    warnings (c.noted p) = crossings config (heights n [c]) := by
  cases c with
  | acquire => exact h.warnings_alarm hn
  | release text => exact warnings_dropped p

end Call

theorem heights_cons (n : ℕ) (c : Call) (calls : List Call) :
    heights n (c :: calls) = heights n [c] ++ heights (c.held n) calls := by
  cases c <;> rfl

theorem Lawful.lt_of_mem_heights (h : Lawful n calls) {m : ℕ} (hm : m ∈ heights n calls) :
    m + 1 < 2 ^ 64 := by
  induction calls generalizing n with
  | nil => cases hm
  | cons c calls ih =>
    rw [heights_cons, List.mem_append] at hm
    obtain hm | hm := hm
    · cases c with
      | acquire =>
        obtain rfl := List.mem_singleton.mp hm
        exact h.1
      | release text => cases hm
    · exact ih h.2 hm

/-- Calls one after the other, whatever was noted before them. -/
theorem Lawful.forM_step (hl : Lawful n calls) (h : p.Accounts config n) (hn : n < 2 ^ 64) :
    ∃ p' events, (∀ log, calls.forM Call.step ⟨p, log⟩ = ((), ⟨p', log ++ events⟩)) ∧
      p'.Accounts config (calls.foldl Call.held n) ∧ calls.foldl Call.held n < 2 ^ 64 ∧
      warnings events = crossings config (heights n calls) := by
  induction calls generalizing n p with
  | nil =>
    refine ⟨p, [], fun log => ?_, h, hn, rfl⟩
    rw [List.append_nil]
    rfl
  | cons c calls ih =>
    obtain ⟨hc, hcalls⟩ := hl
    obtain ⟨p', events, hrun, haccounts, hlt, hwarnings⟩ :=
      ih hcalls (hc.accounts h) (hc.lt hn)
    refine ⟨p', c.noted p ++ events, fun log => ?_, haccounts, hlt, ?_⟩
    · rw [← List.append_assoc]
      exact (Step.bind_eq (c.step_run p log)).trans (hrun _)
    · rw [warnings_append, c.warnings_noted h hn, hwarnings, ← crossings_append, ← heights_cons]

theorem accounts_ran (config : Config) (hl : Lawful 0 calls) :
    (ran config calls).1.Accounts config (calls.foldl Call.held 0) ∧
      calls.foldl Call.held 0 < 2 ^ 64 ∧
      warnings (ran config calls).2 = crossings config (heights 0 calls) := by
  obtain ⟨p, events, hrun, haccounts, hlt, hwarnings⟩ :=
    hl.forM_step (.empty config) (Nat.two_pow_pos 64)
  have hran : ran config calls = (p, events) := by
    rw [ran, Step.run, hrun, List.nil_append]
  rw [hran]
  exact ⟨haccounts, hlt, hwarnings⟩

end Cql.TextPool
