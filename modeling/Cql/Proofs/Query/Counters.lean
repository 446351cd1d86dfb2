import Cql.Proofs.Query.Recency

/-!
What the counters of a cache account for. Every query that was read on a miss is still held, was
evicted, went when the cache was cleared, or gave way to the query of a later request for its own
text. Counts are numbers without a bound.
-/

namespace Cql.Query.Cache

/-- What the calls of a run amount to, each counted in the cache that it finds. -/
def tallyFrom (count : Cache → Call → Nat) (c : Cache) : List Call → Nat
  | [] => 0
  | x :: calls => count c x + tallyFrom count (c.call x) calls

def tally (count : Cache → Call → Nat) (config : Config) (calls : List Call) : Nat :=
  tallyFrom count { config } calls

namespace Call

def isRequest : Call → Bool
  | .request .. => true
  | .sweep _ | .clear => false

/-- The clock does not go back while a request is answered. -/
def ReadsForward : Call → Prop
  | .request _ now later _ => now ≤ later
  | .sweep _ | .clear => True

/-- A request for a text whose entry has not expired. -/
def hits (c : Cache) : Call → Nat
  | .request text now _ _ => if (c.held? text now).isSome then 1 else 0
  | .sweep _ | .clear => 0

def misses (c : Cache) : Call → Nat
  | .request text now _ _ => if (c.held? text now).isSome then 0 else 1
  | .sweep _ | .clear => 0

/-- A miss whose text can be read. -/
def entered (c : Cache) : Call → Nat
  | .request text now _ _ => if c.held? text now = none ∧ (read text).isOk then 1 else 0
  | .sweep _ | .clear => 0

/-- Entries that go because the cache is cleared. -/
def cleared (c : Cache) : Call → Nat
  | .request .. | .sweep _ => 0
  | .clear => c.size

/-- Expired entries in whose place a request puts the query that it has read from their text. -/
def replaced (c : Cache) : Call → Nat
  | .request text now later _ =>
    if c.held? text now = none ∧ (read text).isOk then
      (c.swept now).entries.countP fun e => e.text = text && e.isExpired c.config later
    else 0
  | .sweep _ | .clear => 0

end Call

section Tally

variable {count count' : Cache → Call → Nat}

theorem tallyFrom_append (count : Cache → Call → Nat) (c : Cache) (calls calls' : List Call) :
    tallyFrom count c (calls ++ calls') =
      tallyFrom count c calls + tallyFrom count (calls.foldl call c) calls' := by
  induction calls generalizing c with
  | nil => simp [tallyFrom]
  | cons x calls ih =>
    rw [List.cons_append, tallyFrom, tallyFrom, ih, List.foldl_cons]
    omega

theorem tally_concat (count : Cache → Call → Nat) (config : Config) (calls : List Call) (x : Call) :
    tally count config (calls ++ [x]) =
      tally count config calls + count (after config calls) x := by
  rw [tally, tallyFrom_append]
  rfl

end Tally

variable {c c' : Cache} {config : Config} {calls : List Call} {text : String} {now later : Nat}
  {order : Order} {result : Except Fault (Stamped Query)} {texts : List String} {x : Call}

/-- The sweep that a request starts has no part in what it finds. -/
theorem IsRanked.held?_swept (h : c.IsRanked texts) (text : String) (now : Nat) :
    (c.swept now).held? text now = c.held? text now := by
  cases hheld : c.held? text now with
  | none =>
    refine held?_eq_none fun e he htext => ?_
    rw [config_swept]
    exact isExpired_of_held?_eq_none h hheld ((swept_sublist c now).subset he) htext
  | some e =>
    obtain ⟨he, htext⟩ := mem_of_held? hheld
    have hfresh := isExpired_of_held? hheld
    exact held?_eq_some (h.swept now) (mem_swept he hfresh) htext (by rwa [config_swept])

section Counters

@[simp]
theorem hits_swept : (c.swept now).hits = c.hits := by
  rw [swept_eq]
  split <;> rfl

@[simp]
theorem misses_swept : (c.swept now).misses = c.misses := by
  rw [swept_eq]
  split <;> rfl

@[simp]
theorem hits_evict : (c.evict now order).hits = c.hits := by
  rw [evict]
  split <;> rfl

@[simp]
theorem misses_evict : (c.evict now order).misses = c.misses := by
  rw [evict]
  split <;> rfl

theorem Answers.counts (h : Answers c text now later order result c')
    (hroom : 0 < c.config.capacity) (hranked : c.IsRanked texts) :
    c'.hits = c.hits + Call.hits c (.request text now later order) ∧
      c'.misses = c.misses + Call.misses c (.request text now later order) := by
  have hhits : (c.swept now).hits = c.hits := hits_swept
  have hmisses : (c.swept now).misses = c.misses := misses_swept
  rw [Call.hits, Call.misses, ← hranked.held?_swept, ← hhits, ← hmisses]
  cases h with
  | passed hzero | refused hzero => omega
  | hit _ hheld =>
    rw [hheld]
    exact ⟨rfl, rfl⟩
  | failed _ hnone | joined _ hnone =>
    rw [hnone]
    exact ⟨rfl, rfl⟩
  | kept _ hnone =>
    rw [hnone, hits_evict, misses_evict]
    exact ⟨rfl, rfl⟩

end Counters

section Balance

/-- Entries that are held and entries that were evicted. -/
def accounted (c : Cache) : Nat := c.size + c.evictions

/-- What goes counts as evicted. -/
theorem accounted_of_sublist {kept : List Entry} (h : kept.Sublist c.entries) :
    accounted { c with entries := kept, evictions := c.evictions + (c.size - kept.length) } =
      c.accounted := by
  have hle : kept.length ≤ c.size := h.length_le
  change kept.length + (c.evictions + (c.size - kept.length)) = c.size + c.evictions
  omega

theorem accounted_expire : (c.expire now).accounted = c.accounted :=
  accounted_of_sublist List.filter_sublist

theorem accounted_swept : (c.swept now).accounted = c.accounted := by
  rw [swept_eq]
  split
  · rfl
  · exact accounted_expire

theorem accounted_evict : (c.evict now order).accounted = c.accounted := by
  rw [evict]
  split
  · rfl
  · exact (accounted_of_sublist (dropOldest_sublist _ _ _)).trans accounted_expire

theorem accounted_touch : (c.touch text now).accounted = c.accounted :=
  congrArg (· + c.evictions) (size_touch c text now)

/-- Of the entries of a text only expired ones give way to a query that was read. -/
theorem accounted_filled (hranked : c.IsRanked texts) {q : Query}
    (hnone : (c.swept now).held? text later = none) :
    (c.filled text q now later).accounted +
      (c.swept now).entries.countP (fun e => e.text = text && e.isExpired c.config later) =
    c.accounted + 1 := by
  have hsame : (c.swept now).entries.countP (fun e => e.text = text && e.isExpired c.config later) =
      (c.swept now).entries.countP (·.text = text) := by
    refine List.countP_congr fun e he => ?_
    have hexpired := isExpired_of_held?_eq_none (hranked.swept now) hnone he
    rw [config_swept] at hexpired
    simpa using hexpired
  have hsplit := List.length_eq_countP_add_countP (·.text = text) (l := (c.swept now).entries)
  have hothers : (c.swept now).entries.countP (fun e => ¬decide (e.text = text) = true) =
      ((c.swept now).entries.filter (·.text ≠ text)).length := by
    rw [List.countP_eq_length_filter]
    simp
  have hsize : (c.filled text q now later).size =
      ((c.swept now).entries.filter (·.text ≠ text)).length + 1 := rfl
  have hevictions : (c.filled text q now later).evictions = (c.swept now).evictions := rfl
  have hswept : (c.swept now).accounted = c.accounted := accounted_swept
  rw [hsame, ← hswept, accounted, accounted, hsize, hevictions, size]
  omega

theorem Answers.accounted (h : Answers c text now later order result c')
    (hroom : 0 < c.config.capacity) (hranked : c.IsRanked texts) (hclock : now ≤ later) :
    c'.accounted + Call.replaced c (.request text now later order) =
      c.accounted + Call.entered c (.request text now later order) := by
  rw [Call.replaced, Call.entered, ← hranked.held?_swept]
  cases h with
  | passed hzero | refused hzero => omega
  | hit _ hheld =>
    rw [hheld]
    exact accounted_touch.trans accounted_swept
  | failed _ hnone hread =>
    rw [hnone, hread]
    exact accounted_swept
  | joined _ hnone _ hheld =>
    -- an entry that has not expired later has not expired now
    obtain ⟨he, htext⟩ := mem_of_held? hheld
    have hexpired := isExpired_of_held?_eq_none (hranked.swept now) hnone he htext
    have hlater := Entry.isExpired_mono hclock hexpired
    rw [isExpired_of_held? hheld] at hlater
    cases hlater
  | kept _ hnone hread hlater =>
    have hentered : (c.swept now).held? text now = none ∧ (read text).isOk := by
      rw [hread]
      exact ⟨hnone, rfl⟩
    rw [if_pos hentered, if_pos hentered, accounted_evict]
    exact accounted_filled hranked hlater

theorem accounted_call (hroom : 0 < c.config.capacity) (hranked : c.IsRanked texts)
    (hclock : x.ReadsForward) :
    (c.call x).accounted + Call.cleared c x + Call.replaced c x =
      c.accounted + Call.entered c x := by
  cases x with
  | request text now later order =>
    exact (request_answers c text now later order).accounted hroom hranked hclock
  | sweep now => exact accounted_expire
  | clear =>
    change 0 + c.evictions + c.size + 0 = c.size + c.evictions + 0
    omega

end Balance

section Runs

theorem counts_after (hroom : 0 < config.capacity) (calls : List Call) :
    (after config calls).hits = tally Call.hits config calls ∧
      (after config calls).misses = tally Call.misses config calls := by
  induction calls using List.reverseRecOn with
  | nil => exact ⟨rfl, rfl⟩
  | append_singleton calls x ih =>
    have hroom' : 0 < (after config calls).config.capacity := by rwa [config_after]
    rw [after_concat, tally_concat, tally_concat, ← ih.1, ← ih.2]
    cases x with
    | request text now later order =>
      exact (request_answers _ text now later order).counts hroom' (isRanked_after hroom calls)
    | sweep | clear => exact ⟨rfl, rfl⟩

/-- A request is a hit or a miss. -/
theorem tally_hits_add_misses (config : Config) (calls : List Call) :
    tally Call.hits config calls + tally Call.misses config calls =
      calls.countP Call.isRequest := by
  induction calls using List.reverseRecOn with
  | nil => rfl
  | append_singleton calls x ih =>
    have hone : Call.hits (after config calls) x + Call.misses (after config calls) x =
        [x].countP Call.isRequest := by
      cases x with
      | request text now later order =>
        rw [Call.hits, Call.misses]
        split <;> rfl
      | sweep | clear => rfl
    rw [tally_concat, tally_concat, List.countP_append, ← ih, ← hone]
    omega

theorem accounted_after (hroom : 0 < config.capacity) (hclock : ∀ x ∈ calls, x.ReadsForward) :
    (after config calls).accounted + tally Call.cleared config calls +
        tally Call.replaced config calls =
      tally Call.entered config calls := by
  induction calls using List.reverseRecOn with
  | nil => rfl
  | append_singleton calls x ih =>
    have hbefore := ih fun y hy => hclock y (List.mem_append_left _ hy)
    have hstep := accounted_call (c := after config calls) (by rwa [config_after])
      (isRanked_after hroom calls) (hclock x (by simp))
    rw [after_concat, tally_concat, tally_concat, tally_concat]
    omega

/-- Nothing is held or counted. -/
structure IsIdle (c : Cache) : Prop where
  entries : c.entries = []
  hits : c.hits = 0
  misses : c.misses = 0
  evictions : c.evictions = 0

theorem IsIdle.call (h : c.IsIdle) (hzero : c.config.capacity = 0) (x : Call) :
    (c.call x).IsIdle := by
  cases x with
  | request text now later order =>
    have hanswers := request_answers c text now later order
    rw [Cache.call]
    generalize ((request text now later order).run c).2.1 = c' at hanswers ⊢
    generalize ((request text now later order).run c).1 = result at hanswers
    cases hanswers with
    | passed | refused => exact ⟨h.entries, h.hits, h.misses, h.evictions⟩
    | hit hroom | failed hroom | joined hroom | kept hroom => omega
  | sweep now =>
    have hfresh : c.fresh now = [] := by rw [fresh, h.entries, List.filter_nil]
    have hsize : c.size = 0 := by rw [size, h.entries, List.length_nil]
    refine ⟨hfresh, h.hits, h.misses, ?_⟩
    change c.evictions + (c.size - (c.fresh now).length) = 0
    rw [h.evictions, hsize, Nat.zero_sub]
  | clear => exact ⟨rfl, h.hits, h.misses, h.evictions⟩

theorem isIdle_after (hzero : config.capacity = 0) (calls : List Call) :
    (after config calls).IsIdle := by
  induction calls using List.reverseRecOn with
  | nil => exact ⟨rfl, rfl, rfl, rfl⟩
  | append_singleton calls x ih =>
    rw [after_concat]
    exact ih.call (by rwa [config_after]) x

end Runs

/-- With room, hits and misses are the requests whose text had an entry that had not expired, and
the others. When the clock does not go back, the misses whose text could be read are as many as
the entries that are held, were evicted, went when the cache was cleared, or had expired and gave
way to the query of their own text. Without room nothing is held or counted. -/
theorem counters_account (config : Config) (calls : List Call) :
    let c := after config calls
    (0 < config.capacity → c.hits = tally Call.hits config calls ∧
      c.misses = tally Call.misses config calls ∧
      c.hits + c.misses = calls.countP Call.isRequest ∧
      ((∀ x ∈ calls, x.ReadsForward) → tally Call.entered config calls =
        c.size + c.evictions + tally Call.cleared config calls +
          tally Call.replaced config calls)) ∧
    (config.capacity = 0 → c.size = 0 ∧ c.hits = 0 ∧ c.misses = 0 ∧ c.evictions = 0) := by
  intro c
  refine ⟨fun hroom => ?_, fun hzero => ?_⟩
  · obtain ⟨hhits, hmisses⟩ := counts_after hroom calls
    refine ⟨hhits, hmisses, ?_, fun hclock => (accounted_after hroom hclock).symm⟩
    rw [hhits, hmisses]
    exact tally_hits_add_misses config calls
  · have hidle := isIdle_after hzero calls
    exact ⟨congrArg List.length hidle.entries, hidle.hits, hidle.misses, hidle.evictions⟩

/-- Entries go in each of the four ways: one for want of room, one in a sweep and one in the sweep
that a request starts, one that gives way to its own text, two when the cache is cleared. -/
theorem counters_account_everyWay :
    let config : Config :=
      { capacity := 2, idle := .ofMillis 100, lifetime := .ofMillis 1000
        sweepInterval := .ofMillis 400 }
    let ask (text : String) (now : Nat) : Call := .request text now (now + 1) .listed
    let calls := [ask "SELECT a" 0, ask "SELECT b" 10, ask "SELECT a" 50, ask "SELECT c" 60,
      ask "SELECT a" 300, ask "SELECT ? :b" 310, .sweep 350, ask "SELECT d" 360, .clear,
      ask "SELECT e" 500, ask "SELECT f" 950]
    let c := after config calls
    (∀ x ∈ calls, x.ReadsForward) ∧ c.hits = 1 ∧ c.misses = 8 ∧
      tally Call.entered config calls = 7 ∧ c.evictions = 3 ∧ tally Call.cleared config calls = 2 ∧
      tally Call.replaced config calls = 1 ∧ c.size = 1 ∧
      (after { config with capacity := 0 } calls).misses = 0 := by
  intro config ask calls c
  have hclock : ∀ x ∈ calls, x.ReadsForward := by simp [calls, ask, Call.ReadsForward]
  have hhits : tally Call.hits config calls = 1 := by decide +kernel
  have hentered : tally Call.entered config calls = 7 := by decide +kernel
  have hevictions : c.evictions = 3 := by decide +kernel
  have hcleared : tally Call.cleared config calls = 2 := by decide +kernel
  have hreplaced : tally Call.replaced config calls = 1 := by decide +kernel
  have hcount : calls.countP Call.isRequest = 9 := by decide
  obtain ⟨hhit, -, hrequests, hbalance⟩ := (counters_account config calls).1 (by decide)
  have hsize : tally Call.entered config calls = c.size + c.evictions +
      tally Call.cleared config calls + tally Call.replaced config calls := hbalance hclock
  obtain ⟨-, -, hidle, -⟩ := (counters_account { config with capacity := 0 } calls).2 rfl
  rw [hhits] at hhit
  rw [hhit, hcount] at hrequests
  rw [hentered, hevictions, hcleared, hreplaced] at hsize
  refine ⟨hclock, hhit, ?_, hentered, hevictions, hcleared, hreplaced, ?_, hidle⟩
  · exact Nat.add_left_cancel hrequests
  · omega

end Cql.Query.Cache
