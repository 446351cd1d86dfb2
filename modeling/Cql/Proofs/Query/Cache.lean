import Mathlib.Data.List.Induction
import Cql.Query.Cache

/-!
Calls of a query cache, one after the other. Every entry holds the query of its own text, so a
request gives what reading the text gives, whatever was asked of the cache before.
-/

namespace Cql.Query.Cache

/-- A call, with what it reads from the clock. -/
inductive Call
  | request (text : String) (now later : Nat) (order : Order)
  | sweep (now : Nat)
  | clear

/-- The cache after a call. -/
def call (c : Cache) : Call → Cache
  | .request text now later order => ((request text now later order).run c).2.1
  | .sweep now => ((sweep now).run c).2.1
  | .clear => c.clear

/-- What calls make of an empty cache. -/
def after (config : Config) (calls : List Call) : Cache := calls.foldl call { config }

theorem after_concat (config : Config) (calls : List Call) (x : Call) :
    after config (calls ++ [x]) = (after config calls).call x := by
  rw [after, List.foldl_append]
  rfl

/-- The cache after the sweep that a request starts, if one is due. -/
def swept (c : Cache) (now : Nat) : Cache := ((sweepIfDue now).run c).2.1

def missed (c : Cache) : Cache := { c with misses := c.misses + 1 }

/-- The cache after a miss whose text could be read. -/
def drawn (c : Cache) : Cache := { c.missed with nextSerial := c.nextSerial + 1 }

/-- The cache with a query that a request has read, before room is made for it. -/
def filled (c : Cache) (text : String) (q : Query) (now later : Nat) : Cache :=
  (c.swept now).drawn.insert text ⟨(c.swept now).nextSerial, q⟩ later

/-- What a request gives and what it makes of the cache. -/
inductive Answers (c : Cache) (text : String) (now later : Nat) (order : Order) :
    Except Fault (Stamped Query) → Cache → Prop
  /-- Without room nothing is kept. -/
  | passed {q : Query} : c.config.capacity = 0 → read text = .ok q →
    Answers c text now later order (.ok ⟨c.nextSerial, q⟩) { c with nextSerial := c.nextSerial + 1 }
  | refused {fault : Fault} : c.config.capacity = 0 → read text = .error fault →
    Answers c text now later order (.error fault) c
  | hit {e : Entry} : 0 < c.config.capacity → (c.swept now).held? text now = some e →
    Answers c text now later order (.ok e.query)
      { (c.swept now).touch text now with hits := (c.swept now).hits + 1 }
  | failed {fault : Fault} : 0 < c.config.capacity → (c.swept now).held? text now = none →
    read text = .error fault →
    Answers c text now later order (.error fault) (c.swept now).missed
  /-- The text has an entry by now. -/
  | joined {q : Query} {e : Entry} : 0 < c.config.capacity →
    (c.swept now).held? text now = none → read text = .ok q →
    (c.swept now).held? text later = some e →
    Answers c text now later order (.ok e.query) ((c.swept now).drawn.touch text later)
  | kept {q : Query} : 0 < c.config.capacity → (c.swept now).held? text now = none →
    read text = .ok q → (c.swept now).held? text later = none →
    Answers c text now later order (.ok ⟨(c.swept now).nextSerial, q⟩)
      ((c.filled text q now later).evict later order)

section Steps

variable {c : Cache} {log : List Event} {text : String} {now later : Nat} {order : Order}
  {q : Query}
  {fault : Fault} {e : Entry}

theorem readNew_error (h : read text = .error fault) :
    readNew text now order ⟨c, log⟩ = (.error fault, ⟨c, log⟩) := by
  rw [readNew, h]
  rfl

theorem stamp_bind {α : Type} (next : Stamped Query → Step Cache α) :
    (stamp q >>= next) ⟨c, log⟩ =
      next ⟨c.nextSerial, q⟩ ⟨{ c with nextSerial := c.nextSerial + 1 }, log⟩ := rfl

theorem readNew_joined (h : read text = .ok q) (hheld : c.held? text now = some e) :
    readNew text now order ⟨c, log⟩ =
      (.ok e.query, ⟨{ c with nextSerial := c.nextSerial + 1 }.touch text now, log⟩) := by
  have hstamped : { c with nextSerial := c.nextSerial + 1 }.held? text now = some e := hheld
  rw [readNew, h]
  simp only [stamp_bind, Step.current_bind, hstamped]
  rfl

theorem readNew_kept (h : read text = .ok q) (hheld : c.held? text now = none) :
    readNew text now order ⟨c, log⟩ = (.ok ⟨c.nextSerial, q⟩,
      ⟨({ c with nextSerial := c.nextSerial + 1 }.insert text ⟨c.nextSerial, q⟩ now).evict now order,
        log⟩) := by
  have hstamped : { c with nextSerial := c.nextSerial + 1 }.held? text now = none := hheld
  rw [readNew, h]
  simp only [stamp_bind, Step.current_bind, hstamped]
  rfl

theorem lookUp_hit (hheld : c.held? text now = some e) : lookUp text now later order ⟨c, log⟩ =
    (.ok e.query, ⟨{ c.touch text now with hits := c.hits + 1 }, log⟩) := by
  rw [lookUp, Step.current_bind, hheld]
  rfl

theorem lookUp_missed (hheld : c.held? text now = none) : lookUp text now later order ⟨c, log⟩ =
    readNew text later order ⟨c.missed, log ++ [.cacheMissed text.utf8ByteSize]⟩ := by
  rw [lookUp, Step.current_bind, hheld]
  rfl

theorem request_of_capacity_eq_zero (h : c.config.capacity = 0) :
    request text now later order ⟨c, log⟩ = (match read text with
      | .error fault => return .error fault
      | .ok query => return .ok (← stamp query) : Step Cache (Except Fault (Stamped Query)))
        ⟨c, log⟩ :=
  congrFun (if_pos h : (if c.config.capacity = 0 then _ else _ : Step Cache _) = _) _

theorem request_of_capacity_pos (h : 0 < c.config.capacity) :
    request text now later order ⟨c, log⟩ =
    lookUp text now later order (sweepIfDue now ⟨c, log⟩).2 := by
  change (if c.config.capacity = 0 then _ else _ : Step Cache _) _ = _
  rw [if_neg (Nat.pos_iff_ne_zero.mp h)]
  rfl

end Steps

theorem request_answers (c : Cache) (text : String) (now later : Nat) (order : Order) :
    Answers c text now later order ((request text now later order).run c).1
      ((request text now later order).run c).2.1 := by
  rw [Step.run]
  by_cases hcapacity : c.config.capacity = 0
  · rw [request_of_capacity_eq_zero hcapacity]
    cases hread : read text with
    | error fault => exact .refused hcapacity hread
    | ok q => exact .passed hcapacity hread
  have hroom : 0 < c.config.capacity := Nat.pos_of_ne_zero hcapacity
  have hswept : (sweepIfDue now ⟨c, []⟩).2.state = c.swept now := rfl
  rw [request_of_capacity_pos hroom]
  generalize (sweepIfDue now ⟨c, []⟩).2 = s at hswept ⊢
  obtain ⟨_, log⟩ := s
  obtain rfl : _ = c.swept now := hswept
  cases hheld : (c.swept now).held? text now with
  | some e =>
    rw [lookUp_hit hheld]
    exact .hit hroom hheld
  | none =>
    rw [lookUp_missed hheld]
    cases hread : read text with
    | error fault =>
      rw [readNew_error hread]
      exact .failed hroom hheld hread
    | ok q =>
      cases hlater : (c.swept now).missed.held? text later with
      | some e =>
        rw [readNew_joined hread hlater]
        exact .joined hroom hheld hread hlater
      | none =>
        rw [readNew_kept hread hlater]
        exact .kept hroom hheld hread hlater

variable {c c' : Cache} {text : String} {now later : Nat} {order : Order} {e : Entry}
  {result : Except Fault (Stamped Query)}

theorem swept_eq (c : Cache) (now : Nat) : c.swept now =
    if now - c.lastSweep < c.config.sweepInterval.millis then c
    else { c with lastSweep := now }.expire now := by
  change ((if _ then _ else _ : Step Cache Unit) ⟨c, []⟩).2.state = _
  split
  · rfl
  · change ((if _ then _ else _ : Step Cache Unit) _).2.state = _
    split <;> rfl

@[simp]
theorem config_swept : (c.swept now).config = c.config := by
  rw [swept_eq]
  split <;> rfl

@[simp]
theorem config_evict : (c.evict now order).config = c.config := by
  rw [evict]
  split <;> rfl

@[simp]
theorem nextSerial_swept : (c.swept now).nextSerial = c.nextSerial := by
  rw [swept_eq]
  split <;> rfl

@[simp]
theorem nextSerial_evict : (c.evict now order).nextSerial = c.nextSerial := by
  rw [evict]
  split <;> rfl

theorem mem_fresh : e ∈ c.fresh now ↔ e ∈ c.entries ∧ e.isExpired c.config now = false := by
  simp [fresh]

theorem swept_sublist (c : Cache) (now : Nat) : (c.swept now).entries.Sublist c.entries := by
  rw [swept_eq]
  split
  · exact .refl _
  · exact List.filter_sublist

theorem mem_swept (he : e ∈ c.entries) (hfresh : e.isExpired c.config now = false) :
    e ∈ (c.swept now).entries := by
  rw [swept_eq]
  split
  · exact he
  · exact mem_fresh.mpr ⟨he, hfresh⟩

theorem dropOldest_sublist (order : Order) (excess : Nat) (es : List Entry) :
    (dropOldest order excess es).Sublist es := by
  induction excess generalizing es with
  | zero => exact .refl _
  | succ excess ih =>
    rw [dropOldest]
    split
    · exact .refl _
    · exact (ih _).trans List.filter_sublist

theorem evict_sublist : (c.evict now order).entries.Sublist c.entries := by
  rw [evict]
  split
  · exact .refl _
  · exact (dropOldest_sublist _ _ _).trans List.filter_sublist

theorem mem_of_held? (h : c.held? text now = some e) : e ∈ c.entries ∧ e.text = text := by
  obtain ⟨hfind, -⟩ := Option.filter_eq_some_iff.mp h
  exact ⟨List.mem_of_find?_eq_some hfind, by simpa using List.find?_some hfind⟩

theorem Answers.config_eq (h : Answers c text now later order result c') :
    c'.config = c.config := by
  cases h with
  | passed | refused => rfl
  | hit | failed | joined => exact config_swept
  | kept =>
    rw [config_evict]
    exact config_swept

theorem config_call (c : Cache) (x : Call) : (c.call x).config = c.config := by
  cases x with
  | request text now later order => exact (request_answers c text now later order).config_eq
  | sweep | clear => rfl

theorem config_after (config : Config) (calls : List Call) :
    (after config calls).config = config := by
  induction calls using List.reverseRecOn with
  | nil => rfl
  | append_singleton calls x ih => rw [after_concat, config_call, ih]

/-- Every entry holds the query of its text. -/
def IsTrue (c : Cache) : Prop := ∀ e ∈ c.entries, read e.text = .ok e.query.value

theorem IsTrue.of_sublist (h : c.IsTrue) (hsub : c'.entries.Sublist c.entries) : c'.IsTrue :=
  fun e he => h e (hsub.subset he)

theorem IsTrue.touch (h : c.IsTrue) : (c.touch text now).IsTrue := by
  intro e he
  obtain ⟨f, hf, rfl⟩ := List.mem_map.mp he
  split
  · exact h f hf
  · exact h f hf

theorem IsTrue.insert {q : Stamped Query} (h : c.IsTrue) (hread : read text = .ok q.value) :
    (c.insert text q now).IsTrue := by
  intro e he
  obtain rfl | he := List.mem_cons.mp he
  · exact hread
  · exact h e (List.mem_filter.mp he).1

/-- A request gives what reading the text gives. -/
theorem Answers.value_eq (h : Answers c text now later order result c') (hc : c.IsTrue) :
    result.map (·.value) = read text := by
  have hheld : ∀ {time e}, (c.swept now).held? text time = some e →
      read text = .ok e.query.value := by
    intro at_ e h
    obtain ⟨he, rfl⟩ := mem_of_held? h
    exact hc.of_sublist (swept_sublist c now) e he
  cases h with
  | passed _ hread | refused _ hread | failed _ _ hread | kept _ _ hread => exact hread.symm
  | hit _ h | joined _ _ _ h => exact (hheld h).symm

theorem Answers.isTrue (h : Answers c text now later order result c') (hc : c.IsTrue) :
    c'.IsTrue := by
  have hswept : (c.swept now).IsTrue := hc.of_sublist (swept_sublist c now)
  cases h with
  | passed | refused => exact hc
  | hit | joined => exact hswept.touch
  | failed => exact hswept
  | kept _ _ hread _ =>
    have hdrawn : (c.swept now).drawn.IsTrue := hswept
    exact (hdrawn.insert hread).of_sublist evict_sublist

theorem IsTrue.call (h : c.IsTrue) (x : Call) : (c.call x).IsTrue := by
  cases x with
  | request text now later order => exact (request_answers c text now later order).isTrue h
  | sweep now => exact h.of_sublist List.filter_sublist
  | clear => exact fun _ he => nomatch he

theorem isTrue_after (config : Config) (calls : List Call) : (after config calls).IsTrue := by
  induction calls using List.reverseRecOn with
  | nil => exact fun _ he => nomatch he
  | append_singleton calls x ih =>
    rw [after_concat]
    exact ih.call x

/-- A request that fails keeps nothing, and drops nothing but expired entries. -/
theorem Answers.of_error {fault : Fault} (h : Answers c text now later order (.error fault) c') :
    c'.entries.Sublist c.entries ∧
      ∀ e ∈ c.entries, e.isExpired c.config now = false → e ∈ c'.entries := by
  cases h with
  | refused => exact ⟨.refl _, fun e he _ => he⟩
  | failed => exact ⟨swept_sublist c now, fun e he hfresh => mem_swept he hfresh⟩

/-- A request gives what reading its text gives, a query or a fault, whatever calls came before;
every entry holds the query of its text; and a request that fails keeps nothing and drops nothing
but expired entries. -/
theorem request_transparent (config : Config) (calls : List Call) (text : String) (now later : Nat)
    (order : Order) :
    let c := after config calls
    let (result, c', _) := (request text now later order).run c
    result.map (·.value) = read text ∧
      (∀ e ∈ c.entries, read e.text = .ok e.query.value) ∧
      ∀ fault, result = .error fault → c'.entries.Sublist c.entries ∧
        ∀ e ∈ c.entries, e.isExpired config now = false → e ∈ c'.entries := by
  have hanswers := request_answers (after config calls) text now later order
  have htrue := isTrue_after config calls
  refine ⟨hanswers.value_eq htrue, htrue, fun fault hfault => ?_⟩
  have herror := (hfault ▸ hanswers).of_error
  rwa [config_after] at herror

/-- A text with two kinds of placeholders fails, and only the entry that has expired goes. -/
theorem request_transparent_failing :
    let calls := [.request "SELECT a" 0 0 .listed, .request "SELECT b" 500000 500000 .listed]
    let (result, c', _) := (request "SELECT ? :b" 700000 700000 .listed).run (after {} calls)
    result.map (·.value) = .error (.mixed .mark .colon) ∧
      c'.entries.Sublist (after {} calls).entries ∧
      (after {} calls).entries.map (·.text) = ["SELECT b", "SELECT a"] ∧
      c'.entries.map (·.text) = ["SELECT b"] := by
  intro calls
  have hread : read "SELECT ? :b" = .error (.mixed .mark .colon) := by decide +kernel
  have hbefore : (after {} calls).entries.map (·.text) = ["SELECT b", "SELECT a"] := by
    decide +kernel
  have hresult : ((request "SELECT ? :b" 700000 700000 .listed).run (after {} calls)).1 =
      .error (.mixed .mark .colon) := by decide +kernel
  have hafter : ((request "SELECT ? :b" 700000 700000 .listed).run
      (after {} calls)).2.1.entries.map (·.text) = ["SELECT b"] := by decide +kernel
  have htransparent := request_transparent {} calls "SELECT ? :b" 700000 700000 .listed
  dsimp only at htransparent
  generalize after {} calls = c at *
  generalize (request "SELECT ? :b" 700000 700000 .listed).run c = r at *
  obtain ⟨hvalue, -, hfailed⟩ := htransparent
  exact ⟨hvalue.trans hread, (hfailed _ hresult).1, hbefore, hafter⟩

end Cql.Query.Cache
