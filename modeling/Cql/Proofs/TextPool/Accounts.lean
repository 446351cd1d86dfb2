import Mathlib
import Cql.Proofs.Step
import Cql.TextPool.Holders

/-!
What a pool accounts for. Its count is the number of buffers that are held, as a word, whatever the
slots they are held in do with them; the buffers that it keeps are empty, and not more than it is to
keep.
-/

namespace Cql

namespace Slots

variable {α : Type} {slots : Slots α} {slot other : String} {a : α}

theorem names_erase (slots : Slots α) (slot : String) :
    (slots.erase slot).names = slots.names.filter (· ≠ slot) := by
  simp [names, erase, List.filter_map, Function.comp_def]

theorem notMem_names_erase : slot ∉ (slots.erase slot).names := by
  simp [names_erase]

theorem nodup_erase (h : slots.names.Nodup) (slot : String) : (slots.erase slot).names.Nodup := by
  rw [names_erase]
  exact h.filter _

theorem nodup_put (h : slots.names.Nodup) (slot : String) (a : α) :
    (slots.put slot a).names.Nodup :=
  List.nodup_cons.mpr ⟨notMem_names_erase, nodup_erase h slot⟩

theorem erase_eq_self (h : slots.get? slot = none) : slots.erase slot = slots := by
  refine List.filter_eq_self.mpr fun entry hentry => ?_
  have hne : entry.1 ≠ slot := by
    rintro rfl
    exact get?_eq_none_iff.mp h (List.mem_map_of_mem hentry)
  simpa using hne

theorem length_erase (h : slots.names.Nodup) (hslot : slots.get? slot = some a) :
    (slots.erase slot).length + 1 = slots.length := by
  have hmem : slot ∈ slots.names := by
    by_contra hnot
    rw [get?_eq_none_iff.mpr hnot] at hslot
    cases hslot
  have hnames : (slots.erase slot).names = slots.names.erase slot := by
    rw [names_erase, h.erase_eq_filter]
    exact List.filter_congr fun other _ => by simp [bne, beq_eq_decide]
  have hlength := List.length_erase_add_one hmem
  rw [← hnames] at hlength
  simpa [names] using hlength

theorem length_put_of_none (h : slots.get? slot = none) (a : α) :
    (slots.put slot a).length = slots.length + 1 := by
  rw [put, List.length_cons, erase_eq_self h]

theorem length_put_of_some (h : slots.names.Nodup) (hslot : slots.get? slot = some a) (b : α) :
    (slots.put slot b).length = slots.length :=
  length_erase h hslot

end Slots

namespace TextPool

/-- The text in the buffer that is taken next. -/
def next (p : TextPool) : String := p.free.headD ""

/-- The pool after a buffer was taken. -/
def taken (p : TextPool) : TextPool := { p with free := p.free.tail, held := p.held + 1 }

/-- What is noted when a buffer is taken. -/
def alarm (p : TextPool) : List Event :=
  if p.held + 1 = p.config.threshold + 1 then [.manyHeld (p.held + 1) p.config.threshold] else []

/-- The pool after a buffer was given back. -/
def returned (p : TextPool) : TextPool where
  config := p.config
  free := if p.pooled < p.config.maxPooled.toNat then "" :: p.free else p.free
  held := p.held - 1

/-- What is noted when a buffer is given back. -/
def dropped (p : TextPool) : List Event :=
  if p.pooled < p.config.maxPooled.toNat then [] else [.bufferDropped p.pooled]

theorem acquire_run (p : TextPool) (log : List Event) :
    acquire ⟨p, log⟩ = (p.next, ⟨p.taken, log ++ p.alarm⟩) := by
  rw [acquire, Step.current_bind, alarm]
  dsimp only
  split
  · rfl
  · rw [List.append_nil]
    rfl

theorem release_run (p : TextPool) (text : String) (log : List Event) :
    release text ⟨p, log⟩ = ((), ⟨p.returned, log ++ p.dropped⟩) := by
  rw [release, Step.current_bind, dropped, returned, pooled]
  split
  · rw [List.append_nil]
    rfl
  · rfl

theorem run_acquire (p : TextPool) : acquire.run p = (p.next, p.taken, p.alarm) := by
  rw [Step.run, acquire_run, List.nil_append]

theorem run_release (p : TextPool) (text : String) :
    (release text).run p = ((), p.returned, p.dropped) := by
  rw [Step.run, release_run, List.nil_append]

/-- A pool of this configuration while so many buffers are held. -/
structure Accounts (config : Config) (n : ℕ) (p : TextPool) : Prop where
  configured : p.config = config
  held : p.held = .ofNat n
  blank : ∀ text ∈ p.free, text = ""
  bounded : p.pooled ≤ config.maxPooled.toNat

namespace Accounts

variable {p : TextPool} {config : Config} {n : ℕ}

theorem empty (config : Config) : Accounts config 0 { config } where
  configured := rfl
  held := rfl
  blank := by simp
  bounded := Nat.zero_le _

theorem toNat_held (h : p.Accounts config n) (hn : n < 2 ^ 64) : p.held.toNat = n := by
  rw [h.held, UInt64.toNat_ofNat', Nat.mod_eq_of_lt hn]

theorem next_eq (h : p.Accounts config n) : p.next = "" := by
  rw [next]
  cases hfree : p.free with
  | nil => rfl
  | cons text texts => exact h.blank text (by simp [hfree])

theorem taken (h : p.Accounts config n) : p.taken.Accounts config (n + 1) where
  configured := h.configured
  held := by
    rw [TextPool.taken, h.held, UInt64.ofNat_add]
    rfl
  blank text htext := h.blank text (List.mem_of_mem_tail htext)
  bounded := by
    have hle : p.taken.pooled ≤ p.pooled := by simp [pooled, TextPool.taken]
    exact Nat.le_trans hle h.bounded

theorem returned (h : p.Accounts config (n + 1)) : p.returned.Accounts config n where
  configured := h.configured
  held := by
    rw [TextPool.returned, h.held, UInt64.ofNat_add]
    exact UInt64.add_sub_cancel _ _
  blank text htext := by
    rw [TextPool.returned] at htext
    dsimp only at htext
    split at htext
    · obtain rfl | htext := List.mem_cons.mp htext
      · rfl
      · exact h.blank text htext
    · exact h.blank text htext
  bounded := by
    rw [TextPool.returned, pooled, h.configured]
    dsimp only
    split
    · assumption
    · exact h.bounded

theorem toNat_returned (h : p.Accounts config n) (hpos : 0 < n) (hn : n < 2 ^ 64) :
    p.returned.held.toNat + 1 = p.held.toNat := by
  obtain ⟨m, rfl⟩ := Nat.exists_eq_add_one.mpr hpos
  rw [h.toNat_held hn, h.returned.toNat_held (Nat.lt_of_succ_lt hn)]

end Accounts

namespace Holders

/-- What a request gives, what it makes of the holders and what it notes. -/
inductive Answers (h : Holders) : Request → Answer → Holders → List Event → Prop
  | acquired {slot : String} : h.slots.get? slot = none →
    Answers h (.acquire slot) (.text h.pool.next) ⟨h.pool.taken, h.slots.put slot h.pool.next⟩
      h.pool.alarm
  /-- The slot's buffer is given back after a new one was taken. -/
  | exchanged {slot text : String} : h.slots.get? slot = some text →
    Answers h (.acquire slot) (.text h.pool.next)
      ⟨h.pool.taken.returned, (h.slots.erase slot).put slot h.pool.next⟩
      (h.pool.alarm ++ h.pool.taken.dropped)
  | refused {slot text : String} : h.slots.get? slot = none →
    Answers h (.append slot text) .nothing h []
  | appended {slot text written : String} : h.slots.get? slot = some written →
    Answers h (.append slot text) (.text (written ++ text))
      ⟨h.pool, h.slots.put slot (written ++ text)⟩ []
  | absent {slot : String} : h.slots.get? slot = none →
    Answers h (.release slot) (.flag false) h []
  | released {slot text : String} : h.slots.get? slot = some text →
    Answers h (.release slot) (.flag true) ⟨h.pool.returned, h.slots.erase slot⟩ h.pool.dropped

variable {h h' : Holders} {r : Request} {a : Answer} {log events : List Event}
  {slot text : String}

theorem onPool_acquire (h : Holders) (log : List Event) : onPool acquire ⟨h, log⟩ =
    (h.pool.next, ⟨⟨h.pool.taken, h.slots⟩, log ++ h.pool.alarm⟩) := by
  rw [onPool, Step.within]
  dsimp only
  rw [acquire_run]

theorem onPool_release (h : Holders) (text : String) (log : List Event) :
    onPool (release text) ⟨h, log⟩ =
      ((), ⟨⟨h.pool.returned, h.slots⟩, log ++ h.pool.dropped⟩) := by
  rw [onPool, Step.within]
  dsimp only
  rw [release_run]

theorem releaseSlot_of_none (hslot : h.slots.get? slot = none) (log : List Event) :
    releaseSlot slot ⟨h, log⟩ = (false, ⟨h, log⟩) := by
  rw [releaseSlot, Step.current_bind, hslot]
  rfl

theorem releaseSlot_of_some (hslot : h.slots.get? slot = some text) (log : List Event) :
    releaseSlot slot ⟨h, log⟩ =
      (true, ⟨⟨h.pool.returned, h.slots.erase slot⟩, log ++ h.pool.dropped⟩) := by
  let erased : Holders := ⟨h.pool, h.slots.erase slot⟩
  have herased : Step.update (fun h : Holders => { h with slots := h.slots.erase slot }) ⟨h, log⟩ =
      ((), ⟨erased, log⟩) := rfl
  rw [releaseSlot, Step.current_bind, hslot]
  exact (Step.bind_eq herased).trans (Step.bind_eq (onPool_release erased text log))

/-- The events of a request do not depend on those before it. -/
theorem answer_answers (h : Holders) (r : Request) : ∃ a h' events,
    (∀ log, answer r ⟨h, log⟩ = (a, ⟨h', log ++ events⟩)) ∧ Answers h r a h' events := by
  cases r with
  | acquire slot =>
    cases hslot : h.slots.get? slot with
    | none =>
      refine ⟨_, _, _, fun log => ?_, .acquired hslot⟩
      rw [answer]
      refine (Step.bind_eq (onPool_acquire h log)).trans ?_
      exact Step.bind_eq (releaseSlot_of_none (h := ⟨h.pool.taken, h.slots⟩) hslot _)
    | some text =>
      refine ⟨_, _, _, fun log => ?_, .exchanged hslot⟩
      rw [answer]
      refine (Step.bind_eq (onPool_acquire h log)).trans ?_
      rw [← List.append_assoc]
      exact Step.bind_eq (releaseSlot_of_some (h := ⟨h.pool.taken, h.slots⟩) hslot _)
  | append slot text =>
    cases hslot : h.slots.get? slot with
    | none =>
      refine ⟨_, _, _, fun log => ?_, .refused hslot⟩
      rw [answer, Step.current_bind, hslot, List.append_nil]
      rfl
    | some written =>
      refine ⟨_, _, _, fun log => ?_, .appended hslot⟩
      rw [answer, Step.current_bind, hslot, List.append_nil]
      rfl
  | release slot =>
    cases hslot : h.slots.get? slot with
    | none =>
      refine ⟨_, _, _, fun log => ?_, .absent hslot⟩
      rw [List.append_nil]
      exact Step.bind_eq (releaseSlot_of_none hslot log)
    | some text =>
      refine ⟨_, _, _, fun log => ?_, .released hslot⟩
      exact Step.bind_eq (releaseSlot_of_some hslot log)

/-- The slots have different names, and the pool accounts for their buffers. -/
structure Balanced (config : Config) (h : Holders) : Prop where
  distinct : h.slots.names.Nodup
  pool : h.pool.Accounts config h.slots.length

theorem Answers.balanced {config : Config} (ha : Answers h r a h' events)
    (hb : h.Balanced config) : h'.Balanced config := by
  cases ha with
  | acquired hslot =>
    refine ⟨Slots.nodup_put hb.distinct _ _, ?_⟩
    rw [Slots.length_put_of_none hslot]
    exact hb.pool.taken
  | @exchanged slot _ hslot =>
    have hfree : (h.slots.erase slot).get? slot = none :=
      Slots.get?_eq_none_iff.mpr Slots.notMem_names_erase
    refine ⟨Slots.nodup_put (Slots.nodup_erase hb.distinct _) _ _, ?_⟩
    rw [Slots.length_put_of_none hfree, Slots.length_erase hb.distinct hslot]
    exact hb.pool.taken.returned
  | refused | absent => exact hb
  | appended hslot =>
    refine ⟨Slots.nodup_put hb.distinct _ _, ?_⟩
    rw [Slots.length_put_of_some hb.distinct hslot]
    exact hb.pool
  | released hslot =>
    have hpool := hb.pool
    rw [← Slots.length_erase hb.distinct hslot] at hpool
    exact ⟨Slots.nodup_erase hb.distinct _, hpool.returned⟩

/-- The holders after a request. -/
def answered (h : Holders) (r : Request) : Holders := ((answer r).run h).2.1

/-- What requests make of a pool of which nothing is held. -/
def after (config : Config) (requests : List Request) : Holders :=
  requests.foldl answered { pool := { config } }

theorem after_concat (config : Config) (requests : List Request) (r : Request) :
    after config (requests ++ [r]) = (after config requests).answered r := by
  rw [after, List.foldl_append]
  rfl

theorem answers_run (h : Holders) (r : Request) :
    Answers h r ((answer r).run h).1 (h.answered r) ((answer r).run h).2.2 := by
  obtain ⟨a, h', events, hrun, hanswers⟩ := answer_answers h r
  rw [answered, Step.run, hrun]
  exact hanswers

theorem balanced_after (config : Config) (requests : List Request) :
    (after config requests).Balanced config := by
  induction requests using List.reverseRecOn with
  | nil => exact ⟨List.nodup_nil, .empty config⟩
  | append_singleton requests r ih =>
    rw [after_concat]
    exact (answers_run _ r).balanced ih

theorem Answers.text_of_acquire (ha : Answers h (.acquire slot) a h' events) :
    a = .text h.pool.next ∧ h'.slots.get? slot = some h.pool.next := by
  cases ha with
  | acquired => exact ⟨rfl, Slots.get?_put_self⟩
  | exchanged => exact ⟨rfl, Slots.get?_put_self⟩

theorem Answers.pool_of_acquire_none (ha : Answers h (.acquire slot) a h' events)
    (hslot : h.slots.get? slot = none) : h'.pool = h.pool.taken := by
  cases ha with
  | acquired => rfl
  | exchanged hslot' => simp [hslot] at hslot'

theorem Answers.pool_of_acquire_some (ha : Answers h (.acquire slot) a h' events)
    (hslot : h.slots.get? slot = some text) : h'.pool = h.pool.taken.returned := by
  cases ha with
  | acquired hslot' => simp [hslot] at hslot'
  | exchanged => rfl

theorem Answers.pool_of_release (ha : Answers h (.release slot) a h' events)
    (hslot : h.slots.get? slot = some text) : h'.pool = h.pool.returned := by
  cases ha with
  | absent hslot' => simp [hslot] at hslot'
  | released => rfl

/-- Whatever is asked of a pool, its count is that of the slots with a buffer, and one more between
the taking of a new buffer for a slot and the giving back of its old one; buffers are taken empty
and kept empty, and not more than allowed are kept. As long as a word can count the buffers, the
count is their number, and giving one back lowers it by one. -/
theorem pool_accounts (config : Config) (requests : List Request) :
    let h := after config requests
    let n := h.slots.length
    let taken := (acquire.run h.pool).2.1
    h.slots.names.Nodup ∧ h.pool.Accounts config n ∧ (n < 2 ^ 64 → h.pool.held.toNat = n) ∧
      (acquire.run h.pool).1 = "" ∧ taken.Accounts config (n + 1) ∧
      (∀ slot, let h' := h.answered (.acquire slot)
        ((answer (.acquire slot)).run h).1 = .text "" ∧ h'.slots.get? slot = some "" ∧
          (h.slots.get? slot = none → h'.pool = taken) ∧
          ∀ text, h.slots.get? slot = some text → h'.pool = ((release text).run taken).2.1 ∧
            (n + 1 < 2 ^ 64 → h'.pool.held.toNat + 1 = taken.held.toNat)) ∧
      (∀ slot text, h.slots.get? slot = some text → let h' := h.answered (.release slot)
        h'.pool = ((release text).run h.pool).2.1 ∧
          (n < 2 ^ 64 → h'.pool.held.toNat + 1 = h.pool.held.toNat)) := by
  intro h n taken
  have hb : h.Balanced config := balanced_after config requests
  have htaken : taken = h.pool.taken := by
    dsimp only [taken]
    rw [run_acquire]
  have hcount : taken.Accounts config (n + 1) := by
    rw [htaken]
    exact hb.pool.taken
  have hnext : h.pool.next = "" := hb.pool.next_eq
  refine ⟨hb.distinct, hb.pool, hb.pool.toNat_held, ?_, hcount, fun slot => ?_,
    fun slot text hslot => ?_⟩
  · rw [run_acquire]
    exact hnext
  · have ha := answers_run h (.acquire slot)
    obtain ⟨htext, hput⟩ := ha.text_of_acquire
    rw [hnext] at htext hput
    refine ⟨htext, hput, fun hslot => ?_, fun text hslot => ?_⟩
    · rw [htaken]
      exact ha.pool_of_acquire_none hslot
    · rw [run_release, ha.pool_of_acquire_some hslot, ← htaken]
      exact ⟨rfl, hcount.toNat_returned (Nat.succ_pos n)⟩
  · have hpos : 0 < n := by
      have hlength := Slots.length_erase hb.distinct hslot
      omega
    dsimp only
    rw [run_release, (answers_run h (.release slot)).pool_of_release hslot]
    exact ⟨rfl, hb.pool.toNat_returned hpos⟩

/-- Three slots of a pool: one with a text, one without, and one that holds nothing. -/
theorem pool_accounts_slots :
    let h := after { maxPooled := 1 } [.acquire "a", .append "a" "x", .acquire "b"]
    let taken := (acquire.run h.pool).2.1
    (h.slots.get? "a" = some "x" ∧ h.slots.get? "b" = some "" ∧ h.slots.get? "c" = none) ∧
      h.slots.length + 1 < 2 ^ 64 ∧ h.pool.held.toNat = h.slots.length ∧
      (h.answered (.acquire "a")).pool.held.toNat + 1 = taken.held.toNat ∧
      (h.answered (.release "b")).pool.held.toNat + 1 = h.pool.held.toNat ∧
      (h.answered (.acquire "c")).pool = taken := by
  intro h taken
  obtain ⟨-, -, htoNat, -, -, hacquire, hrelease⟩ := pool_accounts { maxPooled := 1 }
    [.acquire "a", .append "a" "x", .acquire "b"]
  have hlength : h.slots.length + 1 < 2 ^ 64 := by decide +kernel
  have ha : h.slots.get? "a" = some "x" := by decide +kernel
  have hb : h.slots.get? "b" = some "" := by decide +kernel
  have hc : h.slots.get? "c" = none := by decide +kernel
  refine ⟨⟨ha, hb, hc⟩, hlength, htoNat (Nat.lt_of_succ_lt hlength), ?_, ?_, ?_⟩
  · exact ((hacquire "a").2.2.2 "x" ha).2 hlength
  · exact (hrelease "b" "" hb).2 (Nat.lt_of_succ_lt hlength)
  · exact (hacquire "c").2.2.1 hc

end Holders

end TextPool

end Cql
