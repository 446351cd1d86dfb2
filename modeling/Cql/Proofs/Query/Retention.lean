import Cql.Proofs.Query.Counters

/-!
A cache keeps what it gave last. The entry that a request reads or uses has the greatest rank and
was used just now, so neither its age nor the want of room makes it go.
-/

namespace Cql.Query.Cache

/-- What a request reads from the clock last: it looks again after a text was read. -/
def lastReading (c : Cache) (text : String) (now later : Nat) : Nat :=
  if (c.held? text now).isSome then now else later

variable {c c' : Cache} {text : String} {now later : Nat} {order : Order} {e : Entry} {q : Query}
  {query : Stamped Query} {result : Except Fault (Stamped Query)} {texts : List String}

theorem isExpired_used {config : Config} (h : e.isExpired config now = false) (rank : Nat) :
    (e.used now rank).isExpired config now = false := by
  simp only [Entry.isExpired, Bool.or_eq_false_iff] at h ⊢
  exact ⟨h.1, by simp [Entry.used]⟩

theorem mem_touch (he : e ∈ c.entries) (htext : e.text = text) (now : Nat) :
    e.used now c.nextRank ∈ (c.touch text now).entries :=
  List.mem_map.mpr ⟨e, he, if_pos htext⟩

/-- The entry that was used last is not dropped for want of room. -/
theorem mem_evict (h : c.IsRanked texts) (hroom : 0 < c.config.capacity)
    (hone : c.size ≤ c.config.capacity + 1) (he : e ∈ c.fresh now)
    (hnewest : ∀ f ∈ c.entries, f.rank ≤ e.rank) (order : Order) :
    e ∈ (c.evict now order).entries := by
  by_cases hfull : c.config.capacity < c.size
  · obtain ⟨hfresh, hoverfull⟩ := entries_evict h hfull hone now order
    by_cases hlength : (c.fresh now).length ≤ c.config.capacity
    · rwa [hfresh hlength]
    · obtain ⟨old, hold, hleast, hentries⟩ := hoverfull (Nat.not_le.mp hlength)
      rw [hentries]
      refine (List.mem_erase_of_ne fun heq => ?_).mpr he
      -- some other entry is left, which would have a greater rank
      have hothers : 0 < ((c.fresh now).erase old).length := by
        rw [List.length_erase_of_mem hold]
        omega
      obtain ⟨other, hother⟩ := List.exists_mem_of_length_pos hothers
      have hdistinct : (c.fresh now).Nodup := List.Nodup.filter _ h.nodup.of_map
      obtain ⟨hne, hin⟩ := hdistinct.mem_erase_iff.mp hother
      exact Nat.not_lt.mpr (hnewest other (mem_fresh.mp hin).1) (heq ▸ hleast other hin hne)
  · rw [evict, if_pos (Nat.not_lt.mp hfull)]
    exact (mem_fresh.mp he).1

theorem mem_evict_filled (hranked : c.IsRanked texts) (hroom : 0 < c.config.capacity)
    (hsize : c.size ≤ c.config.capacity) (now later : Nat) (order : Order) :
    ⟨text, ⟨c.nextSerial, q⟩, later, later, c.nextRank⟩ ∈
      ((c.filled text q now later).evict later order).entries := by
  have hserial : (c.swept now).nextSerial = c.nextSerial := nextSerial_swept
  have hrank : (c.swept now).nextRank = c.nextRank := nextRank_swept
  have hconfig : (c.filled text q now later).config = c.config := config_swept
  have hfilled := hranked.filled text q now later
  have hnext : (c.filled text q now later).nextRank = c.nextRank + 1 := congrArg (· + 1) hrank
  have hmem : ⟨text, ⟨c.nextSerial, q⟩, later, later, c.nextRank⟩ ∈
      (c.filled text q now later).entries := by
    rw [← hserial, ← hrank]
    exact List.mem_cons_self
  refine mem_evict hfilled (hconfig ▸ hroom) ?_ (mem_fresh.mpr ⟨hmem, by simp [Entry.isExpired]⟩)
    (fun f hf => ?_) order
  · rw [hconfig]
    exact Nat.le_trans (size_filled_le c text q now later) (Nat.succ_le_succ hsize)
  · have hlt := hfilled.rank_lt hf
    rw [hnext] at hlt
    exact Nat.le_of_lt_succ hlt

namespace Answers

/-- With an entry that has not expired a request gives its query. -/
theorem eq_of_mem (h : Answers c text now later order result c') (hroom : 0 < c.config.capacity)
    (hranked : c.IsRanked texts) (he : e ∈ c.entries) (htext : e.text = text)
    (hfresh : e.isExpired c.config now = false) : result = .ok e.query := by
  have hheld : (c.swept now).held? text now = some e :=
    held?_eq_some (hranked.swept now) (mem_swept he hfresh) htext (by rwa [config_swept])
  cases h with
  | passed hzero | refused hzero => omega
  | failed _ hnone | joined _ hnone | kept _ hnone => simp [hheld] at hnone
  | hit _ hother =>
    obtain rfl : e = _ := Option.some.inj (hheld.symm.trans hother)
    rfl

/-- A text that gives a query has an entry from then on, which has not expired. -/
theorem exists_entry (h : Answers c text now later order (.ok query) c')
    (hroom : 0 < c.config.capacity) (hranked : c.IsRanked texts)
    (hsize : c.size ≤ c.config.capacity) : ∃ e ∈ c'.entries, e.text = text ∧ e.query = query ∧
      e.isExpired c.config (c.lastReading text now later) = false := by
  -- an entry that is used is as it was but for its last use
  have hused : ∀ {time f}, (c.swept now).held? text time = some f →
      (f.used time (c.swept now).nextRank) ∈ ((c.swept now).touch text time).entries ∧
        f.text = text ∧ (f.used time (c.swept now).nextRank).isExpired c.config time = false := by
    intro time f hheld
    obtain ⟨hmem, htext⟩ := mem_of_held? hheld
    have hfresh := isExpired_of_held? hheld
    rw [config_swept] at hfresh
    exact ⟨mem_touch hmem htext time, htext, isExpired_used hfresh _⟩
  rw [lastReading, ← hranked.held?_swept]
  cases h with
  | passed hzero => omega
  | hit _ hheld =>
    obtain ⟨hmem, htext, hfresh⟩ := hused hheld
    rw [hheld]
    exact ⟨_, hmem, htext, rfl, hfresh⟩
  | joined _ hnone _ hheld =>
    obtain ⟨hmem, htext, hfresh⟩ := hused hheld
    rw [hnone]
    exact ⟨_, hmem, htext, rfl, hfresh⟩
  | kept _ hnone =>
    rw [hnone, nextSerial_swept]
    exact ⟨_, mem_evict_filled hranked hroom hsize now later order, rfl, rfl,
      by simp [Entry.isExpired]⟩

end Answers

/-- There are never more entries than the capacity. A text that gives a query has an entry from then
on, and asked for again before the clock moves, in whatever order entries are looked through, it
gives the same query by a hit. -/
theorem request_again (config : Config) (calls : List Call) (text : String) (now later : Nat)
    (order : Order) :
    let c := after config calls
    let c' := after config (calls ++ [.request text now later order])
    c.size ≤ config.capacity ∧
      (0 < config.capacity → ∀ query, ((request text now later order).run c).1 = .ok query →
        (∃ e ∈ c'.entries, e.text = text ∧ e.query = query) ∧
        ∀ later' order',
          let time := c.lastReading text now later
          let c'' := c'.call (.request text time later' order')
          ((request text time later' order').run c').1 = .ok query ∧
            c''.hits = c'.hits + 1 ∧ c''.misses = c'.misses) := by
  intro c c'
  have hconfig : c.config = config := config_after config calls
  have hconfig' : c'.config = config := config_after config _
  have hafter : c' = c.call (.request text now later order) := after_concat _ _ _
  refine ⟨size_after_le config calls, fun hroom query hresult => ?_⟩
  have hranked : c.IsRanked (uses calls) := isRanked_after hroom calls
  have hranked' := isRanked_after hroom (calls ++ [.request text now later order])
  have hsize : c.size ≤ c.config.capacity := hconfig.symm ▸ size_after_le config calls
  have hanswers := request_answers c text now later order
  rw [hresult, ← call, ← hafter] at hanswers
  obtain ⟨e, he, htext, hquery, hfresh⟩ := hanswers.exists_entry (hconfig ▸ hroom) hranked hsize
  refine ⟨⟨e, he, htext, hquery⟩, fun later' order' => ?_⟩
  have hroom' : 0 < c'.config.capacity := by rwa [hconfig']
  rw [hconfig, ← hconfig'] at hfresh
  have hagain := request_answers c' text (c.lastReading text now later) later' order'
  have hcounts := hagain.counts hroom' hranked'
  rw [Call.hits, Call.misses, held?_eq_some hranked' he htext hfresh] at hcounts
  exact ⟨hquery ▸ hagain.eq_of_mem hroom' hranked' he htext hfresh, hcounts⟩

/-- With a single place and no time to live, a new query takes the place of the one before, and is
given again as long as the clock stands still. -/
theorem request_again_atOnce :
    let config : Config :=
      { capacity := 1, idle := .ofMillis 0, lifetime := .ofMillis 0, sweepInterval := .ofMillis 0 }
    let calls : List Call := [.request "SELECT a" 5 5 .listed]
    let c := after config calls
    let c' := after config (calls ++ [.request "SELECT b" 5 7 .listed])
    c.entries.map (·.text) = ["SELECT a"] ∧
      ((request "SELECT b" 5 7 .listed).run c).1 = .ok ⟨1, verbatim "SELECT b"⟩ ∧
      c'.entries.map (·.text) = ["SELECT b"] ∧
      ((request "SELECT b" 7 7 .listed).run c').1 = .ok ⟨1, verbatim "SELECT b"⟩ ∧
      (c'.call (.request "SELECT b" 7 7 .listed)).hits = c'.hits + 1 := by
  intro config calls c c'
  have hbefore : c.entries.map (·.text) = ["SELECT a"] := by decide +kernel
  have hresult : ((request "SELECT b" 5 7 .listed).run c).1 = .ok ⟨1, verbatim "SELECT b"⟩ := by
    decide +kernel
  have hafter : c'.entries.map (·.text) = ["SELECT b"] := by decide +kernel
  have htime : c.lastReading "SELECT b" 5 7 = 7 := by decide +kernel
  obtain ⟨-, hretains⟩ := request_again config calls "SELECT b" 5 7 .listed
  obtain ⟨-, hagain⟩ := hretains (by decide) _ hresult
  have hsecond := hagain 7 .listed
  rw [htime] at hsecond
  exact ⟨hbefore, hresult, hafter, hsecond.1, hsecond.2.1⟩

end Cql.Query.Cache
