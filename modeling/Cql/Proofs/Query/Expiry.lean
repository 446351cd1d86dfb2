import Cql.Proofs.Query.Given
import Cql.Proofs.Query.Retention

/-!
When a cache gives the query that it gave before. Only an entry that has expired is dropped, unless
the cache is cleared or too small. So a text gives its last query again exactly if that is young
enough and was asked for lately enough, in whatever way expired entries were dropped in between.
-/

namespace Cql.Query.Cache

/-- A query that was read and used at these times has not expired. -/
def Config.Keeps (config : Config) (created used now : Nat) : Prop :=
  now - created ≤ config.lifetime.millis ∧ now - used ≤ config.idle.millis

instance (config : Config) (created used now : Nat) : Decidable (config.Keeps created used now) :=
  inferInstanceAs (Decidable (_ ∧ _))

/-- The call does not drop the entry of a text to make room for another one, nor by clearing the
cache. -/
def Spares (c : Cache) (text : String) : Call → Prop
  | .request asked now later order => ∀ e ∈ c.entries, e.text = text →
      e.isExpired c.config now = false →
      ∃ f ∈ (c.call (.request asked now later order)).entries, f.text = text
  | .sweep _ => True
  | .clear => ∀ e ∈ c.entries, e.text ≠ text

/-- The calls that come after the last query of a text spare its entry. -/
def SparedSince (config : Config) (calls : List Call) (text : String) : Prop :=
  ∀ before x rest, calls = before ++ x :: rest →
    (∀ g ∈ givenFrom (after config before) (x :: rest), g.text ≠ text) →
    (after config before).Spares text x

/-- A text gave a query last at the time `used`, the query was read at the time `created`, and the
text has been spared since. -/
structure Stands (config : Config) (calls : List Call) (text : String) (query : Stamped Query)
    (created used : Nat) : Prop where
  last : last? (given config calls) text = some ⟨text, used, query⟩
  first : ∃ g, first? (given config calls) query = some g ∧ g.time = created
  spared : SparedSince config calls text

/-- The time of the last sweep that a request started, or zero. A request starts one when enough
time has passed since the one before, whether or not its text can be read. -/
def sweepTime (config : Config) (calls : List Call) : Nat :=
  calls.foldl (fun last x =>
    match x with
    | .request _ now _ _ => if now - last < config.sweepInterval.millis then last else now
    | .sweep _ | .clear => last) 0

variable {c c' : Cache} {config : Config} {calls : List Call} {text : String}
  {now later created used : Nat} {order : Order} {e : Entry} {query : Stamped Query} {q : Query}
  {x : Call} {result : Except Fault (Stamped Query)} {texts : List String}

theorem keeps_iff : config.Keeps e.created e.lastUsed now ↔ e.isExpired config now = false := by
  simp [Config.Keeps, Entry.isExpired]

theorem Config.Keeps.of_le {t : Nat} (h : config.Keeps created used now) (ht : t ≤ now) :
    config.Keeps created used t :=
  ⟨Nat.le_trans (Nat.sub_le_sub_right ht created) h.1,
    Nat.le_trans (Nat.sub_le_sub_right ht used) h.2⟩

/-- An entry of a text that stands holds the query that stands. -/
theorem Stands.entry (h : Stands config calls text query created used)
    (hc : Records (given config calls) c) (he : e ∈ c.entries) (htext : e.text = text) :
    e.query = query ∧ e.created = created ∧ e.lastUsed = used := by
  have hlast := hc.last e he
  rw [htext, h.last, Option.some.injEq, Given.mk.injEq] at hlast
  obtain ⟨-, hused, hquery⟩ := hlast
  obtain ⟨g, hg, hcreated⟩ := h.first
  obtain ⟨f, hf, hfirst⟩ := hc.first e he
  rw [← hquery, hg, Option.some.injEq] at hf
  exact ⟨hquery.symm, by rw [← hfirst, ← hf, hcreated], hused.symm⟩

/-- Without an entry that has not expired a request reads the query anew. -/
theorem Answers.eq_of_missing (h : Answers c text now now order result c')
    (hroom : 0 < c.config.capacity)
    (hmissing : ∀ e ∈ c.entries, e.text = text → e.isExpired c.config now)
    (hread : read text = .ok q) : result = .ok ⟨c.nextSerial, q⟩ := by
  have hnone : (c.swept now).held? text now = none := by
    refine held?_eq_none fun e he htext => ?_
    rw [config_swept]
    exact hmissing e ((swept_sublist c now).subset he) htext
  cases h with
  | passed hzero | refused hzero => omega
  | hit _ hheld | joined _ _ _ hheld => simp [hnone] at hheld
  | failed _ _ herror => simp [hread] at herror
  | kept _ _ hother =>
    obtain rfl : q = _ := Except.ok.inj (hread.symm.trans hother)
    rw [nextSerial_swept]

/-- A text that a call does not give stands before the call, and is spared by it. -/
theorem Stands.of_concat (h : Stands config (calls ++ [x]) text query created used)
    (hother : ∀ g ∈ ((after config calls).gives? x).toList, g.text ≠ text) :
    Stands config calls text query created used ∧ (after config calls).Spares text x := by
  have hlast : last? (given config calls) text = some ⟨text, used, query⟩ := by
    have hlast := h.last
    rw [given_concat] at hlast
    cases hx : (after config calls).gives? x with
    | none => simpa [hx] using hlast
    | some g =>
      rw [hx, Option.toList_some, last?_concat, if_neg (hother g (by simp [hx]))] at hlast
      exact hlast
  have hfirst : ∃ g, first? (given config calls) query = some g ∧ g.time = created := by
    obtain ⟨g, hg, hcreated⟩ := h.first
    obtain ⟨f, hf⟩ := exists_first? (mem_of_last? hlast) rfl
    rw [given_concat, first?_append hf] at hg
    exact ⟨g, hf.trans hg, hcreated⟩
  refine ⟨⟨hlast, hfirst, fun before y rest hcalls hrest => ?_⟩, h.spared calls x [] rfl ?_⟩
  · refine h.spared before y (rest ++ [x]) (by simp [hcalls]) fun g hg => ?_
    have hafter : (y :: rest).foldl call (after config before) = after config calls := by
      rw [hcalls, after, after, List.foldl_append]
    rw [← List.cons_append, givenFrom_append, hafter, givenFrom_singleton] at hg
    obtain hg | hg := List.mem_append.mp hg
    · exact hrest g hg
    · exact hother g hg
  · rw [givenFrom_singleton]
    exact hother

/-- A call that spares the entry of a text drops it only if it has expired. -/
theorem Spares.exists_entry (h : c.Spares text x) (he : e ∈ c.entries)
    (htext : e.text = text) : (∃ f ∈ (c.call x).entries, f.text = text) ∨
      ∃ t, x.time? = some t ∧ e.isExpired c.config t := by
  cases x with
  | request asked now later order =>
    cases hexpired : e.isExpired c.config now with
    | false => exact .inl (h e he htext hexpired)
    | true => exact .inr ⟨now, rfl, hexpired⟩
  | sweep now =>
    cases hexpired : e.isExpired c.config now with
    | false => exact .inl ⟨e, mem_fresh.mpr ⟨he, hexpired⟩, htext⟩
    | true => exact .inr ⟨now, rfl, hexpired⟩
  | clear => exact absurd htext (h e he)

/-- What stands is held, unless it had expired when a call came. -/
theorem exists_entry_of_stands (hroom : 0 < config.capacity) (hclock : AreClocked calls)
    (h : Stands config calls text query created used) :
    (∃ e ∈ (after config calls).entries, e.text = text) ∨
      ∃ t ∈ calls.filterMap Call.time?, ¬config.Keeps created used t := by
  induction calls using List.reverseRecOn with
  | nil => cases h.last
  | append_singleton calls x ih =>
    have hconfig := config_after config calls
    rw [after_concat, List.filterMap_append]
    by_cases hgives : ∃ g, (after config calls).gives? x = some g ∧ g.text = text
    · obtain ⟨g, hg, rfl⟩ := hgives
      obtain ⟨later, order, rfl, hresult⟩ := request_of_gives? hg
      obtain rfl : later = g.time := hclock.once_last
      have hanswers := request_answers (after config calls) g.text g.time g.time order
      rw [hresult] at hanswers
      obtain ⟨e, he, htext, -⟩ := hanswers.exists_entry (by rwa [hconfig])
        (isRanked_after hroom calls) (hconfig.symm ▸ size_after_le config calls)
      exact .inl ⟨e, he, htext⟩
    obtain ⟨hstands, hspares⟩ := h.of_concat fun g hg htext =>
      hgives ⟨g, Option.mem_toList.mp hg, htext⟩
    obtain ⟨e, he, htext⟩ | ⟨t, ht, hlapsed⟩ := ih hclock.of_concat hstands
    · obtain hheld | ⟨t, ht, hexpired⟩ := hspares.exists_entry he htext
      · exact .inl hheld
      · obtain ⟨-, rfl, rfl⟩ := hstands.entry (records_after hroom hclock.of_concat) he htext
        refine .inr ⟨t, List.mem_append_right _ (by simp [ht]), ?_⟩
        rw [keeps_iff, ← hconfig, hexpired]
        decide
    · exact .inr ⟨t, List.mem_append_left _ ht, hlapsed⟩

section Sweeps

theorem swept_of_due (hdue : c.config.sweepInterval.millis ≤ now - c.lastSweep) :
    (c.swept now).entries = c.fresh now := by
  rw [swept_eq, if_neg (Nat.not_lt.mpr hdue)]
  rfl

theorem lastSweep_swept : (c.swept now).lastSweep =
    if now - c.lastSweep < c.config.sweepInterval.millis then c.lastSweep else now := by
  rw [swept_eq]
  split <;> rfl

theorem lastSweep_evict : (c.evict now order).lastSweep = c.lastSweep := by
  rw [evict]
  split <;> rfl

theorem Answers.lastSweep (h : Answers c text now later order result c')
    (hroom : 0 < c.config.capacity) : c'.lastSweep = (c.swept now).lastSweep := by
  cases h with
  | passed hzero | refused hzero => omega
  | hit | failed | joined => rfl
  | kept => exact lastSweep_evict

theorem lastSweep_after (hroom : 0 < config.capacity) (calls : List Call) :
    (after config calls).lastSweep = sweepTime config calls := by
  induction calls using List.reverseRecOn with
  | nil => rfl
  | append_singleton calls x ih =>
    rw [after_concat, sweepTime, List.foldl_append, ← sweepTime, ← ih, List.foldl_cons,
      List.foldl_nil]
    cases x with
    | request text now later order =>
      have hroom : 0 < (after config calls).config.capacity := by rwa [config_after]
      rw [call, (request_answers _ text now later order).lastSweep hroom, lastSweep_swept,
        config_after]
    | sweep | clear => rfl

/-- After a request with a sweep no entry has expired. -/
theorem Answers.keeps (h : Answers c text now now order result c') (hroom : 0 < c.config.capacity)
    (hdue : c.config.sweepInterval.millis ≤ now - c.lastSweep) :
    ∀ e ∈ c'.entries, c.config.Keeps e.created e.lastUsed now := by
  have hswept : ∀ e ∈ (c.swept now).entries, c.config.Keeps e.created e.lastUsed now := by
    intro e he
    rw [swept_of_due hdue] at he
    exact keeps_iff.mpr (mem_fresh.mp he).2
  intro e he
  cases h with
  | passed hzero | refused hzero => omega
  | joined _ hnone _ hheld => simp [hnone] at hheld
  | failed => exact hswept e he
  | hit =>
    obtain ⟨f, hf, rfl⟩ := List.mem_map.mp he
    obtain ⟨hcreated, hused⟩ := hswept f hf
    by_cases htext : f.text = text
    · rw [if_pos htext]
      exact ⟨hcreated, by simp [Entry.used]⟩
    · rw [if_neg htext]
      exact ⟨hcreated, hused⟩
  | kept =>
    obtain rfl | he := List.mem_cons.mp (evict_sublist.subset he)
    · simp [Config.Keeps]
    · exact hswept e (List.mem_filter.mp he).1

end Sweeps

/-- What a request gives for a text that stands. -/
theorem Stands.request (hroom : 0 < config.capacity)
    (hclock : AreClocked (calls ++ [Call.request text now now order]))
    (h : Stands config calls text query created used) :
    let c := after config calls
    let result := ((request text now now order).run c).1
    (config.Keeps created used now → result = .ok query) ∧
      (¬config.Keeps created used now → result = .ok ⟨c.nextSerial, query.value⟩ ∧
        ⟨text, ⟨c.nextSerial, query.value⟩, now, now, c.nextRank⟩ ∈
          (c.call (.request text now now order)).entries) := by
  intro c result
  have hconfig : c.config = config := config_after config calls
  have hroom' : 0 < c.config.capacity := by rwa [hconfig]
  have hranked : c.IsRanked (uses calls) := isRanked_after hroom calls
  have hrecords := records_after hroom hclock.of_concat
  have hanswers := request_answers c text now now order
  constructor
  · intro hkeeps
    have hheld := exists_entry_of_stands hroom hclock.of_concat h
    obtain ⟨e, he, htext⟩ | ⟨t, ht, hlapsed⟩ := hheld
    · obtain ⟨rfl, rfl, rfl⟩ := h.entry hrecords he htext
      exact hanswers.eq_of_mem hroom' hranked he htext (hconfig ▸ keeps_iff.mp hkeeps)
    · exact absurd (hkeeps.of_le (hclock.le rfl ht)) hlapsed
  · intro hlapsed
    have hread := read_of_mem_given (mem_of_last? h.last)
    have hmissing : ∀ e ∈ c.entries, e.text = text → e.isExpired c.config now := by
      intro e he htext
      obtain ⟨rfl, rfl, rfl⟩ := h.entry hrecords he htext
      rw [hconfig]
      rwa [keeps_iff, Bool.not_eq_false] at hlapsed
    have hsize : c.size ≤ c.config.capacity := hconfig.symm ▸ size_after_le config calls
    refine ⟨hanswers.eq_of_missing hroom' hmissing hread, ?_⟩
    rw [call_request hroom' (Nat.le_refl now) hmissing hread]
    exact mem_evict_filled hranked hroom' hsize now now order

end Cql.Query.Cache
