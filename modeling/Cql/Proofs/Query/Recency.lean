import Mathlib.Data.List.Nodup
import Cql.Proofs.Query.Cache

/-!
Which entries a full cache drops. Ranks order the entries by the last uses of their texts, and no
two uses are in one place, so a single entry has gone unused for longest, in whatever order the
entries are looked through.
-/

namespace Cql.Query.Cache

/-- The text that a call asks for with success. -/
def Call.use? : Call → Option String
  | .request text _ _ _ => if (read text).isOk then some text else none
  | .sweep _ | .clear => none

/-- The texts that are asked for with success, in the order of the calls. -/
def uses (calls : List Call) : List String := calls.filterMap Call.use?

/-- The place of the last use of a text, counted from one, or zero if it has none. -/
def lastUse (texts : List String) (text : String) : Nat := texts.length - texts.reverse.idxOf text

variable {texts : List String} {text other : String}

theorem lastUse_le : lastUse texts text ≤ texts.length := Nat.sub_le _ _

theorem lastUse_concat (texts : List String) (t text : String) :
    lastUse (texts ++ [t]) text = if t = text then texts.length + 1 else lastUse texts text := by
  rw [lastUse, lastUse, List.reverse_append, List.reverse_singleton, List.singleton_append,
    List.length_append, List.length_singleton]
  by_cases h : t = text
  · subst h
    simp
  · rw [if_neg h, List.idxOf_cons_ne _ h]
    omega

/-- One use is of one text. -/
theorem eq_of_lastUse_eq (hused : 0 < lastUse texts text)
    (h : lastUse texts text = lastUse texts other) : text = other := by
  induction texts using List.reverseRecOn with
  | nil => simp [lastUse] at hused
  | append_singleton texts t ih =>
    have htext : lastUse texts text ≤ texts.length := lastUse_le
    have hother : lastUse texts other ≤ texts.length := lastUse_le
    rw [lastUse_concat] at hused h
    rw [lastUse_concat] at h
    by_cases ht : t = text
    · by_cases ht' : t = other
      · exact ht.symm.trans ht'
      · rw [if_pos ht, if_neg ht'] at h
        omega
    · rw [if_neg ht] at hused h
      by_cases ht' : t = other
      · rw [if_pos ht'] at h
        omega
      · rw [if_neg ht'] at h
        exact ih hused h

section Oldest

variable {es es' : List Entry} {old : Entry}

theorem oldest?_eq_none (h : oldest? es = none) : es = [] := by
  cases es with
  | nil => rfl
  | cons e es =>
    rw [oldest?] at h
    split at h
    · cases h
    · split at h <;> cases h

theorem oldest?_spec (h : oldest? es = some old) : old ∈ es ∧ ∀ e ∈ es, old.rank ≤ e.rank := by
  induction es generalizing old with
  | nil => cases h
  | cons e es ih =>
    rw [oldest?] at h
    split at h
    · rename_i hnone
      obtain rfl := oldest?_eq_none hnone
      cases h
      simp
    · rename_i f hf
      obtain ⟨hmem, hle⟩ := ih hf
      by_cases hlt : f.rank < e.rank
      · rw [if_pos hlt] at h
        cases h
        refine ⟨List.mem_cons_of_mem _ hmem, fun g hg => ?_⟩
        obtain rfl | hg := List.mem_cons.mp hg
        · exact Nat.le_of_lt hlt
        · exact hle g hg
      · rw [if_neg hlt] at h
        cases h
        refine ⟨List.mem_cons_self, fun g hg => ?_⟩
        obtain rfl | hg := List.mem_cons.mp hg
        · exact Nat.le_refl _
        · exact Nat.le_trans (Nat.not_lt.mp hlt) (hle g hg)

theorem eq_of_rank_eq (hranks : (es.map (·.rank)).Nodup) {e f : Entry} (he : e ∈ es) (hf : f ∈ es)
    (h : e.rank = f.rank) : e = f := List.inj_on_of_nodup_map hranks he hf h

/-- With distinct ranks the oldest entry is the same in every order. -/
theorem oldest?_perm (hperm : es.Perm es') (hranks : (es.map (·.rank)).Nodup) :
    oldest? es = oldest? es' := by
  cases h : oldest? es with
  | none =>
    obtain rfl := oldest?_eq_none h
    rw [hperm.nil_eq.symm]
    rfl
  | some old =>
    cases h' : oldest? es' with
    | none =>
      obtain rfl := oldest?_eq_none h'
      rw [hperm.eq_nil] at h
      cases h
    | some old' =>
      obtain ⟨hmem, hle⟩ := oldest?_spec h
      obtain ⟨hmem', hle'⟩ := oldest?_spec h'
      have hrank : old.rank = old'.rank :=
        Nat.le_antisymm (hle _ (hperm.mem_iff.mpr hmem')) (hle' _ (hperm.mem_iff.mp hmem))
      rw [eq_of_rank_eq hranks hmem (hperm.mem_iff.mpr hmem') hrank]

theorem dropOldest_order (order order' : Order) (excess : Nat) (hranks : (es.map (·.rank)).Nodup) :
    dropOldest order excess es = dropOldest order' excess es := by
  induction excess generalizing es with
  | zero => rfl
  | succ excess ih =>
    have horder : oldest? (order.arrange es) = oldest? (order'.arrange es) := by
      rw [← oldest?_perm (order.perm es).symm hranks, ← oldest?_perm (order'.perm es).symm hranks]
    rw [dropOldest, dropOldest, horder]
    split
    · rfl
    · exact ih ((List.filter_sublist.map _).nodup hranks)

theorem length_dropOldest_le (order : Order) (excess : Nat) (es : List Entry) :
    (dropOldest order excess es).length ≤ es.length - excess := by
  induction excess generalizing es with
  | zero => exact Nat.le_refl _
  | succ excess ih =>
    rw [dropOldest]
    split
    · rename_i hnone
      have hnil := (oldest?_eq_none hnone ▸ order.perm es).nil_eq
      simp [← hnil]
    · rename_i old hold
      have hmem : old ∈ es := (order.perm es).mem_iff.mp (oldest?_spec hold).1
      have hlt : (es.filter (·.text ≠ old.text)).length < es.length :=
        List.length_filter_lt_length_iff_exists.mpr ⟨old, hmem, by simp⟩
      have := ih (es.filter (·.text ≠ old.text))
      omega

end Oldest

variable {c c' : Cache} {now later : Nat} {order : Order} {result : Except Fault (Stamped Query)}

/-- The rank of an entry tells the last use of its text. -/
structure IsRanked (texts : List String) (c : Cache) : Prop where
  next : c.nextRank = texts.length
  ranks : ∀ e ∈ c.entries, lastUse texts e.text = e.rank + 1
  nodup : (c.entries.map (·.text)).Nodup

namespace IsRanked

theorem eq_of_text_eq (h : c.IsRanked texts) {e f : Entry} (he : e ∈ c.entries) (hf : f ∈ c.entries)
    (heq : e.text = f.text) : e = f := List.inj_on_of_nodup_map h.nodup he hf heq

theorem nodup_ranks (h : c.IsRanked texts) : (c.entries.map (·.rank)).Nodup := by
  refine List.Nodup.map_on (fun e he f hf hrank => ?_) h.nodup.of_map
  have hused : 0 < lastUse texts e.text := by
    rw [h.ranks e he]
    exact Nat.succ_pos _
  have hsame : lastUse texts e.text = lastUse texts f.text := by
    rw [h.ranks e he, h.ranks f hf, hrank]
  exact h.eq_of_text_eq he hf (eq_of_lastUse_eq hused hsame)

theorem rank_lt (h : c.IsRanked texts) {e : Entry} (he : e ∈ c.entries) : e.rank < c.nextRank := by
  have hlast : lastUse texts e.text ≤ texts.length := lastUse_le
  rw [h.ranks e he] at hlast
  rw [h.next]
  exact hlast

theorem of_sublist (h : c.IsRanked texts) (hsub : c'.entries.Sublist c.entries)
    (hnext : c'.nextRank = c.nextRank) : c'.IsRanked texts where
  next := hnext.trans h.next
  ranks e he := h.ranks e (hsub.subset he)
  nodup := (hsub.map _).nodup h.nodup

theorem touch (h : c.IsRanked texts) (text : String) (now : Nat) :
    (c.touch text now).IsRanked (texts ++ [text]) where
  next := by
    rw [List.length_append, List.length_singleton, ← h.next]
    rfl
  ranks e he := by
    obtain ⟨f, hf, rfl⟩ := List.mem_map.mp he
    rw [lastUse_concat]
    by_cases hused : f.text = text
    · rw [if_pos hused, ← h.next]
      simp [Entry.used, hused]
    · rw [if_neg hused, if_neg (Ne.symm hused)]
      exact h.ranks f hf
  nodup := by
    have htexts : (c.touch text now).entries.map (·.text) = c.entries.map (·.text) := by
      rw [Cache.touch, List.map_map]
      refine List.map_congr_left fun f _ => ?_
      by_cases hused : f.text = text <;> simp [Entry.used, hused]
    rw [htexts]
    exact h.nodup

theorem insert (h : c.IsRanked texts) (text : String) (q : Stamped Query) (now : Nat) :
    (c.insert text q now).IsRanked (texts ++ [text]) where
  next := by
    rw [List.length_append, List.length_singleton, ← h.next]
    rfl
  ranks e he := by
    rw [lastUse_concat]
    obtain rfl | he := List.mem_cons.mp he
    · rw [if_pos rfl, ← h.next]
    · obtain ⟨hmem, hother⟩ := List.mem_filter.mp he
      rw [if_neg (Ne.symm (by simpa using hother))]
      exact h.ranks e hmem
  nodup := by
    rw [Cache.insert, List.map_cons, List.nodup_cons]
    refine ⟨fun hmem => ?_, (List.filter_sublist.map _).nodup h.nodup⟩
    obtain ⟨e, he, htext⟩ := List.mem_map.mp hmem
    exact absurd htext (by simpa using (List.mem_filter.mp he).2)

end IsRanked

@[simp]
theorem nextRank_swept : (c.swept now).nextRank = c.nextRank := by
  rw [swept_eq]
  split <;> rfl

@[simp]
theorem nextRank_evict : (c.evict now order).nextRank = c.nextRank := by
  rw [evict]
  split <;> rfl

theorem IsRanked.swept (h : c.IsRanked texts) (now : Nat) : (c.swept now).IsRanked texts :=
  h.of_sublist (swept_sublist c now) nextRank_swept

theorem IsRanked.filled (h : c.IsRanked texts) (text : String) (q : Query) (now later : Nat) :
    (c.filled text q now later).IsRanked (texts ++ [text]) := by
  have hdrawn : (c.swept now).drawn.IsRanked texts := (h.swept now).of_sublist (.refl _) rfl
  exact hdrawn.insert text _ later

theorem Answers.isRanked (h : Answers c text now later order result c')
    (hroom : 0 < c.config.capacity) (htrue : c.IsTrue) (hc : c.IsRanked texts) :
    c'.IsRanked (texts ++ (Call.request text now later order).use?.toList) := by
  have hvalue : result.map (·.value) = read text := h.value_eq htrue
  cases h with
  | passed hzero | refused hzero => omega
  | failed =>
    rw [Call.use?, ← hvalue]
    exact (List.append_nil texts).symm ▸ (hc.swept now).of_sublist (.refl _) rfl
  | hit =>
    rw [Call.use?, ← hvalue]
    exact ((hc.swept now).touch text now).of_sublist (.refl _) rfl
  | joined =>
    rw [Call.use?, ← hvalue]
    have hdrawn : (c.swept now).drawn.IsRanked texts := (hc.swept now).of_sublist (.refl _) rfl
    exact hdrawn.touch text later
  | kept =>
    rw [Call.use?, ← hvalue]
    exact (hc.filled text _ now later).of_sublist evict_sublist nextRank_evict

theorem IsRanked.call (h : c.IsRanked texts) (hroom : 0 < c.config.capacity) (htrue : c.IsTrue)
    (x : Call) : (c.call x).IsRanked (texts ++ x.use?.toList) := by
  cases x with
  | request text now later order =>
    exact (request_answers c text now later order).isRanked hroom htrue h
  | sweep now => exact (List.append_nil texts).symm ▸ h.of_sublist List.filter_sublist rfl
  | clear => exact (List.append_nil texts).symm ▸ h.of_sublist (List.nil_sublist _) rfl

theorem uses_concat (calls : List Call) (x : Call) :
    uses (calls ++ [x]) = uses calls ++ x.use?.toList := by
  rw [uses, List.filterMap_append, ← uses]
  cases hx : x.use? <;> simp [hx]

theorem isRanked_after {config : Config} (hroom : 0 < config.capacity) (calls : List Call) :
    (after config calls).IsRanked (uses calls) := by
  induction calls using List.reverseRecOn with
  | nil => exact ⟨rfl, fun _ he => (nomatch he), List.nodup_nil⟩
  | append_singleton calls x ih =>
    rw [after_concat, uses_concat]
    exact ih.call (by rwa [config_after]) (isTrue_after config calls) x

theorem size_le_of_sublist (h : c'.entries.Sublist c.entries) : c'.size ≤ c.size := h.length_le

theorem size_evict_le : (c.evict now order).size ≤ c.config.capacity := by
  rw [evict]
  split
  · assumption
  · have hdropped := length_dropOldest_le order ((c.expire now).size - c.config.capacity)
      (c.expire now).entries
    change (dropOldest order ((c.expire now).size - c.config.capacity)
      (c.expire now).entries).length ≤ c.config.capacity
    have hsize : (c.expire now).size = (c.expire now).entries.length := rfl
    omega

theorem size_touch (c : Cache) (text : String) (now : Nat) : (c.touch text now).size = c.size :=
  List.length_map _

theorem Answers.size_le (h : Answers c text now later order result c')
    (hsize : c.size ≤ c.config.capacity) : c'.size ≤ c.config.capacity := by
  have hswept : (c.swept now).size ≤ c.config.capacity :=
    Nat.le_trans (size_le_of_sublist (swept_sublist c now)) hsize
  cases h with
  | passed | refused => exact hsize
  | failed => exact hswept
  | hit | joined => exact Nat.le_trans (Nat.le_of_eq (size_touch _ _ _)) hswept
  | @kept q =>
    have hconfig : (c.filled text q now later).config = c.config := config_swept
    exact hconfig ▸ size_evict_le

theorem size_call_le (h : c.size ≤ c.config.capacity) (x : Call) :
    (c.call x).size ≤ c.config.capacity := by
  cases x with
  | request text now later order => exact (request_answers c text now later order).size_le h
  | sweep now => exact Nat.le_trans (size_le_of_sublist List.filter_sublist) h
  | clear => exact Nat.zero_le _

theorem size_after_le (config : Config) (calls : List Call) :
    (after config calls).size ≤ config.capacity := by
  induction calls using List.reverseRecOn with
  | nil => exact Nat.zero_le _
  | append_singleton calls x ih =>
    rw [after_concat]
    have hcall := size_call_le (c := after config calls) (by rwa [config_after]) x
    rwa [config_after] at hcall

/-- With one entry too many, the expired ones go, or else the one of the least rank. -/
theorem entries_evict (h : c.IsRanked texts) (hfull : c.config.capacity < c.size)
    (hone : c.size ≤ c.config.capacity + 1) (now : Nat) (order : Order) :
    let kept := c.fresh now
    (kept.length ≤ c.config.capacity → (c.evict now order).entries = kept) ∧
      (c.config.capacity < kept.length → ∃ old ∈ kept, (∀ e ∈ kept, e ≠ old → old.rank < e.rank) ∧
        (c.evict now order).entries = kept.erase old) := by
  intro kept
  have hsub : kept.Sublist c.entries := List.filter_sublist
  have hkept : (c.expire now).IsRanked texts := h.of_sublist hsub rfl
  have hdistinct : kept.Nodup := hkept.nodup.of_map
  have hevict : (c.evict now order).entries =
      dropOldest order (kept.length - c.config.capacity) kept := by
    rw [evict, if_neg (Nat.not_le.mpr hfull)]
    rfl
  rw [hevict]
  constructor
  · intro hroom
    rw [Nat.sub_eq_zero_of_le hroom]
    rfl
  · intro hroom
    have hlength : kept.length ≤ c.size := hsub.length_le
    have hexcess : kept.length - c.config.capacity = 1 := by omega
    rw [hexcess, dropOldest]
    cases hold : oldest? (order.arrange kept) with
    | none =>
      have hnil := (oldest?_eq_none hold ▸ order.perm kept).nil_eq
      rw [← hnil] at hroom
      cases hroom
    | some old =>
      obtain ⟨hmem, hle⟩ := oldest?_spec hold
      have hin : old ∈ kept := (order.perm kept).mem_iff.mp hmem
      refine ⟨old, hin, fun e he hne => ?_, ?_⟩
      · have hrank := hle e ((order.perm kept).mem_iff.mpr he)
        refine Nat.lt_of_le_of_ne hrank fun heq => hne ?_
        exact (eq_of_rank_eq hkept.nodup_ranks hin he heq).symm
      · change kept.filter (·.text ≠ old.text) = kept.erase old
        rw [hdistinct.erase_eq_filter]
        refine List.filter_congr fun e he => ?_
        by_cases heq : e = old
        · simp [heq]
        · have htext : e.text ≠ old.text := fun htext => heq (hkept.eq_of_text_eq he hin htext)
          simp [heq, htext]

theorem evict_order (h : c.IsRanked texts) (order order' : Order) :
    c.evict now order = c.evict now order' := by
  have hranks : ((c.expire now).entries.map (·.rank)).Nodup :=
    (List.filter_sublist.map _).nodup h.nodup_ranks
  rw [evict, evict]
  split
  · rfl
  · simp only [dropOldest_order order order' _ hranks]

/-- The order in which entries are looked through has no part in a request. -/
theorem request_order (h : c.IsRanked texts) (order order' : Order) :
    (request text now later order).run c = (request text now later order').run c := by
  rw [Step.run, Step.run]
  by_cases hcapacity : c.config.capacity = 0
  · rw [request_of_capacity_eq_zero hcapacity, request_of_capacity_eq_zero hcapacity]
  have hswept : (sweepIfDue now ⟨c, []⟩).2.state = c.swept now := rfl
  rw [request_of_capacity_pos (Nat.pos_of_ne_zero hcapacity),
    request_of_capacity_pos (Nat.pos_of_ne_zero hcapacity)]
  generalize (sweepIfDue now ⟨c, []⟩).2 = s at hswept ⊢
  obtain ⟨_, log⟩ := s
  obtain rfl : _ = c.swept now := hswept
  cases hheld : (c.swept now).held? text now with
  | some e => rw [lookUp_hit hheld, lookUp_hit hheld]
  | none =>
    rw [lookUp_missed hheld, lookUp_missed hheld]
    cases hread : read text with
    | error fault => rw [readNew_error hread, readNew_error hread]
    | ok q =>
      cases hlater : (c.swept now).missed.held? text later with
      | some e => rw [readNew_joined hread hlater, readNew_joined hread hlater]
      | none =>
        have hfilled : (c.filled text q now later).evict later order =
            (c.filled text q now later).evict later order' :=
          evict_order (h.filled text q now later) order order'
        rw [readNew_kept hread hlater, readNew_kept hread hlater]
        change (_, (c.filled text q now later).evict later order, _) =
          (_, (c.filled text q now later).evict later order', _)
        rw [hfilled]

/-- The call with entries looked through as they are listed. -/
def Call.listed : Call → Call
  | .request text now later _ => .request text now later .listed
  | x => x

theorem after_listed {config : Config} (hroom : 0 < config.capacity) (calls : List Call) :
    after config (calls.map Call.listed) = after config calls := by
  induction calls using List.reverseRecOn with
  | nil => rfl
  | append_singleton calls x ih =>
    rw [List.map_append, List.map_singleton, after_concat, after_concat, ih]
    cases x with
    | request text now later order =>
      exact congrArg (·.2.1) (request_order (isRanked_after hroom calls) .listed order)
    | sweep | clear => rfl

theorem Entry.isExpired_mono {e : Entry} {config : Config} (htime : now ≤ later)
    (h : e.isExpired config now) : e.isExpired config later := by
  simp only [isExpired, Bool.or_eq_true, decide_eq_true_eq] at h ⊢
  omega

theorem held?_eq_none (h : ∀ e ∈ c.entries, e.text = text → e.isExpired c.config now) :
    c.held? text now = none := by
  rw [held?, Option.filter_eq_none_iff]
  intro e hfind
  have htext : e.text = text := by simpa using List.find?_some hfind
  simp [h e (List.mem_of_find?_eq_some hfind) htext]

theorem held?_eq_some (hranked : c.IsRanked texts) {e : Entry} (he : e ∈ c.entries)
    (htext : e.text = text) (hfresh : e.isExpired c.config now = false) :
    c.held? text now = some e := by
  have hfind : c.find? text = some e := by
    cases hfind : c.find? text with
    | none => exact absurd htext (by simpa using List.find?_eq_none.mp hfind e he)
    | some f =>
      have hf : f.text = text := by simpa using List.find?_some hfind
      rw [hranked.eq_of_text_eq (List.mem_of_find?_eq_some hfind) he (hf.trans htext.symm)]
  rw [held?, hfind]
  simp [hfresh]

theorem isExpired_of_held? {e : Entry} (h : c.held? text now = some e) :
    e.isExpired c.config now = false := by
  simpa using (Option.filter_eq_some_iff.mp h).2

theorem isExpired_of_held?_eq_none (hranked : c.IsRanked texts) (h : c.held? text now = none)
    {e : Entry} (he : e ∈ c.entries) (htext : e.text = text) : e.isExpired c.config now := by
  cases hexpired : e.isExpired c.config now with
  | true => rfl
  | false => simp [held?_eq_some hranked he htext hexpired] at h

/-- What a request makes of a cache that has no entry for its text, or an expired one. -/
theorem call_request {q : Query} (hroom : 0 < c.config.capacity) (htime : now ≤ later)
    (hmissing : ∀ e ∈ c.entries, e.text = text → e.isExpired c.config now)
    (hread : read text = .ok q) : c.call (.request text now later order) =
      (c.filled text q now later).evict later order := by
  have hexpired : ∀ e ∈ (c.swept now).entries, e.text = text →
      e.isExpired (c.swept now).config now := by
    intro e he htext
    rw [config_swept]
    exact hmissing e ((swept_sublist c now).subset he) htext
  have hnow : (c.swept now).held? text now = none := held?_eq_none hexpired
  have hlater : (c.swept now).held? text later = none :=
    held?_eq_none fun e he htext => Entry.isExpired_mono htime (hexpired e he htext)
  have hanswers := request_answers c text now later order
  rw [call]
  generalize ((request text now later order).run c).2.1 = c' at hanswers ⊢
  generalize ((request text now later order).run c).1 = result at hanswers
  cases hanswers with
  | passed hzero | refused hzero => omega
  | hit _ hheld => simp [hnow] at hheld
  | failed _ _ herror => simp [hread] at herror
  | joined _ _ _ hheld => simp [hlater] at hheld
  | kept _ _ hother _ =>
    obtain rfl : q = _ := Except.ok.inj (hread.symm.trans hother)
    rfl

theorem size_filled_le (c : Cache) (text : String) (q : Query) (now later : Nat) :
    (c.filled text q now later).size ≤ c.size + 1 := by
  have hfilter : ((c.swept now).entries.filter (·.text ≠ text)).length ≤ c.entries.length :=
    (List.filter_sublist.trans (swept_sublist c now)).length_le
  exact Nat.succ_le_succ hfilter

/-- No two entries have the same rank, and the next rank is above all of them. When the query of a
request is one too many, what remains are the entries that have not expired or, if these are too
many, all of them but one: the one whose text was asked for least recently. The order in which
entries are looked through has no part in this, nor has the time between calls. -/
theorem evict_leastRecent (config : Config) (hroom : 0 < config.capacity) (calls : List Call) :
    let c := after config calls
    (c.entries.map (·.rank)).Nodup ∧ (∀ e ∈ c.entries, e.rank < c.nextRank) ∧
      (∀ text q now later order, now ≤ later → read text = .ok q →
        (∀ e ∈ c.entries, e.text = text → e.isExpired config now) →
        config.capacity < (c.filled text q now later).size →
        let kept := (c.filled text q now later).fresh later
        let calls' := calls ++ [.request text now later order]
        (kept.length ≤ config.capacity → (after config calls').entries = kept) ∧
          (config.capacity < kept.length → ∃ old ∈ kept,
            (∀ e ∈ kept, e ≠ old →
              lastUse (uses calls') old.text < lastUse (uses calls') e.text) ∧
            (after config calls').entries = kept.erase old)) ∧
      after config (calls.map Call.listed) = after config calls := by
  intro c
  have hconfig : c.config = config := config_after config calls
  have hranked : c.IsRanked (uses calls) := isRanked_after hroom calls
  refine ⟨hranked.nodup_ranks, fun e he => hranked.rank_lt he, ?_, after_listed hroom calls⟩
  intro text q now later order htime hread hmissing hfull kept calls'
  have hafter : after config calls' = (c.filled text q now later).evict later order := by
    rw [after_concat]
    exact call_request (by rwa [hconfig]) htime (by rwa [hconfig]) hread
  have huses : uses calls' = uses calls ++ [text] := by
    rw [uses_concat]
    simp [Call.use?, hread, Except.isOk, Except.toBool]
  have hfilled : (c.filled text q now later).IsRanked (uses calls') :=
    huses ▸ hranked.filled text q now later
  have hcapacity : (c.filled text q now later).config.capacity = config.capacity := by
    rw [← hconfig]
    exact congrArg Config.capacity config_swept
  have hone : (c.filled text q now later).size ≤ config.capacity + 1 :=
    Nat.le_trans (size_filled_le c text q now later) (Nat.succ_le_succ (size_after_le config calls))
  obtain ⟨hfresh, hoverfull⟩ := entries_evict hfilled (by rwa [hcapacity]) (by rwa [hcapacity])
    later order
  rw [hcapacity] at hfresh hoverfull
  rw [hafter]
  refine ⟨hfresh, fun htoomany => ?_⟩
  obtain ⟨old, hold, hleast, hentries⟩ := hoverfull htoomany
  refine ⟨old, hold, fun e he hne => ?_, hentries⟩
  rw [hfilled.ranks old (mem_fresh.mp hold).1, hfilled.ranks e (mem_fresh.mp he).1]
  exact Nat.succ_lt_succ (hleast e he hne)

/-- Within one millisecond, the text that was asked for again stays and the other one goes. -/
theorem evict_leastRecent_atOnce :
    let ask (text : String) : Call := .request text 0 0 .listed
    let calls := [ask "SELECT a", ask "SELECT b", ask "SELECT a"]
    let kept :=
      ((after { capacity := 2 } calls).filled "SELECT c" (verbatim "SELECT c") 0 0).fresh 0
    ∃ old ∈ kept, old.text = "SELECT b" ∧
      (after { capacity := 2 } (calls ++ [ask "SELECT c"])).entries = kept.erase old := by
  intro ask calls kept
  have hread : read "SELECT c" = .ok (verbatim "SELECT c") := by decide +kernel
  have hmissing : ∀ e ∈ (after { capacity := 2 } calls).entries, e.text = "SELECT c" →
      e.isExpired { capacity := 2 } 0 := by decide +kernel
  have huses : uses (calls ++ [ask "SELECT c"]) =
      ["SELECT a", "SELECT b", "SELECT a", "SELECT c"] := by decide +kernel
  have htexts : kept.map (·.text) = ["SELECT c", "SELECT b", "SELECT a"] := by decide +kernel
  have htoomany : 2 < kept.length := by
    rw [← List.length_map (·.text), htexts]
    decide
  obtain ⟨-, -, hevict, -⟩ := evict_leastRecent { capacity := 2 } (by decide) calls
  obtain ⟨-, hdrop⟩ := hevict _ _ 0 0 .listed (Nat.le_refl 0) hread hmissing (by decide +kernel)
  obtain ⟨old, hold, hleast, hentries⟩ := hdrop htoomany
  refine ⟨old, hold, ?_, hentries⟩
  obtain ⟨b, hb, hbtext⟩ : ∃ b ∈ kept, b.text = "SELECT b" := List.mem_map.mp (by simp [htexts])
  by_cases heq : b = old
  · exact heq ▸ hbtext
  · have hlt := hleast b hb heq
    have hmem : old.text ∈ kept.map (·.text) := List.mem_map_of_mem hold
    rw [htexts] at hmem
    rw [huses, hbtext] at hlt
    generalize old.text = text at hmem hlt
    revert text
    decide

end Cql.Query.Cache
