import Cql.Proofs.Query.Recency

/-!
What the calls of a cache gave: of each text the last query and when it was asked for, of each query
when it was read. The entries of a cache say nothing else of their queries, so what a request will
do can be told from the calls.
-/

namespace Cql.Query.Cache

/-- A query that a request gave. -/
structure Given where
  text : String
  time : Nat
  query : Stamped Query
  deriving DecidableEq

/-- What a call gives. -/
def gives? (c : Cache) : Call → Option Given
  | .request text now later order =>
    match ((request text now later order).run c).1 with
    | .ok query => some ⟨text, now, query⟩
    | .error _ => none
  | .sweep _ | .clear => none

/-- What calls give, one after the other. -/
def givenFrom (c : Cache) : List Call → List Given
  | [] => []
  | x :: calls => (c.gives? x).toList ++ givenFrom (c.call x) calls

def given (config : Config) (calls : List Call) : List Given := givenFrom { config } calls

/-- The last query that a text gave. -/
def last? (gs : List Given) (text : String) : Option Given :=
  (gs.filter (·.text = text)).getLast?

/-- The first time that a query was given, which is when it was read. -/
def first? (gs : List Given) (query : Stamped Query) : Option Given :=
  gs.find? (·.query.serial = query.serial)

/-- What a call reads from the clock. -/
def Call.time? : Call → Option Nat
  | .request _ now _ _ => some now
  | .sweep now => some now
  | .clear => none

def Call.ReadsClockOnce : Call → Prop
  | .request _ now later _ => later = now
  | .sweep _ | .clear => True

/-- Each call reads the clock once, and the clock does not go back. -/
structure AreClocked (calls : List Call) : Prop where
  once : ∀ x ∈ calls, x.ReadsClockOnce
  ordered : (calls.filterMap Call.time?).Pairwise (· ≤ ·)

section History

variable {gs : List Given} {g : Given} {text : String} {query : Stamped Query} {config : Config}

theorem givenFrom_append (c : Cache) (calls calls' : List Call) :
    givenFrom c (calls ++ calls') = givenFrom c calls ++ givenFrom (calls.foldl call c) calls' := by
  induction calls generalizing c with
  | nil => rfl
  | cons x calls ih =>
    rw [List.cons_append, givenFrom, ih, givenFrom, List.append_assoc]
    rfl

theorem givenFrom_singleton (c : Cache) (x : Call) : givenFrom c [x] = (c.gives? x).toList :=
  List.append_nil _

theorem given_concat (config : Config) (calls : List Call) (x : Call) :
    given config (calls ++ [x]) = given config calls ++ ((after config calls).gives? x).toList := by
  rw [given, givenFrom_append, givenFrom_singleton]
  rfl

theorem last?_concat (gs : List Given) (g : Given) (text : String) :
    last? (gs ++ [g]) text = if g.text = text then some g else last? gs text := by
  rw [last?, last?, List.filter_append]
  by_cases h : g.text = text <;> simp [h]

theorem mem_of_last? (h : last? gs text = some g) : g ∈ gs :=
  List.mem_of_mem_filter (List.mem_of_getLast? h)

/-- A query that was given before was not read later. -/
theorem first?_append (h : first? gs query = some g) (gs' : List Given) :
    first? (gs ++ gs') query = some g := by
  rw [first?] at h ⊢
  rw [List.find?_append, h]
  rfl

theorem first?_concat (h : ∀ g ∈ gs, g.query.serial < query.serial) (hg : g.query = query) :
    first? (gs ++ [g]) query = some g := by
  have hnone : gs.find? (·.query.serial = query.serial) = none := by
    rw [List.find?_eq_none]
    intro f hf
    simpa using Nat.ne_of_lt (h f hf)
  rw [first?, List.find?_append, hnone, List.find?_cons_of_pos (by simp [hg])]
  rfl

theorem exists_first? (h : g ∈ gs) (hg : g.query = query) : ∃ f, first? gs query = some f := by
  rw [← Option.isSome_iff_exists, first?, List.find?_isSome]
  exact ⟨g, h, by simp [hg]⟩

theorem AreClocked.of_concat {calls : List Call} {x : Call} (h : AreClocked (calls ++ [x])) :
    AreClocked calls where
  once y hy := h.once y (List.mem_append_left _ hy)
  ordered := by
    have hordered := h.ordered
    rw [List.filterMap_append, List.pairwise_append] at hordered
    exact hordered.1

theorem AreClocked.once_last {calls : List Call} {x : Call} (h : AreClocked (calls ++ [x])) :
    x.ReadsClockOnce := h.once x (List.mem_append_right _ (List.mem_singleton_self x))

theorem AreClocked.le {calls : List Call} {x : Call} (h : AreClocked (calls ++ [x])) {now t : Nat}
    (hx : x.time? = some now) (ht : t ∈ calls.filterMap Call.time?) : t ≤ now := by
  have hordered := h.ordered
  rw [List.filterMap_append, List.pairwise_append] at hordered
  exact hordered.2.2 t ht now (by simp [hx])

end History

variable {c c' : Cache} {gs : List Given} {config : Config} {calls : List Call} {text : String}
  {now later : Nat} {order : Order} {e : Entry} {query : Stamped Query} {x : Call} {g : Given}
  {result : Except Fault (Stamped Query)} {texts : List String}

/-- What the entries of a cache say of their queries is what the calls tell. -/
structure Records (gs : List Given) (c : Cache) : Prop where
  last : ∀ e ∈ c.entries, last? gs e.text = some ⟨e.text, e.lastUsed, e.query⟩
  first : ∀ e ∈ c.entries, ∃ g, first? gs e.query = some g ∧ g.time = e.created
  serials : ∀ g ∈ gs, g.query.serial < c.nextSerial

namespace Records

theorem of_sublist (h : Records gs c) (hsub : c'.entries.Sublist c.entries)
    (hserial : c.nextSerial ≤ c'.nextSerial) : Records gs c' where
  last e he := h.last e (hsub.subset he)
  first e he := h.first e (hsub.subset he)
  serials g hg := Nat.lt_of_lt_of_le (h.serials g hg) hserial

/-- What is told of other texts does not change with a query that is given. -/
theorem last?_other (h : Records gs c) (he : e ∈ c.entries) (hother : e.text ≠ text) :
    last? (gs ++ [⟨text, now, query⟩]) e.text = some ⟨e.text, e.lastUsed, e.query⟩ := by
  rw [last?_concat, if_neg (Ne.symm hother)]
  exact h.last e he

theorem first?_other (h : Records gs c) (he : e ∈ c.entries) (gs' : List Given) :
    ∃ g, first? (gs ++ gs') e.query = some g ∧ g.time = e.created := by
  obtain ⟨g, hg, htime⟩ := h.first e he
  exact ⟨g, first?_append hg gs', htime⟩

theorem serial_lt (h : Records gs c) (he : e ∈ c.entries) : e.query.serial < c.nextSerial :=
  h.serials _ (mem_of_last? (h.last e he))

theorem touch (h : Records gs c) (hranked : c.IsRanked texts) (he : e ∈ c.entries)
    (htext : e.text = text) (now : Nat) :
    Records (gs ++ [⟨text, now, e.query⟩]) (c.touch text now) where
  last f' hf' := by
    obtain ⟨f, hf, rfl⟩ := List.mem_map.mp hf'
    by_cases hused : f.text = text
    · obtain rfl : f = e := hranked.eq_of_text_eq hf he (hused.trans htext.symm)
      rw [if_pos hused, last?_concat]
      simp [Entry.used, hused]
    · rw [if_neg hused]
      exact h.last?_other hf hused
  first f' hf' := by
    obtain ⟨f, hf, rfl⟩ := List.mem_map.mp hf'
    by_cases hused : f.text = text
    · rw [if_pos hused]
      exact h.first?_other hf _
    · rw [if_neg hused]
      exact h.first?_other hf _
  serials g hg := by
    obtain hg | hg := List.mem_append.mp hg
    · exact h.serials g hg
    · obtain rfl := List.mem_singleton.mp hg
      exact h.serial_lt he

theorem insert (h : Records gs c) (text : String) (q : Query) (now : Nat) :
    Records (gs ++ [⟨text, now, ⟨c.nextSerial, q⟩⟩])
      ({ c with nextSerial := c.nextSerial + 1 }.insert text ⟨c.nextSerial, q⟩ now) where
  last e he := by
    obtain rfl | he := List.mem_cons.mp he
    · rw [last?_concat, if_pos rfl]
    · obtain ⟨hmem, hother⟩ := List.mem_filter.mp he
      exact h.last?_other hmem (by simpa using hother)
  first e he := by
    obtain rfl | he := List.mem_cons.mp he
    · exact ⟨_, first?_concat h.serials rfl, rfl⟩
    · exact h.first?_other (List.mem_filter.mp he).1 _
  serials g hg := by
    obtain hg | hg := List.mem_append.mp hg
    · exact Nat.lt_succ_of_lt (h.serials g hg)
    · obtain rfl := List.mem_singleton.mp hg
      exact Nat.lt_succ_self _

end Records

theorem Records.swept (h : Records gs c) (now : Nat) : Records gs (c.swept now) :=
  h.of_sublist (swept_sublist c now) (Nat.le_of_eq nextSerial_swept.symm)

/-- A request that reads the clock once. -/
theorem Answers.records (h : Answers c text now now order result c')
    (hroom : 0 < c.config.capacity) (hranked : c.IsRanked texts) (hc : Records gs c) :
    Records (gs ++ (match result with
      | .ok query => some (⟨text, now, query⟩ : Given)
      | .error _ => none).toList) c' := by
  cases h with
  | passed hzero | refused hzero => omega
  | joined _ hnone _ hheld => simp [hnone] at hheld
  | failed =>
    rw [Option.toList_none, List.append_nil]
    exact (hc.swept now).of_sublist (.refl _) (Nat.le_refl _)
  | hit _ hheld =>
    obtain ⟨hmem, htext⟩ := mem_of_held? hheld
    have htouched := (hc.swept now).touch (hranked.swept now) hmem htext now
    exact htouched.of_sublist (.refl _) (Nat.le_refl _)
  | @kept q =>
    have hfilled : Records (gs ++ [⟨text, now, ⟨(c.swept now).nextSerial, q⟩⟩])
        (c.filled text q now now) :=
      ((hc.swept now).insert text q now).of_sublist (.refl _) (Nat.le_refl _)
    exact hfilled.of_sublist evict_sublist (Nat.le_of_eq nextSerial_evict.symm)

theorem Records.call (h : Records gs c) (hroom : 0 < c.config.capacity) (hranked : c.IsRanked texts)
    (honce : x.ReadsClockOnce) : Records (gs ++ (c.gives? x).toList) (c.call x) := by
  cases x with
  | request text now later order =>
    obtain rfl : later = now := honce
    exact (request_answers c text later later order).records hroom hranked h
  | sweep now =>
    rw [gives?, Option.toList_none, List.append_nil]
    exact h.of_sublist List.filter_sublist (Nat.le_refl _)
  | clear =>
    rw [gives?, Option.toList_none, List.append_nil]
    exact h.of_sublist (List.nil_sublist _) (Nat.le_refl _)

theorem records_after (hroom : 0 < config.capacity) (hclock : AreClocked calls) :
    Records (given config calls) (after config calls) := by
  induction calls using List.reverseRecOn with
  | nil => exact ⟨nofun, nofun, nofun⟩
  | append_singleton calls x ih =>
    rw [given_concat, after_concat]
    exact (ih hclock.of_concat).call (by rwa [config_after]) (isRanked_after hroom calls)
      hclock.once_last

/-- Only a request gives a query. -/
theorem request_of_gives? (h : c.gives? x = some g) : ∃ later order,
    x = .request g.text g.time later order ∧
      ((request g.text g.time later order).run c).1 = .ok g.query := by
  cases x with
  | sweep | clear => cases h
  | request text now later order =>
    rw [gives?] at h
    split at h
    · rename_i query hresult
      cases h
      exact ⟨later, order, rfl, hresult⟩
    · cases h

theorem IsTrue.read_of_gives? (hc : c.IsTrue) (h : c.gives? x = some g) :
    read g.text = .ok g.query.value := by
  obtain ⟨later, order, rfl, hresult⟩ := request_of_gives? h
  have hvalue := (request_answers c g.text g.time later order).value_eq hc
  rw [hresult] at hvalue
  exact hvalue.symm

theorem read_of_mem_given (h : g ∈ given config calls) : read g.text = .ok g.query.value := by
  induction calls using List.reverseRecOn with
  | nil => cases h
  | append_singleton calls x ih =>
    rw [given_concat] at h
    obtain h | h := List.mem_append.mp h
    · exact ih h
    · exact (isTrue_after config calls).read_of_gives? (Option.mem_toList.mp h)

end Cql.Query.Cache
