import Cql.Proofs.Draft.Determined

/-!
Drafts of a session and what was asked of the session before. What is kept and recycled between
drafts has no part in the answers to the calls of a draft: they are those that its origin and its own
calls get by themselves.
-/

namespace Cql

/-- The answers to the calls of a draft that an origin begins, and the draft after them. -/
def Origin.replies (origin : Origin) (style : Style) (calls : List Call) :
    Step Workshop (List Call.Answer × Draft) := do
  let d ← origin.begin style
  d.replies calls

theorem Origin.replies_concat (origin : Origin) (style : Style) (calls : List Call) (c : Call) :
    origin.replies style (calls ++ [c]) = do
      let (answers, d) ← origin.replies style calls
      let (a, d) ← d.answer c
      return (answers ++ [a], d) := by
  simp [replies, Draft.replies_append, Draft.replies]

theorem Workshop.script_concat (style : Style) (origin : Origin) (calls : List Call) (c : Call) :
    script style origin (calls ++ [c]) = do
      let (answers, d) ← origin.replies style calls
      let (a, d) ← d.answer c
      d.drop
      return answers ++ [a] := by
  simp [script, Draft.script_eq, Origin.replies, Draft.replies_append, Draft.replies]

namespace Session

variable {catalog : Catalog} {es : List Entity} {style : Style} {origin : Origin} {slot : String}
  {calls : List Call} {s : Session}

/-- The session after some requests. -/
def after (s : Session) (requests : List Request) : Session :=
  requests.foldl (fun s r => ((answer r).run s).2.1) s

def Request.entities : Request → List Entity
  | .create _ origin => origin.entities
  | .call _ c => c.entities
  | .memo r => r.entities
  | .drop _ | .setStyle _ | .renewMemo | .read _ | .cache => []

/-- The call that a request makes of the draft in a slot. -/
def Request.callOf? (slot : String) : Request → Option Call
  | .call other c => if other = slot then some c else none
  | _ => none

theorem Request.eq_of_callOf? {r : Request} {c : Call} (h : r.callOf? slot = some c) :
    r = .call slot c := by
  cases r with
  | call other own =>
    by_cases hother : other = slot
    · obtain rfl : own = c := by simpa [callOf?, hother] using h
      rw [hother]
    · simp [callOf?, hother] at h
  | create | drop | setStyle | renewMemo | memo | read | cache => cases h

/-- The request takes the draft out of a slot. -/
def Request.ends (slot : String) : Request → Bool
  | .create other _ | .drop other => other = slot
  | _ => false

/-- Memos, buffers and drafts that do not depend on the history of the session. -/
abbrev IsExact (catalog : Catalog) (es : List Entity) : Session → Prop :=
  Holds (Memo.IsExact catalog es) TextPool.IsPlain (Draft.IsOf es)

theorem Request.keeps_exact (htold : AreTold es) (hcatalog : catalog ⊆ es) {r : Request}
    (h : r.entities ⊆ es) :
    r.Keeps (Memo.IsExact catalog es) (Workshop.IsExact catalog es) (Draft.IsOf es) := by
  cases r with
  | create slot origin =>
    exact fun style => (origin.determined_begin htold hcatalog style h).ensures
  | call slot c => exact fun d hd => (Draft.determined_answer htold hcatalog hd h).ensures
  | memo r =>
    refine Memo.ensures_answer (fun e he casing => ?_) (fun e he => ?_) (fun e he => ?_)
      fun _ m hm => hm.clear
    · exact (Memo.ensures_exact_columnsOf htold hcatalog (h he) casing).mono fun _ _ _ _ => trivial
    · exact (Memo.ensures_exact_tablesOf htold (h he)).mono fun _ _ => trivial
    · exact (Memo.ensures_exact_eligibleOf htold (h he)).mono fun _ _ => trivial
  | drop | setStyle | renewMemo | read | cache => trivial

theorem ensures_exact_answer (htold : AreTold es) (hcatalog : catalog ⊆ es) {r : Request}
    (h : r.entities ⊆ es) : Step.Ensures (IsExact catalog es) (answer r) fun _ => True :=
  ensures_answer (fun _ => Iff.rfl) TextPool.ensures_release (r.keeps_exact htold hcatalog h)

theorem isExact_after (htold : AreTold es) (hcatalog : catalog ⊆ es) (hs : s.IsExact catalog es)
    {requests : List Request} (h : ∀ r ∈ requests, r.entities ⊆ es) :
    (s.after requests).IsExact catalog es := by
  induction requests generalizing s with
  | nil => exact hs
  | cons r requests ih =>
    have hr := ensures_exact_answer htold hcatalog (h r (by simp)) ⟨s, []⟩ hs
    exact ih hr.1 fun r hr => h r (by simp [hr])

/-- A draft that a request is not about stays in its slot. -/
theorem ensures_slot {held? : Option Held} {r : Request} (hcall : r.callOf? slot = none)
    (hends : r.ends slot = false) :
    Step.Ensures (fun s : Session => s.slots.get? slot = held?) (answer r) fun _ => True := by
  have hworkshop : ∀ {α : Type} (home : Nat) (step : Step Workshop α),
      Step.Ensures (fun s : Session => s.slots.get? slot = held?) (onWorkshop home step)
        fun _ => True :=
    fun _ _ => Step.ensures_any.within (fun _ _ => trivial) fun _ _ _ hs => hs
  have hdrop : ∀ other, other ≠ slot →
      Step.Ensures (fun s : Session => s.slots.get? slot = held?) (dropSlot other)
        fun _ => True := by
    intro other hother
    refine Step.Ensures.current.bind fun s hs => ?_
    split
    · exact .pure trivial
    · have herase : Step.Ensures (fun s : Session => s.slots.get? slot = held?)
          (Step.update fun t => { t with slots := t.slots.erase other }) fun _ => True :=
        Step.Ensures.update fun t ht => (Slots.get?_erase_of_ne hother).trans ht
      exact herase.bind fun _ _ => (hworkshop _ _).bind fun _ _ => .pure trivial
  have hput : ∀ other held, other ≠ slot →
      Step.Ensures (fun s : Session => s.slots.get? slot = held?)
        (Step.update fun t => { t with slots := t.slots.put other held }) fun _ => True :=
    fun other held hother =>
      Step.Ensures.update fun t ht => (Slots.get?_put_of_ne hother).trans ht
  cases r with
  | create other origin =>
    have hother : other ≠ slot := by simpa [Request.ends] using hends
    have hcreate : Step.Ensures (fun s : Session => s.slots.get? slot = held?)
        (create other origin) fun _ => True := by
      refine Step.Ensures.current.bind fun s hs => (hworkshop _ _).bind fun d _ => ?_
      exact (hdrop other hother).bind fun _ _ => (hput other _ hother).bind fun _ _ => .pure trivial
    exact hcreate.bind fun _ _ => .pure trivial
  | call other c =>
    have hother : other ≠ slot := by simpa [Request.callOf?] using hcall
    refine Step.Ensures.current.bind fun s hs => ?_
    split
    · exact .pure trivial
    · exact (hworkshop _ _).bind fun r _ => (hput other _ hother).bind fun _ _ => .pure trivial
  | drop other =>
    have hother : other ≠ slot := by simpa [Request.ends] using hends
    exact (hdrop other hother).bind fun _ _ => .pure trivial
  | setStyle | renewMemo =>
    refine (Step.Ensures.update ?_).bind fun _ _ => .pure trivial
    exact fun _ hs => hs
  | memo r =>
    exact Step.Ensures.current.bind fun s _ => (hworkshop _ _).bind fun _ _ => .pure trivial
  | read text =>
    have hclient : Step.Ensures (fun s : Session => s.slots.get? slot = held?)
        (onClient (Query.Client.read text)) fun _ => True :=
      Step.ensures_any.within (fun _ _ => trivial) fun _ _ _ hs => hs
    exact hclient.bind fun _ _ => .pure trivial
  | cache => exact Step.Ensures.current.bind fun _ _ => .pure trivial

/-- A call of the draft in a slot. -/
theorem run_call {held : Held} (hslot : s.slots.get? slot = some held) (c : Call) :
    let r := held.draft.answer c ⟨⟨s.memoAt held.home, s.pool⟩, []⟩
    ((answer (.call slot c)).run s).1 = .call r.1.1 ∧
      ((answer (.call slot c)).run s).2.1.slots.get? slot =
        some { held with draft := r.1.2 } := by
  intro r
  have hcall : (answer (.call slot c)).run s = Step.run (do
      let (a, draft) ← onWorkshop held.home (held.draft.answer c)
      Step.update fun t => { t with slots := t.slots.put slot { held with draft } }
      return Answer.call a) s := by
    rw [Step.run, answer, call, Step.current_bind, hslot]
    rfl
  rw [hcall]
  exact ⟨rfl, Slots.get?_put_self⟩

/-- A new draft in a slot. -/
theorem run_create (s : Session) (slot : String) (origin : Origin) :
    ((answer (.create slot origin)).run s).2.1.slots.get? slot =
      some ⟨(origin.begin s.style ⟨⟨s.memoAt s.home, s.pool⟩, []⟩).1, s.home⟩ :=
  Slots.get?_put_self

/-- The draft in a slot is what an origin and some calls make of any workshop without a history. -/
def Tells (catalog : Catalog) (es : List Entity) (slot : String) (style : Style) (origin : Origin)
    (calls : List Call) (s : Session) : Prop :=
  ∃ held, s.slots.get? slot = some held ∧
    Step.Ensures (Workshop.IsExact catalog es) (origin.replies style calls) (·.2 = held.draft)

theorem IsExact.workshop (h : s.IsExact catalog es) (home : Nat) :
    Workshop.IsExact catalog es ⟨s.memoAt home, s.pool⟩ := ⟨h.memoAt home, h.pool⟩

theorem tells_create (htold : AreTold es) (hcatalog : catalog ⊆ es) (hs : s.IsExact catalog es)
    (slot : String) {origin : Origin} (h : origin.entities ⊆ es) :
    (s.after [.create slot origin]).Tells catalog es slot s.style origin [] := by
  refine ⟨_, run_create s slot origin, ?_⟩
  have hbegin := (origin.determined_begin htold hcatalog s.style h).ensures_eq
    (s := ⟨⟨s.memoAt s.home, s.pool⟩, []⟩) (hs.workshop s.home)
  exact hbegin.bind fun d hd => .pure hd

/-- A call of the draft is added to what the slot tells; other requests add nothing to it. -/
theorem Tells.answer (htold : AreTold es) (hcatalog : catalog ⊆ es) (hs : s.IsExact catalog es)
    (htells : s.Tells catalog es slot style origin calls) {r : Request} (h : r.entities ⊆ es)
    (hends : r.ends slot = false) :
    ((Session.answer r).run s).2.1.Tells catalog es slot style origin
      (calls ++ (r.callOf? slot).toList) := by
  obtain ⟨held, hslot, hreplies⟩ := htells
  cases hcall : r.callOf? slot with
  | none =>
    rw [Option.toList_none, List.append_nil]
    exact ⟨held, ((ensures_slot hcall hends) ⟨s, []⟩ hslot).1, hreplies⟩
  | some c =>
    obtain rfl := Request.eq_of_callOf? hcall
    refine ⟨_, (run_call hslot c).2, ?_⟩
    have hheld : held.draft.IsOf es := hs.drafts _ (mem_of_lookup hslot)
    have hanswer := (held.draft.determined_answer htold hcatalog hheld h).ensures_eq
      (s := ⟨⟨s.memoAt held.home, s.pool⟩, []⟩) (hs.workshop held.home)
    rw [Option.toList_some, Origin.replies_concat]
    refine hreplies.bind ?_
    rintro ⟨answers, d⟩ hd
    obtain rfl : d = held.draft := hd
    exact hanswer.bind fun r hr => .pure (congrArg Prod.snd hr)

theorem tells_after (htold : AreTold es) (hcatalog : catalog ⊆ es) (hs : s.IsExact catalog es)
    (htells : s.Tells catalog es slot style origin calls) {requests : List Request}
    (h : ∀ r ∈ requests, r.entities ⊆ es) (hends : ∀ r ∈ requests, r.ends slot = false) :
    (s.after requests).Tells catalog es slot style origin
      (calls ++ requests.filterMap (Request.callOf? slot)) := by
  induction requests generalizing s calls with
  | nil => rwa [List.filterMap_nil, List.append_nil]
  | cons r requests ih =>
    have hr : r.entities ⊆ es := h r (by simp)
    have hnext := htells.answer htold hcatalog hs hr (hends r (by simp))
    have hexact := (ensures_exact_answer htold hcatalog hr ⟨s, []⟩ hs).1
    have hothers := ih hexact hnext (fun r hr => h r (by simp [hr]))
      fun r hr => hends r (by simp [hr])
    have hcalls : (r :: requests).filterMap (Request.callOf? slot) =
        (r.callOf? slot).toList ++ requests.filterMap (Request.callOf? slot) := by
      rw [List.filterMap_cons]
      cases r.callOf? slot <;> rfl
    rwa [List.append_assoc, ← hcalls] at hothers

/-- A call of the draft that an origin began in a slot is answered as it is where nothing else was
done: in a workshop without a history, where the origin begins the draft in the same style and the
same calls are made of it. All texts that drafts write to, or will, are empty. -/
theorem answer_call_eq_script (htold : AreTold es) (hcatalog : catalog ⊆ es) (style : Style)
    (pool config : TextPool.Config) (cache : Query.Cache.Config) {before after : List Request}
    {c : Call} (hbefore : ∀ r ∈ before, r.entities ⊆ es) (horigin : origin.entities ⊆ es)
    (hafter : ∀ r ∈ after, r.entities ⊆ es) (hc : c.entities ⊆ es)
    (hends : ∀ r ∈ after, r.ends slot = false) :
    let s := (ofCatalog style catalog pool cache).after before
    let t := (s.after [.create slot origin]).after after
    let calls := after.filterMap (Request.callOf? slot)
    (∃ a, ((answer (.call slot c)).run t).1 = .call a ∧
      ((Workshop.script s.style origin (calls ++ [c])).run
        { memo := { catalog }, pool := { config } }).1.getLast? = some a) ∧
      (∀ text ∈ t.pool.free, text = "") ∧
      ∀ held ∈ t.slots, ∀ text ∈ held.2.draft.buffer, text = "" := by
  intro s t calls
  have hblank : (ofCatalog style catalog pool cache).IsExact catalog es :=
    holds_ofCatalog Memo.isExact_ofCatalog (by simp [TextPool.IsPlain]) style cache
  have hs : s.IsExact catalog es := isExact_after htold hcatalog hblank hbefore
  have hcreated : (s.after [.create slot origin]).IsExact catalog es :=
    isExact_after htold hcatalog hs (by simpa [Request.entities] using horigin)
  have ht : t.IsExact catalog es := isExact_after htold hcatalog hcreated hafter
  obtain ⟨held, hslot, hreplies⟩ := tells_after htold hcatalog hcreated
    (tells_create htold hcatalog hs slot horigin) hafter hends
  refine ⟨⟨_, (run_call hslot c).1, ?_⟩, ht.pool, fun held hheld => (ht.drafts held hheld).buffer⟩
  have hheld : held.draft.IsOf es := ht.drafts _ (mem_of_lookup hslot)
  have hanswer := (held.draft.determined_answer htold hcatalog hheld hc).ensures_eq
    (s := ⟨⟨t.memoAt held.home, t.pool⟩, []⟩) (ht.workshop held.home)
  have hscript : Step.Ensures (Workshop.IsExact catalog es)
      (Workshop.script s.style origin (calls ++ [c])) fun answers =>
        answers.getLast? = some (held.draft.answer c ⟨⟨t.memoAt held.home, t.pool⟩, []⟩).1.1 := by
    rw [Workshop.script_concat]
    refine hreplies.bind ?_
    rintro ⟨answers, d⟩ hd
    obtain rfl : d = held.draft := hd
    refine hanswer.bind ?_
    rintro ⟨a, e⟩ ha
    have hdrop : Step.Ensures (Workshop.IsExact catalog es) e.drop fun _ => True :=
      ensures_drop (fun _ => Iff.rfl) TextPool.ensures_release e
    refine hdrop.bind fun _ _ => .pure ?_
    rw [List.getLast?_concat, ← ha]
  exact (hscript ⟨_, []⟩ (Workshop.isExact_ofCatalog config)).2

/-- An account is selected while an INSERT without a table is under way, after the columns of
accounts were kept in another style and cleared. -/
theorem answer_call_eq_script_interleaved :
    let owner : Entity :=
      { typeName := "Owner", name := "Owner", fields := [{ name := "ownerName" }] }
    let account : Entity :=
      { typeName := "Account", name := "Account"
        fields := [{ name := "accountId", isKey := true }, { name := "owner", nested := some 0 }] }
    let before := [.create "first" (.selectNested account []), .call "first" .text, .memo .clear,
      .create "first" (.insert ["visits"]), .setStyle ⟨.lowerCamel, .named⟩]
    let after := [.call "second" (.clause (.filterKeys [.int 7])), .call "first" .text,
      .memo (.columns account .upperUnderscore)]
    let s := (ofCatalog {} [owner] {} {}).after before
    let t := (s.after [.create "second" (.selectNested account [])]).after after
    ∃ a, ((answer (.call "second" .text)).run t).1 = .call a ∧
      ((Workshop.script s.style (.selectNested account [])
        [.clause (.filterKeys [.int 7]), .text]).run
          { memo := { catalog := [owner] } }).1.getLast? = some a := by
  intro owner account before after
  have htold : AreTold [owner, account] := by decide
  have hbefore : ∀ r ∈ before, r.entities ⊆ [owner, account] := by decide
  have hafter : ∀ r ∈ after, r.entities ⊆ [owner, account] := by decide
  have hends : ∀ r ∈ after, r.ends "second" = false := by decide
  exact (answer_call_eq_script htold (by decide) {} {} {} {} hbefore (by decide) hafter (by decide)
    hends).1

end Session

end Cql
