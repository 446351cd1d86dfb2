import Cql.Proofs.Draft.Plain
import Cql.Proofs.Mapping.History
import Cql.Proofs.Statement.Legible
import Cql.Session

/-!
Sessions that are asked plain questions. From the first request on their memos and their drafts are
plain and the buffers in their pool are empty, in whatever order drafts are begun, changed, rendered
and dropped. So every draft of such a session works on a plain workshop.
-/

namespace Cql

variable {known : Entity → Prop} {admits : Value → Prop}

theorem TextPool.ensures_release (text : String) :
    Step.Ensures IsPlain (release text) fun _ => True := by
  refine Step.Ensures.current.bind fun pool hpool => ?_
  split
  · exact Step.Ensures.put (by simpa [IsPlain] using hpool)
  · refine (Step.Ensures.put ?_).bind fun _ _ => Step.Ensures.note
    exact hpool

def Call.IsPlain (known : Entity → Prop) (admits : Value → Prop) : Call → Prop
  | .clause c => c.IsPlain known admits
  | _ => True

namespace Draft

variable {d : Draft}

theorem ensures_write {style : Style} (hfits : style.binding.Fits admits) {s : Statement}
    (h : s.IsPlain known admits) (buffer : String) :
    Step.Ensures (Memo.IsPlain known) (write style s buffer) fun _ => True := by
  refine Step.Ensures.bind (Statement.ensures_legible hfits h) fun result _ => ?_
  cases result with
  | error e => exact .pure trivial
  | ok ps => exact Step.Ensures.note.bind fun _ _ => .pure trivial

theorem ensures_drop (d : Draft) :
    Step.Ensures (Workshop.IsPlain known) d.drop fun _ => True := by
  rw [drop]
  split
  · exact .pure trivial
  · exact Workshop.ensures_onPool (TextPool.ensures_release _)

theorem IsPlain.ensures_render (hfits : ∀ b : Binding, b.Fits admits)
    (h : d.IsPlain known admits) :
    Step.Ensures (Workshop.IsPlain known) d.render fun r => r.2.IsPlain known admits := by
  have hrelease : ∀ (buffer : String) (result : Except Error Rendered),
      Step.Ensures (Workshop.IsPlain known) (do
        Workshop.onPool (TextPool.release buffer)
        return (result, { d with buffer := none, fault := none }))
        fun r => r.2.IsPlain known admits := fun buffer result =>
    (Workshop.ensures_onPool (TextPool.ensures_release buffer)).bind fun _ _ =>
      .pure ⟨h.statement, by simp⟩
  rw [render]
  split
  · exact .pure h
  · rename_i buffer _
    cases d.fault with
    | some e =>
      exact (Step.Ensures.pure (Q := fun _ => True) trivial).bind fun _ _ => hrelease _ _
    | none =>
      exact (Workshop.ensures_onMemo (ensures_write (hfits _) h.statement buffer)).bind
        fun _ _ => hrelease _ _

theorem IsPlain.ensures_answer (hfits : ∀ b : Binding, b.Fits admits) (h : d.IsPlain known admits)
    {c : Call} (hc : c.IsPlain known admits) :
    Step.Ensures (Workshop.IsPlain known) (d.answer c) fun r => r.2.IsPlain known admits := by
  cases c with
  | clause c =>
    exact (Workshop.ensures_onMemo (h.ensures_apply hc)).bind fun d hd => .pure hd
  | render | text | json => exact (h.ensures_render hfits).bind fun r hr => .pure hr
  | isClosed | operation | style => exact .pure h

end Draft

namespace Session

variable {α : Type} {I : Memo → Prop} {P : TextPool → Prop} {J : Workshop → Prop} {D : Draft → Prop}
  {Q : α → Prop}

/-- A session whose memos, pool and drafts have invariants of their own, and a new memo too. -/
structure Holds (I : Memo → Prop) (P : TextPool → Prop) (D : Draft → Prop) (s : Session) :
    Prop where
  blank : I { catalog := s.catalog }
  pool : P s.pool
  memos : ∀ m ∈ s.memos, I m
  drafts : ∀ slot ∈ s.slots, D slot.2.draft

/-- What the request asks of a draft or of a memo keeps the invariants. -/
def Request.Keeps (I : Memo → Prop) (J : Workshop → Prop) (D : Draft → Prop) : Request → Prop
  | .create _ origin => ∀ style, Step.Ensures J (origin.begin style) D
  | .call _ c => ∀ d, D d → Step.Ensures J (d.answer c) fun r => D r.2
  | .memo r => Resolving.Ensures I (Memo.answer r) fun _ => True
  | .drop _ | .setStyle _ | .renewMemo | .read _ | .cache => True

theorem holds_ofCatalog {catalog : Catalog} {pool : TextPool.Config} (hblank : I { catalog })
    (hpool : P { config := pool }) (style : Style) (cache : Query.Cache.Config) :
    (ofCatalog style catalog pool cache).Holds I P D where
  blank := hblank
  pool := hpool
  memos := by simpa [ofCatalog] using hblank
  drafts := by simp [ofCatalog]

namespace Holds

variable {s : Session}

theorem memoAt (h : s.Holds I P D) (home : Nat) : I (s.memoAt home) := by
  show I (s.memos.getD home _)
  rw [List.getD_eq_getElem?_getD]
  cases hm : s.memos[home]? with
  | none => exact h.blank
  | some m => exact h.memos m (List.mem_of_getElem? hm)

theorem erase (h : s.Holds I P D) (slot : String) :
    ({ s with slots := s.slots.erase slot } : Session).Holds I P D :=
  { h with drafts := fun held hheld => h.drafts held (List.mem_of_mem_filter hheld) }

theorem put (h : s.Holds I P D) (slot : String) {held : Held} (hheld : D held.draft) :
    ({ s with slots := s.slots.put slot held } : Session).Holds I P D := by
  refine { h with drafts := fun other hother => ?_ }
  obtain rfl | hother := List.mem_cons.mp hother
  · exact hheld
  · exact (h.erase slot).drafts other hother

end Holds

section

variable (hJ : ∀ w, J w ↔ I w.memo ∧ P w.pool)

include hJ

theorem ensures_onWorkshop (home : Nat) {step : Step Workshop α} (h : Step.Ensures J step Q) :
    Step.Ensures (Holds I P D) (onWorkshop home step) Q := by
  refine h.within (fun s hs => (hJ _).mpr ⟨hs.memoAt home, hs.pool⟩) fun w s hw hs => ?_
  obtain ⟨hmemo, hpool⟩ := (hJ w).mp hw
  refine ⟨hs.blank, hpool, fun m hm => ?_, hs.drafts⟩
  obtain hm | rfl := List.mem_or_eq_of_mem_set hm
  · exact hs.memos m hm
  · exact hmemo

theorem ensures_onMemo {step : Step Memo α} (h : Step.Ensures I step Q) :
    Step.Ensures J (Workshop.onMemo step) Q := by
  refine h.within (fun w hw => ((hJ w).mp hw).1) fun m w hm hw => ?_
  exact (hJ _).mpr ⟨hm, ((hJ w).mp hw).2⟩

theorem ensures_drop (hrelease : ∀ text, Step.Ensures P (TextPool.release text) fun _ => True)
    (d : Draft) : Step.Ensures J d.drop fun _ => True := by
  rw [Draft.drop]
  split
  · exact .pure trivial
  · refine (hrelease _).within (fun w hw => ((hJ w).mp hw).2) fun p w hp hw => ?_
    exact (hJ _).mpr ⟨((hJ w).mp hw).1, hp⟩

end

theorem ensures_onClient (step : Step Query.Client α) :
    Step.Ensures (Holds I P D) (onClient step) fun _ => True :=
  Step.ensures_any.within (fun _ _ => trivial) fun _ _ _ hs =>
    ⟨hs.blank, hs.pool, hs.memos, hs.drafts⟩

theorem ensures_dropSlot (hJ : ∀ w, J w ↔ I w.memo ∧ P w.pool)
    (hrelease : ∀ text, Step.Ensures P (TextPool.release text) fun _ => True) (slot : String) :
    Step.Ensures (Holds I P D) (dropSlot slot) fun _ => True := by
  refine Step.Ensures.current.bind fun s hs => ?_
  split
  · exact .pure trivial
  · refine (Step.Ensures.update fun t ht => ht.erase slot).bind fun _ _ => ?_
    exact (ensures_onWorkshop hJ _ (ensures_drop hJ hrelease _)).bind fun _ _ => .pure trivial

/-- A request that keeps the invariants of its parts keeps those of the session. -/
theorem ensures_answer (hJ : ∀ w, J w ↔ I w.memo ∧ P w.pool)
    (hrelease : ∀ text, Step.Ensures P (TextPool.release text) fun _ => True) {r : Request}
    (h : r.Keeps I J D) : Step.Ensures (Holds I P D) (answer r) fun _ => True := by
  cases r with
  | create slot origin =>
    have hcreate : Step.Ensures (Holds I P D) (create slot origin) fun _ => True := by
      refine Step.Ensures.current.bind fun s hs => ?_
      refine (ensures_onWorkshop hJ s.home (h s.style)).bind fun d hd => ?_
      refine (ensures_dropSlot hJ hrelease slot).bind fun _ _ => ?_
      exact (Step.Ensures.update fun t ht => ht.put slot hd).bind fun _ _ => .pure trivial
    exact hcreate.bind fun _ _ => .pure trivial
  | call slot c =>
    refine Step.Ensures.current.bind fun s hs => ?_
    split
    · exact .pure trivial
    · rename_i held hslot
      have hdraft := hs.drafts _ (mem_of_lookup hslot)
      refine (ensures_onWorkshop hJ held.home (h held.draft hdraft)).bind fun r hr => ?_
      exact (Step.Ensures.update fun t ht => ht.put slot hr).bind fun _ _ => .pure trivial
  | drop slot => exact (ensures_dropSlot hJ hrelease slot).bind fun _ _ => .pure trivial
  | setStyle style =>
    refine (Step.Ensures.update fun s hs => ?_).bind fun _ _ => .pure trivial
    exact ⟨hs.blank, hs.pool, hs.memos, hs.drafts⟩
  | renewMemo =>
    refine (Step.Ensures.update fun s hs => ?_).bind fun _ _ => .pure trivial
    refine { hs with memos := fun m hm => ?_ }
    obtain hm | hm := List.mem_append.mp hm
    · exact hs.memos m hm
    · obtain rfl : m = { catalog := s.catalog } := by simpa using hm
      exact hs.blank
  | memo r =>
    refine Step.Ensures.current.bind fun s hs => ?_
    have hmemo : Resolving.Ensures I (Memo.answer r) fun _ => True := h
    exact (ensures_onWorkshop hJ s.home (ensures_onMemo hJ hmemo)).bind fun _ _ => .pure trivial
  | read text => exact (ensures_onClient _).bind fun _ _ => .pure trivial
  | cache => exact Step.Ensures.current.bind fun _ _ => .pure trivial

abbrev IsPlain (known : Entity → Prop) (admits : Value → Prop) : Session → Prop :=
  Holds (Memo.IsPlain known) TextPool.IsPlain (Draft.IsPlain known admits)

def Request.IsPlain (known : Entity → Prop) (admits : Value → Prop) : Request → Prop
  | .create _ origin => origin.IsPlain known admits
  | .call _ c => c.IsPlain known admits
  | .memo r => ∀ e ∈ r.entities, known e
  | .drop _ | .setStyle _ | .renewMemo | .read _ | .cache => True

theorem workshop_isPlain_iff (w : Workshop) :
    w.IsPlain known ↔ w.memo.IsPlain known ∧ w.pool.IsPlain :=
  ⟨fun h => ⟨h.memo, h.pool⟩, fun h => ⟨h.1, h.2⟩⟩

/-- A plain request leaves a plain session plain. -/
theorem Request.IsPlain.keeps (hfits : ∀ b : Binding, b.Fits admits) {r : Request}
    (h : r.IsPlain known admits) :
    r.Keeps (Memo.IsPlain known) (Workshop.IsPlain known) (Draft.IsPlain known admits) := by
  cases r with
  | create slot origin => exact fun style => origin.ensures_begin style h
  | call slot c => exact fun d hd => hd.ensures_answer hfits h
  | memo r =>
    refine Memo.ensures_answer (fun e he casing => ?_) (fun e he => ?_) (fun e he => ?_)
      fun _ m hm => ?_
    · exact (Memo.ensures_columnsOf (h e he) casing).mono fun _ _ => trivial
    · exact (Memo.ensures_tablesOf (h e he)).mono fun _ _ => trivial
    · exact (Memo.ensures_eligibleOf (h e he)).mono fun _ _ => trivial
    · exact ⟨hm.catalog, by simp [Memo.clear], by simp [Memo.clear], by simp [Memo.clear]⟩
  | drop | setStyle | renewMemo | read | cache => trivial

/-- Every workshop of a session is plain after any plain requests. -/
theorem isPlain_workshop_of_requests (hfits : ∀ b : Binding, b.Fits admits) {catalog : Catalog}
    (hcatalog : catalog.Covers known) {requests : List Request}
    (hrequests : ∀ r ∈ requests, r.IsPlain known admits) (style : Style) (pool : TextPool.Config)
    (cache : Query.Cache.Config) (home : Nat) :
    let s := ((requests.mapM answer).run (ofCatalog style catalog pool cache)).2.1
    Workshop.IsPlain known { memo := s.memoAt home, pool := s.pool } := by
  have hinitial : (ofCatalog style catalog pool cache).IsPlain known admits :=
    holds_ofCatalog (Memo.isPlain_of_catalog hcatalog) (by simp [TextPool.IsPlain]) style cache
  have hrun := Step.Ensures.mapM fun r hr =>
    ensures_answer workshop_isPlain_iff TextPool.ensures_release ((hrequests r hr).keeps hfits)
  have hafter := (hrun ⟨_, []⟩ hinitial).1
  exact ⟨hafter.memoAt home, hafter.pool⟩

end Session

end Cql
