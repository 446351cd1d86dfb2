import Cql.Proofs.Draft.Life
import Cql.Proofs.Draft.Operands
import Cql.Proofs.Session
import Cql.Proofs.Statement.Determined

/-!
Drafts on a workshop with an exact memo and empty buffers. How a draft begins, what its calls are
answered and what it comes to are determined by the draft and the calls.
-/

namespace Cql

open Step (Determined)

variable {catalog : Catalog} {es : List Entity} {style : Style} {d : Draft}

def Workshop.IsExact (catalog : Catalog) (es : List Entity) (w : Workshop) : Prop :=
  w.memo.IsExact catalog es ∧ w.pool.IsPlain

def Call.entities : Call → List Entity
  | .clause c => c.entities
  | _ => []

namespace Workshop

variable {α : Type} {Q : α → Prop}

theorem isExact_ofCatalog (config : TextPool.Config) :
    IsExact catalog es { memo := { catalog }, pool := { config } } :=
  ⟨Memo.isExact_ofCatalog, by simp [TextPool.IsPlain]⟩

theorem ensures_exact_onMemo {step : Step Memo α}
    (h : Step.Ensures (Memo.IsExact catalog es) step Q) :
    Step.Ensures (IsExact catalog es) (onMemo step) Q :=
  Session.ensures_onMemo (fun _ => Iff.rfl) h

theorem determined_onMemo {step : Step Memo α}
    (h : Determined (Memo.IsExact catalog es) step Q) :
    Determined (IsExact catalog es) (onMemo step) Q := by
  obtain ⟨a, ha, hstep⟩ := h
  exact ⟨a, ha, ensures_exact_onMemo hstep⟩

theorem ensures_exact_onPool {step : Step TextPool α}
    (h : Step.Ensures TextPool.IsPlain step Q) :
    Step.Ensures (IsExact catalog es) (onPool step) Q :=
  h.within (fun _ hw => hw.2) fun _ _ hp hw => ⟨hw.1, hp⟩

theorem describes_isExact (htold : AreTold es) (hcatalog : catalog ⊆ es) :
    Describes catalog es (Memo.IsExact catalog es) (IsExact catalog es) (· = "") where
  eligible _ he := Memo.ensures_exact_eligibleOf htold he
  columns e he casing := (Memo.ensures_exact_columnsOf htold hcatalog he casing).mono
    fun result hresult => (hresult.trans (Memo.leaves_columns casing e)).mono
      fun kept names ⟨entries, hentries, hnames⟩ => by rw [← hnames, ← hentries]; rfl
  onMemo h := ensures_exact_onMemo h
  acquire := ensures_exact_onPool TextPool.ensures_acquire

end Workshop

/-- A draft that may still be rendered is about some entities and writes to an empty text. -/
structure Draft.IsOf (es : List Entity) (d : Draft) : Prop where
  entities : d.fault = none → d.isClosed = false → d.statement.entities ⊆ es
  buffer : ∀ text ∈ d.buffer, text = ""

namespace Draft

theorem isOf_closed (d : Draft) : d.closed.IsOf es where
  entities _ hopen := by cases hopen
  buffer _ htext := by cases htext

theorem buffer_take (eligibleOf : Entity → Eligible) (d : Draft) (clause : Clause) :
    (d.take eligibleOf clause).buffer = d.buffer := by
  rw [take]
  split
  · rfl
  split
  · cases d.statement.add eligibleOf clause <;> rfl
  · rfl

theorem IsOf.take (eligibleOf : Entity → Eligible) (h : d.IsOf es) {clause : Clause}
    (hclause : clause.entities ⊆ es) : (d.take eligibleOf clause).IsOf es where
  entities hfault hopen := by
    obtain ⟨hnone, hgains⟩ := gains_take hfault
    rw [isClosed, buffer_take] at hopen
    have hentities := List.append_subset.mpr ⟨h.entities hnone hopen, hclause⟩
    exact List.Subset.trans hgains.entities hentities
  buffer := by
    rw [buffer_take]
    exact h.buffer

theorem determined_apply (htold : AreTold es) (h : d.IsOf es) {clause : Clause}
    (hclause : clause.entities ⊆ es) :
    Determined (Memo.IsExact catalog es) (d.apply clause) (IsOf es) := by
  by_cases hclosed : d.isClosed
  · have happly : d.apply clause = pure d := if_pos (.inr hclosed)
    rw [happly]
    exact .pure h
  · exact .of_ensures (h.take _ hclause) (ensures_take
      (fun _ he => Memo.ensures_exact_eligibleOf htold he) (by simpa using hclosed) hclause)

theorem determined_rendering (htold : AreTold es) (hcatalog : catalog ⊆ es)
    (h : d.fault = none → d.statement.entities ⊆ es) (buffer : String) :
    IsDetermined catalog es (d.rendering buffer) := by
  have haccepted : Yields d.accepted fun s => s.entities ⊆ es := by
    rw [accepted]
    cases hfault : d.fault with
    | some e => exact .error
    | none => exact .ok (h hfault)
  refine (Resolving.Determined.except haccepted).bind fun s hs => ?_
  refine Determined.bind (Statement.isDetermined_pieces htold hcatalog hs) fun result _ => ?_
  cases result with
  | error e => exact .pure fun _ _ => trivial
  | ok ps => exact .after Step.Ensures.note (.pure fun _ _ => trivial)

theorem determined_answer (htold : AreTold es) (hcatalog : catalog ⊆ es) (h : d.IsOf es) {c : Call}
    (hc : c.entities ⊆ es) :
    Determined (Workshop.IsExact catalog es) (d.answer c) fun r => r.2.IsOf es := by
  cases c with
  | clause clause =>
    exact (Workshop.determined_onMemo (determined_apply htold h hc)).bind fun _ he => .pure he
  | render | text | json =>
    cases hbuffer : d.buffer with
    | none =>
      simp only [answer, render, hbuffer]
      exact .pure h
    | some buffer =>
      have hopen : d.isClosed = false := by rw [isClosed, hbuffer]; rfl
      have hrendering := determined_rendering htold hcatalog (fun hfault => h.entities hfault hopen)
        buffer
      rw [answer_terminal hbuffer rfl]
      refine (Workshop.determined_onMemo hrendering).bind fun result _ => ?_
      exact .after (Workshop.ensures_exact_onPool (TextPool.ensures_release buffer))
        (.pure (isOf_closed d))
  | isClosed | operation | style => exact .pure h

/-- Calls are answered the same on all such workshops, and leave the same draft. -/
theorem determined_replies (htold : AreTold es) (hcatalog : catalog ⊆ es) {calls : List Call}
    (h : d.IsOf es) (hcalls : ∀ c ∈ calls, c.entities ⊆ es) :
    Determined (Workshop.IsExact catalog es) (d.replies calls) fun r => r.2.IsOf es := by
  induction calls generalizing d with
  | nil => exact .pure h
  | cons c calls ih =>
    refine (determined_answer htold hcatalog h (hcalls c (by simp))).bind fun r hr => ?_
    exact (ih hr fun c hc => hcalls c (by simp [hc])).bind fun _ hothers => .pure hothers

end Draft

theorem Origin.determined_begin (htold : AreTold es) (hcatalog : catalog ⊆ es) (style : Style)
    {origin : Origin} (h : origin.entities ⊆ es) :
    Determined (Workshop.IsExact catalog es) (origin.begin style) (Draft.IsOf es) := by
  have hdescribes := Workshop.describes_isExact htold hcatalog
  have hopened : Step.Ensures (Workshop.IsExact catalog es) (origin.begin style)
      (· = (origin.opened Eligible.ofEntity (Entity.leaves catalog)).within style "") :=
    (origin.ensures_opened hdescribes style h).mono fun d ⟨_, hbuffer, hd⟩ => hbuffer ▸ hd
  refine .of_ensures ⟨fun hfault _ => ?_, fun text htext => ?_⟩ hopened
  · exact List.Subset.trans (origin.begins_opened hfault).entities h
  · exact (Option.some.inj htext).symm

end Cql
