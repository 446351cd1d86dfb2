import Cql.Proofs.Draft.Life
import Cql.Proofs.Draft.Operands
import Cql.Proofs.Program.Outcome
import Cql.Proofs.Statement.Slots

/-!
The order of the calls of a program. Clauses for different slots may be swapped, so that what counts
is, slot by slot, which clauses there are and in which order. Where slots hold one thing each, this
leaves nothing but the order of the assignments and that of the sort columns.
-/

namespace Cql

section Fold

variable {m : Type → Type} [Monad m] [LawfulMonad m] {α β κ : Type} {f : β → α → m β}
  {key : α → κ} {as as' : List α}

/-- An item goes to the front if the items before it have other keys. -/
theorem foldlM_append_cons {a : α}
    (hswap : ∀ b a a', key a ≠ key a' → (f b a >>= (f · a')) = (f b a' >>= (f · a)))
    (h : ∀ a' ∈ as, key a' ≠ key a) (b : β) :
    (as ++ a :: as').foldlM f b = (a :: (as ++ as')).foldlM f b := by
  induction as generalizing b with
  | nil => rfl
  | cons first as ih =>
    have hothers : ∀ a' ∈ as, key a' ≠ key a := fun a' ha' => h a' (by simp [ha'])
    calc (first :: as ++ a :: as').foldlM f b
        = f b first >>= fun b => (as ++ a :: as').foldlM f b := List.foldlM_cons
      _ = f b first >>= fun b => f b a >>= fun b => (as ++ as').foldlM f b := by
          simp only [ih hothers, List.foldlM_cons]
      _ = f b a >>= fun b => f b first >>= fun b => (as ++ as').foldlM f b := by
          rw [← bind_assoc, hswap b first a (h first (by simp)), bind_assoc]
      _ = (a :: (first :: as ++ as')).foldlM f b := by
          simp only [List.foldlM_cons, List.cons_append]

/-- If items with different keys can be swapped, only the order of the items of one key counts. -/
theorem foldlM_eq_of_filter_eq [DecidableEq κ]
    (hswap : ∀ b a a', key a ≠ key a' → (f b a >>= (f · a')) = (f b a' >>= (f · a)))
    (h : ∀ k, as.filter (key · = k) = as'.filter (key · = k)) (b : β) :
    as.foldlM f b = as'.foldlM f b := by
  induction as generalizing as' b with
  | nil =>
    have hnil : as' = [] := by
      refine List.eq_nil_iff_forall_not_mem.mpr fun a ha => ?_
      have hmem : a ∈ as'.filter (key · = key a) := List.mem_filter.mpr ⟨ha, by simp⟩
      rw [← h (key a)] at hmem
      cases hmem
    rw [hnil]
  | cons a as ih =>
    have hfirst : as'.filter (key · = key a) = a :: as.filter (key · = key a) := by
      rw [← h (key a), List.filter_cons_of_pos (by simp)]
    obtain ⟨front, rest, rfl, hfront, -, hrest⟩ := List.filter_eq_cons_iff.mp hfirst
    have hother : ∀ a' ∈ front, key a' ≠ key a := fun a' ha' => by simpa using hfront a' ha'
    have hsame : ∀ k, as.filter (key · = k) = (front ++ rest).filter (key · = k) := by
      intro k
      have hk := h k
      by_cases heq : key a = k
      · have hnone : front.filter (key · = k) = [] :=
          List.filter_eq_nil_iff.mpr fun a' ha' => by simpa [← heq] using hother a' ha'
        simpa [List.filter_append, List.filter_cons, heq, hnone] using hk
      · simpa [List.filter_append, List.filter_cons, heq] using hk
    rw [foldlM_append_cons hswap hother, List.foldlM_cons, List.foldlM_cons]
    exact bind_congr fun b => ih hsame b

end Fold

namespace Resolving

variable {α β : Type}

theorem run_step_bind (step : Step Memo α) (next : α → Resolving β) :
    (liftM step >>= next).run = step >>= fun a => (next a).run := rfl

theorem run_bind_apply (x : Resolving α) (next : α → Resolving β) (s : Logged Memo) :
    (x >>= next).run s = (liftM (x.run s).1 >>= next : Resolving β).run (x.run s).2 := rfl

end Resolving

open Clause (AreFor Reorders)

namespace Statement

variable {s : Statement} {clauses : List Clause} {clause : Clause}

/-- What is accepted is written; a filled slot is the one reason not to. -/
theorem accept_eq (hoperation : s.operation ∈ clause.kind.operations)
    (hreads : clause.readsEntity = false) : s.accept clause =
      if s.isTaken clause.slot then throw (.misuse clause.kind.refusal)
      else liftM (s.overwrite clause) := by
  have hadd : ∀ eligibleOf, s.add eligibleOf clause =
      if s.isTaken clause.slot then .error (.misuse clause.kind.refusal)
      else .ok ((clause.entry? eligibleOf).elim s s.enter) := by
    intro eligibleOf
    obtain ⟨x, hx⟩ := Clause.exists_entry hreads eligibleOf
    rw [s.add_eq hx, hx]
    rfl
  rw [accept, if_pos hoperation, addClause_eq]
  simp only [hadd]
  by_cases htaken : s.isTaken clause.slot
  · have hslot : clause.slot ≠ .assignments := by
      intro heq
      rw [heq] at htaken
      cases htaken
    simp only [htaken, if_true, Clause.eligible_of_slot hslot, pure_bind]
    rfl
  · simp only [htaken]
    rfl

/-- Clauses for slots that are free are all accepted. -/
theorem run_foldlM_accept (h : AreFor s.operation clauses)
    (hfree : ∀ c ∈ clauses, s.isTaken c.slot = false) :
    (clauses.foldlM accept s).run = .ok <$> clauses.foldlM overwrite s := by
  induction clauses generalizing s with
  | nil => rfl
  | cons clause clauses ih =>
    have haccept : s.accept clause = liftM (s.overwrite clause) := by
      rw [accept_eq (h.taken clause (by simp)) (h.unkeyed clause (by simp)), hfree clause (by simp)]
      rfl
    rw [List.foldlM_cons, List.foldlM_cons, haccept, Resolving.run_step_bind, map_bind]
    refine Step.bind_congr_of_ensures (isTaken_of_overwrite h) fun s' ⟨hoperation, hkeeps⟩ => ?_
    refine ih (hoperation ▸ h.of_cons) fun c hc => ?_
    rw [hkeeps c hc]
    exact hfree c (by simp [hc])

/-- Of clauses for slots that are filled, one is the mistake. -/
theorem refuses_foldlM_accept (h : AreFor s.operation clauses)
    (htaken : ∃ c ∈ clauses, s.isTaken c.slot) :
    Step.Ensures (fun _ => True) (clauses.foldlM accept s).run fun result =>
      ∃ c ∈ clauses, s.isTaken c.slot ∧ result = .error (.misuse c.kind.refusal) := by
  induction clauses generalizing s with
  | nil => simp at htaken
  | cons clause clauses ih =>
    rw [List.foldlM_cons, accept_eq (h.taken clause (by simp)) (h.unkeyed clause (by simp))]
    by_cases hfirst : s.isTaken clause.slot
    · rw [if_pos hfirst]
      exact .pure ⟨clause, by simp, hfirst, rfl⟩
    · rw [if_neg hfirst, Resolving.run_step_bind]
      refine (isTaken_of_overwrite h).bind fun s' ⟨hoperation, hkeeps⟩ => ?_
      obtain ⟨c, hc, hctaken⟩ := htaken
      have hmem : c ∈ clauses := by
        obtain rfl | hmem := List.mem_cons.mp hc
        · exact absurd hctaken hfirst
        · exact hmem
      refine (ih (hoperation ▸ h.of_cons) ⟨c, hmem, by rwa [hkeeps c hmem]⟩).mono ?_
      rintro result ⟨d, hd, hdtaken, hresult⟩
      exact ⟨d, by simp [hd], by rwa [← hkeeps d hd], hresult⟩

end Statement

/-- What every origin leaves to the clauses: the guard, the target of an INSERT, and the filter of a
draft that is no UPDATE. -/
structure Draft.IsBegun (op : Operation) (d : Draft) : Prop where
  operation : d.statement.operation = op
  isOpen : d.isClosed = false
  guard : d.statement.isTaken .guard = false
  target : op = .insert → d.statement.isTaken .target = false
  filter : d.statement.isTaken .filter → op = .update

/-- The one mistake of a clause for a slot that the origin has filled. -/
def Operation.refusal : Operation → Misuse
  | .update => .filterTaken
  | _ => .targetTaken .source

namespace Draft.IsBegun

variable {op : Operation} {d d' : Draft} {clause : Clause}

theorem refusal_eq (h : IsBegun op d) (hoperation : op ∈ clause.kind.operations)
    (htaken : d.statement.isTaken clause.slot) : clause.kind.refusal = op.refusal := by
  rw [Clause.slot] at htaken
  generalize clause.kind = kind at hoperation htaken ⊢
  cases kind with
  | into =>
    obtain rfl := List.mem_singleton.mp hoperation
    rw [ClauseKind.slot, h.target rfl] at htaken
    cases htaken
  | source =>
    have hoperation : op = .select ∨ op = .delete := by
      simpa [ClauseKind.operations] using hoperation
    obtain rfl | rfl := hoperation <;> rfl
  | filter =>
    rw [h.filter htaken]
    rfl
  | guard | ifExists =>
    rw [ClauseKind.slot, h.guard] at htaken
    cases htaken
  | assignment | order | limit | allowFiltering | lifetime | writeTime | ifNotExists => cases htaken

theorem fail (h : IsBegun op d) (e : Error) : IsBegun op (d.fail e) := { h with }

/-- An UPDATE stays so with clauses of its origin for other slots. -/
theorem takes (h : IsBegun .update d) (hslot : clause.slot ≠ .guard)
    (hreads : clause.readsEntity = false) (htakes : d.Takes clause d') : IsBegun .update d' := by
  cases htakes with
  | idle => exact h
  | misused => exact h.fail _
  | foreign => exact h.fail _
  | @added eligibleOf s _ _ _ hadd =>
    obtain ⟨x, hx⟩ := Clause.exists_entry hreads eligibleOf
    rw [d.statement.add_eq hx] at hadd
    split at hadd
    · cases hadd
    obtain rfl := Except.ok.inj hadd
    refine ⟨?_, h.isOpen, ?_, nofun, fun _ => rfl⟩
    · exact (Statement.operation_enter _ x).trans h.operation
    · refine (Statement.isTaken_enter ?_).trans h.guard
      rwa [Clause.slot_entry hx]

end Draft.IsBegun

/-- Reordered clauses are accepted with the same statement and the same memo, or refused with the
same mistake. -/
theorem Draft.IsBegun.acceptAll_reordered {α : Type} {op : Operation} {d : Draft}
    {clauses others : List Clause} (hd : IsBegun op d) (h : AreFor op clauses)
    (hothers : Reorders clauses others) (next : Statement → Resolving α) (t : Logged Memo) :
    ((d.acceptAll clauses >>= next).run t).1 = ((d.acceptAll others >>= next).run t).1 := by
  rw [acceptAll, acceptAll, accepted]
  cases d.fault with
  | some e => rfl
  | none =>
    change ((clauses.foldlM Statement.accept d.statement >>= next).run t).1 =
      ((others.foldlM Statement.accept d.statement >>= next).run t).1
    have hclauses : AreFor d.statement.operation clauses := hd.operation ▸ h
    by_cases hfree : ∀ c ∈ clauses, d.statement.isTaken c.slot = false
    · have hfree' : ∀ c ∈ others, d.statement.isTaken c.slot = false :=
        fun c hc => hfree c (hothers.perm.mem_iff.mpr hc)
      have hsame : clauses.foldlM Statement.overwrite d.statement =
          others.foldlM Statement.overwrite d.statement :=
        foldlM_eq_of_filter_eq (fun s _ _ hslot => s.overwrite_comm hslot) (h.filter_eq hothers) _
      rw [Resolving.run_bind, Resolving.run_bind, Statement.run_foldlM_accept hclauses hfree,
        Statement.run_foldlM_accept (hclauses.perm hothers.perm) hfree', hsame]
    · have hrefused : ∀ cs, AreFor op cs → clauses.Perm cs →
          ((cs.foldlM Statement.accept d.statement >>= next).run t).1 =
            .error (.misuse op.refusal) := by
        intro cs hcs hperm
        have htaken : ∃ c ∈ cs, d.statement.isTaken c.slot := by
          push Not at hfree
          obtain ⟨c, hc, htaken⟩ := hfree
          exact ⟨c, hperm.mem_iff.mp hc, by simpa using htaken⟩
        obtain ⟨c, hc, hctaken, hresult⟩ :=
          (Statement.refuses_foldlM_accept (hd.operation ▸ hcs) htaken t trivial).2
        rw [hd.refusal_eq (hcs.taken c hc) hctaken] at hresult
        rw [Resolving.run_bind_apply, hresult]
        rfl
      rw [hrefused clauses h (.refl _), hrefused others (h.perm hothers.perm) hothers.perm]

open Draft (IsBegun)

theorem Origin.ensures_begun (style : Style) (origin : Origin) :
    Step.Ensures (fun _ => True) (origin.begin style) (IsBegun origin.operation) := by
  have hstart : ∀ {op} {s : Statement}, s.operation = op → s.filter = none → s.guard = none →
      (op = .insert → s.target = none) →
      Step.Ensures (fun _ => True) (start style s) (IsBegun op) := by
    intro op s hoperation hfilter hguard htarget
    refine Step.ensures_any.bind fun buffer _ => .pure ⟨hoperation, rfl, ?_, fun hinsert => ?_, ?_⟩
    · simp [Statement.isTaken, hguard]
    · simp [Statement.isTaken, htarget hinsert]
    · simp [Statement.isTaken, hfilter]
  have happly : ∀ {d : Draft} {clause : Clause}, clause.slot ≠ .guard → clause.readsEntity = false →
      IsBegun .update d →
      Step.Ensures (fun _ => True) (Workshop.onMemo (d.apply clause)) (IsBegun .update) :=
    fun hslot hreads h => Workshop.any_onMemo
      ((Draft.apply_takes _ _).mono fun _ htakes => h.takes hslot hreads htakes)
  cases origin with
  | insert | insertRow | insertRows | select | selectAliased | selectWith | update | updateType
  | deleteFrom | deleteEntity | delete =>
    exact hstart rfl rfl rfl fun h => by first | rfl | cases h
  | insertEntity | insertEntities | selectEntity =>
    exact Step.ensures_any.bind fun _ _ => hstart rfl rfl rfl fun h => by first | rfl | cases h
  | selectNested e excluded =>
    refine (hstart rfl rfl rfl fun h => by cases h).bind fun d hd => Step.ensures_any.bind
      fun result _ => ?_
    cases result with
    | error err => exact .pure (hd.fail err)
    | ok columns => exact .pure { hd with }
  | updateEntity e snapshot excluded =>
    refine (hstart rfl rfl rfl fun h => by cases h).bind fun d hd =>
      (happly (by rintro ⟨⟩) rfl hd).bind fun d hd => ?_
    split
    · exact .pure (hd.fail _)
    · exact happly (by rintro ⟨⟩) rfl hd

theorem Draft.outcome_of_isOpen {d : Draft} (h : d.isClosed = false) (s : Logged Memo) :
    d.outcome s = ((liftM d.accepted >>= (·.pieces d.style) : Resolving _).run s).1 := by
  obtain ⟨buffer, hbuffer⟩ := Option.isSome_iff_exists.mp (Option.isNone_eq_false_iff.mp h)
  rw [outcome, accepted, hbuffer]
  cases d.fault <;> rfl

namespace Program

theorem foldlM_onMemo (clauses : List Clause) (d : Draft) :
    clauses.foldlM (fun d clause => Workshop.onMemo (d.apply clause)) d =
      Workshop.onMemo (clauses.foldlM Draft.apply d) := by
  induction clauses generalizing d with
  | nil => rfl
  | cons clause clauses ih =>
    rw [List.foldlM_cons, List.foldlM_cons, Workshop.onMemo_bind]
    exact bind_congr ih

/-- What a program makes of the draft that its origin begins: the statement with all clauses, or the
first mistake among them. -/
theorem outcome_eq_acceptAll (P : Program) (style : Style) (w : Workshop) :
    let begun := P.origin.begin style ⟨w, []⟩
    P.outcome style w = ((begun.1.acceptAll P.clauses >>= (·.pieces style)).run
      ⟨begun.2.state.memo, begun.2.log⟩).1 ∧
    ((P.draft style).run w).1.buffer = begun.1.buffer := by
  intro begun
  have hbegun := (P.origin.ensures_begun style ⟨w, []⟩ trivial).2
  have hstyle : begun.1.style = style := (P.origin.style_begin style ⟨w, []⟩ trivial).2
  let drafted := P.clauses.foldlM Draft.apply begun.1 ⟨begun.2.state.memo, begun.2.log⟩
  have hleads : begun.1.LeadsTo drafted.1 := (Draft.leadsTo_foldlM P.clauses begun.1 _ trivial).2
  have hdraft : P.draft style ⟨w, []⟩ =
      (drafted.1, ⟨{ begun.2.state with memo := drafted.2.state }, drafted.2.log⟩) := by
    change P.clauses.foldlM (fun d clause => Workshop.onMemo (d.apply clause)) begun.1 begun.2 = _
    rw [foldlM_onMemo]
    rfl
  have hopen : drafted.1.isClosed = false := by
    rw [Draft.isClosed, hleads.buffer]
    exact hbegun.isOpen
  have haccepted : (begun.1.acceptAll P.clauses).run ⟨begun.2.state.memo, begun.2.log⟩ =
      (drafted.1.accepted, drafted.2) :=
    (congrFun (Draft.accepted_foldlM P.clauses hbegun.isOpen) _).symm
  have hrun : (begun.1.acceptAll P.clauses >>= (·.pieces style)).run
      ⟨begun.2.state.memo, begun.2.log⟩ =
        (liftM drafted.1.accepted >>= (·.pieces style) : Resolving _).run drafted.2 := by
    rw [Resolving.run_bind_apply, haccepted]
  refine ⟨?_, ?_⟩
  · rw [outcome_eq, hdraft, Draft.outcome_of_isOpen hopen, hleads.style, hstyle, hrun]
  · change (P.draft style ⟨w, []⟩).1.buffer = _
    rw [hdraft]
    exact hleads.buffer

theorem result_eq_acceptAll (P : Program) (style : Style) (w : Workshop) :
    let begun := P.origin.begin style ⟨w, []⟩
    P.result style w = ((begun.1.acceptAll P.clauses >>= (·.pieces style)).run
      ⟨begun.2.state.memo, begun.2.log⟩).1.map
        (Rendered.ofPieces style.binding (begun.1.buffer.getD "")) := by
  obtain ⟨houtcome, hbuffer⟩ := outcome_eq_acceptAll P style w
  rw [result_eq, hbuffer, houtcome]

/-- The order of the clauses does not matter, apart from that of the assignments and that of the
sort columns: the program gives the same statement, or makes the same mistake. -/
theorem result_reordered (origin : Origin) {clauses others : List Clause}
    (h : AreFor origin.operation clauses) (hothers : Reorders clauses others) (style : Style)
    (w : Workshop) :
    (⟨origin, clauses⟩ : Program).result style w = (⟨origin, others⟩ : Program).result style w := by
  have hbegun := (origin.ensures_begun style ⟨w, []⟩ trivial).2
  rw [result_eq_acceptAll, result_eq_acceptAll]
  exact congrArg (Except.map _) (hbegun.acceptAll_reordered h hothers _ _)

/-- An UPDATE of an account, with its condition and its options before or after its assignments. -/
theorem result_reordered_update :
    let guard := Clause.ifExists
    let filter := Clause.filter (.equal "id" (.int 7))
    let name := Clause.setValue "firstName" (.text "Ann")
    let visits := Clause.setRaw "visitCount = visitCount + 1"
    let result := fun clauses => (⟨.update "account", clauses⟩ : Program).result {} {}
    result [name, visits, filter, .lifetime 30, guard] =
        result [guard, filter, name, visits, .lifetime 30] ∧
      (result [guard, filter, name, visits, .lifetime 30]).map (·.text) =
        .ok ("UPDATE account USING TTL 30 SET first_name = ?, visit_count = visit_count + 1 " ++
          "WHERE id = ? IF EXISTS") := by
  intro guard filter name visits result
  let clauses := [name, visits, filter, .lifetime 30, guard]
  have hperm : clauses.Perm [guard, filter, name, visits, .lifetime 30] :=
    List.Perm.map (fun i => clauses.getD i guard) (by decide : [0, 1, 2, 3, 4].Perm [4, 2, 0, 1, 3])
  refine ⟨result_reordered (.update "account") ?_ ⟨hperm, rfl, rfl⟩ {} {}, by decide +kernel⟩
  refine ⟨by decide, by decide, fun slot hsingle => ?_⟩
  cases slot with
  | assignments | order | allowFiltering | ifNotExists => cases hsingle
  | target | filter | guard | limit | lifetime | writeTime => decide

end Program

end Cql
