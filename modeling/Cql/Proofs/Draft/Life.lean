import Cql.Proofs.Draft.Taking
import Cql.Session

/-!
The life of a draft. Until it is rendered, a draft takes clauses as a computation does that stops at
its first mistake. The first rendering gives what this computation gives, gives back the buffer and
closes the draft; after it, nothing changes any more.
-/

namespace Cql

theorem Step.bind_congr_of_ensures {σ α β : Type} {step : Step σ α} {Q : α → Prop}
    {next next' : α → Step σ β} (h : Ensures (fun _ => True) step Q)
    (hnext : ∀ a, Q a → next a = next' a) : step >>= next = step >>= next' := by
  funext s
  have hresult := hnext _ (h s trivial).2
  change next (step s).1 (step s).2 = next' (step s).1 (step s).2
  rw [hresult]

theorem Resolving.run_bind {α β : Type} (x : Resolving α) (next : α → Resolving β) :
    (x >>= next).run = x.run >>= fun result => (liftM result >>= next).run := rfl

theorem Workshop.onMemo_bind {α β : Type} (step : Step Memo α) (next : α → Step Memo β) :
    onMemo (step >>= next) = onMemo step >>= fun a => onMemo (next a) := rfl

def Call.clause? : Call → Option Clause
  | .clause c => some c
  | _ => none

/-- The call renders a draft that is open. -/
def Call.isTerminal : Call → Bool
  | .render | .text | .json => true
  | _ => false

/-- The statement with one more clause, if its operation takes the clause. -/
def Statement.accept (s : Statement) (clause : Clause) : Resolving Statement :=
  if s.operation ∈ clause.kind.operations then ExceptT.mk (s.addClause clause)
  else throw (.misuse (.notTaken clause.kind s.operation))

/-- No clause changes the operation. -/
theorem Statement.operation_add (eligibleOf : Entity → Eligible) (s : Statement) (clause : Clause) :
    Yields (s.add eligibleOf clause) fun s' => s'.operation = s.operation := by
  have htarget : ∀ kind target, Yields (s.setTarget kind target)
      fun s' => s'.operation = s.operation := by
    intro kind target
    rw [setTarget]
    split
    · exact .error
    · cases target <;> exact .ok rfl
  have hfilter : ∀ filter, Yields (s.setFilter filter) fun s' => s'.operation = s.operation := by
    intro filter
    rw [setFilter]
    split
    · exact .error
    · exact .ok rfl
  have hguard : ∀ guard, Yields (s.setGuard guard) fun s' => s'.operation = s.operation := by
    intro guard
    rw [setGuard]
    split
    · exact .error
    · exact .ok rfl
  cases clause with
  | into target | source target => exact htarget _ target
  | filter | filterRaw => exact hfilter _
  | guard | guardRaw | ifExists => exact hguard _
  | filterKeys values =>
    rw [add]
    split
    · exact .error
    · exact Yields.bind (Q := fun _ => True) (fun _ _ => trivial) fun p _ => hfilter _
  | setHoles | setValue | setRow | setEntity | setRaw | order | orderRaw | limit | allowFiltering
  | lifetime | writeTime | ifNotExists => exact .ok rfl

namespace Draft

/-- The answers to some calls, and the draft after them. -/
def replies (d : Draft) : List Call → Step Workshop (List Call.Answer × Draft)
  | [] => return ([], d)
  | c :: cs => do
    let (a, d) ← d.answer c
    let (others, d) ← d.replies cs
    return (a :: others, d)

/-- What a call is answered if rendering gives the result. -/
def reply (d : Draft) (result : Except Error Rendered) : Call → Call.Answer
  | .clause _ => .nothing
  | .render => .rendered result
  | .text => .text (result.map (·.text))
  | .json => .text (result.map (·.json))
  | .isClosed => .flag d.isClosed
  | .operation => .operation d.statement.operation
  | .style => .style d.style

/-- The draft once it is rendered. -/
def closed (d : Draft) : Draft := { d with buffer := none, fault := none }

/-- The statement of a draft, or its mistake. -/
def accepted (d : Draft) : Except Error Statement :=
  match d.fault with
  | some e => .error e
  | none => .ok d.statement

/-- The statement of a draft with some clauses. The first clause that is not taken stops it. -/
def acceptAll (d : Draft) (clauses : List Clause) : Resolving Statement := do
  let s ← liftM d.accepted
  clauses.foldlM Statement.accept s

/-- What an open draft is rendered to. -/
def rendering (d : Draft) (buffer : String) : Resolving Rendered := do
  let s ← liftM d.accepted
  ExceptT.mk (write d.style s buffer)

/-- The statement of a draft with some clauses, written after what is in the buffer. -/
def renderAll (d : Draft) (clauses : List Clause) (buffer : String) : Resolving Rendered := do
  let s ← d.acceptAll clauses
  ExceptT.mk (write d.style s buffer)

variable {d e : Draft} {buffer : String} {before : List Call} {t : Call}

theorem replies_append (d : Draft) (calls more : List Call) : d.replies (calls ++ more) = do
    let (answers, d) ← d.replies calls
    let (others, d) ← d.replies more
    return (answers ++ others, d) := by
  induction calls generalizing d with
  | nil => simp [replies]
  | cons c calls ih => simp [replies, ih]

/-- A script asks for the answers to its calls and drops the draft. -/
theorem script_eq (d : Draft) (calls : List Call) : Workshop.script.go d calls = do
    let (answers, d) ← d.replies calls
    d.drop
    return answers := by
  induction calls generalizing d with
  | nil => simp [Workshop.script.go, replies]
  | cons c calls ih => simp [Workshop.script.go, replies, ih]

theorem Takes.operation {clause : Clause} (h : d.Takes clause e) :
    e.statement.operation = d.statement.operation := by
  cases h with
  | added _ _ _ hadd => exact Statement.operation_add _ d.statement clause _ hadd
  | idle | misused | foreign => rfl

theorem reply_congr {result : Except Error Rendered} (hclosed : e.isClosed = d.isClosed)
    (hoperation : e.statement.operation = d.statement.operation) (hstyle : e.style = d.style) :
    e.reply result = d.reply result := by
  funext c
  cases c <;> simp [reply, hclosed, hoperation, hstyle]

theorem accepted_record (hfault : d.fault = none) (result : Except Error Statement) :
    (d.record result).accepted = result := by
  cases result <;> simp [record, fail, accepted, hfault]

/-- A clause adds to the statement or makes the first mistake. -/
theorem accepted_apply (hopen : d.isClosed = false) (clause : Clause) :
    accepted <$> d.apply clause =
      (do let s ← liftM d.accepted; s.accept clause : Resolving _).run := by
  cases hfault : d.fault with
  | some e =>
    have haccepted : d.accepted = .error e := by simp [accepted, hfault]
    rw [apply, if_pos (.inl (by simp [hfault])), map_pure, haccepted]
    rfl
  | none =>
    have haccepted : d.accepted = .ok d.statement := by simp [accepted, hfault]
    rw [apply, if_neg (by simp [hfault, hopen]), haccepted]
    change _ = (d.statement.accept clause).run
    by_cases hoperation : d.statement.operation ∈ clause.kind.operations
    · rw [if_pos hoperation, Statement.accept, if_pos hoperation]
      simp [accepted_record hfault]
    · rw [if_neg hoperation, Statement.accept, if_neg hoperation, map_pure]
      simp [fail, accepted, hfault]

/-- Clauses go on until the first one that is not taken. -/
theorem accepted_foldlM (clauses : List Clause) (hopen : d.isClosed = false) :
    accepted <$> clauses.foldlM apply d = (d.acceptAll clauses).run := by
  induction clauses generalizing d with
  | nil =>
    rw [List.foldlM_nil, map_pure, acceptAll]
    simp only [List.foldlM_nil, bind_pure]
    rfl
  | cons clause clauses ih =>
    calc accepted <$> (clause :: clauses).foldlM apply d
        = d.apply clause >>= fun e => accepted <$> clauses.foldlM apply e := by
          rw [List.foldlM_cons, map_bind]
      _ = d.apply clause >>= fun e => (e.acceptAll clauses).run := by
          refine Step.bind_congr_of_ensures (d.apply_takes clause) fun e htakes => ih ?_
          rw [isClosed, htakes.buffer]
          exact hopen
      _ = (accepted <$> d.apply clause) >>= fun result =>
            (do let s ← liftM result; clauses.foldlM Statement.accept s : Resolving _).run := by
          rw [bind_map_left]
          rfl
      _ = (d.acceptAll (clause :: clauses)).run := by
          rw [accepted_apply hopen, ← Resolving.run_bind, acceptAll, bind_assoc]
          simp only [List.foldlM_cons]

/-- Before the first rendering, only clauses do anything. -/
theorem replies_open (hopen : d.isClosed = false) (hbefore : ∀ c ∈ before, ¬ c.isTerminal)
    (result : Except Error Rendered) : d.replies before = do
      let e ← Workshop.onMemo ((before.filterMap Call.clause?).foldlM apply d)
      return (before.map (d.reply result), e) := by
  induction before generalizing d with
  | nil => rfl
  | cons c before ih =>
    have hothers : ∀ c ∈ before, ¬ c.isTerminal := fun c hc => hbefore c (List.mem_cons_of_mem _ hc)
    have hc : ¬ c.isTerminal := hbefore c List.mem_cons_self
    cases c with
    | clause clause =>
      have hstep : d.replies (.clause clause :: before) = (do
          let e ← Workshop.onMemo (d.apply clause)
          let (others, e) ← e.replies before
          return (.nothing :: others, e)) := by simp [replies, answer]
      have hclauses : (Call.clause clause :: before).filterMap Call.clause? =
          clause :: before.filterMap Call.clause? := rfl
      rw [hstep, hclauses, List.foldlM_cons, Workshop.onMemo_bind, bind_assoc]
      refine Step.bind_congr_of_ensures (Workshop.any_onMemo (d.apply_takes clause))
        fun e htakes => ?_
      have hclosed : e.isClosed = d.isClosed := by rw [isClosed, htakes.buffer, isClosed]
      rw [ih (hclosed.trans hopen) hothers, bind_assoc,
        reply_congr hclosed htakes.operation htakes.style]
      rfl
    | isClosed | operation | style =>
      simp [replies, answer, ih hopen hothers, reply, List.filterMap_cons, Call.clause?]
    | render | text | json => exact absurd rfl hc

/-- A draft that is closed stays as it is. -/
theorem replies_closed (hclosed : d.isClosed) (calls : List Call) :
    d.replies calls = pure (calls.map (d.reply (.error .closed)), d) := by
  have hbuffer : d.buffer = none := Option.isNone_iff_eq_none.mp hclosed
  induction calls with
  | nil => rfl
  | cons c calls ih =>
    have hanswer : d.answer c = pure (d.reply (.error .closed) c, d) := by
      cases c with
      | clause clause => simp [answer, apply, hclosed]; rfl
      | render | text | json => simp [answer, render, hbuffer, reply, Except.map]
      | isClosed | operation | style => rfl
    simp [replies, hanswer, ih]

/-- Rendering an open draft closes it and gives its buffer back. -/
theorem answer_terminal (hbuffer : d.buffer = some buffer) (ht : t.isTerminal) : d.answer t = do
    let result ← Workshop.onMemo (d.rendering buffer).run
    Workshop.onPool (TextPool.release buffer)
    return (d.reply result t, d.closed) := by
  have hrender : d.render = (do
      let result ← Workshop.onMemo (d.rendering buffer).run
      Workshop.onPool (TextPool.release buffer)
      return (result, d.closed)) := by
    rw [render, hbuffer, rendering, accepted]
    cases d.fault <;> rfl
  cases t with
  | render | text | json => simp [answer, hrender, reply]
  | clause | isClosed | operation | style => cases ht

/-- Nothing is recorded any more after a mistake, nor once the draft is closed. -/
theorem statement_answer (hidle : d.fault.isSome ∨ d.isClosed) (c : Call) :
    Step.Ensures (fun _ => True) (d.answer c) fun r =>
      (r.2.fault.isSome ∨ r.2.isClosed) ∧ r.2.statement = d.statement := by
  cases c with
  | clause clause =>
    have happly : d.apply clause = pure d := if_pos hidle
    rw [answer, happly]
    exact .pure ⟨hidle, rfl⟩
  | render | text | json =>
    cases hbuffer : d.buffer with
    | none =>
      have hclosed : d.isClosed := by simp [isClosed, hbuffer]
      simp only [answer, render, hbuffer]
      exact .pure ⟨.inr hclosed, rfl⟩
    | some buffer =>
      rw [answer_terminal hbuffer rfl]
      exact Step.ensures_any.bind fun _ _ => Step.ensures_any.bind fun _ _ => .pure ⟨.inr rfl, rfl⟩
  | isClosed | operation | style => exact .pure ⟨hidle, rfl⟩

theorem statement_replies (hidle : d.fault.isSome ∨ d.isClosed) (calls : List Call) :
    Step.Ensures (fun _ => True) (d.replies calls) fun r => r.2.statement = d.statement := by
  induction calls generalizing d with
  | nil => exact .pure rfl
  | cons c calls ih =>
    refine (statement_answer hidle c).bind fun r hr => (ih hr.1).bind fun r' hr' => .pure ?_
    exact hr'.trans hr.2

/-- Clauses leave the style, the operation and the buffer of a draft as they are. -/
structure LeadsTo (d e : Draft) : Prop where
  style : e.style = d.style
  operation : e.statement.operation = d.statement.operation
  buffer : e.buffer = d.buffer

theorem leadsTo_foldlM (clauses : List Clause) (d : Draft) :
    Step.Ensures (fun _ => True) (clauses.foldlM apply d) d.LeadsTo :=
  Step.Ensures.foldlM ⟨rfl, rfl, rfl⟩ fun e he clause _ => (e.apply_takes clause).mono fun _ h =>
    ⟨h.style.trans he.style, h.operation.trans he.operation, h.buffer.trans he.buffer⟩

theorem run_renderAll (clauses : List Clause) (hopen : d.isClosed = false) (buffer : String) :
    (d.renderAll clauses buffer).run =
      clauses.foldlM apply d >>= fun e => (e.rendering buffer).run := by
  calc (d.renderAll clauses buffer).run
      = (accepted <$> clauses.foldlM apply d) >>= fun result =>
          (do let s ← liftM result; ExceptT.mk (write d.style s buffer) : Resolving _).run := by
        rw [accepted_foldlM clauses hopen]
        rfl
    _ = clauses.foldlM apply d >>= fun e =>
          (do let s ← liftM e.accepted; ExceptT.mk (write d.style s buffer) : Resolving _).run := by
        rw [bind_map_left]
    _ = clauses.foldlM apply d >>= fun e => (e.rendering buffer).run := by
        refine Step.bind_congr_of_ensures (leadsTo_foldlM clauses d) fun e he => ?_
        rw [rendering, he.style]

theorem reply_of_not_terminal {c : Call} (hc : ¬ c.isTerminal) (d : Draft)
    (result result' : Except Error Rendered) : d.reply result c = d.reply result' c := by
  cases c with
  | render | text | json => exact absurd rfl hc
  | clause | isClosed | operation | style => rfl

/-- The first rendering, between the calls before it and those after it. -/
theorem replies_terminal (hbuffer : d.buffer = some buffer)
    (hbefore : ∀ c ∈ before, ¬ c.isTerminal) (ht : t.isTerminal) (after : List Call) :
    d.replies (before ++ t :: after) = do
      let e ← Workshop.onMemo ((before.filterMap Call.clause?).foldlM apply d)
      let result ← Workshop.onMemo (e.rendering buffer).run
      Workshop.onPool (TextPool.release buffer)
      return ((before ++ [t]).map (d.reply result) ++
        after.map (d.closed.reply (.error .closed)), e.closed) := by
  have hopen : d.isClosed = false := by rw [isClosed, hbuffer]; rfl
  rw [replies_append, replies_open hopen hbefore (.error .closed), bind_assoc]
  refine Step.bind_congr_of_ensures (Workshop.any_onMemo (leadsTo_foldlM _ d)) fun e he => ?_
  have hclosed : e.isClosed = d.isClosed := by rw [isClosed, he.buffer, isClosed]
  have hreply : ∀ result, e.reply result = d.reply result := fun _ =>
    reply_congr hclosed he.operation he.style
  have hlater : e.closed.reply (.error .closed) = d.closed.reply (.error .closed) :=
    reply_congr rfl he.operation he.style
  have hearlier : ∀ result, before.map (d.reply (.error .closed)) = before.map (d.reply result) :=
    fun result => List.map_congr_left fun c hc => reply_of_not_terminal (hbefore c hc) _ _ _
  simp only [replies, answer_terminal (he.buffer.trans hbuffer) ht, hreply, hlater,
    replies_closed (d := e.closed) rfl, bind_assoc, pure_bind, List.map_append, List.map_cons,
    List.map_nil, List.append_assoc, List.cons_append, List.nil_append]
  exact bind_congr fun result => by rw [hearlier result]

theorem held_release (p : TextPool) (buffer : String) (log : List Event) :
    (TextPool.release buffer ⟨p, log⟩).2.state.held = p.held - 1 := by
  change ((if p.free.length < p.config.maxPooled.toNat then _ else _ : Step TextPool Unit)
    ⟨p, log⟩).2.state.held = _
  split
  · rfl
  · rfl

/-- The first rendering of an open draft gives the mistake of the first clause that was not taken,
or else what the statement with all clauses is rendered to; every later one says that the draft is
closed. After a mistake, and once the draft is closed, no call changes the statement. The buffer is
given back once: by the first rendering, or by dropping the draft while it is open. -/
theorem replies_once (hbuffer : d.buffer = some buffer) (hbefore : ∀ c ∈ before, ¬ c.isTerminal)
    (ht : t.isTerminal) (after : List Call) (w : Workshop) :
    let clauses := before.filterMap Call.clause?
    let rendered := (Step.run (d.renderAll clauses buffer).run w.memo).1
    let ((_, e), v, _) := (d.replies before).run w
    let ((answers, e'), v', _) := (d.replies (before ++ t :: after)).run w
    answers =
        (before ++ [t]).map (d.reply rendered) ++ after.map (d.closed.reply (.error .closed)) ∧
      e.accepted = (Step.run (d.acceptAll clauses).run w.memo).1 ∧
      (e.fault.isSome → ∀ more,
        ((d.replies (before ++ more)).run w).1.2.statement = e.statement) ∧
      e'.statement = e.statement ∧
      v.pool.held = w.pool.held ∧ (e.drop.run v).2.1.pool.held = w.pool.held - 1 ∧
      v'.pool.held = w.pool.held - 1 ∧ (e'.drop.run v').2.1.pool.held = w.pool.held - 1 := by
  intro clauses rendered
  have hopen : d.isClosed = false := by rw [isClosed, hbuffer]; rfl
  let drafted := clauses.foldlM apply d ⟨w.memo, []⟩
  let result := (drafted.1.rendering buffer).run drafted.2
  let released := TextPool.release buffer ⟨w.pool, result.2.log⟩
  have hleads : d.LeadsTo drafted.1 := (leadsTo_foldlM clauses d ⟨w.memo, []⟩ trivial).2
  have hrendered : rendered = result.1 :=
    congrArg Prod.fst (congrFun (run_renderAll clauses hopen buffer) ⟨w.memo, []⟩)
  have hdrafting : (d.replies before).run w =
      ((before.map (d.reply rendered), drafted.1), ⟨drafted.2.state, w.pool⟩, drafted.2.log) := by
    rw [replies_open hopen hbefore rendered]
    rfl
  have hlife : (d.replies (before ++ t :: after)).run w =
      (((before ++ [t]).map (d.reply rendered) ++ after.map (d.closed.reply (.error .closed)),
        drafted.1.closed), ⟨result.2.state, released.2.state⟩, released.2.log) := by
    rw [replies_terminal hbuffer hbefore ht after, hrendered]
    rfl
  have hheld : released.2.state.held = w.pool.held - 1 := held_release _ _ _
  have hdrop : drafted.1.drop = Workshop.onPool (TextPool.release buffer) := by
    rw [drop, hleads.buffer, hbuffer]
  rw [hdrafting, hlife]
  refine ⟨rfl, ?_, fun hfault more => ?_, rfl, rfl, ?_, hheld, hheld⟩
  · exact congrArg Prod.fst (congrFun (accepted_foldlM clauses hopen) ⟨w.memo, []⟩)
  · have hmore : ((d.replies (before ++ more)).run w).1.2 =
        (drafted.1.replies more ⟨⟨drafted.2.state, w.pool⟩, drafted.2.log⟩).1.2 := by
      rw [replies_append, replies_open hopen hbefore rendered]
      rfl
    rw [hmore]
    exact (statement_replies (.inl hfault) more _ trivial).2
  · rw [hdrop]
    exact held_release w.pool buffer []

/-- An UPDATE does not take a limit, and the assignment after it changes nothing. -/
theorem replies_once_limited :
    let d : Draft := { style := {}, statement := { operation := .update }, buffer := some "" }
    let before := [.clause (.limit 3), .clause (.setRaw "a = 1"), .isClosed]
    let after := [.render, .clause (.setRaw "a = 1"), .isClosed]
    let ((answers, e), v, _) := (d.replies (before ++ .text :: after)).run { pool := { held := 1 } }
    answers = [.nothing, .nothing, .flag false, .text (.error (.misuse (.notTaken .limit .update))),
      .rendered (.error .closed), .nothing, .flag true] ∧
      e.statement.assignments = [] ∧ v.pool.held = 0 ∧ (e.drop.run v).2.1.pool.held = 0 := by
  intro d before after
  have hbefore : ∀ c ∈ before, ¬ c.isTerminal := by decide
  obtain ⟨hanswers, -, -, hstatement, -, -, hheld, hdrop⟩ :=
    replies_once (rfl : d.buffer = some "") hbefore (t := .text) rfl after { pool := { held := 1 } }
  exact ⟨hanswers, congrArg Statement.assignments hstatement, hheld, hdrop⟩

end Draft

end Cql
