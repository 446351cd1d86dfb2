import Cql.Proofs.Draft.Unbound
import Cql.Proofs.Program
import Cql.Proofs.Statement.Binding
import Cql.Proofs.Statement.Legible

/-!
The outcome of a program: the pieces of the statement that it drafts, or its first mistake. Text and
parameters are made of the outcome alone, so what binding and values have no part in is said of
outcomes.
-/

namespace Cql

variable {known : Entity → Prop} {admits : Value → Prop} {f : Value → Value}

def Rendered.ofPieces (b : Binding) (buffer : String) (ps : List Piece) : Rendered where
  text := buffer ++ Piece.textOf b ps
  parameters := Piece.parametersOf b ps

/-- The pieces that a draft is rendered to. -/
def Draft.outcome (d : Draft) (s : Logged Memo) : Except Error (List Piece) :=
  match d.buffer, d.fault with
  | none, _ => .error .closed
  | some _, some e => .error e
  | some _, none => ((d.statement.pieces d.style).run s).1

theorem Draft.write_eq (style : Style) (statement : Statement) (buffer : String) (s : Logged Memo) :
    (write style statement buffer s).1 = ((statement.pieces style).run s).1.map
      (Rendered.ofPieces style.binding buffer) := by
  change ((_ >>= _ : Step Memo _) s).1 = _
  simp only [bind, StateT.bind]
  rcases (statement.pieces style).run s with ⟨_ | ps, t⟩ <;> rfl

theorem Draft.render_eq (d : Draft) (s : Logged Workshop) :
    (d.render s).1.1 = (d.outcome ⟨s.state.memo, s.log⟩).map
      (Rendered.ofPieces d.style.binding (d.buffer.getD "")) := by
  unfold render outcome
  cases d.buffer with
  | none => rfl
  | some buffer =>
    cases d.fault with
    | some e => rfl
    | none => exact write_eq d.style d.statement buffer ⟨s.state.memo, s.log⟩

theorem Resolving.run_map {α β : Type} (g : α → β) (x : Resolving α) (s : Logged Memo) :
    ((g <$> x).run s).1 = (x.run s).1.map g := by
  rw [ExceptT.run_map]
  rfl

namespace Draft

theorem outcome_recast (d : Draft) (r : Recast) (s : Logged Memo) {g : List Piece → List Piece}
    (hpieces : (d.statement.recast r).pieces (r.style d.style) =
      g <$> d.statement.pieces d.style) : (d.recast r).outcome s = (d.outcome s).map g := by
  unfold outcome recast
  cases d.buffer with
  | none => rfl
  | some buffer =>
    cases d.fault with
    | some e => rfl
    | none =>
      simp only [hpieces]
      exact Resolving.run_map g _ s

theorem outcome_congr {d d' : Draft} (hbuffer : d.buffer = d'.buffer) (hfault : d.fault = d'.fault)
    (hpieces : d.statement.pieces d.style = d'.statement.pieces d'.style) (s : Logged Memo) :
    d.outcome s = d'.outcome s := by
  simp only [outcome]
  rw [hbuffer, hfault, hpieces]

theorem outcome_toStyle (casing : Casing) (d : Draft) (s : Logged Memo) {b b' : Binding}
    (hb : b = .named → ¬ d.statement.RepeatsNames)
    (hb' : b' = .named → ¬ d.statement.RepeatsNames) :
    (d.recast (.toStyle ⟨casing, b⟩)).outcome s = (d.recast (.toStyle ⟨casing, b'⟩)).outcome s := by
  refine outcome_congr ?_ ?_ ?_ s
  · rfl
  · rfl
  · exact d.statement.pieces_toStyle casing hb hb'

theorem outcome_eq_ok {d : Draft} {s : Logged Memo} {ps : List Piece} (h : d.outcome s = .ok ps) :
    d.fault = none ∧ ((d.statement.pieces d.style).run s).1 = .ok ps := by
  rw [outcome] at h
  split at h
  · cases h
  · cases h
  · rename_i hfault
    exact ⟨hfault, h⟩

theorem not_repeatsNames_of_outcome {casing : Casing} {d : Draft} {s : Logged Memo}
    {ps : List Piece} (h : (d.recast (.toStyle ⟨casing, .named⟩)).outcome s = .ok ps) :
    ¬ d.statement.RepeatsNames := by
  have hrecast : ¬ (d.statement.recast (.toStyle ⟨casing, .named⟩)).RepeatsNames :=
    (Statement.not_repeatsNames_of_named casing _ s trivial).2 ps (outcome_eq_ok h).2
  rwa [Statement.repeatsNames_recast] at hrecast

end Draft

namespace Program

/-- What the draft of a program is rendered to. -/
def outcome (P : Program) (style : Style) (w : Workshop) : Except Error (List Piece) :=
  let (d, s) := P.draft style ⟨w, []⟩
  d.outcome ⟨s.state.memo, s.log⟩

/-- How many columns the caller leaves without a value. -/
def unbound (P : Program) : Nat :=
  P.clauses.foldl (fun n clause => n + clause.unbound) P.origin.unbound

variable (P : Program) (style : Style) (w : Workshop)

theorem outcome_eq : P.outcome style w = (P.draft style ⟨w, []⟩).1.outcome
    ⟨(P.draft style ⟨w, []⟩).2.state.memo, (P.draft style ⟨w, []⟩).2.log⟩ := rfl

theorem style_draft : Step.Ensures (fun _ => True) (P.draft style) fun d => d.style = style := by
  refine (P.origin.style_begin style).bind fun d hd => Step.Ensures.foldlM hd ?_
  intro d hd clause _
  exact Workshop.any_onMemo ((d.apply_takes clause).mono fun d' htakes => htakes.style.trans hd)

theorem counts_draft : Step.Ensures (fun _ => True) (P.draft style) (Draft.Counts P.unbound) := by
  have hclauses : ∀ (clauses : List Clause) (n : Nat) (d : Draft), d.Counts n →
      Step.Ensures (fun _ => True)
        (clauses.foldlM (fun d clause => Workshop.onMemo (d.apply clause)) d)
        (Draft.Counts (clauses.foldl (fun n clause => n + clause.unbound) n)) := by
    intro clauses
    induction clauses with
    | nil => exact fun n d hd => .pure hd
    | cons clause clauses ih =>
      intro n d hd
      rw [List.foldlM_cons, List.foldl_cons]
      exact (Workshop.any_onMemo (hd.apply clause)).bind fun d hd => ih _ d hd
  exact (P.origin.counts_begin style).bind fun d hd => hclauses P.clauses _ d hd

theorem result_eq : P.result style w = (P.outcome style w).map (Rendered.ofPieces style.binding
    (((P.draft style).run w).1.buffer.getD "")) := by
  have hstyle := ((P.style_draft style) ⟨w, []⟩ trivial).2
  have hrender := Draft.render_eq (P.draft style ⟨w, []⟩).1 (P.draft style ⟨w, []⟩).2
  rw [hstyle] at hrender
  exact hrender

theorem outcome_recast (r : Recast) (hcasing : (r.style style).casing = style.casing) :
    (P.recast r).outcome (r.style style) w = ((P.draft style ⟨w, []⟩).1.recast r).outcome
      ⟨(P.draft style ⟨w, []⟩).2.state.memo, (P.draft style ⟨w, []⟩).2.log⟩ := by
  rw [outcome]
  rw [draft_recast P style r hcasing]
  rfl

/-- Other values make other values in the outcome, and no other difference. -/
theorem outcome_ofValues (hf : KeepsExpressions f) :
    (P.recast (.ofValues f)).outcome style w =
      (P.outcome style w).map (List.map (Piece.mapValue f)) := by
  refine (P.outcome_recast style w (.ofValues f) rfl).trans ?_
  exact Draft.outcome_recast _ _ _ (Statement.pieces_ofValues _ hf)

variable (casing : Casing)

theorem outcome_toStyle (b : Binding) :
    (P.inStyle ⟨casing, b⟩).outcome ⟨casing, b⟩ w =
      ((P.draft ⟨casing, .positional⟩ ⟨w, []⟩).1.recast (.toStyle ⟨casing, b⟩)).outcome
        ⟨(P.draft ⟨casing, .positional⟩ ⟨w, []⟩).2.state.memo,
          (P.draft ⟨casing, .positional⟩ ⟨w, []⟩).2.log⟩ :=
  P.outcome_recast ⟨casing, .positional⟩ w (.toStyle ⟨casing, b⟩) rfl

/-- Without names, the outcome does not depend on the binding. -/
theorem outcome_inStyle {b b' : Binding} (hb : b ≠ .named) (hb' : b' ≠ .named) :
    (P.inStyle ⟨casing, b⟩).outcome ⟨casing, b⟩ w =
      (P.inStyle ⟨casing, b'⟩).outcome ⟨casing, b'⟩ w := by
  rw [outcome_toStyle, outcome_toStyle]
  exact Draft.outcome_toStyle casing _ _ (fun h => absurd h hb) fun h => absurd h hb'

/-- What is rendered with names is rendered in the same pieces without them. -/
theorem outcome_named : Yields ((P.inStyle ⟨casing, .named⟩).outcome ⟨casing, .named⟩ w) fun ps =>
    (P.inStyle ⟨casing, .positional⟩).outcome ⟨casing, .positional⟩ w = .ok ps := by
  intro ps hps
  rw [outcome_toStyle] at hps ⊢
  have hnames := Draft.not_repeatsNames_of_outcome hps
  rw [← hps]
  exact Draft.outcome_toStyle casing _ _ (fun h => nomatch h) fun _ => hnames

variable {P style w}

/-- What is rendered are the pieces of the outcome. -/
theorem exists_outcome {r : Rendered} (hr : P.result style w = .ok r) :
    ∃ ps buffer, P.outcome style w = .ok ps ∧ r = .ofPieces style.binding buffer ps := by
  rw [result_eq] at hr
  obtain ⟨ps, houtcome, hmade⟩ := exists_of_map_eq_ok hr
  exact ⟨ps, _, houtcome, hmade⟩

/-- The pieces are those of the statement that a program drafts, made with the memo that its
clauses leave. -/
theorem outcome_ensures {I : Memo → Prop} {Q : List Piece → Prop}
    (hmemo : I (P.draft style ⟨w, []⟩).2.state.memo)
    (h : Resolving.Ensures I ((P.statement style w).pieces style) Q) :
    Yields (P.outcome style w) Q := by
  intro ps hps
  rw [outcome_eq] at hps
  have hrun := (Draft.outcome_eq_ok hps).2
  have hstyle := ((P.style_draft style) ⟨w, []⟩ trivial).2
  change Resolving.Ensures I ((P.draft style ⟨w, []⟩).1.statement.pieces style) Q at h
  generalize P.draft style ⟨w, []⟩ = run at hmemo h hrun hstyle
  rw [hstyle] at hrun
  exact (h ⟨run.2.state.memo, run.2.log⟩ hmemo).2 ps hrun

/-- What the statement is rendered to in any case is what the program gives. -/
theorem outcome_returns {Q : List Piece → Prop}
    (h : Resolving.Returns ((P.statement style w).pieces style) Q) :
    Yields (P.outcome style w) Q := outcome_ensures trivial h

theorem outcome_bears : Yields (P.outcome style w) fun ps =>
    Piece.Bears ps (P.statement style w).cells :=
  outcome_returns (Statement.bears_of_pieces _)

theorem outcome_places : Yields (P.outcome style w) fun ps =>
    Piece.places ps = (P.statement style w).places :=
  outcome_returns (Statement.places_of_pieces _)

/-- The places that the caller fills are the columns without a value. -/
theorem outcome_unbound : Yields (P.outcome style w) fun ps =>
    (Piece.places ps).countP Place.isUnbound = P.unbound := by
  intro ps hps
  obtain ⟨hfault, -⟩ := Draft.outcome_eq_ok hps
  have hcounts := ((P.counts_draft style) ⟨w, []⟩ trivial).2
  rw [outcome_places ps hps, Statement.countP_places]
  exact hcounts.unbound hfault

/-- The outcome of a plain program is legible. -/
theorem outcome_legible (hfits : style.binding.Fits admits) (hP : P.IsPlain known admits)
    (hw : w.IsPlain known) : Yields (P.outcome style w) fun ps => Piece.IsLegible style.binding ps ∧
      Token.isManipulation (Piece.textOf style.binding ps).toList := by
  obtain ⟨hworkshop, hdraft⟩ := P.ensures_draft style hP ⟨w, []⟩ hw
  exact outcome_ensures hworkshop.memo (Statement.ensures_legible hfits hdraft.statement)

/-- The buffer of a plain draft is empty. -/
theorem result_eq_of_isPlain (hP : P.IsPlain known admits) (hw : w.IsPlain known) :
    P.result style w = (P.outcome style w).map (Rendered.ofPieces style.binding "") := by
  have hdraft := (P.ensures_draft style hP ⟨w, []⟩ hw).2
  have hbuffer : ((P.draft style).run w).1.buffer.getD "" = "" := by
    cases h : ((P.draft style).run w).1.buffer with
    | none => rfl
    | some text => exact hdraft.buffer text h
  rw [result_eq, hbuffer]

end Program

end Cql
