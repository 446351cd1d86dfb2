import Cql.Proofs.Draft.Plain
import Cql.Session

/-!
Programs that draft a statement: a way to begin it and clauses in the order of the calls. A program
is run on a workshop, and what it gives is the text with its parameters or the mistake that was
made first.
-/

namespace Cql

structure Program where
  origin : Origin
  clauses : List Clause

namespace Program

/-- The draft with all clauses. -/
def draft (P : Program) (style : Style) : Step Workshop Draft := do
  let d ← P.origin.begin style
  P.clauses.foldlM (fun d clause => Workshop.onMemo (d.apply clause)) d

def pair (P : Program) (style : Style) : Step Workshop (Except Error Rendered) := do
  let d ← P.draft style
  let (result, _) ← d.render
  return result

/-- What a program gives in a style, on a workshop. -/
def result (P : Program) (style : Style) (w : Workshop) : Except Error Rendered :=
  ((P.pair style).run w).1

/-- The statement that a program drafts. -/
def statement (P : Program) (style : Style) (w : Workshop) : Statement :=
  ((P.draft style).run w).1.statement

def IsPlain (known : Entity → Prop) (admits : Value → Prop) (P : Program) : Prop :=
  P.origin.IsPlain known admits ∧ ∀ clause ∈ P.clauses, clause.IsPlain known admits

variable {known : Entity → Prop} {admits : Value → Prop}

instance [DecidablePred known] [DecidablePred admits] : DecidablePred (IsPlain known admits) :=
  fun P => inferInstanceAs
    (Decidable (P.origin.IsPlain known admits ∧ ∀ c ∈ P.clauses, c.IsPlain known admits))

def recast (r : Recast) (P : Program) : Program :=
  ⟨P.origin.recast r, P.clauses.map (Clause.recast r)⟩

/-- The same program with all subqueries in one style. -/
def inStyle (style : Style) (P : Program) : Program := P.recast (.toStyle style)

variable (P : Program) (style : Style)

theorem drop_after_render (d : Draft) :
    (do let (result, d) ← d.render; d.drop; return result) =
      (do let (result, _) ← d.render; return result) := by
  cases hbuffer : d.buffer with
  | none => simp [Draft.render, Draft.drop, hbuffer]
  | some text => cases hfault : d.fault <;> simp [Draft.render, Draft.drop, hbuffer, hfault]

theorem go_eq (clauses : List Clause) (d : Draft) :
    Workshop.script.go d (clauses.map .clause ++ [.render]) = do
      let d ← clauses.foldlM (fun d clause => Workshop.onMemo (d.apply clause)) d
      let (result, _) ← d.render
      return clauses.map (fun _ => .nothing) ++ [.rendered result] := by
  induction clauses generalizing d with
  | nil =>
    have h := congrArg (Functor.map fun result => [Call.Answer.rendered result])
      (drop_after_render d)
    simpa [Workshop.script.go, Draft.answer] using h
  | cons clause clauses ih => simp [Workshop.script.go, Draft.answer, ih]

/-- A program is what a caller does who begins a draft, adds clauses and renders it. -/
theorem script_eq :
    Workshop.script style P.origin (P.clauses.map .clause ++ [.render]) =
      (fun result => P.clauses.map (fun _ => .nothing) ++ [.rendered result]) <$> P.pair style := by
  simp [Workshop.script, go_eq, pair, draft]

theorem draft_recast (r : Recast) (hcasing : (r.style style).casing = style.casing) :
    (P.recast r).draft (r.style style) = Draft.recast r <$> P.draft style := by
  have hclauses : ∀ (clauses : List Clause) (d : Draft),
      (clauses.map (Clause.recast r)).foldlM (fun d clause => Workshop.onMemo (d.apply clause))
        (d.recast r) = Draft.recast r <$>
          clauses.foldlM (fun d clause => Workshop.onMemo (d.apply clause)) d := by
    intro clauses
    induction clauses with
    | nil => intro d; simp
    | cons clause clauses ih =>
      intro d
      simp only [List.map_cons, List.foldlM_cons, map_bind, Origin.onMemo_apply_recast,
        bind_map_left, ih]
  simp only [draft, recast, Origin.begin_recast r hcasing, bind_map_left, map_bind, hclauses]

theorem IsPlain.recast {P : Program} (h : P.IsPlain known admits) {r : Recast}
    (hr : ∀ v, admits v → admits (r.value v)) : (P.recast r).IsPlain known admits := by
  refine ⟨h.1.recast hr, fun clause hclause => ?_⟩
  obtain ⟨own, hown, rfl⟩ := List.mem_map.mp hclause
  exact (h.2 own hown).recast hr

theorem IsPlain.inStyle {P : Program} (h : P.IsPlain known admits) (style : Style) :
    (P.inStyle style).IsPlain known admits :=
  h.recast fun _ hv => hv

theorem ensures_draft (h : P.IsPlain known admits) :
    Step.Ensures (Workshop.IsPlain known) (P.draft style) (Draft.IsPlain known admits) := by
  refine (Origin.ensures_begin style h.1).bind fun d hd => Step.Ensures.foldlM hd ?_
  intro d hd clause hclause
  exact Workshop.ensures_onMemo (hd.ensures_apply (h.2 clause hclause))

end Program

end Cql
