import Cql.Proofs.Recast

/-!
What a clause can do to a draft, and what no clause changes: the style of the draft and its buffer.
-/

namespace Cql

/-- A draft before and after a clause. -/
inductive Draft.Takes (d : Draft) (clause : Clause) : Draft → Prop
  /-- The draft is closed or holds a mistake. -/
  | idle : d.fault.isSome ∨ d.isClosed → Takes d clause d
  | added {eligibleOf : Entity → Eligible} {s : Statement} : d.fault = none → d.isClosed = false →
    d.statement.operation ∈ clause.kind.operations → d.statement.add eligibleOf clause = .ok s →
    Takes d clause { d with statement := s }
  | misused {eligibleOf : Entity → Eligible} {e : Error} : d.fault = none → d.isClosed = false →
    d.statement.operation ∈ clause.kind.operations → d.statement.add eligibleOf clause = .error e →
    Takes d clause (d.fail e)
  | foreign : d.fault = none → d.isClosed = false →
    d.statement.operation ∉ clause.kind.operations →
    Takes d clause (d.fail (.misuse (.notTaken clause.kind d.statement.operation)))

theorem Statement.addClause_cases (s : Statement) (clause : Clause) :
    Step.Ensures (fun _ => True) (s.addClause clause) fun result =>
      ∃ eligibleOf, s.add eligibleOf clause = result := by
  simp only [addClause]
  split
  · exact Step.ensures_any.bind fun eligible _ => .pure ⟨_, rfl⟩
  · exact .pure ⟨_, rfl⟩

namespace Draft

variable {d d' : Draft} {clause : Clause}

theorem apply_takes (d : Draft) (clause : Clause) :
    Step.Ensures (fun _ => True) (d.apply clause) (d.Takes clause) := by
  unfold apply
  split
  · rename_i hidle
    exact .pure (.idle hidle)
  rename_i hopen
  rw [not_or, Bool.not_eq_true, Bool.not_eq_true, Option.isSome_eq_false_iff,
    Option.isNone_iff_eq_none] at hopen
  split
  · rename_i hoperation
    refine (d.statement.addClause_cases clause).bind fun result ⟨eligibleOf, hadd⟩ => .pure ?_
    cases result with
    | ok s => exact .added hopen.1 hopen.2 hoperation hadd
    | error e => exact .misused hopen.1 hopen.2 hoperation hadd
  · rename_i hoperation
    exact .pure (.foreign hopen.1 hopen.2 hoperation)

theorem Takes.style (h : d.Takes clause d') : d'.style = d.style := by cases h <;> rfl

theorem Takes.buffer (h : d.Takes clause d') : d'.buffer = d.buffer := by cases h <;> rfl

/-- A clause that leaves an open draft without a mistake is added. -/
theorem Takes.added_of_fault (h : d.Takes clause d') (hopen : d.isClosed = false)
    (hfault : d'.fault = none) : d.fault = none ∧
      d.statement.operation ∈ clause.kind.operations ∧
      ∃ eligibleOf, d.statement.add eligibleOf clause = .ok d'.statement := by
  cases h with
  | idle hidle => simp [hfault, hopen] at hidle
  | added hnone _ hoperation hadd => exact ⟨hnone, hoperation, _, hadd⟩
  | misused hnone | foreign hnone => simp [fail, hnone] at hfault

end Draft

theorem Workshop.any_onMemo {α : Type} {Q : α → Prop} {step : Step Memo α}
    (h : Step.Ensures (fun _ => True) step Q) : Step.Ensures (fun _ => True) (onMemo step) Q :=
  h.within (fun _ _ => trivial) fun _ _ _ _ => trivial

/-- An origin begins a draft in its style. -/
theorem Origin.style_begin (style : Style) (origin : Origin) :
    Step.Ensures (fun _ => True) (origin.begin style) fun d => d.style = style := by
  have hstart : ∀ s, Step.Ensures (fun _ => True) (start style s) fun d => d.style = style :=
    fun s => Step.ensures_any.bind fun buffer _ => .pure rfl
  have happly : ∀ (d : Draft) clause, d.style = style →
      Step.Ensures (fun _ => True) (Workshop.onMemo (d.apply clause)) fun d' =>
        d'.style = style := fun d clause hd =>
    Workshop.any_onMemo ((d.apply_takes clause).mono fun d' htakes => htakes.style.trans hd)
  cases origin with
  | insert | insertRow | insertRows | select | selectAliased | selectWith | update | updateType
  | deleteFrom | deleteEntity | delete => exact hstart _
  | insertEntity | insertEntities | selectEntity =>
    exact Step.ensures_any.bind fun _ _ => hstart _
  | selectNested e excluded =>
    refine (hstart _).bind fun d hd => Step.ensures_any.bind fun result _ => ?_
    cases result <;> exact .pure hd
  | updateEntity e snapshot excluded =>
    refine (hstart _).bind fun d hd => (happly d _ hd).bind fun d hd => ?_
    split
    · exact .pure hd
    · exact happly d _ hd

end Cql
