import Cql.Proofs.Mapping.Lookup

/-!
Steps that have to do with names alone. Of two memos that keep the same names, they give the same
result and the same names again, whatever the memos keep of the properties that operations may touch
and whatever was noted before.
-/

namespace Cql

/-- The memos differ at most in the properties that operations may touch. -/
def Memo.SameNames (m m' : Memo) : Prop := ∃ eligible, m' = { m with eligible }

theorem Memo.SameNames.refl (m : Memo) : m.SameNames m := ⟨m.eligible, rfl⟩

namespace Step

variable {α β : Type} {step : Step Memo α}

def ReadsNames (step : Step Memo α) : Prop :=
  ∀ s t : Logged Memo, s.state.SameNames t.state →
    (step s).1 = (step t).1 ∧ (step s).2.state.SameNames (step t).2.state

namespace ReadsNames

theorem pure (a : α) : ReadsNames (pure a) := fun _ _ h => ⟨rfl, h⟩

theorem note (event : Event) : ReadsNames (note event) := fun _ _ h => ⟨rfl, h⟩

theorem bind {next : α → Step Memo β} (h : ReadsNames step) (hnext : ∀ a, ReadsNames (next a)) :
    ReadsNames (step >>= next) := by
  intro s t hst
  obtain ⟨hresult, hstate⟩ := h s t hst
  have hbind : ∀ u, (step >>= next) u = next (step u).1 (step u).2 := fun _ => rfl
  rw [hbind, hbind, ← hresult]
  exact hnext _ _ _ hstate

end ReadsNames

end Step

namespace Resolving

variable {α β : Type} {x : Resolving α}

def ReadsNames (x : Resolving α) : Prop := Step.ReadsNames x.run

namespace ReadsNames

theorem pure (a : α) : ReadsNames (pure a) := Step.ReadsNames.pure _

theorem throw (err : Error) : ReadsNames (throw err : Resolving α) := Step.ReadsNames.pure _

theorem bind {next : α → Resolving β} (h : ReadsNames x) (hnext : ∀ a, ReadsNames (next a)) :
    ReadsNames (x >>= next) := by
  rw [ReadsNames, ExceptT.run_bind]
  refine Step.ReadsNames.bind h fun result => ?_
  cases result with
  | ok a => exact hnext a
  | error err => exact .pure _

theorem throw_bind (err : Error) {next : α → Resolving β} :
    ReadsNames (MonadExcept.throw err >>= next) := Step.ReadsNames.pure _

theorem step {step : Step Memo α} (h : Step.ReadsNames step) : ReadsNames (liftM step) :=
  Step.ReadsNames.bind h fun _ => .pure _

theorem except (result : Except Error α) : ReadsNames (liftM result) := Step.ReadsNames.pure _

end ReadsNames

end Resolving

namespace Memo

open Resolving (ReadsNames)

theorem sameNames_eligibleOf (e : Entity) (s : Logged Memo) :
    s.state.SameNames (eligibleOf e s).2.state := by
  rw [eligibleOf, Step.current_bind]
  cases s.state.eligible.lookup e.typeName with
  | some names => exact .refl _
  | none => exact ⟨_, rfl⟩

theorem readsNames_tablesOf (e : Entity) : Step.ReadsNames (tablesOf e) := by
  rintro ⟨m, log⟩ ⟨_, log'⟩ ⟨eligible, rfl⟩
  rw [tablesOf, Step.current_bind, Step.current_bind]
  dsimp only
  cases m.tableNames.lookup e.typeName with
  | some names => exact ⟨rfl, eligible, rfl⟩
  | none => exact ⟨rfl, eligible, rfl⟩

theorem readsNames_resolveFields (catalog : Catalog) (casing : Casing) (walk : List String)
    (fields : List Field) : ReadsNames (resolveFields catalog casing walk fields) := by
  -- The fields after the first one add their entries behind its own.
  have hjoin : ∀ (own : List (String × String)) {others : Resolving (List (String × String))},
      ReadsNames others → ReadsNames (do let entries ← others; return own ++ entries) :=
    fun own others hothers => hothers.bind fun _ => .pure _
  fun_induction resolveFields catalog casing walk fields with
  | case1 => exact .pure _
  | case2 walk f fs _ _ ih => exact ReadsNames.bind (.pure _) fun own => hjoin own ih
  | case3 walk f fs _ _ _ ih => exact ReadsNames.bind (.pure _) fun own => hjoin own ih
  | case4 walk f fs _ _ i _ _ ih => exact ReadsNames.bind (.pure _) fun own => hjoin own ih
  | case5 walk f fs _ _ i _ sub hsub ihothers ihsub =>
    refine (ReadsNames.step (readsNames_tablesOf sub)).bind fun tables => ?_
    split
    · exact .throw_bind _
    · rename_i hwalk
      refine (ihsub hwalk).bind fun entries => ?_
      exact ReadsNames.bind (.pure _) fun own => hjoin own ihothers

theorem readsNames_columnsOf (e : Entity) (casing : Casing) : ReadsNames (columnsOf e casing) := by
  rintro s t ⟨eligible, hst⟩
  rw [columnsOf, run_bind_ok (run_current s), run_bind_ok (run_current t), hst]
  dsimp only
  cases s.state.columnMaps.lookup (e.typeName, casing) with
  | some kept => exact ⟨rfl, eligible, hst⟩
  | none =>
    refine ((readsNames_resolveFields _ casing _ e.fields).bind fun entries => ?_) s t
      ⟨eligible, hst⟩
    refine (ReadsNames.step (.note _)).bind fun _ => ?_
    rintro ⟨m, log⟩ ⟨_, log'⟩ ⟨eligible, rfl⟩
    exact ⟨rfl, eligible, rfl⟩

end Memo

end Cql
