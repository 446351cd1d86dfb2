import Cql.Proofs.Mapping.Names
import Cql.Statement.Render

/-!
Rendering has to do with names alone: which properties an operation may touch is settled when a
draft is begun and takes its clauses.
-/

namespace Cql

open Resolving (ReadsNames)

variable {style : Style}

theorem Scope.readsNames_ofEntity? (casing : Casing) (e? : Option Entity) :
    ReadsNames (ofEntity? casing e?) := by
  cases e? with
  | none => exact .pure _
  | some e => exact (Memo.readsNames_columnsOf e casing).bind fun _ => .pure _

theorem Target.readsNames_tableName (casing : Casing) (target : Target) :
    ReadsNames (liftM (target.tableName casing)) := by
  cases target with
  | table name => exact .step (.pure _)
  | entity e => exact .step ((Memo.readsNames_tablesOf e).bind fun _ => .pure _)

theorem Selection.readsNames_opening (selection : Selection) :
    ReadsNames (selection.opening style) := by
  obtain ⟨own, columns, target⟩ := selection
  simp only [opening]
  split
  · exact .throw_bind _
  cases target with
  | none => exact .throw _
  | some target =>
    refine (Scope.readsNames_ofEntity? _ _).bind fun scope => ?_
    split
    · exact .throw_bind _
    · exact (Target.readsNames_tableName _ target).bind fun _ => .pure _

namespace Predicate

mutual

theorem readsNames_pieces : ∀ (p : Predicate) (scope : Scope), ReadsNames (p.pieces style scope)
  | .compare .., _ => .pure _
  | .between .., _ => .pure _
  | .among .., _ => .pure _
  | .negate inner, scope => (readsNames_pieces inner scope).bind fun _ => .pure _
  | .junction _ [], _ => .throw _
  | .junction _ (p :: ps), scope =>
    (readsNames_partPieces (p :: ps) scope).bind fun _ => .pure _
  | .amongText .., _ => .pure _
  | .amongSelect _ _ selection filter, _ =>
    selection.readsNames_opening.bind fun opened =>
      (readsNames_filterPieces filter opened.1).bind fun _ => .pure _
  | .raw _, _ => .pure _

theorem readsNames_partPieces :
    ∀ (ps : List Predicate) (scope : Scope), ReadsNames (partPieces style scope ps)
  | [], _ => .pure _
  | p :: ps, scope => (readsNames_pieces p scope).bind fun _ =>
    (readsNames_partPieces ps scope).bind fun _ => .pure _

theorem readsNames_filterPieces :
    ∀ (filter : Option Predicate) (scope : Scope), ReadsNames (filterPieces style scope filter)
  | none, _ => .pure _
  | some p, scope => (readsNames_pieces p scope).bind fun _ => .pure _

end

end Predicate

namespace Statement

variable (s : Statement) (scope : Scope)

theorem readsNames_tableName : ReadsNames (s.tableName style) := by
  rw [tableName]
  cases s.target with
  | some target => exact target.readsNames_tableName style.casing
  | none =>
    cases s.entity with
    | some e => exact (ReadsNames.step (Memo.readsNames_tablesOf e)).bind fun _ => .pure _
    | none => exact .throw _

theorem readsNames_filterPieces : ReadsNames (s.filterPieces style scope) := by
  rw [filterPieces]
  obtain _ | p | text := s.filter
  · exact .pure _
  · exact (p.readsNames_pieces scope).bind fun _ => .pure _
  · exact (ReadsNames.except _).bind fun _ => .pure _

theorem readsNames_guardPieces : ReadsNames (s.guardPieces style scope) := by
  rw [guardPieces]
  obtain _ | _ | p | text := s.guard
  · exact .pure _
  · exact .pure _
  · exact (p.readsNames_pieces scope).bind fun _ => .pure _
  · exact (ReadsNames.except _).bind fun _ => .pure _

theorem readsNames_insertPieces : ReadsNames (s.insertPieces style scope) := by
  rw [insertPieces]
  cases s.columns with
  | none => exact .throw _
  | some columns =>
    exact (readsNames_tableName s).bind fun _ => (ReadsNames.except _).bind fun _ => .pure _

theorem readsNames_selectPieces : ReadsNames (s.selectPieces style scope) := by
  rw [selectPieces]
  cases s.columns with
  | none => exact .throw _
  | some columns =>
    refine (readsNames_tableName s).bind fun _ => (ReadsNames.except _).bind fun _ => ?_
    refine (readsNames_filterPieces s scope).bind fun _ => ?_
    exact (ReadsNames.except _).bind fun _ => .pure _

theorem readsNames_updatePieces : ReadsNames (s.updatePieces style scope) := by
  rw [updatePieces]
  simp only [Resolving.mapM_liftM]
  split
  · exact .throw_bind _
  refine (readsNames_tableName s).bind fun _ => (ReadsNames.except _).bind fun _ => ?_
  exact (readsNames_filterPieces s scope).bind fun _ =>
    (readsNames_guardPieces s scope).bind fun _ => .pure _

theorem readsNames_deletePieces : ReadsNames (s.deletePieces style scope) := by
  rw [deletePieces]
  refine (readsNames_tableName s).bind fun _ => (ReadsNames.except _).bind fun _ => ?_
  exact (readsNames_filterPieces s scope).bind fun _ =>
    (readsNames_guardPieces s scope).bind fun _ => .pure _

/-- What a memo keeps of the properties of entities has no part in the pieces of a statement. -/
theorem readsNames_pieces : ReadsNames (s.pieces style) := by
  rw [pieces]
  refine (Scope.readsNames_ofEntity? _ _).bind fun scope => ?_
  cases s.operation with
  | insert => exact s.readsNames_insertPieces scope
  | select => exact s.readsNames_selectPieces scope
  | update => exact s.readsNames_updatePieces scope
  | delete => exact s.readsNames_deletePieces scope

end Statement

end Cql
