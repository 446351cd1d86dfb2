import Cql.Proofs.Statement.Places
import Cql.Proofs.Statement.Recast

/-!
Rendering with another binding. A statement and all its subqueries are brought to one style; the
pieces are then the same whatever the binding, with one exception: several rows with named
placeholders are a mistake.
-/

namespace Cql

open Recast (toStyle)

variable (casing : Casing) (b b' : Binding)

theorem Selection.opening_toStyle (selection : Selection) :
    (selection.recast (toStyle ⟨casing, b⟩)).opening ⟨casing, b⟩ =
      (selection.recast (toStyle ⟨casing, b'⟩)).opening ⟨casing, b'⟩ := by
  simp [opening, recast, toStyle]

namespace Predicate

mutual

theorem pieces_toStyle : ∀ (p : Predicate) (scope : Scope),
    (p.recast (toStyle ⟨casing, b⟩)).pieces ⟨casing, b⟩ scope =
      (p.recast (toStyle ⟨casing, b'⟩)).pieces ⟨casing, b'⟩ scope
  | .compare column operator v, scope => rfl
  | .between column operator low high, scope => rfl
  | .among column operator values, scope => rfl
  | .negate inner, scope => by simp only [recast, pieces, pieces_toStyle inner scope]
  | .junction connective [], scope => rfl
  | .junction connective (p :: ps), scope => by
    have hparts := partPieces_toStyle (p :: ps) scope
    simp only [recast, recastParts] at hparts ⊢
    simp only [pieces, hparts]
  | .amongText column operator text, scope => rfl
  | .amongSelect column operator selection filter, scope => by
    simp only [recast, pieces, selection.opening_toStyle casing b b']
    refine congrArg (_ >>= ·) (funext fun opened => ?_)
    rw [filterPieces_toStyle filter opened.1]
  | .raw text, scope => rfl

theorem partPieces_toStyle : ∀ (ps : List Predicate) (scope : Scope),
    partPieces ⟨casing, b⟩ scope (recastParts (toStyle ⟨casing, b⟩) ps) =
      partPieces ⟨casing, b'⟩ scope (recastParts (toStyle ⟨casing, b'⟩) ps)
  | [], scope => rfl
  | p :: ps, scope => by
    simp only [recastParts, partPieces, pieces_toStyle p scope, partPieces_toStyle ps scope]

theorem filterPieces_toStyle : ∀ (filter : Option Predicate) (scope : Scope),
    filterPieces ⟨casing, b⟩ scope (recastFilter (toStyle ⟨casing, b⟩) filter) =
      filterPieces ⟨casing, b'⟩ scope (recastFilter (toStyle ⟨casing, b'⟩) filter)
  | none, scope => rfl
  | some p, scope => by simp only [recastFilter, filterPieces, pieces_toStyle p scope]

end

end Predicate

/-- Several rows, whose placeholders would have the same names. -/
def Columns.RepeatNames : Columns → Prop
  | .rows (_ :: _ :: _) => True
  | _ => False

def Statement.RepeatsNames (s : Statement) : Prop :=
  s.operation = .insert ∧ ∃ columns ∈ s.columns, columns.RepeatNames

theorem Columns.repeatNames_recast (columns : Columns) (r : Recast) :
    (columns.recast r).RepeatNames ↔ columns.RepeatNames := by
  rcases columns with _ | _ | _ | _ | ⟨first, _ | ⟨next, others⟩⟩ <;> rfl

namespace Statement

variable (s : Statement) (scope : Scope)

theorem filterPieces_toStyle :
    (s.recast (toStyle ⟨casing, b⟩)).filterPieces ⟨casing, b⟩ scope =
      (s.recast (toStyle ⟨casing, b'⟩)).filterPieces ⟨casing, b'⟩ scope := by
  rcases hfilter : s.filter with _ | p | text
  · simp [filterPieces, recast, hfilter]
  · simp [filterPieces, recast, hfilter, Filter.recast, Predicate.pieces_toStyle casing b b' p]
  · simp [filterPieces, recast, hfilter, Filter.recast]

theorem guardPieces_toStyle :
    (s.recast (toStyle ⟨casing, b⟩)).guardPieces ⟨casing, b⟩ scope =
      (s.recast (toStyle ⟨casing, b'⟩)).guardPieces ⟨casing, b'⟩ scope := by
  rcases hguard : s.guard with _ | _ | p | text
  · simp [guardPieces, recast, hguard]
  · simp [guardPieces, recast, hguard, Guard.recast]
  · simp [guardPieces, recast, hguard, Guard.recast, Predicate.pieces_toStyle casing b b' p]
  · simp [guardPieces, recast, hguard, Guard.recast]

variable {b b'}

theorem insertBody_binding {columns : Columns} (hb : b = .named → ¬ columns.RepeatNames)
    (hb' : b' = .named → ¬ columns.RepeatNames) :
    insertBody ⟨casing, b⟩ scope columns = insertBody ⟨casing, b'⟩ scope columns := by
  obtain names | aliased | row | _ | ⟨first, _ | ⟨next, others⟩⟩ := columns
  · rfl
  · rfl
  · rfl
  · rfl
  · simp [insertBody]
  · have hnamed : b ≠ .named := fun h => hb h trivial
    have hnamed' : b' ≠ .named := fun h => hb' h trivial
    simp [insertBody, hnamed, hnamed']

theorem insertPieces_toStyle (hs : s.operation = .insert) (hb : b = .named → ¬ s.RepeatsNames)
    (hb' : b' = .named → ¬ s.RepeatsNames) :
    (s.recast (toStyle ⟨casing, b⟩)).insertPieces ⟨casing, b⟩ scope =
      (s.recast (toStyle ⟨casing, b'⟩)).insertPieces ⟨casing, b'⟩ scope := by
  have htable : (s.recast (toStyle ⟨casing, b⟩)).tableName ⟨casing, b⟩ =
      (s.recast (toStyle ⟨casing, b'⟩)).tableName ⟨casing, b'⟩ := rfl
  have hcolumns : ∀ r : Recast, (s.recast r).columns = s.columns.map (Columns.recast r) :=
    fun _ => rfl
  simp only [insertPieces, htable, hcolumns]
  cases hcase : s.columns with
  | none => rfl
  | some columns =>
    have hrecast : columns.recast (toStyle ⟨casing, b⟩) =
        columns.recast (toStyle ⟨casing, b'⟩) := by
      cases columns <;> rfl
    have hrepeat : (columns.recast (toStyle ⟨casing, b'⟩)).RepeatNames → s.RepeatsNames :=
      fun h => ⟨hs, columns, hcase, (columns.repeatNames_recast _).mp h⟩
    simp only [Option.map_some, hrecast]
    rw [insertBody_binding casing scope (fun hnamed h => hb hnamed (hrepeat h))
      (fun hnamed h => hb' hnamed (hrepeat h))]
    rfl

/-- The binding decides nothing but how the pieces are written. -/
theorem pieces_toStyle (hb : b = .named → ¬ s.RepeatsNames) (hb' : b' = .named → ¬ s.RepeatsNames) :
    (s.recast (toStyle ⟨casing, b⟩)).pieces ⟨casing, b⟩ =
      (s.recast (toStyle ⟨casing, b'⟩)).pieces ⟨casing, b'⟩ := by
  have htable : (s.recast (toStyle ⟨casing, b⟩)).tableName ⟨casing, b⟩ =
      (s.recast (toStyle ⟨casing, b'⟩)).tableName ⟨casing, b'⟩ := rfl
  rw [pieces]
  refine congrArg (_ >>= ·) (funext fun scope => ?_)
  have hfilter := s.filterPieces_toStyle casing b b' scope
  have hguard := s.guardPieces_toStyle casing b b' scope
  have hoperation : ∀ r : Recast, (s.recast r).operation = s.operation := fun _ => rfl
  rw [hoperation, hoperation]
  cases hs : s.operation with
  | insert => exact s.insertPieces_toStyle casing scope hs hb hb'
  | select =>
    simp only [selectPieces, htable, hfilter]
    rfl
  | update =>
    simp only [updatePieces, htable, hfilter, hguard]
    rfl
  | delete =>
    simp only [deletePieces, htable, hfilter, hguard]
    rfl

theorem repeatsNames_recast (r : Recast) : (s.recast r).RepeatsNames ↔ s.RepeatsNames := by
  have hcolumns : (s.recast r).columns = s.columns.map (Columns.recast r) := rfl
  simp only [RepeatsNames]
  rw [hcolumns]
  cases s.columns with
  | none => simp
  | some columns => simp [Columns.repeatNames_recast, Statement.recast]

/-- What is rendered with named placeholders does not repeat their names for several rows. -/
theorem not_repeatsNames_of_named : Resolving.Returns (s.pieces ⟨casing, .named⟩) fun _ =>
    ¬ s.RepeatsNames := by
  by_cases h : s.RepeatsNames
  · obtain ⟨hoperation, columns, hcolumns, hrepeat⟩ := h
    have hbody : ∀ scope, Yields (insertBody ⟨casing, .named⟩ scope columns) fun _ => False := by
      intro scope
      rcases columns with _ | _ | _ | _ | ⟨first, _ | ⟨next, others⟩⟩ <;>
        first | exact hrepeat.elim | skip
      simp only [insertBody]
      split
      · exact .error
      · exact .error
    rw [pieces]
    refine Resolving.returns_any.bind fun scope _ => ?_
    rw [hoperation]
    simp only [insertPieces, Option.mem_def.mp hcolumns]
    refine Resolving.returns_any.bind fun table _ => ?_
    exact (Resolving.Ensures.except (hbody scope)).bind fun _ h => h.elim
  · exact Resolving.returns_any.mono fun _ _ => h

end Statement

end Cql
