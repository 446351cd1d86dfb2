import Cql.Proofs.Mapping.Alike
import Cql.Proofs.Statement.Binding

/-!
The mistakes of rendering. A statement and all its subqueries are brought to one style; whether it
is rendered, and the mistake if it is not, then do not depend on that style where looking up its
entities does not, with one exception: several rows with named placeholders are a mistake.
-/

namespace Cql

open Recast (toStyle)
open Memo (LookUpsAgree)
open Resolving (Agree)

def Target.entities : Target → List Entity
  | .table _ => []
  | .entity e => [e]

def Selection.entities (selection : Selection) : List Entity :=
  selection.target.toList.flatMap Target.entities

namespace Predicate

mutual

/-- The entities that subqueries read. -/
def entities : Predicate → List Entity
  | .compare .. | .between .. | .among .. | .amongText .. | .raw _ => []
  | .negate inner => entities inner
  | .junction _ parts => partEntities parts
  | .amongSelect _ _ selection filter => selection.entities ++ filterEntities filter

def partEntities : List Predicate → List Entity
  | [] => []
  | p :: ps => entities p ++ partEntities ps

def filterEntities : Option Predicate → List Entity
  | none => []
  | some p => entities p

end

end Predicate

def Filter.entities : Filter → List Entity
  | .predicate p => p.entities
  | .raw _ => []

def Guard.entities : Guard → List Entity
  | .ifExists => []
  | .predicate p => p.entities
  | .raw _ => []

def Statement.entities (s : Statement) : List Entity :=
  s.target.toList.flatMap Target.entities ++ s.entity.toList ++
    s.filter.toList.flatMap Filter.entities ++ s.guard.toList.flatMap Guard.entities

variable {es : List Entity} {I : Memo → Memo → Prop} {style style' : Style} {scope scope' : Scope}

/-- Both computations return, or both make the same mistake. -/
abbrev AgreeOnMistake {α β : Type} (I : Memo → Memo → Prop) (x : Resolving α) (y : Resolving β) :
    Prop := Agree I x y fun _ _ => True

section Agree

variable (hI : LookUpsAgree es style.casing style'.casing I)
include hI

theorem Scope.agree_ofEntity? {e? : Option Entity} (h : e?.toList ⊆ es) :
    AgreeOnMistake I (ofEntity? style.casing e?) (ofEntity? style'.casing e?) := by
  cases e? with
  | none => exact .pure trivial
  | some e =>
    have he : e ∈ es := h (by simp)
    exact (hI.columns e he).bind fun _ _ _ => .pure trivial

theorem Target.agree_tableName (target : Target) :
    AgreeOnMistake I (liftM (target.tableName style.casing))
      (liftM (target.tableName style'.casing)) := by
  refine Agree.step ?_
  cases target with
  | table name => exact .pure trivial
  | entity e => exact (hI.tables e).bind fun _ _ _ => .pure trivial

theorem Selection.agree_opening {selection : Selection} (h : selection.entities ⊆ es) :
    AgreeOnMistake I ((selection.recast (toStyle style)).opening style)
      ((selection.recast (toStyle style')).opening style') := by
  have hscope : ∀ target : Target, target.entities ⊆ es →
      AgreeOnMistake I
        (Scope.ofEntity? style.casing <| match target with
          | .table _ => none
          | .entity e => some e)
        (Scope.ofEntity? style'.casing <| match target with
          | .table _ => none
          | .entity e => some e) := by
    intro target htarget
    apply Scope.agree_ofEntity? hI
    cases target with
    | table name => exact htarget
    | entity e => exact htarget
  obtain ⟨_, columns, target⟩ := selection
  change AgreeOnMistake I (opening style ⟨style, columns, target⟩)
    (opening style' ⟨style', columns, target⟩)
  simp only [opening, ne_eq, not_true_eq_false, if_false]
  cases target with
  | none => exact .throw _
  | some target =>
    have hentities : target.entities ⊆ es := by simpa [entities] using h
    refine (hscope target hentities).bind fun scope scope' _ => ?_
    split
    · exact .throw_bind _
    · exact (target.agree_tableName hI).bind fun _ _ _ => .pure trivial

end Agree

namespace Predicate

mutual

theorem agree_pieces (hI : LookUpsAgree es style.casing style'.casing I) :
    ∀ (p : Predicate) (scope scope' : Scope), p.entities ⊆ es →
      AgreeOnMistake I ((p.recast (toStyle style)).pieces style scope)
        ((p.recast (toStyle style')).pieces style' scope')
  | .compare .., _, _, _ => .pure trivial
  | .between .., _, _, _ => .pure trivial
  | .among .., _, _, _ => .pure trivial
  | .negate inner, scope, scope', h =>
    (agree_pieces hI inner scope scope' h).bind fun _ _ _ => .pure trivial
  | .junction connective [], _, _, _ => .throw _
  | .junction connective (p :: ps), scope, scope', h =>
    (agree_partPieces hI (p :: ps) scope scope' h).bind fun _ _ _ => .pure trivial
  | .amongText .., _, _, _ => .pure trivial
  | .amongSelect column operator selection filter, _, _, h => by
    obtain ⟨hselection, hfilter⟩ := List.append_subset.mp h
    exact (Selection.agree_opening hI hselection).bind fun opened opened' _ =>
      (agree_filterPieces hI filter opened.1 opened'.1 hfilter).bind fun _ _ _ => .pure trivial
  | .raw _, _, _, _ => .pure trivial

theorem agree_partPieces (hI : LookUpsAgree es style.casing style'.casing I) :
    ∀ (ps : List Predicate) (scope scope' : Scope), partEntities ps ⊆ es →
      AgreeOnMistake I (partPieces style scope (recastParts (toStyle style) ps))
        (partPieces style' scope' (recastParts (toStyle style') ps))
  | [], _, _, _ => .pure trivial
  | p :: ps, scope, scope', h => by
    obtain ⟨hfirst, hothers⟩ := List.append_subset.mp h
    exact (agree_pieces hI p scope scope' hfirst).bind fun _ _ _ =>
      (agree_partPieces hI ps scope scope' hothers).bind fun _ _ _ => .pure trivial

theorem agree_filterPieces (hI : LookUpsAgree es style.casing style'.casing I) :
    ∀ (filter : Option Predicate) (scope scope' : Scope), filterEntities filter ⊆ es →
      AgreeOnMistake I (filterPieces style scope (recastFilter (toStyle style) filter))
        (filterPieces style' scope' (recastFilter (toStyle style') filter))
  | none, _, _, _ => .pure trivial
  | some p, scope, scope', h =>
    (agree_pieces hI p scope scope' h).bind fun _ _ _ => .pure trivial

end

end Predicate

theorem Row.recast_toStyle (row : Row) : row.recast (toStyle style) = row := by
  simp [recast, toStyle]

theorem Columns.recast_toStyle (columns : Columns) : columns.recast (toStyle style) = columns := by
  cases columns with
  | names | aliased => rfl
  | row values => rw [recast, values.recast_toStyle]
  | rows list =>
    have hrow : Row.recast (toStyle style) = id := funext fun row => row.recast_toStyle
    rw [recast, hrow, List.map_id]

theorem Assignment.recast_toStyle (a : Assignment) : a.recast (toStyle style) = a := by
  cases a <;> rfl

namespace Predicate

mutual

theorem cells_toStyle (style : Style) : ∀ p : Predicate, (p.recast (toStyle style)).cells = p.cells
  | .compare .. => rfl
  | .between .. => rfl
  | .among column operator values => by rw [recast, toStyle, List.map_id]
  | .negate inner => cells_toStyle style inner
  | .junction _ parts => partCells_toStyle style parts
  | .amongText .. => rfl
  | .amongSelect _ _ _ filter => filterCells_toStyle style filter
  | .raw _ => rfl

theorem partCells_toStyle (style : Style) :
    ∀ ps : List Predicate, partCells (recastParts (toStyle style) ps) = partCells ps
  | [] => rfl
  | p :: ps => by
    rw [recastParts, partCells, partCells, cells_toStyle style p, partCells_toStyle style ps]

theorem filterCells_toStyle (style : Style) : ∀ filter : Option Predicate,
    filterCells (recastFilter (toStyle style) filter) = filterCells filter
  | none => rfl
  | some p => cells_toStyle style p

end

end Predicate

theorem Scope.matches_raw (text : String) :
    Matches (fun _ _ => True) (scope.raw text) (scope'.raw text) := by
  simp only [raw]
  split
  · exact .error _
  · exact .ok trivial

namespace Statement

variable {s : Statement}

theorem columns_toStyle (s : Statement) (style : Style) :
    (s.recast (toStyle style)).columns = s.columns := by
  have hcolumns : Columns.recast (toStyle style) = id := funext fun c => c.recast_toStyle
  rw [recast, hcolumns, Option.map_id, id]

theorem assignments_toStyle (s : Statement) (style : Style) :
    (s.recast (toStyle style)).assignments = s.assignments := by
  have hassignment : Assignment.recast (toStyle style) = id := funext fun a => a.recast_toStyle
  rw [recast, hassignment, List.map_id]

theorem cells_toStyle (s : Statement) (style : Style) :
    (s.recast (toStyle style)).cells = s.cells := by
  have hfilter : (s.recast (toStyle style)).filter = s.filter.map (Filter.recast (toStyle style)) :=
    rfl
  have hguard : (s.recast (toStyle style)).guard = s.guard.map (Guard.recast (toStyle style)) := rfl
  have hfilters : Filter.cells ∘ Filter.recast (toStyle style) = Filter.cells := by
    funext filter
    cases filter with
    | predicate p => exact p.cells_toStyle style
    | raw text => rfl
  have hguards : Guard.cells ∘ Guard.recast (toStyle style) = Guard.cells := by
    funext guard
    cases guard with
    | predicate p => exact p.cells_toStyle style
    | ifExists | raw => rfl
  rw [cells, cells, columns_toStyle, assignments_toStyle, hfilter, hguard, Option.map_map,
    Option.map_map, hfilters, hguards]
  rfl

theorem matches_insertBody {columns : Columns}
    (h : columns.RepeatNames → (style.binding = .named ↔ style'.binding = .named)) :
    Matches (fun _ _ => True) (insertBody style scope columns)
      (insertBody style' scope' columns) := by
  obtain names | aliased | row | _ | ⟨first, others⟩ := columns
  · simp only [insertBody]
    split
    · exact .error _
    · exact .ok trivial
  · exact .error _
  · simp only [insertBody]
    split
    · exact .error _
    · exact (Matches.refl _).bind fun _ _ _ => .ok trivial
  · exact .error _
  · have hnamed : (!others.isEmpty ∧ style.binding = .named) ↔
        (!others.isEmpty ∧ style'.binding = .named) := by
      cases others with
      | nil => simp
      | cons next others => rw [h trivial]
    simp only [insertBody]
    split
    · exact .error _
    by_cases hrefused : !others.isEmpty ∧ style.binding = .named
    · rw [if_pos hrefused, if_pos (hnamed.mp hrefused)]
      exact .error _
    · rw [if_neg hrefused, if_neg (mt hnamed.mpr hrefused)]
      exact (Matches.refl _).bind fun _ _ _ => .ok trivial

theorem matches_selectBody (columns : Columns) :
    Matches (fun _ _ => True) (selectBody scope columns) (selectBody scope' columns) := by
  simp only [selectBody]
  split
  · split
    · exact .error _
    split
    · exact .ok trivial
    · exact .ok trivial
  · split
    · exact .error _
    · exact .ok trivial
  · exact .error _
  · exact .error _

theorem matches_orderPieces (s : Statement) :
    Matches (fun _ _ => True) (s.orderPieces scope) (s.orderPieces scope') := by
  have hitem : ∀ item ∈ s.order,
      Matches (fun _ _ => True) (orderItem scope item) (orderItem scope' item) := by
    rintro (⟨column, _ | direction⟩ | text) -
    · exact .ok trivial
    · exact .ok trivial
    · exact Scope.matches_raw text
  rw [orderPieces, orderPieces]
  split
  · exact .ok trivial
  · exact (Matches.mapM hitem).bind fun _ _ _ => .ok trivial

theorem matches_assignmentPieces (a : Assignment) :
    Matches (fun _ _ => True) (assignmentPieces scope a) (assignmentPieces scope' a) := by
  cases a with
  | hole | value => exact .ok trivial
  | raw text => exact Scope.matches_raw text

theorem matches_deleteBody (columns : Option Columns) :
    Matches (fun _ _ => True) (deleteBody scope columns) (deleteBody scope' columns) := by
  simp only [deleteBody]
  split
  · exact .ok trivial
  · split
    · exact .ok trivial
    split
    · exact .ok trivial
    · exact .ok trivial
  · exact .error _

section Agree

variable (hI : LookUpsAgree es style.casing style'.casing I)
include hI

theorem agree_tableName (s : Statement) :
    AgreeOnMistake I (s.tableName style) (s.tableName style') := by
  simp only [tableName]
  split
  · exact Target.agree_tableName hI _
  · exact (Agree.step (hI.tables _)).bind fun _ _ _ => .pure trivial
  · exact .throw _

theorem agree_filterPieces (h : s.entities ⊆ es) :
    AgreeOnMistake I ((s.recast (toStyle style)).filterPieces style scope)
      ((s.recast (toStyle style')).filterPieces style' scope') := by
  rw [filterPieces, filterPieces, recast, recast]
  cases hfilter : s.filter with
  | none => exact .pure trivial
  | some filter =>
    have hentities : filter.entities ⊆ es := by
      refine List.Subset.trans (fun e he => ?_) h
      simp [entities, hfilter, he]
    cases filter with
    | predicate p =>
      exact (p.agree_pieces hI scope scope' hentities).bind fun _ _ _ => .pure trivial
    | raw text => exact (Agree.except (Scope.matches_raw text)).bind fun _ _ _ => .pure trivial

theorem agree_guardPieces (h : s.entities ⊆ es) :
    AgreeOnMistake I ((s.recast (toStyle style)).guardPieces style scope)
      ((s.recast (toStyle style')).guardPieces style' scope') := by
  rw [guardPieces, guardPieces, recast, recast]
  cases hguard : s.guard with
  | none => exact .pure trivial
  | some guard =>
    have hentities : guard.entities ⊆ es := by
      refine List.Subset.trans (fun e he => ?_) h
      simp [entities, hguard, he]
    cases guard with
    | ifExists => exact .pure trivial
    | predicate p =>
      exact (p.agree_pieces hI scope scope' hentities).bind fun _ _ _ => .pure trivial
    | raw text => exact (Agree.except (Scope.matches_raw text)).bind fun _ _ _ => .pure trivial

theorem agree_insertPieces (hoperation : s.operation = .insert)
    (h : s.RepeatsNames → (style.binding = .named ↔ style'.binding = .named)) :
    AgreeOnMistake I ((s.recast (toStyle style)).insertPieces style scope)
      ((s.recast (toStyle style')).insertPieces style' scope') := by
  rw [insertPieces, insertPieces, columns_toStyle, columns_toStyle]
  cases hcolumns : s.columns with
  | none => exact .throw _
  | some columns =>
    have hbody : Matches (fun _ _ => True) (insertBody style scope columns)
        (insertBody style' scope' columns) :=
      matches_insertBody fun hrepeat => h ⟨hoperation, columns, hcolumns, hrepeat⟩
    exact (s.agree_tableName hI).bind fun _ _ _ =>
      (Agree.except hbody).bind fun _ _ _ => .pure trivial

theorem agree_selectPieces (h : s.entities ⊆ es) :
    AgreeOnMistake I ((s.recast (toStyle style)).selectPieces style scope)
      ((s.recast (toStyle style')).selectPieces style' scope') := by
  rw [selectPieces, selectPieces, columns_toStyle, columns_toStyle]
  cases s.columns with
  | none => exact .throw _
  | some columns =>
    refine (s.agree_tableName hI).bind fun _ _ _ => ?_
    refine (Agree.except (matches_selectBody columns)).bind fun _ _ _ => ?_
    refine (agree_filterPieces hI h).bind fun _ _ _ => ?_
    exact (Agree.except s.matches_orderPieces).bind fun _ _ _ => .pure trivial

theorem agree_updatePieces (h : s.entities ⊆ es) :
    AgreeOnMistake I ((s.recast (toStyle style)).updatePieces style scope)
      ((s.recast (toStyle style')).updatePieces style' scope') := by
  rw [updatePieces, updatePieces]
  simp only [assignments_toStyle, Resolving.mapM_liftM]
  split
  · exact .throw_bind _
  refine (s.agree_tableName hI).bind fun _ _ _ => ?_
  refine (Agree.except (Matches.mapM fun a _ => matches_assignmentPieces a)).bind fun _ _ _ => ?_
  refine (agree_filterPieces hI h).bind fun _ _ _ => ?_
  exact (agree_guardPieces hI h).bind fun _ _ _ => .pure trivial

theorem agree_deletePieces (h : s.entities ⊆ es) :
    AgreeOnMistake I ((s.recast (toStyle style)).deletePieces style scope)
      ((s.recast (toStyle style')).deletePieces style' scope') := by
  rw [deletePieces, deletePieces, columns_toStyle, columns_toStyle]
  refine (s.agree_tableName hI).bind fun _ _ _ => ?_
  refine (Agree.except (matches_deleteBody s.columns)).bind fun _ _ _ => ?_
  refine (agree_filterPieces hI h).bind fun _ _ _ => ?_
  exact (agree_guardPieces hI h).bind fun _ _ _ => .pure trivial

/-- The style has no part in whether a statement is rendered, nor in its mistake. -/
theorem agree_pieces (hentities : s.entities ⊆ es)
    (h : s.RepeatsNames → (style.binding = .named ↔ style'.binding = .named)) :
    AgreeOnMistake I ((s.recast (toStyle style)).pieces style)
      ((s.recast (toStyle style')).pieces style') := by
  have hentity : s.entity.toList ⊆ es := by
    refine List.Subset.trans (fun e he => ?_) hentities
    simp [entities, he]
  have hoperation : ∀ style, (s.recast (toStyle style)).operation = s.operation := fun _ => rfl
  rw [pieces, pieces]
  refine (Scope.agree_ofEntity? hI hentity).bind fun scope scope' _ => ?_
  rw [hoperation, hoperation]
  cases hcase : s.operation with
  | insert => exact agree_insertPieces hI hcase h
  | select => exact agree_selectPieces hI hentities
  | update => exact agree_updatePieces hI hentities
  | delete => exact agree_deletePieces hI hentities

end Agree

end Statement

end Cql
