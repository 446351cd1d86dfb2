import Cql.Proofs.Mapping.Exact
import Cql.Proofs.Statement.Mistakes

/-!
The pieces of a statement. With a memo that is exact about the entities of the statement they are
determined, and so is the mistake if there are none.
-/

namespace Cql

open Resolving (Determined)

variable {catalog : Catalog} {es : List Entity} {style : Style} {scope : Scope}

/-- The computation gives the same with all memos that are exact about the entities. -/
abbrev IsDetermined {α : Type} (catalog : Catalog) (es : List Entity) (x : Resolving α) : Prop :=
  Determined (Memo.IsExact catalog es) x fun _ => True

theorem isDetermined_except {α : Type} (result : Except Error α) :
    IsDetermined catalog es (liftM result) := .except fun _ _ => trivial

theorem Scope.isDetermined_ofEntity? (htold : AreTold es) (hcatalog : catalog ⊆ es)
    {e? : Option Entity} (h : e?.toList ⊆ es) :
    IsDetermined catalog es (ofEntity? style.casing e?) := by
  cases e? with
  | none => exact .pure trivial
  | some e =>
    have he : e ∈ es := h (by simp)
    have hscope : ∀ columns : ColumnMap, IsDetermined catalog es
        (pure { casing := style.casing, columns := some columns : Scope }) := fun _ => .pure trivial
    exact Memo.determined_columnsOf htold hcatalog he style.casing hscope

theorem Memo.isDetermined_tablesOf (htold : AreTold es) {e : Entity} (he : e ∈ es) :
    IsDetermined catalog es (liftM (tablesOf e)) :=
  .step (.of_ensures trivial (ensures_exact_tablesOf htold he))

theorem Target.isDetermined_tableName (htold : AreTold es) {target : Target}
    (h : target.entities ⊆ es) :
    IsDetermined catalog es (liftM (target.tableName style.casing)) := by
  cases target with
  | table name => exact .step (.pure trivial)
  | entity e =>
    have he : e ∈ es := h (by simp [entities])
    have htables : Step.Determined (Memo.IsExact catalog es) (Memo.tablesOf e) fun _ => True :=
      .of_ensures trivial (Memo.ensures_exact_tablesOf htold he)
    exact .step (htables.bind fun _ _ => .pure trivial)

theorem Selection.isDetermined_opening (htold : AreTold es) (hcatalog : catalog ⊆ es)
    {selection : Selection} (h : selection.entities ⊆ es) :
    IsDetermined catalog es (selection.opening style) := by
  have hscope : ∀ e?, e?.toList ⊆ es → IsDetermined catalog es (Scope.ofEntity? style.casing e?) :=
    fun _ he? => Scope.isDetermined_ofEntity? htold hcatalog he?
  obtain ⟨own, columns, target⟩ := selection
  simp only [opening]
  split
  · exact .throw_bind _
  cases target with
  | none => exact .throw _
  | some target =>
    have hentities : target.entities ⊆ es := by simpa [entities] using h
    refine (hscope _ (by cases target <;> exact hentities)).bind fun scope _ => ?_
    split
    · exact .throw_bind _
    · exact (Target.isDetermined_tableName htold hentities).bind fun _ _ => .pure trivial

namespace Predicate

mutual

theorem isDetermined_pieces (htold : AreTold es) (hcatalog : catalog ⊆ es) :
    ∀ (p : Predicate) (scope : Scope), p.entities ⊆ es →
      IsDetermined catalog es (p.pieces style scope)
  | .compare .., _, _ => .pure trivial
  | .between .., _, _ => .pure trivial
  | .among .., _, _ => .pure trivial
  | .negate inner, scope, h =>
    (isDetermined_pieces htold hcatalog inner scope h).bind fun _ _ => .pure trivial
  | .junction connective [], _, _ => .throw _
  | .junction connective (p :: ps), scope, h =>
    (isDetermined_partPieces htold hcatalog (p :: ps) scope h).bind fun _ _ => .pure trivial
  | .amongText .., _, _ => .pure trivial
  | .amongSelect column operator selection filter, _, h => by
    obtain ⟨hselection, hfilter⟩ := List.append_subset.mp h
    exact (Selection.isDetermined_opening htold hcatalog hselection).bind fun opened _ =>
      (isDetermined_filterPieces htold hcatalog filter opened.1 hfilter).bind fun _ _ =>
        .pure trivial
  | .raw _, _, _ => .pure trivial

theorem isDetermined_partPieces (htold : AreTold es) (hcatalog : catalog ⊆ es) :
    ∀ (ps : List Predicate) (scope : Scope), partEntities ps ⊆ es →
      IsDetermined catalog es (partPieces style scope ps)
  | [], _, _ => .pure trivial
  | p :: ps, scope, h => by
    obtain ⟨hfirst, hothers⟩ := List.append_subset.mp h
    exact (isDetermined_pieces htold hcatalog p scope hfirst).bind fun _ _ =>
      (isDetermined_partPieces htold hcatalog ps scope hothers).bind fun _ _ => .pure trivial

theorem isDetermined_filterPieces (htold : AreTold es) (hcatalog : catalog ⊆ es) :
    ∀ (filter : Option Predicate) (scope : Scope), filterEntities filter ⊆ es →
      IsDetermined catalog es (filterPieces style scope filter)
  | none, _, _ => .pure trivial
  | some p, scope, h =>
    (isDetermined_pieces htold hcatalog p scope h).bind fun _ _ => .pure trivial

end

end Predicate

namespace Statement

variable {s : Statement}

theorem isDetermined_tableName (htold : AreTold es) (h : s.entities ⊆ es) :
    IsDetermined catalog es (s.tableName style) := by
  simp only [tableName]
  split
  · rename_i target htarget
    refine Target.isDetermined_tableName htold (List.Subset.trans (fun e he => ?_) h)
    simp [entities, htarget, he]
  · rename_i e _ hentity
    have he : e ∈ es := h (by simp [entities, hentity])
    exact (Memo.isDetermined_tablesOf htold he).bind fun _ _ => .pure trivial
  · exact .throw _

theorem isDetermined_filterPieces (htold : AreTold es) (hcatalog : catalog ⊆ es)
    (h : s.entities ⊆ es) : IsDetermined catalog es (s.filterPieces style scope) := by
  rw [filterPieces]
  cases hfilter : s.filter with
  | none => exact .pure trivial
  | some filter =>
    have hentities : filter.entities ⊆ es := by
      refine List.Subset.trans (fun e he => ?_) h
      simp [entities, hfilter, he]
    cases filter with
    | predicate p =>
      exact (p.isDetermined_pieces htold hcatalog scope hentities).bind fun _ _ => .pure trivial
    | raw text => exact (isDetermined_except _).bind fun _ _ => .pure trivial

theorem isDetermined_guardPieces (htold : AreTold es) (hcatalog : catalog ⊆ es)
    (h : s.entities ⊆ es) : IsDetermined catalog es (s.guardPieces style scope) := by
  rw [guardPieces]
  cases hguard : s.guard with
  | none => exact .pure trivial
  | some guard =>
    have hentities : guard.entities ⊆ es := by
      refine List.Subset.trans (fun e he => ?_) h
      simp [entities, hguard, he]
    cases guard with
    | ifExists => exact .pure trivial
    | predicate p =>
      exact (p.isDetermined_pieces htold hcatalog scope hentities).bind fun _ _ => .pure trivial
    | raw text => exact (isDetermined_except _).bind fun _ _ => .pure trivial

theorem isDetermined_insertPieces (htold : AreTold es) (h : s.entities ⊆ es) :
    IsDetermined catalog es (s.insertPieces style scope) := by
  rw [insertPieces]
  cases s.columns with
  | none => exact .throw _
  | some columns =>
    exact (isDetermined_tableName htold h).bind fun _ _ =>
      (isDetermined_except _).bind fun _ _ => .pure trivial

theorem isDetermined_selectPieces (htold : AreTold es) (hcatalog : catalog ⊆ es)
    (h : s.entities ⊆ es) : IsDetermined catalog es (s.selectPieces style scope) := by
  rw [selectPieces]
  cases s.columns with
  | none => exact .throw _
  | some columns =>
    refine (isDetermined_tableName htold h).bind fun _ _ => ?_
    refine (isDetermined_except _).bind fun _ _ => ?_
    refine (isDetermined_filterPieces htold hcatalog h).bind fun _ _ => ?_
    exact (isDetermined_except _).bind fun _ _ => .pure trivial

theorem isDetermined_updatePieces (htold : AreTold es) (hcatalog : catalog ⊆ es)
    (h : s.entities ⊆ es) : IsDetermined catalog es (s.updatePieces style scope) := by
  rw [updatePieces]
  simp only [Resolving.mapM_liftM]
  split
  · exact .throw_bind _
  refine (isDetermined_tableName htold h).bind fun _ _ => ?_
  refine (isDetermined_except _).bind fun _ _ => ?_
  refine (isDetermined_filterPieces htold hcatalog h).bind fun _ _ => ?_
  exact (isDetermined_guardPieces htold hcatalog h).bind fun _ _ => .pure trivial

theorem isDetermined_deletePieces (htold : AreTold es) (hcatalog : catalog ⊆ es)
    (h : s.entities ⊆ es) : IsDetermined catalog es (s.deletePieces style scope) := by
  rw [deletePieces]
  refine (isDetermined_tableName htold h).bind fun _ _ => ?_
  refine (isDetermined_except _).bind fun _ _ => ?_
  refine (isDetermined_filterPieces htold hcatalog h).bind fun _ _ => ?_
  exact (isDetermined_guardPieces htold hcatalog h).bind fun _ _ => .pure trivial

/-- What a memo keeps has no part in the pieces of a statement, nor in its mistake. -/
theorem isDetermined_pieces (htold : AreTold es) (hcatalog : catalog ⊆ es) (h : s.entities ⊆ es) :
    IsDetermined catalog es (s.pieces style) := by
  have hentity : s.entity.toList ⊆ es := by
    refine List.Subset.trans (fun e he => ?_) h
    simp [entities, he]
  rw [pieces]
  refine (Scope.isDetermined_ofEntity? htold hcatalog hentity).bind fun scope _ => ?_
  cases s.operation with
  | insert => exact isDetermined_insertPieces htold h
  | select => exact isDetermined_selectPieces htold hcatalog h
  | update => exact isDetermined_updatePieces htold hcatalog h
  | delete => exact isDetermined_deletePieces htold hcatalog h

end Statement

end Cql
