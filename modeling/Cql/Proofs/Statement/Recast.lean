import Cql.Proofs.Recast
import Cql.Statement.Render

/-!
Rendering with other values. Other values, expressions apart, change nothing but the values in the
pieces: the text between them, their names and the mistakes stay the same.
-/

namespace Cql

def Recast.ofValues (f : Value → Value) : Recast := { value := f }

/-- Expressions stay as they are, and nothing else becomes one. -/
structure KeepsExpressions (f : Value → Value) : Prop where
  expr : ∀ text, f (.expr text) = .expr text
  other : ∀ v, v.isExpr = false → (f v).isExpr = false

def Piece.mapValue (f : Value → Value) : Piece → Piece
  | .text s => .text s
  | .value name v => .value name (f v)
  | .hole name => .hole name

variable {f : Value → Value} {style : Style} {scope : Scope}

open Piece (mapValue)

theorem Piece.ofValue_eq {v : Value} (h : v.isExpr = false) (name : String) :
    Piece.ofValue name v = .value name v := by
  cases v <;> first | rfl | simp [Value.isExpr] at h

theorem Piece.ofValue_map (hf : KeepsExpressions f) (name : String) (v : Value) :
    Piece.ofValue name (f v) = (Piece.ofValue name v).mapValue f := by
  cases hv : v.isExpr with
  | false => rw [ofValue_eq hv, ofValue_eq (hf.other v hv), mapValue]
  | true =>
    cases v with
    | expr text => rw [hf.expr, ofValue, mapValue]
    | null | bool | int | float | text | uuid | timestamp | blob | list => simp [Value.isExpr] at hv

theorem Piece.separated_map (separator : String) (items : List (List Piece)) :
    separated separator (items.map (List.map (mapValue f))) =
      (separated separator items).map (mapValue f) := by
  fun_induction separated separator items with
  | case1 => rfl
  | case2 item => rfl
  | case3 item next items ih => simpa [separated, mapValue] using ih

@[simp]
theorem Scope.map_mapValue_names (scope : Scope) (columns : List String) :
    (scope.names columns).map (mapValue f) = scope.names columns := by
  simp [names, ← Piece.separated_map, name, mapValue, Function.comp_def]

theorem Scope.map_mapValue_raw (scope : Scope) (text : String) :
    (scope.raw text).map (List.map (mapValue f)) = scope.raw text := by
  have htokens : ∀ ts, (scope.rawTokens ts).map (mapValue f) = scope.rawTokens ts := by
    intro ts
    induction ts with
    | nil => rfl
    | cons t ts ih => simp [rawTokens, mapValue, ih]
  rw [raw]
  split
  · rfl
  · exact congrArg Except.ok (htokens _)

theorem Selection.map_mapValue_opening (selection : Selection) :
    (fun opened => (opened.1, opened.2.map (mapValue f))) <$> selection.opening style =
      selection.opening style := by
  rw [opening]
  dsimp only
  split
  · rfl
  cases selection.target with
  | none => rfl
  | some target =>
    rw [map_bind]
    refine congrArg (_ >>= ·) (funext fun scope => ?_)
    split
    · rfl
    simp only [map_bind, map_pure]
    cases fragment? selection.columns <;> simp [mapValue]

namespace Predicate

theorem memberPieces_map (scope : Scope) (column operator : String) (inside : List Piece) :
    memberPieces scope column operator (inside.map (mapValue f)) =
      (memberPieces scope column operator inside).map (mapValue f) := by
  simp [memberPieces, Scope.name, mapValue]

theorem valuePieces_map (hf : KeepsExpressions f) (column : String) (values : List Value) :
    valuePieces column (values.map f) = (valuePieces column values).map (mapValue f) := by
  simp [valuePieces, ← Piece.separated_map, List.zipIdx_map, Piece.ofValue_map hf,
    Function.comp_def]

theorem junctionPieces_map (connective : Connective) (parts : List (List Piece)) :
    junctionPieces connective (parts.map (List.map (mapValue f))) =
      (junctionPieces connective parts).map (mapValue f) := by
  have hseveral : ∀ parts : List (List Piece), Piece.separated (" " ++ connective.word ++ " ")
      ((parts.map (List.map (mapValue f))).map fun part => .text "(" :: part ++ [.text ")"]) =
        (Piece.separated (" " ++ connective.word ++ " ")
          (parts.map fun part => .text "(" :: part ++ [.text ")"])).map (mapValue f) := by
    intro parts
    simp [← Piece.separated_map, mapValue, Function.comp_def]
  obtain _ | ⟨part, _ | ⟨next, parts⟩⟩ := parts
  · rfl
  · rfl
  · exact hseveral (part :: next :: parts)

mutual

theorem pieces_ofValues (hf : KeepsExpressions f) : ∀ (p : Predicate) (scope : Scope),
    (p.recast (.ofValues f)).pieces style scope = List.map (mapValue f) <$> p.pieces style scope
  | .compare column operator v, scope => by
    simp [recast, pieces, Recast.ofValues, Piece.ofValue_map hf, Scope.name, mapValue]
  | .between column operator low high, scope => by
    simp [recast, pieces, Recast.ofValues, Piece.ofValue_map hf, Scope.name, mapValue]
  | .among column operator values, scope => by
    simp [recast, pieces, Recast.ofValues, valuePieces_map hf, memberPieces_map]
  | .negate inner, scope => by
    simp [recast, pieces, pieces_ofValues hf inner scope, mapValue]
  | .junction connective [], scope => rfl
  | .junction connective (p :: ps), scope => by
    have hparts := partPieces_ofValues hf (p :: ps) scope
    simp only [recast, recastParts] at hparts ⊢
    simp [pieces, hparts, junctionPieces_map]
  | .amongText column operator text, scope => by
    simp [recast, pieces, memberPieces, Scope.name, mapValue]
  | .amongSelect column operator selection filter, scope => by
    have hselection : selection.recast (.ofValues f) = selection := rfl
    simp only [recast, pieces, hselection]
    conv_lhs => rw [← selection.map_mapValue_opening (f := f)]
    simp [filterPieces_ofValues hf filter, ← memberPieces_map]
  | .raw text, scope => by simp [recast, pieces, mapValue]

theorem partPieces_ofValues (hf : KeepsExpressions f) : ∀ (ps : List Predicate) (scope : Scope),
    partPieces style scope (recastParts (.ofValues f) ps) =
      List.map (List.map (mapValue f)) <$> partPieces style scope ps
  | [], scope => by simp [recastParts, partPieces]
  | p :: ps, scope => by
    simp [recastParts, partPieces, pieces_ofValues hf p scope, partPieces_ofValues hf ps scope]

theorem filterPieces_ofValues (hf : KeepsExpressions f) :
    ∀ (filter : Option Predicate) (scope : Scope),
      filterPieces style scope (recastFilter (.ofValues f) filter) =
        List.map (mapValue f) <$> filterPieces style scope filter
  | none, scope => by simp [recastFilter, filterPieces]
  | some p, scope => by simp [recastFilter, filterPieces, pieces_ofValues hf p scope, mapValue]

end

end Predicate

namespace Statement

variable (s : Statement)

theorem filterPieces_ofValues (hf : KeepsExpressions f) :
    (s.recast (.ofValues f)).filterPieces style scope =
      List.map (mapValue f) <$> s.filterPieces style scope := by
  have hfilter : (s.recast (.ofValues f)).filter = s.filter.map (Filter.recast (.ofValues f)) := rfl
  simp only [filterPieces]
  rw [hfilter]
  cases s.filter with
  | none => rfl
  | some filter =>
    cases filter with
    | predicate p => simp [Filter.recast, Predicate.pieces_ofValues hf p scope, mapValue]
    | raw text =>
      simp only [Option.map_some, Filter.recast]
      conv_lhs => rw [← scope.map_mapValue_raw (f := f), Resolving.liftM_map]
      simp [mapValue]

theorem guardPieces_ofValues (hf : KeepsExpressions f) :
    (s.recast (.ofValues f)).guardPieces style scope =
      List.map (mapValue f) <$> s.guardPieces style scope := by
  have hguard : (s.recast (.ofValues f)).guard = s.guard.map (Guard.recast (.ofValues f)) := rfl
  simp only [guardPieces]
  rw [hguard]
  cases s.guard with
  | none => rfl
  | some guard =>
    cases guard with
    | ifExists => rfl
    | predicate p => simp [Guard.recast, Predicate.pieces_ofValues hf p scope, mapValue]
    | raw text =>
      simp only [Option.map_some, Guard.recast]
      conv_lhs => rw [← scope.map_mapValue_raw (f := f), Resolving.liftM_map]
      simp [mapValue]

/-- The value of a row in a column. -/
def cellPieces (row : Row) (index : Nat) (column : String) : Except Error (List Piece) :=
  match row.get? column with
  | some v => .ok [.ofValue (placeholderName column) v]
  | none => .error (.misuse (.cellMissing index column))

theorem rowPieces_eq (row : Row) (index : Nat) (columns : List String) :
    rowPieces row index columns = (columns.mapM (cellPieces row index)).map fun values =>
      .text "(" :: Piece.separated "," values ++ [.text ")"] := by
  rw [rowPieces]
  change (columns.mapM (cellPieces row index) >>= _) = _
  cases columns.mapM (cellPieces row index) <;> rfl

theorem cellPieces_ofValues (hf : KeepsExpressions f) (row : Row) (index : Nat) (column : String) :
    cellPieces (row.recast (.ofValues f)) index column =
      List.map (mapValue f) <$> cellPieces row index column := by
  simp only [cellPieces]
  rw [Row.get?_recast]
  cases row.get? column with
  | none => rfl
  | some v => exact congrArg (Except.ok [·]) (Piece.ofValue_map hf _ v)

theorem rowPieces_ofValues (hf : KeepsExpressions f) (row : Row) (index : Nat)
    (columns : List String) :
    rowPieces (row.recast (.ofValues f)) index columns =
      (rowPieces row index columns).map (List.map (mapValue f)) := by
  rw [rowPieces_eq, rowPieces_eq, mapM_eq_map_mapM (cellPieces_ofValues hf row index)]
  cases columns.mapM (cellPieces row index) with
  | error e => rfl
  | ok values => simp [Except.map, Functor.map, Piece.separated_map, mapValue]

theorem rowsPieces_ofValues (hf : KeepsExpressions f) (columns : List String) (index : Nat)
    (rows : List Row) :
    rowsPieces columns index (rows.map (Row.recast (.ofValues f))) =
      (rowsPieces columns index rows).map (List.map (List.map (mapValue f))) := by
  induction rows generalizing index with
  | nil => rfl
  | cons row rows ih =>
    rw [List.map_cons, rowsPieces, rowsPieces, rowPieces_ofValues hf, ih]
    cases rowPieces row index columns with
    | error e => rfl
    | ok first => cases rowsPieces columns (index + 1) rows <;> rfl

theorem insertBody_ofValues (hf : KeepsExpressions f) (columns : Columns) :
    insertBody style scope (columns.recast (.ofValues f)) =
      (insertBody style scope columns).map (List.map (mapValue f)) := by
  obtain names | aliased | row | _ | ⟨first, others⟩ := columns
  · simp only [Columns.recast, insertBody]
    split
    · rfl
    · simp [Except.map, mapValue, ← Piece.separated_map, Function.comp_def]
  · rfl
  · simp only [Columns.recast, insertBody, Row.isEmpty_recast, Row.names_recast,
      rowPieces_ofValues hf]
    split
    · rfl
    · cases rowPieces row 0 row.names with
      | error e => rfl
      | ok values => simp [Except.map, bind, Except.bind, pure, Except.pure, mapValue]
  · rfl
  · have hgroups := rowsPieces_ofValues hf first.names 0 (first :: others)
    rw [List.map_cons] at hgroups
    simp only [Columns.recast, List.map_cons, insertBody, Row.isEmpty_recast, Row.names_recast,
      List.isEmpty_map, hgroups]
    split
    · rfl
    split
    · rfl
    · cases rowsPieces first.names 0 (first :: others) with
      | error e => rfl
      | ok groups =>
        simp [Except.map, bind, Except.bind, pure, Except.pure, mapValue, ← Piece.separated_map]

theorem assignmentPieces_ofValues (hf : KeepsExpressions f) (a : Assignment) :
    assignmentPieces scope (a.recast (.ofValues f)) =
      List.map (mapValue f) <$> assignmentPieces scope a := by
  cases a with
  | hole c => rfl
  | value c v =>
    exact congrArg (fun p => Except.ok [scope.name c, .text " = ", p]) (Piece.ofValue_map hf _ v)
  | raw text => exact (scope.map_mapValue_raw text).symm

theorem map_mapValue_selectBody (columns : Columns) :
    (selectBody scope columns).map (List.map (mapValue f)) = selectBody scope columns := by
  have hcolumn : ∀ c, (selectColumn scope c).map (mapValue f) = selectColumn scope c := by
    intro c
    rw [selectColumn]
    split <;> rfl
  cases columns with
  | names columns =>
    simp only [selectBody]
    split
    · rfl
    split
    · rfl
    · simp [Except.map, ← Piece.separated_map, Function.comp_def, hcolumn]
  | aliased columns =>
    simp only [selectBody]
    split
    · rfl
    · simp [Except.map, ← Piece.separated_map, Function.comp_def, Scope.name, aliasPiece, mapValue]
  | row | rows => rfl

theorem selectBody_recast (columns : Columns) (r : Recast) :
    selectBody scope (columns.recast r) = selectBody scope columns := by
  cases columns <;> rfl

theorem map_mapValue_orderPieces (s : Statement) :
    (s.orderPieces scope).map (List.map (mapValue f)) = s.orderPieces scope := by
  have hitem : ∀ item, orderItem scope item = List.map (mapValue f) <$> orderItem scope item := by
    rintro (⟨c, _ | direction⟩ | text)
    · rfl
    · rfl
    · exact (scope.map_mapValue_raw text).symm
  rw [orderPieces]
  split
  · rfl
  · conv_rhs => rw [mapM_eq_map_mapM hitem]
    cases s.order.mapM (orderItem scope) with
    | error e => rfl
    | ok items =>
      simp [Except.map, bind, Except.bind, pure, Except.pure, Functor.map, mapValue,
        Piece.separated_map]

theorem map_mapValue_deleteBody (columns : Option Columns) :
    (deleteBody scope columns).map (List.map (mapValue f)) = deleteBody scope columns := by
  obtain _ | names | aliased | row | rows := columns
  · rfl
  · simp only [deleteBody]
    split
    · rfl
    split
    · rfl
    · simp [Except.map, mapValue]
  · rfl
  · rfl
  · rfl

theorem deleteBody_recast (columns : Option Columns) (r : Recast) :
    deleteBody scope (columns.map (Columns.recast r)) = deleteBody scope columns := by
  rcases columns with _ | names | aliased | row | rows <;> rfl

theorem insertPieces_ofValues (hf : KeepsExpressions f) :
    (s.recast (.ofValues f)).insertPieces style scope =
      List.map (mapValue f) <$> s.insertPieces style scope := by
  have htable : (s.recast (.ofValues f)).tableName style = s.tableName style := rfl
  have hcolumns : (s.recast (.ofValues f)).columns = s.columns.map (Columns.recast (.ofValues f)) :=
    rfl
  simp only [insertPieces]
  rw [hcolumns, htable]
  cases s.columns with
  | none => rfl
  | some columns =>
    simp only [Option.map_some, insertBody_ofValues hf, Resolving.liftM_map, bind_map_left,
      map_bind, map_pure]
    refine congrArg (_ >>= ·) (funext fun table => congrArg (_ >>= ·) (funext fun body => ?_))
    cases hcondition : s.ifNotExists <;> simp [Statement.recast, hcondition, mapValue]

theorem selectPieces_ofValues (hf : KeepsExpressions f) :
    (s.recast (.ofValues f)).selectPieces style scope =
      List.map (mapValue f) <$> s.selectPieces style scope := by
  have htable : (s.recast (.ofValues f)).tableName style = s.tableName style := rfl
  have hcolumns : (s.recast (.ofValues f)).columns = s.columns.map (Columns.recast (.ofValues f)) :=
    rfl
  have horder : (s.recast (.ofValues f)).orderPieces scope = s.orderPieces scope := rfl
  simp only [selectPieces]
  rw [hcolumns, htable, horder, filterPieces_ofValues s hf]
  cases s.columns with
  | none => rfl
  | some columns =>
    simp only [Option.map_some, selectBody_recast, bind_map_left, map_bind, map_pure]
    refine congrArg (_ >>= ·) (funext fun table => ?_)
    conv_lhs => rw [← map_mapValue_selectBody (f := f), Resolving.liftM_map, bind_map_left]
    refine congrArg (_ >>= ·) (funext fun body => congrArg (_ >>= ·) (funext fun filter => ?_))
    conv_lhs => rw [← map_mapValue_orderPieces (f := f), Resolving.liftM_map, bind_map_left]
    refine congrArg (_ >>= ·) (funext fun order => congrArg pure ?_)
    have hmodifier : (s.recast (.ofValues f)).modifier = s.modifier := rfl
    have hlimit : (s.recast (.ofValues f)).limit = s.limit := rfl
    have hfiltering : (s.recast (.ofValues f)).allowFiltering = s.allowFiltering := rfl
    rw [hmodifier, hlimit, hfiltering]
    cases s.modifier <;> cases s.limit <;> cases s.allowFiltering <;> simp [mapValue]

theorem updatePieces_ofValues (hf : KeepsExpressions f) :
    (s.recast (.ofValues f)).updatePieces style scope =
      List.map (mapValue f) <$> s.updatePieces style scope := by
  have htable : (s.recast (.ofValues f)).tableName style = s.tableName style := rfl
  have hassignments : (s.recast (.ofValues f)).assignments =
      s.assignments.map (Assignment.recast (.ofValues f)) := rfl
  unfold updatePieces
  dsimp only
  rw [hassignments, List.isEmpty_map]
  split
  · rfl
  have hset : (s.assignments.map (Assignment.recast (.ofValues f))).mapM (assignmentPieces scope) =
      (s.assignments.mapM (assignmentPieces scope)).map (List.map (List.map (mapValue f))) := by
    rw [List.mapM_map]
    exact mapM_eq_map_mapM (assignmentPieces_ofValues hf) s.assignments
  rw [htable, Resolving.mapM_liftM, Resolving.mapM_liftM, hset, Resolving.liftM_map,
    filterPieces_ofValues s hf, guardPieces_ofValues s hf]
  simp [Statement.recast, ← Piece.separated_map, mapValue]

theorem deletePieces_ofValues (hf : KeepsExpressions f) :
    (s.recast (.ofValues f)).deletePieces style scope =
      List.map (mapValue f) <$> s.deletePieces style scope := by
  have htable : (s.recast (.ofValues f)).tableName style = s.tableName style := rfl
  have hcolumns : (s.recast (.ofValues f)).columns = s.columns.map (Columns.recast (.ofValues f)) :=
    rfl
  simp only [deletePieces]
  rw [hcolumns, htable, deleteBody_recast, filterPieces_ofValues s hf, guardPieces_ofValues s hf]
  conv_lhs => rw [← map_mapValue_deleteBody (f := f), Resolving.liftM_map]
  simp [Statement.recast, mapValue]

/-- Other values make other values in the pieces, and no other difference. -/
theorem pieces_ofValues (hf : KeepsExpressions f) :
    (s.recast (.ofValues f)).pieces style = List.map (mapValue f) <$> s.pieces style := by
  have hentity : (s.recast (.ofValues f)).entity = s.entity := rfl
  have hoperation : (s.recast (.ofValues f)).operation = s.operation := rfl
  simp only [pieces]
  rw [hentity, hoperation, map_bind]
  refine congrArg (_ >>= ·) (funext fun scope => ?_)
  cases s.operation with
  | insert => exact s.insertPieces_ofValues hf
  | select => exact s.selectPieces_ofValues hf
  | update => exact s.updatePieces_ofValues hf
  | delete => exact s.deletePieces_ofValues hf

end Statement

end Cql
