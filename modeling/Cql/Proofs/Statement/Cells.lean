import Cql.Proofs.Step
import Cql.Statement.Render

/-!
The cells of a statement, in the order of the text: each value, and each column that is left to the
caller. They are read off the statement itself: clause by clause, a row after the other, and a
predicate from left to right with its subqueries where they stand. Whatever a statement is rendered
to bears these cells, each at its place: an expression as text and every other value as a value.
-/

namespace Cql

/-- Texts that stand in a text one after the other, without overlap. -/
def Text.InOrder : List String → List Char → Prop
  | [], _ => True
  | t :: ts, cs => ∃ before after, cs = before ++ (t.toList ++ after) ∧ InOrder ts after

theorem Text.InOrder.append_left {ts : List String} {cs : List Char} (h : InOrder ts cs)
    (front : List Char) : InOrder ts (front ++ cs) := by
  cases ts with
  | nil => trivial
  | cons t ts =>
    obtain ⟨before, after, rfl, hrest⟩ := h
    exact ⟨front ++ before, after, (List.append_assoc ..).symm, hrest⟩

def Value.expression? : Value → Option String
  | .expr t => some t
  | _ => none

/-- A value, or nothing where the caller binds one, with the name that a placeholder for it has. -/
structure Place where
  name : String
  /-- Nothing where the caller binds the value. -/
  value? : Option Value

namespace Place

/-- The values in cells, expressions too. -/
def values (cells : List Place) : List Value := cells.filterMap value?

@[simp]
theorem values_nil : values [] = [] := rfl

@[simp]
theorem values_cons (name : String) (v : Value) (cells : List Place) :
    values (⟨name, some v⟩ :: cells) = v :: values cells := rfl

@[simp]
theorem values_hole_cons (name : String) (cells : List Place) :
    values (⟨name, none⟩ :: cells) = values cells := rfl

@[simp]
theorem values_append (cells others : List Place) :
    values (cells ++ others) = values cells ++ values others := List.filterMap_append

@[simp]
theorem values_flatMap {α : Type} (f : α → List Place) (as : List α) :
    values (as.flatMap f) = as.flatMap fun a => values (f a) := List.filterMap_flatMap

end Place

namespace Piece

/-- The pieces hold the cells one after the other, with text between them. -/
inductive Bears : List Piece → List Place → Prop
  | nil : Bears [] []
  | text {ps cells} (s : String) : Bears ps cells → Bears (.text s :: ps) cells
  | value {ps cells} (name : String) (v : Value) : Bears ps cells →
      Bears (.ofValue name v :: ps) (⟨name, some v⟩ :: cells)
  | hole {ps cells} (name : String) : Bears ps cells →
      Bears (.hole name :: ps) (⟨name, none⟩ :: cells)

namespace Bears

variable {ps qs : List Piece} {cells others : List Place}

theorem append (h : Bears ps cells) (hqs : Bears qs others) :
    Bears (ps ++ qs) (cells ++ others) := by
  induction h with
  | nil => exact hqs
  | text s _ ih => exact .text s ih
  | value name v _ ih => exact .value name v ih
  | hole name _ ih => exact .hole name ih

theorem append_text (h : Bears ps cells) (s : String) : Bears (ps ++ [.text s]) cells := by
  simpa using h.append (.text s .nil)

/-- Text after the cells. -/
theorem append_nil (h : Bears ps cells) (hqs : Bears qs []) : Bears (ps ++ qs) cells := by
  simpa using h.append hqs

/-- Text before the cells. -/
theorem nil_append (hps : Bears ps []) (h : Bears qs cells) : Bears (ps ++ qs) cells :=
  hps.append h

variable {α : Type} {f : α → List Place} {as : List α}

theorem separated (separator : String) {items : List (List Piece)}
    (h : List.Forall₂ (fun a ps => Bears ps (f a)) as items) :
    Bears (Piece.separated separator items) (as.flatMap f) := by
  induction h with
  | nil => exact .nil
  | @cons a item as items hitem hitems ih =>
    rw [List.flatMap_cons]
    cases items with
    | nil =>
      cases hitems
      simpa [Piece.separated] using hitem
    | cons next items => exact hitem.append (.text separator ih)

theorem separated_map (separator : String) {g : α → List Piece} (h : ∀ a ∈ as, Bears (g a) (f a)) :
    Bears (Piece.separated separator (as.map g)) (as.flatMap f) := by
  apply separated
  rw [List.forall₂_map_right_iff, List.forall₂_same]
  exact h

/-- Items of one cell each. -/
theorem separated_each (separator : String) {g : α → List Piece} {cell : α → Place}
    (h : ∀ a ∈ as, Bears (g a) [cell a]) :
    Bears (Piece.separated separator (as.map g)) (as.map cell) := by
  rw [List.map_eq_flatMap (f := cell)]
  exact separated_map separator h

/-- Items that are text, with text between them. -/
theorem separated_texts (separator : String) {items : List (List Piece)}
    (h : ∀ item ∈ items, Bears item []) : Bears (Piece.separated separator items) [] := by
  have hitems := separated_map (f := fun _ => []) separator h
  have hnil : items.flatMap (fun _ => ([] : List Place)) = [] :=
    List.flatMap_eq_nil_iff.mpr fun _ _ => rfl
  rwa [hnil, List.map_id'] at hitems

/-- The parameters are the values in the cells, without the expressions. -/
theorem parametersOf_eq {b : Binding} (hb : b ≠ .literal) (h : Bears ps cells) :
    parametersOf b ps = (Place.values cells).filter (!·.isExpr) := by
  induction h with
  | nil => rfl
  | text s _ ih => exact ih
  | value name v _ ih =>
    rw [parametersOf] at ih ⊢
    rw [Place.values_cons, List.filter_cons, ← ih]
    cases v <;> simp [ofValue, parameter?, Value.isExpr, List.filterMap_cons, hb]
  | hole name _ ih => exact ih

/-- The expressions in the cells stand in the text, in their order. -/
theorem inOrder (b : Binding) (h : Bears ps cells) :
    Text.InOrder ((Place.values cells).filterMap Value.expression?) (textOf b ps).toList := by
  induction h with
  | nil => trivial
  | text s _ ih =>
    rw [textOf_cons, String.toList_append]
    exact ih.append_left _
  | value name v _ ih =>
    rw [textOf_cons, String.toList_append, Place.values_cons]
    cases v with
    | expr t => exact ⟨[], _, rfl, ih⟩
    | null | bool | int | float | text | uuid | timestamp | blob | list => exact ih.append_left _
  | hole name _ ih =>
    rw [textOf_cons, String.toList_append]
    exact ih.append_left _

end Bears

end Piece

open Piece (Bears)

def rowCells (columns : List String) (row : Row) : List Place :=
  columns.flatMap fun c => (row.get? c).toList.map fun v => ⟨placeholderName c, some v⟩

namespace Predicate

mutual

def cells : Predicate → List Place
  | .compare column _ v => [⟨placeholderName column, some v⟩]
  | .between column _ low high =>
    [⟨camelAfter "min" (placeholderName column), some low⟩,
      ⟨camelAfter "max" (placeholderName column), some high⟩]
  | .among column _ values =>
    values.zipIdx.map fun (v, i) => ⟨placeholderName column ++ toString (i + 1), some v⟩
  | .negate inner => cells inner
  | .junction _ parts => partCells parts
  | .amongText .. => []
  | .amongSelect _ _ _ filter => filterCells filter
  | .raw _ => []

def partCells : List Predicate → List Place
  | [] => []
  | p :: ps => cells p ++ partCells ps

def filterCells : Option Predicate → List Place
  | none => []
  | some p => cells p

end

theorem partCells_eq (ps : List Predicate) : partCells ps = ps.flatMap cells := by
  induction ps with
  | nil => rfl
  | cons p ps ih => rw [partCells, ih, List.flatMap_cons]

/-- The values of a predicate from left to right, expressions too. -/
def operands (p : Predicate) : List Value := Place.values p.cells

theorem operands_compare (column operator : String) (v : Value) :
    (compare column operator v).operands = [v] := rfl

theorem operands_between (column operator : String) (low high : Value) :
    (between column operator low high).operands = [low, high] := rfl

theorem operands_among (column operator : String) (values : List Value) :
    (among column operator values).operands = values := by
  have hcells : ∀ (items : List (Value × Nat)) (name : Value × Nat → String),
      Place.values (items.map fun item => ⟨name item, some item.1⟩) = items.map Prod.fst := by
    intro items name
    induction items with
    | nil => rfl
    | cons item items ih => rw [List.map_cons, Place.values_cons, ih, List.map_cons]
  exact (hcells values.zipIdx _).trans (List.zipIdx_map_fst 0 values)

theorem operands_negate (inner : Predicate) : (negate inner).operands = inner.operands := rfl

theorem operands_junction (connective : Connective) (parts : List Predicate) :
    (junction connective parts).operands = parts.flatMap operands := by
  rw [operands, cells, partCells_eq, Place.values_flatMap]
  rfl

theorem operands_amongSelect (column operator : String) (selection : Selection)
    (filter : Option Predicate) : (amongSelect column operator selection filter).operands =
      (filter.map operands).getD [] := by
  cases filter <;> rfl

end Predicate

def Columns.cells : Columns → List Place
  | .names columns => columns.map fun c => ⟨placeholderName c, none⟩
  | .aliased _ => []
  | .row values => rowCells values.names values
  | .rows [] => []
  | .rows (first :: others) => (first :: others).flatMap (rowCells first.names)

def Assignment.cells : Assignment → List Place
  | .hole column => [⟨placeholderName column, none⟩]
  | .value column v => [⟨placeholderName column, some v⟩]
  | .raw _ => []

def Filter.cells : Filter → List Place
  | .predicate p => p.cells
  | .raw _ => []

def Guard.cells : Guard → List Place
  | .ifExists => []
  | .predicate p => p.cells
  | .raw _ => []

def Statement.cells (s : Statement) : List Place :=
  let filter := (s.filter.map Filter.cells).getD []
  let guard := (s.guard.map Guard.cells).getD []
  match s.operation with
  | .insert => (s.columns.map Columns.cells).getD []
  | .select => filter
  | .update => s.assignments.flatMap Assignment.cells ++ filter ++ guard
  | .delete => filter ++ guard

/-- A step that returns at all returns such a result, from every memo. -/
def Resolving.Returns {α : Type} (x : Resolving α) (Q : α → Prop) : Prop :=
  Resolving.Ensures (fun _ => True) x Q

open Resolving (Returns)

theorem Resolving.returns_any {α : Type} {x : Resolving α} : Returns x fun _ => True :=
  fun _ _ => ⟨trivial, fun _ _ => trivial⟩

variable {style : Style} {scope : Scope}

theorem Scope.bears_rawTokens (scope : Scope) (ts : List Token) :
    Bears (scope.rawTokens ts) [] := by
  induction ts with
  | nil => exact .nil
  | cons t ts ih => exact .text _ ih

theorem Scope.bears_raw (scope : Scope) (text : String) :
    Yields (scope.raw text) fun ps => Bears ps [] := by
  rw [raw]
  split
  · exact .error
  · exact .ok (scope.bears_rawTokens _)

theorem Scope.bears_name (scope : Scope) (logical : String) : Bears [scope.name logical] [] :=
  .text _ .nil

theorem Scope.bears_names (scope : Scope) (columns : List String) :
    Bears (scope.names columns) [] := by
  apply Bears.separated_texts
  intro item hitem
  obtain ⟨c, -, rfl⟩ := List.mem_map.mp hitem
  exact scope.bears_name c

theorem Selection.bears_opening (selection : Selection) :
    Returns (selection.opening style) fun opened => Bears opened.2 [] := by
  rw [opening]
  dsimp only
  split
  · exact .throw_bind
  cases selection.target with
  | none => exact .throw
  | some target =>
    refine Resolving.returns_any.bind fun scope _ => ?_
    split
    · exact .throw_bind
    refine Resolving.returns_any.bind fun table _ => .pure ?_
    have hfrom : Bears [.text " FROM ", .text table] [] := .text _ (.text _ .nil)
    cases fragment? selection.columns with
    | none => exact .text _ ((scope.bears_names _).nil_append hfrom)
    | some text => exact .text _ (.text _ hfrom)

namespace Predicate

theorem bears_memberPieces (scope : Scope) (column operator : String) {inside : List Piece}
    {cells : List Place} (h : Bears inside cells) :
    Bears (memberPieces scope column operator inside) cells :=
  .text _ (.text _ (h.append_text ")"))

theorem bears_valuePieces (column : String) (values : List Value) :
    Bears (valuePieces column values) (Predicate.among column "" values).cells := by
  apply Bears.separated_each
  rintro ⟨v, i⟩ -
  exact .value _ v .nil

theorem bears_junctionPieces {α : Type} (connective : Connective) {f : α → List Place}
    {as : List α} {parts : List (List Piece)}
    (h : List.Forall₂ (fun a ps => Bears ps (f a)) as parts) :
    Bears (junctionPieces connective parts) (as.flatMap f) := by
  unfold junctionPieces
  split
  · rename_i only
    obtain ⟨a, as, honly, hnil, rfl⟩ := List.forall₂_cons_right_iff.mp h
    cases hnil
    simpa using honly
  · apply Bears.separated
    rw [List.forall₂_map_right_iff]
    exact h.imp fun a ps hps => .text "(" (hps.append_text ")")

mutual

theorem bears_pieces : ∀ (p : Predicate) (scope : Scope),
    Returns (p.pieces style scope) fun ps => Bears ps p.cells
  | .compare column operator v, _ => .pure (.text _ (.text _ (.value _ v .nil)))
  | .between column operator low high, scope =>
    .pure (.text _ (.text _ (.value _ low (.text _ (.value _ high .nil)))))
  | .among column operator values, scope =>
    .pure (bears_memberPieces scope column operator (bears_valuePieces column values))
  | .negate inner, scope =>
    (bears_pieces inner scope).bind fun inside hinside => .pure (.text _ (hinside.append_text ")"))
  | .junction connective [], scope => .throw
  | .junction connective (p :: ps), scope =>
    (bears_partPieces (p :: ps) scope).bind fun parts hparts => .pure (by
      rw [cells, partCells_eq]
      exact bears_junctionPieces connective hparts)
  | .amongText column operator text, scope =>
    .pure (bears_memberPieces scope column operator (.text text .nil))
  | .amongSelect column operator selection filter, scope =>
    selection.bears_opening.bind fun opened hopened =>
      (bears_filterPieces filter opened.1).bind fun closing hclosing =>
        .pure (bears_memberPieces scope column operator (hopened.nil_append hclosing))
  | .raw text, scope => .pure (.text text .nil)

theorem bears_partPieces : ∀ (ps : List Predicate) (scope : Scope),
    Returns (partPieces style scope ps) fun parts =>
      List.Forall₂ (fun p part => Bears part p.cells) ps parts
  | [], _ => .pure .nil
  | p :: ps, scope =>
    (bears_pieces p scope).bind fun _ hfirst =>
      (bears_partPieces ps scope).bind fun _ hothers => .pure (.cons hfirst hothers)

theorem bears_filterPieces : ∀ (filter : Option Predicate) (scope : Scope),
    Returns (filterPieces style scope filter) fun ps => Bears ps (filterCells filter)
  | none, _ => .pure .nil
  | some p, scope => (bears_pieces p scope).bind fun _ hinside => .pure (.text _ hinside)

end

end Predicate

namespace Statement

variable {s : Statement}

theorem bears_filterPieces (s : Statement) (scope : Scope) :
    Returns (s.filterPieces style scope) fun ps =>
      Bears ps ((s.filter.map Filter.cells).getD []) := by
  rw [filterPieces]
  cases s.filter with
  | none => exact .pure .nil
  | some filter =>
    cases filter with
    | predicate p => exact (p.bears_pieces scope).bind fun ps hps => .pure (.text _ hps)
    | raw text =>
      exact (Resolving.Ensures.except (scope.bears_raw text)).bind fun ps hps =>
        .pure (.text _ hps)

theorem bears_guardPieces (s : Statement) (scope : Scope) :
    Returns (s.guardPieces style scope) fun ps =>
      Bears ps ((s.guard.map Guard.cells).getD []) := by
  rw [guardPieces]
  cases s.guard with
  | none => exact .pure .nil
  | some guard =>
    cases guard with
    | ifExists => exact .pure (.text _ .nil)
    | predicate p => exact (p.bears_pieces scope).bind fun ps hps => .pure (.text _ hps)
    | raw text =>
      exact (Resolving.Ensures.except (scope.bears_raw text)).bind fun ps hps =>
        .pure (.text _ hps)

theorem bears_rowPieces (row : Row) (index : Nat) (columns : List String) :
    Yields (rowPieces row index columns) fun ps => Bears ps (rowCells columns row) := by
  refine yields_mapM.bind fun values hvalues => .ok ?_
  have hcells : Bears (Piece.separated "," values) (rowCells columns row) := by
    apply Bears.separated
    refine hvalues.imp fun c ps hps => ?_
    cases hv : row.get? c with
    | none => simp [hv] at hps
    | some v =>
      obtain rfl : [Piece.ofValue (placeholderName c) v] = ps := by simpa [hv] using hps
      exact .value _ v .nil
  exact .text _ (hcells.append_text ")")

theorem bears_rowsPieces (columns : List String) (index : Nat) (rows : List Row) :
    Yields (rowsPieces columns index rows) fun groups =>
      List.Forall₂ (fun row ps => Bears ps (rowCells columns row)) rows groups := by
  induction rows generalizing index with
  | nil => exact .ok .nil
  | cons row rows ih =>
    refine (bears_rowPieces row index columns).bind fun first hfirst => ?_
    exact (ih (index + 1)).bind fun others hothers => .ok (.cons hfirst hothers)

theorem bears_insertBody (columns : Columns) :
    Yields (insertBody style scope columns) fun ps => Bears ps columns.cells := by
  simp only [insertBody]
  split
  · rename_i names
    split
    · exact .error
    have hholes : Bears (Piece.separated "," (names.map fun c => [.hole (placeholderName c)]))
        (Columns.cells (.names names)) :=
      Bears.separated_each "," fun c _ => .hole _ .nil
    exact .ok (((scope.bears_names names).nil_append (.text _ hholes)).append_text ")")
  · split
    · exact .error
    · exact (bears_rowPieces _ _ _).bind fun ps hps =>
        .ok ((scope.bears_names _).nil_append (.text _ hps))
  · exact .error
  · split
    · exact .error
    split
    · exact .error
    · exact (bears_rowsPieces _ _ _).bind fun groups hgroups =>
        .ok ((scope.bears_names _).nil_append (.text _ (Bears.separated ", " hgroups)))
  · exact .error

theorem bears_selectColumn (scope : Scope) (column : String) :
    Bears (selectColumn scope column) [] := by
  rw [selectColumn]
  split
  · exact .text _ (.text _ .nil)
  · exact scope.bears_name column

theorem bears_selectBody (columns : Columns) :
    Yields (selectBody scope columns) fun ps => Bears ps [] := by
  simp only [selectBody]
  split
  · rename_i names
    split
    · exact .error
    split
    · exact .ok (.text _ .nil)
    · apply Yields.ok
      apply Bears.separated_texts
      intro item hitem
      obtain ⟨c, -, rfl⟩ := List.mem_map.mp hitem
      exact bears_selectColumn scope c
  · split
    · exact .error
    · apply Yields.ok
      apply Bears.separated_texts
      intro item hitem
      obtain ⟨c, -, rfl⟩ := List.mem_map.mp hitem
      exact .text _ (.text _ .nil)
  · exact .error
  · exact .error

theorem bears_orderItem (item : OrderItem) :
    Yields (orderItem scope item) fun ps => Bears ps [] := by
  obtain ⟨c, _ | direction⟩ | text := item
  · exact .ok (scope.bears_name c)
  · exact .ok (.text _ (.text _ .nil))
  · exact scope.bears_raw text

theorem bears_orderPieces (s : Statement) :
    Yields (s.orderPieces scope) fun ps => Bears ps [] := by
  rw [orderPieces]
  split
  · exact .ok .nil
  · have hitem : ∀ item ∈ s.order, Yields (orderItem scope item) fun ps => Bears ps [] :=
      fun item _ => bears_orderItem item
    exact (yields_mapM_of_forall hitem).bind fun items hitems =>
      .ok (.text _ (Bears.separated_texts ", " hitems))

theorem bears_assignmentPieces (a : Assignment) :
    Yields (assignmentPieces scope a) fun ps => Bears ps a.cells := by
  cases a with
  | hole c => exact .ok (.text _ (.text _ (.hole _ .nil)))
  | value c v => exact .ok (.text _ (.text _ (.value _ v .nil)))
  | raw text => exact scope.bears_raw text

theorem bears_deleteBody (columns : Option Columns) :
    Yields (deleteBody scope columns) fun ps => Bears ps [] := by
  simp only [deleteBody]
  split
  · exact .ok .nil
  · rename_i names
    split
    · exact .ok .nil
    split
    · exact .ok (.text _ .nil)
    · exact .ok ((scope.bears_names names).append_text " ")
  · exact .error

theorem bears_insertPieces (hoperation : s.operation = .insert) :
    Returns (s.insertPieces style scope) fun ps => Bears ps s.cells := by
  rw [insertPieces]
  split
  · exact .throw
  rename_i columns hcolumns
  refine Resolving.returns_any.bind fun table _ => ?_
  refine (Resolving.Ensures.except (bears_insertBody columns)).bind fun body hbody => .pure ?_
  have hcells : s.cells = columns.cells := by simp [cells, hoperation, hcolumns]
  have hcondition : Bears (if s.ifNotExists then [.text " IF NOT EXISTS"] else []) [] := by
    split
    · exact .text _ .nil
    · exact .nil
  rw [hcells]
  exact .text _ ((hbody.append_nil hcondition).append_text _)

theorem bears_selectPieces (hoperation : s.operation = .select) :
    Returns (s.selectPieces style scope) fun ps => Bears ps s.cells := by
  rw [selectPieces]
  split
  · exact .throw
  rename_i columns hcolumns
  refine Resolving.returns_any.bind fun table _ => ?_
  refine (Resolving.Ensures.except (bears_selectBody columns)).bind fun body hbody => ?_
  refine (bears_filterPieces s scope).bind fun filter hfilter => ?_
  refine (Resolving.Ensures.except (bears_orderPieces s)).bind fun order horder => .pure ?_
  have hcells : s.cells = (s.filter.map Filter.cells).getD [] := by simp [cells, hoperation]
  have hwhere : ∀ {head}, Bears head [] →
      Bears (.text "SELECT " :: head ++ body ++ .text (" FROM " ++ table) :: filter ++ order)
        s.cells := by
    intro head hhead
    rw [hcells]
    exact (((hhead.text "SELECT ").nil_append hbody).nil_append (hfilter.text _)).append_nil horder
  refine Bears.append_nil (Bears.append_nil (hwhere ?_) ?_) ?_
  · cases s.modifier with
    | none => exact .nil
    | some words => exact .text _ .nil
  · cases s.limit with
    | none => exact .nil
    | some n => exact .text _ .nil
  · split
    · exact .text _ .nil
    · exact .nil

theorem bears_updatePieces (hoperation : s.operation = .update) :
    Returns (s.updatePieces style scope) fun ps => Bears ps s.cells := by
  rw [updatePieces]
  dsimp only
  split
  · exact .throw_bind
  refine Resolving.returns_any.bind fun table _ => ?_
  rw [Resolving.mapM_liftM]
  refine (Resolving.Ensures.except yields_mapM).bind fun assignments hassignments => ?_
  refine (bears_filterPieces s scope).bind fun filter hfilter => ?_
  refine (bears_guardPieces s scope).bind fun guard hguard => .pure ?_
  have hset : Bears (Piece.separated ", " assignments) (s.assignments.flatMap Assignment.cells) :=
    Bears.separated ", " (hassignments.imp fun a ps hps => bears_assignmentPieces a ps hps)
  rw [cells, hoperation]
  exact ((hset.text _).append hfilter).append hguard

theorem bears_deletePieces (hoperation : s.operation = .delete) :
    Returns (s.deletePieces style scope) fun ps => Bears ps s.cells := by
  rw [deletePieces]
  refine Resolving.returns_any.bind fun table _ => ?_
  refine (Resolving.Ensures.except (bears_deleteBody s.columns)).bind fun body hbody => ?_
  refine (bears_filterPieces s scope).bind fun filter hfilter => ?_
  refine (bears_guardPieces s scope).bind fun guard hguard => .pure ?_
  rw [cells, hoperation]
  exact ((hbody.text "DELETE ").nil_append (hfilter.text _)).append hguard

/-- Whatever a statement is rendered to bears the cells of the statement. -/
theorem bears_of_pieces (s : Statement) :
    Returns (s.pieces style) fun ps => Bears ps s.cells := by
  rw [pieces]
  refine Resolving.returns_any.bind fun scope _ => ?_
  cases hoperation : s.operation with
  | insert => exact bears_insertPieces hoperation
  | select => exact bears_selectPieces hoperation
  | update => exact bears_updatePieces hoperation
  | delete => exact bears_deletePieces hoperation

end Statement

end Cql
