import Cql.Proofs.Statement.Cells

/-!
The places of a statement that take a value, in the order of the text. They are the cells of the
statement that hold no expression. Whatever a statement is rendered to has these places.
-/

namespace Cql

/-- An expression stands in the text and takes no place. -/
def Place.ofValue (name : String) (v : Value) : List Place :=
  if v.isExpr then [] else [⟨name, some v⟩]

namespace Piece

def place? : Piece → Option Place
  | .text _ => none
  | .value name v => some ⟨name, some v⟩
  | .hole name => some ⟨name, none⟩

def places (ps : List Piece) : List Place := ps.filterMap place?

end Piece

def rowPlaces (columns : List String) (row : Row) : List Place :=
  columns.flatMap fun c => ((row.get? c).map (Place.ofValue (placeholderName c))).getD []

namespace Predicate

mutual

def places : Predicate → List Place
  | .compare column _ v => Place.ofValue (placeholderName column) v
  | .between column _ low high =>
    Place.ofValue (camelAfter "min" (placeholderName column)) low ++
      Place.ofValue (camelAfter "max" (placeholderName column)) high
  | .among column _ values =>
    values.zipIdx.flatMap fun (v, i) =>
      Place.ofValue (placeholderName column ++ toString (i + 1)) v
  | .negate inner => places inner
  | .junction _ parts => partPlaces parts
  | .amongText .. => []
  | .amongSelect _ _ _ filter => filterPlaces filter
  | .raw _ => []

def partPlaces : List Predicate → List Place
  | [] => []
  | p :: ps => places p ++ partPlaces ps

def filterPlaces : Option Predicate → List Place
  | none => []
  | some p => places p

end

end Predicate

def Columns.places : Columns → List Place
  | .names columns => columns.map fun c => ⟨placeholderName c, none⟩
  | .aliased _ => []
  | .row values => rowPlaces values.names values
  | .rows [] => []
  | .rows (first :: others) => (first :: others).flatMap (rowPlaces first.names)

def Assignment.places : Assignment → List Place
  | .hole column => [⟨placeholderName column, none⟩]
  | .value column v => Place.ofValue (placeholderName column) v
  | .raw _ => []

def Filter.places : Filter → List Place
  | .predicate p => p.places
  | .raw _ => []

def Guard.places : Guard → List Place
  | .ifExists => []
  | .predicate p => p.places
  | .raw _ => []

def Statement.places (s : Statement) : List Place :=
  let filter := (s.filter.map Filter.places).getD []
  let guard := (s.guard.map Guard.places).getD []
  match s.operation with
  | .insert => (s.columns.map Columns.places).getD []
  | .select => filter
  | .update => s.assignments.flatMap Assignment.places ++ filter ++ guard
  | .delete => filter ++ guard

namespace Place

/-- The cell holds no expression. -/
def isOpen (p : Place) : Bool := !p.value?.any Value.isExpr

theorem filter_isOpen_value (name : String) (v : Value) :
    [(⟨name, some v⟩ : Place)].filter isOpen = ofValue name v := by
  rw [ofValue]
  cases h : v.isExpr <;> simp [isOpen, h]

/-- Cells of values, one after the other. -/
theorem filter_isOpen_map {α : Type} (name : α → String) (value : α → Value) (as : List α) :
    (as.map fun a => (⟨name a, some (value a)⟩ : Place)).filter isOpen =
      as.flatMap fun a => ofValue (name a) (value a) := by
  rw [List.map_eq_flatMap, List.filter_flatMap]
  simp only [filter_isOpen_value]

theorem filter_isOpen_holes {α : Type} (name : α → String) (as : List α) :
    (as.map fun a => (⟨name a, none⟩ : Place)).filter isOpen =
      as.map fun a => ⟨name a, none⟩ := by
  rw [List.filter_eq_self]
  intro p hp
  obtain ⟨a, -, rfl⟩ := List.mem_map.mp hp
  rfl

end Place

open Place (isOpen)

theorem Piece.Bears.places_eq {ps : List Piece} {cells : List Place} (h : Bears ps cells) :
    places ps = cells.filter isOpen := by
  induction h with
  | nil => rfl
  | text s _ ih => exact ih
  | value name v _ ih =>
    rw [List.filter_cons, ← ih]
    cases v <;> rfl
  | hole name _ ih =>
    rw [List.filter_cons, ← ih]
    rfl

theorem filter_rowCells (columns : List String) (row : Row) :
    (rowCells columns row).filter isOpen = rowPlaces columns row := by
  rw [rowCells, rowPlaces, List.filter_flatMap]
  congr 1
  funext c
  cases row.get? c with
  | none => rfl
  | some v => exact Place.filter_isOpen_value _ v

namespace Predicate

mutual

theorem filter_cells : ∀ p : Predicate, p.cells.filter isOpen = p.places
  | .compare column _ v => Place.filter_isOpen_value _ v
  | .between column _ low high => by
    have hpair := List.filter_append (p := isOpen)
      [(⟨camelAfter "min" (placeholderName column), some low⟩ : Place)]
      [⟨camelAfter "max" (placeholderName column), some high⟩]
    rw [Place.filter_isOpen_value, Place.filter_isOpen_value] at hpair
    exact hpair
  | .among column _ values => Place.filter_isOpen_map
      (fun item : Value × Nat => placeholderName column ++ toString (item.2 + 1)) Prod.fst _
  | .negate inner => filter_cells inner
  | .junction _ parts => filter_partCells parts
  | .amongText .. => rfl
  | .amongSelect _ _ _ filter => filter_filterCells filter
  | .raw _ => rfl

theorem filter_partCells : ∀ ps : List Predicate, (partCells ps).filter isOpen = partPlaces ps
  | [] => rfl
  | p :: ps => by
    rw [partCells, partPlaces, List.filter_append, filter_cells p, filter_partCells ps]

theorem filter_filterCells : ∀ filter : Option Predicate,
    (filterCells filter).filter isOpen = filterPlaces filter
  | none => rfl
  | some p => filter_cells p

end

end Predicate

theorem Columns.filter_cells (columns : Columns) : columns.cells.filter isOpen = columns.places := by
  obtain names | aliased | row | _ | ⟨first, others⟩ := columns
  · exact Place.filter_isOpen_holes _ _
  · rfl
  · exact filter_rowCells _ _
  · rfl
  · rw [cells, places, List.filter_flatMap]
    simp only [filter_rowCells]

theorem Assignment.filter_cells (a : Assignment) : a.cells.filter isOpen = a.places := by
  cases a with
  | hole | raw => rfl
  | value column v => exact Place.filter_isOpen_value _ v

namespace Statement

/-- The places are the cells without those that hold an expression. -/
theorem filter_cells (s : Statement) : s.cells.filter isOpen = s.places := by
  have hfilter : ((s.filter.map Filter.cells).getD []).filter isOpen =
      (s.filter.map Filter.places).getD [] := by
    obtain _ | p | text := s.filter
    · rfl
    · exact p.filter_cells
    · rfl
  have hguard : ((s.guard.map Guard.cells).getD []).filter isOpen =
      (s.guard.map Guard.places).getD [] := by
    obtain _ | _ | p | text := s.guard
    · rfl
    · rfl
    · exact p.filter_cells
    · rfl
  have hset : (s.assignments.flatMap Assignment.cells).filter isOpen =
      s.assignments.flatMap Assignment.places := by
    rw [List.filter_flatMap]
    simp only [Assignment.filter_cells]
  rw [cells, places]
  cases s.operation with
  | insert =>
    cases s.columns with
    | none => rfl
    | some columns => exact columns.filter_cells
  | select => exact hfilter
  | update => simp only [List.filter_append, hset, hfilter, hguard]
  | delete => simp only [List.filter_append, hfilter, hguard]

/-- Whatever a statement is rendered to has the places of the statement. -/
theorem places_of_pieces {style : Style} (s : Statement) :
    Resolving.Returns (s.pieces style) fun ps => Piece.places ps = s.places :=
  s.bears_of_pieces.mono fun _ hps => hps.places_eq.trans s.filter_cells

end Statement

end Cql
