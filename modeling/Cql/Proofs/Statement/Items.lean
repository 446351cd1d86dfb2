import Mathlib
import Cql.Proofs.Statement.Binding
import Cql.Proofs.Statement.Places

/-!
The items of a statement: each column of an INSERT, each assignment, comparison, range and list. The
names of a statement's placeholders are those of its items one after the other. An item never
repeats a name, so names are repeated only between items, and only in the ways listed by
`Item.Clash`.
-/

namespace Cql

/-- What values a statement takes for a column at one place. -/
inductive Use
  /-- For a column of an INSERT, an assignment or a comparison. -/
  | one
  /-- The bounds of a range. -/
  | bounds
  /-- The members of a list. -/
  | listed (count : Nat)
  deriving DecidableEq, Repr

structure Item where
  column : String
  use : Use
  deriving DecidableEq, Repr

namespace Item

/-- What the names of an item's placeholders are made of. -/
def stem (i : Item) : String := placeholderName i.column

/-- The stem after a word, in camel case. -/
def after (word : String) (i : Item) : String := camelAfter word i.stem

/-- Members of a list are counted from one. -/
def numbered (i : Item) (k : Nat) : String := i.stem ++ toString (k + 1)

/-- The names of the placeholders for the values of an item. -/
def names (i : Item) : List String :=
  match i.use with
  | .one => [i.stem]
  | .bounds => [i.after "min", i.after "max"]
  | .listed count => (List.range count).map i.numbered

/-- The name is one of the item's. -/
def Takes (i : Item) (name : String) : Prop :=
  match i.use with
  | .one => name = i.stem
  | .bounds => name = i.after "min" ∨ name = i.after "max"
  | .listed count => ∃ k < count, name = i.numbered k

/-- Two items have a placeholder name in common: two single values by equal stems, two ranges by
stems that are equal but for the case of their first letter, a single value by a stem that is
another item's name, and a list by a number after its stem. -/
def Clash (i j : Item) : Prop :=
  match i.use, j.use with
  | .one, _ => j.Takes i.stem
  | _, .one => i.Takes j.stem
  | .bounds, .bounds => i.after "" = j.after ""
  | .bounds, .listed _ => j.Takes (i.after "min") ∨ j.Takes (i.after "max")
  | .listed _, .bounds => i.Takes (j.after "min") ∨ i.Takes (j.after "max")
  | .listed m, .listed n => ∃ k < m, ∃ l < n, i.numbered k = j.numbered l

/-- No two items have a placeholder name in common. -/
def AreApart (items : List Item) : Prop := items.Pairwise fun i j => ¬ i.Clash j

theorem mem_names {i : Item} {name : String} : name ∈ i.names ↔ i.Takes name := by
  rw [names, Takes]
  cases i.use with
  | one => simp
  | bounds => simp
  | listed count => simp [eq_comm]

theorem after_eq (word : String) (i : Item) : i.after word = word ++ i.after "" := by
  simp [after, camelAfter]

theorem after_inj {word : String} {i j : Item} :
    i.after word = j.after word ↔ i.after "" = j.after "" := by
  rw [after_eq word i, after_eq word j, String.append_right_inj]

theorem after_min_ne (i j : Item) : i.after "min" ≠ j.after "max" := by
  rw [after_eq "min", after_eq "max"]
  intro h
  have hchars := congrArg String.toList h
  simp at hchars

theorem numbered_inj {i : Item} {k l : Nat} : i.numbered k = i.numbered l ↔ k = l := by
  rw [numbered, numbered, String.append_right_inj, Nat.toString_eq_repr, Nat.toString_eq_repr,
    Nat.repr_inj, Nat.succ_inj]

/-- An item names each of its placeholders differently. -/
theorem nodup_names (i : Item) : i.names.Nodup := by
  rw [names]
  cases i.use with
  | one => exact List.nodup_singleton _
  | bounds => simp [after_min_ne]
  | listed count => exact List.nodup_range.map fun k l h => numbered_inj.mp h

theorem clash_iff (i j : Item) : i.Clash j ↔ ∃ name, i.Takes name ∧ j.Takes name := by
  cases hi : i.use with
  | one => simp [Clash, Takes, hi]
  | bounds =>
    cases hj : j.use with
    | one => simp [Clash, Takes, hi, hj]
    | bounds =>
      simp only [Clash, Takes, hi, hj]
      constructor
      · exact fun h => ⟨_, .inl rfl, .inl (after_inj.mpr h)⟩
      · rintro ⟨_, rfl | rfl, h | h⟩
        · exact after_inj.mp h
        · exact absurd h (after_min_ne i j)
        · exact absurd h.symm (after_min_ne j i)
        · exact after_inj.mp h
    | listed n => simp [Clash, Takes, hi, hj, or_and_right, exists_or]
  | listed m =>
    cases hj : j.use with
    | one => simp [Clash, Takes, hi, hj]
    | bounds =>
      simp only [Clash, Takes, hi, hj]
      constructor
      · rintro (h | h)
        · exact ⟨_, h, .inl rfl⟩
        · exact ⟨_, h, .inr rfl⟩
      · rintro ⟨_, h, rfl | rfl⟩
        · exact .inl h
        · exact .inr h
    | listed n =>
      simp only [Clash, Takes, hi, hj]
      constructor
      · rintro ⟨k, hk, l, hl, h⟩
        exact ⟨_, ⟨k, hk, rfl⟩, l, hl, h⟩
      · rintro ⟨_, ⟨k, hk, rfl⟩, l, hl, h⟩
        exact ⟨k, hk, l, hl, h⟩

theorem not_clash_iff (i j : Item) : ¬ i.Clash j ↔ List.Disjoint i.names j.names := by
  rw [clash_iff, List.Disjoint]
  simp only [mem_names, not_exists, not_and]

theorem nodup_flatMap_names (items : List Item) :
    (items.flatMap names).Nodup ↔ AreApart items := by
  rw [List.nodup_flatMap, AreApart]
  simp only [not_clash_iff]
  exact and_iff_right fun i _ => i.nodup_names

end Item

def rowItems (columns : List String) : List Item := columns.map fun c => ⟨c, .one⟩

namespace Predicate

mutual

def items : Predicate → List Item
  | .compare column _ _ => [⟨column, .one⟩]
  | .between column _ _ _ => [⟨column, .bounds⟩]
  | .among column _ values => [⟨column, .listed values.length⟩]
  | .negate inner => items inner
  | .junction _ parts => partItems parts
  | .amongText .. => []
  | .amongSelect _ _ _ filter => filterItems filter
  | .raw _ => []

def partItems : List Predicate → List Item
  | [] => []
  | p :: ps => items p ++ partItems ps

def filterItems : Option Predicate → List Item
  | none => []
  | some p => items p

end

end Predicate

def Columns.items : Columns → List Item
  | .names columns => rowItems columns
  | .aliased _ => []
  | .row values => rowItems values.names
  | .rows [] => []
  | .rows (first :: others) => (first :: others).flatMap fun _ => rowItems first.names

def Assignment.items : Assignment → List Item
  | .hole column | .value column _ => [⟨column, .one⟩]
  | .raw _ => []

def Filter.items : Filter → List Item
  | .predicate p => p.items
  | .raw _ => []

def Guard.items : Guard → List Item
  | .ifExists => []
  | .predicate p => p.items
  | .raw _ => []

/-- The items of a statement in the order of its text. -/
def Statement.items (s : Statement) : List Item :=
  let filter := (s.filter.map Filter.items).getD []
  let guard := (s.guard.map Guard.items).getD []
  match s.operation with
  | .insert => (s.columns.map Columns.items).getD []
  | .select => filter
  | .update => s.assignments.flatMap Assignment.items ++ filter ++ guard
  | .delete => filter ++ guard

theorem rowItems_names (columns : List String) :
    (rowItems columns).flatMap Item.names = columns.map placeholderName := by
  rw [rowItems, List.flatMap_map, List.map_eq_flatMap]
  rfl

/-- A row names the placeholders for its own columns. -/
theorem names_rowCells (row : Row) : (rowCells row.names row).map Place.name =
    (rowItems row.names).flatMap Item.names := by
  have hcell : ∀ c ∈ row.names, (((row.get? c).toList.map fun v =>
      (⟨placeholderName c, some v⟩ : Place)).map Place.name) = [placeholderName c] := by
    intro c hc
    obtain ⟨entry, hentry, rfl⟩ := List.mem_map.mp hc
    cases hv : row.get? entry.1 with
    | some v => rfl
    | none =>
      have hnone := List.lookup_eq_none_iff.mp hv entry hentry
      simp at hnone
  rw [rowItems_names, rowCells, List.map_flatMap, List.map_eq_flatMap]
  exact List.flatMap_congr hcell

namespace Predicate

mutual

theorem names_cells : ∀ p : Predicate, p.cells.map Place.name = p.items.flatMap Item.names
  | .compare .. => rfl
  | .between .. => rfl
  | .among column _ values => by
    have hcount : values.zipIdx.map Prod.snd = List.range values.length := by
      rw [List.zipIdx_map_snd, List.range_eq_range']
    have hnames : (items (.among column "" values)).flatMap Item.names =
        (List.range values.length).map fun k => placeholderName column ++ toString (k + 1) :=
      List.flatMap_singleton ..
    refine Eq.trans ?_ hnames.symm
    rw [cells, ← hcount, List.map_map, List.map_map]
    rfl
  | .negate inner => names_cells inner
  | .junction _ parts => names_partCells parts
  | .amongText .. => rfl
  | .amongSelect _ _ _ filter => names_filterCells filter
  | .raw _ => rfl

theorem names_partCells : ∀ ps : List Predicate,
    (partCells ps).map Place.name = (partItems ps).flatMap Item.names
  | [] => rfl
  | p :: ps => by
    rw [partCells, partItems, List.map_append, List.flatMap_append, names_cells p,
      names_partCells ps]

theorem names_filterCells : ∀ filter : Option Predicate,
    (filterCells filter).map Place.name = (filterItems filter).flatMap Item.names
  | none => rfl
  | some p => names_cells p

end

end Predicate

theorem Columns.names_cells {columns : Columns} (h : ¬ columns.RepeatNames) :
    columns.cells.map Place.name = columns.items.flatMap Item.names := by
  rcases columns with names | aliased | row | _ | ⟨first, _ | ⟨next, others⟩⟩
  · rw [items, rowItems_names, cells, List.map_map]
    rfl
  · rfl
  · exact names_rowCells row
  · rfl
  · simp only [cells, items, List.flatMap_singleton]
    exact names_rowCells first
  · exact absurd trivial h

theorem Assignment.names_cells (a : Assignment) :
    a.cells.map Place.name = a.items.flatMap Item.names := by
  cases a <;> rfl

/-- The names of the cells are the names of the items, unless they are repeated for several rows. -/
theorem Statement.names_cells {s : Statement} (h : ¬ s.RepeatsNames) :
    s.cells.map Place.name = s.items.flatMap Item.names := by
  have hfilter : ((s.filter.map Filter.cells).getD []).map Place.name =
      ((s.filter.map Filter.items).getD []).flatMap Item.names := by
    obtain _ | p | text := s.filter
    · rfl
    · exact p.names_cells
    · rfl
  have hguard : ((s.guard.map Guard.cells).getD []).map Place.name =
      ((s.guard.map Guard.items).getD []).flatMap Item.names := by
    obtain _ | _ | p | text := s.guard
    · rfl
    · rfl
    · exact p.names_cells
    · rfl
  have hset : (s.assignments.flatMap Assignment.cells).map Place.name =
      (s.assignments.flatMap Assignment.items).flatMap Item.names := by
    rw [List.map_flatMap, List.flatMap_assoc]
    simp only [Assignment.names_cells]
  rw [cells, items]
  cases hoperation : s.operation with
  | insert =>
    cases hcolumns : s.columns with
    | none => rfl
    | some columns =>
      exact Columns.names_cells fun hrepeat => h ⟨hoperation, columns, hcolumns, hrepeat⟩
  | select => exact hfilter
  | update => simp only [List.map_append, List.flatMap_append, hset, hfilter, hguard]
  | delete => simp only [List.map_append, List.flatMap_append, hfilter, hguard]

end Cql
