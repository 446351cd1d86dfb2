import Cql.Proofs.Draft.Operands
import Cql.Proofs.Row

/-!
Rows of an INSERT. The columns are those of the first row. Every row gives its values for them, in
whatever order it holds them, and the first value that is missing is the mistake.
-/

namespace Cql

section Except

variable {ε α β : Type} {f : α → Except ε β} {as front rest : List α} {a : α}

theorem mapM_eq_ok_map {g : α → β} (h : ∀ a ∈ as, f a = .ok (g a)) :
    as.mapM f = .ok (as.map g) := by
  induction as with
  | nil => rfl
  | cons a as ih =>
    rw [List.mapM_cons, h a (by simp), ih fun a ha => h a (by simp [ha])]
    rfl

/-- The first item that fails gives the error. -/
theorem mapM_eq_error {e : ε} (hfront : ∀ a ∈ front, ∃ b, f a = .ok b) (ha : f a = .error e) :
    (front ++ a :: rest).mapM f = .error e := by
  induction front with
  | nil =>
    rw [List.nil_append, List.mapM_cons, ha]
    rfl
  | cons first front ih =>
    obtain ⟨b, hb⟩ := hfront first (by simp)
    rw [List.cons_append, List.mapM_cons, hb, ih fun a ha => hfront a (by simp [ha])]
    rfl

end Except

section Blocks

variable {α β : Type} {f : α → List β} {as : List α} {n : Nat}

theorem length_flatMap (h : ∀ a ∈ as, (f a).length = n) :
    (as.flatMap f).length = as.length * n := by
  rw [List.length_flatMap, List.map_congr_left h, List.map_const', List.sum_replicate_nat]

/-- Lists of one length, one after the other. -/
theorem getElem?_flatMap (h : ∀ a ∈ as, (f a).length = n) (i : Nat) {j : Nat} (hj : j < n) :
    (as.flatMap f)[i * n + j]? = as[i]?.bind fun a => (f a)[j]? := by
  induction as generalizing i with
  | nil => simp
  | cons a as ih =>
    have hfirst : (f a).length = n := h a (by simp)
    rw [List.flatMap_cons]
    cases i with
    | zero => simp [List.getElem?_append_left (hfirst ▸ hj)]
    | succ i =>
      have hindex : (i + 1) * n + j = (f a).length + (i * n + j) := by
        rw [hfirst, Nat.succ_mul]
        omega
      rw [hindex, List.getElem?_append_right (Nat.le_add_right _ _), Nat.add_sub_cancel_left,
        ih fun a ha => h a (by simp [ha])]
      rfl

end Blocks

namespace Row

variable {row : Row} {columns : List String}

/-- The row has a value for each column. -/
def Fills (columns : List String) (row : Row) : Prop := ∀ c ∈ columns, (row.get? c).isSome

instance : Decidable (row.Fills columns) :=
  inferInstanceAs (Decidable (∀ c ∈ columns, (row.get? c).isSome))

/-- The value of a row for a column. -/
def item (row : Row) (column : String) : List Piece :=
  (row.get? column).toList.map (.ofValue (placeholderName column))

/-- The values of a row for some columns. -/
def group (columns : List String) (row : Row) : List Piece :=
  .text "(" :: Piece.separated "," (columns.map row.item) ++ [.text ")"]

theorem Fills.of_cons {c : String} (h : row.Fills (c :: columns)) : row.Fills columns :=
  fun d hd => h d (by simp [hd])

theorem getElem?_valuesOf (h : row.Fills columns) (j : Nat) :
    (row.valuesOf columns)[j]? = columns[j]?.bind row.get? := by
  induction columns generalizing j with
  | nil => rfl
  | cons c columns ih =>
    obtain ⟨v, hv⟩ := Option.isSome_iff_exists.mp (h c (by simp))
    have hvalues : row.valuesOf (c :: columns) = v :: row.valuesOf columns :=
      List.filterMap_cons_some hv
    rw [hvalues]
    cases j with
    | zero => simp [hv]
    | succ j => simpa using ih h.of_cons j

theorem length_valuesOf (h : row.Fills columns) :
    (row.valuesOf columns).length = columns.length := by
  induction columns with
  | nil => rfl
  | cons c columns ih =>
    obtain ⟨v, hv⟩ := Option.isSome_iff_exists.mp (h c (by simp))
    rw [valuesOf, List.filterMap_cons_some hv, List.length_cons, List.length_cons]
    exact congrArg (· + 1) (ih h.of_cons)

section Table

variable {rows : List Row} (h : ∀ row ∈ rows, row.Fills columns)
include h

theorem length_cells :
    (rows.flatMap (·.valuesOf columns)).length = rows.length * columns.length :=
  length_flatMap fun row hrow => length_valuesOf (h row hrow)

/-- The values of several rows for some columns, row by row. -/
theorem getElem?_cells {i j : Nat} (hi : i < rows.length) (hj : j < columns.length) :
    (rows.flatMap (·.valuesOf columns))[i * columns.length + j]? = rows[i].get? columns[j] := by
  have hlength : ∀ row ∈ rows, (row.valuesOf columns).length = columns.length :=
    fun row hrow => length_valuesOf (h row hrow)
  rw [getElem?_flatMap hlength i hj, List.getElem?_eq_getElem hi, Option.bind_some,
    getElem?_valuesOf (h _ (List.getElem_mem hi)), List.getElem?_eq_getElem hj, Option.bind_some]

end Table

/-- Of the columns that a row does not fill there is a first one. -/
theorem exists_gap (h : ¬ row.Fills columns) : ∃ front column rest,
    columns = front ++ column :: rest ∧ row.Fills front ∧ row.get? column = none := by
  induction columns with
  | nil => exact absurd (List.forall_mem_nil _) h
  | cons c columns ih =>
    cases hc : row.get? c with
    | none => exact ⟨[], c, columns, rfl, List.forall_mem_nil _, hc⟩
    | some v =>
      have hothers : ¬ row.Fills columns := by
        intro hfills
        exact h (List.forall_mem_cons.mpr ⟨by simp [hc], hfills⟩)
      obtain ⟨front, column, rest, hcolumns, hfront, hnone⟩ := ih hothers
      refine ⟨c :: front, column, rest, by rw [hcolumns]; rfl, ?_, hnone⟩
      exact List.forall_mem_cons.mpr ⟨by simp [hc], hfront⟩

/-- Without repeated names, a row fills its own columns, entry by entry. -/
theorem fills_names (hnames : row.names.Nodup) : row.Fills row.names := by
  intro name hname
  obtain ⟨entry, hentry, rfl⟩ := List.mem_map.mp hname
  rw [get?_of_mem hnames hentry]
  rfl

theorem group_names (hnames : row.names.Nodup) : row.group row.names =
    .text "(" :: Piece.separated "," (row.entries.map fun entry =>
      [.ofValue (placeholderName entry.1) entry.2]) ++ [.text ")"] := by
  have hitems : row.names.map row.item = row.entries.map fun entry =>
      [.ofValue (placeholderName entry.1) entry.2] := by
    rw [names, List.map_map]
    refine List.map_congr_left fun entry hentry => ?_
    rw [Function.comp_apply, item, get?_of_mem hnames hentry]
    rfl
  rw [group, hitems]

/-- Row by row, the first column that has no value. -/
structure IsFirstGap (columns : List String) (rows : List Row) (i : Nat) (column : String) :
    Prop where
  above : ∀ row ∈ rows.take i, row.Fills columns
  gap : ∃ row, rows[i]? = some row ∧ ∃ j, columns[j]? = some column ∧
    row.Fills (columns.take j) ∧ row.get? column = none

theorem IsFirstGap.not_fills {rows : List Row} {i : Nat} {column : String}
    (h : IsFirstGap columns rows i column) : ¬ ∀ row ∈ rows, row.Fills columns := by
  obtain ⟨row, hrow, j, hcolumn, -, hnone⟩ := h.gap
  intro hfills
  have hsome := hfills row (List.mem_of_getElem? hrow) column (List.mem_of_getElem? hcolumn)
  rw [hnone] at hsome
  cases hsome

end Row

namespace Statement

variable {row : Row} {rows : List Row} {columns : List String}

open Row (IsFirstGap)

theorem rowPieces_of_fills (h : row.Fills columns) (index : Nat) :
    rowPieces row index columns = .ok (row.group columns) := by
  rw [rowPieces, mapM_eq_ok_map (g := row.item)]
  · rfl
  · intro c hc
    obtain ⟨v, hv⟩ := Option.isSome_iff_exists.mp (h c hc)
    simp only [Row.item, hv]
    rfl

theorem rowPieces_of_gap {front rest : List String} {column : String} (hfront : row.Fills front)
    (hnone : row.get? column = none) (index : Nat) :
    rowPieces row index (front ++ column :: rest) =
      .error (.misuse (.cellMissing index column)) := by
  rw [rowPieces, mapM_eq_error (e := .misuse (.cellMissing index column))]
  · rfl
  · intro c hc
    obtain ⟨v, hv⟩ := Option.isSome_iff_exists.mp (hfront c hc)
    exact ⟨[.ofValue (placeholderName c) v], by simp only [hv]⟩
  · simp only [hnone]

theorem rowsPieces_of_fills (h : ∀ row ∈ rows, row.Fills columns) (index : Nat) :
    rowsPieces columns index rows = .ok (rows.map (·.group columns)) := by
  induction rows generalizing index with
  | nil => rfl
  | cons row rows ih =>
    rw [rowsPieces, rowPieces_of_fills (h row (by simp)),
      ih (fun row hrow => h row (by simp [hrow]))]
    rfl

theorem rowsPieces_of_gap (h : ¬ ∀ row ∈ rows, row.Fills columns) (index : Nat) :
    ∃ i column, IsFirstGap columns rows i column ∧
      rowsPieces columns index rows = .error (.misuse (.cellMissing (index + i) column)) := by
  induction rows generalizing index with
  | nil => exact absurd (List.forall_mem_nil _) h
  | cons row rows ih =>
    rw [rowsPieces]
    by_cases hrow : row.Fills columns
    · have hothers : ¬ ∀ row ∈ rows, row.Fills columns :=
        fun hfills => h (List.forall_mem_cons.mpr ⟨hrow, hfills⟩)
      obtain ⟨i, column, ⟨habove, hgap⟩, hpieces⟩ := ih hothers (index + 1)
      refine ⟨i + 1, column, ⟨?_, by simpa using hgap⟩, ?_⟩
      · rw [List.take_succ_cons]
        exact List.forall_mem_cons.mpr ⟨hrow, habove⟩
      · rw [rowPieces_of_fills hrow, hpieces, Nat.add_assoc, Nat.add_comm 1]
        rfl
    · obtain ⟨front, column, rest, rfl, hfront, hnone⟩ := Row.exists_gap hrow
      refine ⟨0, column, ⟨by simp, row, rfl, front.length, ?_, ?_, hnone⟩, ?_⟩
      · simp
      · rwa [List.take_left]
      · rw [rowPieces_of_gap hfront hnone]
        rfl

/-- Where several rows may be given, the columns are those of the first one. -/
theorem insertBody_rows {style : Style} {first : Row} (others : List Row)
    (hfirst : first.isEmpty = false) (hmay : others.isEmpty ∨ style.binding ≠ .named)
    (scope : Scope) : insertBody style scope (.rows (first :: others)) =
      (rowsPieces first.names 0 (first :: others)).map fun groups =>
        scope.names first.names ++ .text ") VALUES " :: Piece.separated ", " groups := by
  have hallowed : ¬(!others.isEmpty ∧ style.binding = .named) := by
    rintro ⟨hothers, hnamed⟩
    obtain hempty | hbinding := hmay
    · simp [hempty] at hothers
    · exact hbinding hnamed
  rw [insertBody, hfirst, if_neg Bool.false_ne_true, if_neg hallowed]
  cases rowsPieces first.names 0 (first :: others) <;> rfl

end Statement

end Cql
