import Cql.Proofs.Program.Columns
import Cql.Proofs.Program.Rows

/-!
What an INSERT of rows writes of each row. The columns are those of the first row, so an entry under
another name is not written, and nothing is said about it. All entries of all rows are written
exactly if the rows have the same names.
-/

namespace Cql

namespace Row

variable {row first : Row} {columns : List String} {entry : String × Value}

/-- The entries of a row under these columns, in the order of the columns. -/
def written (columns : List String) (row : Row) : List (String × Value) :=
  columns.filterMap fun column => (row.get? column).map (column, ·)

/-- Values in parentheses, as a row of an INSERT is written. -/
def tuple (entries : List (String × Value)) : List Piece :=
  .text "(" :: Piece.separated "," (entries.map fun entry =>
    [.ofValue (placeholderName entry.1) entry.2]) ++ [.text ")"]

theorem mem_entries_of_get? {name : String} {v : Value} (h : row.get? name = some v) :
    (name, v) ∈ row.entries := mem_of_lookup h

theorem mem_written (hnames : row.names.Nodup) :
    entry ∈ row.written columns ↔ entry ∈ row.entries ∧ entry.1 ∈ columns := by
  obtain ⟨name, v⟩ := entry
  rw [written, List.mem_filterMap]
  constructor
  · rintro ⟨column, hcolumn, hentry⟩
    obtain ⟨value, hvalue, heq⟩ := Option.map_eq_some_iff.mp hentry
    obtain ⟨rfl, rfl⟩ := Prod.mk.inj heq
    exact ⟨mem_entries_of_get? hvalue, hcolumn⟩
  · rintro ⟨hentry, hcolumn⟩
    exact ⟨name, hcolumn, by rw [get?_of_mem hnames hentry]; rfl⟩

theorem map_fst_written (columns : List String) (row : Row) :
    (row.written columns).map Prod.fst = columns.filter fun c => (row.get? c).isSome := by
  induction columns with
  | nil => rfl
  | cons c columns ih =>
    rw [written, List.filterMap_cons, List.filter_cons]
    cases hc : row.get? c with
    | none => exact ih
    | some v => exact congrArg (c :: ·) ih

theorem nodup_entries (hnames : row.names.Nodup) : row.entries.Nodup := hnames.of_map

/-- A row writes its entries under the given columns, each once. -/
theorem perm_written (hnames : row.names.Nodup) (hcolumns : columns.Nodup) :
    (row.written columns).Perm (row.entries.filter (·.1 ∈ columns)) := by
  have hwritten : (row.written columns).Nodup := by
    apply List.Nodup.of_map Prod.fst
    rw [map_fst_written]
    exact hcolumns.filter _
  refine (List.perm_ext_iff_of_nodup hwritten ((nodup_entries hnames).filter _)).mpr fun entry => ?_
  rw [mem_written hnames, List.mem_filter, decide_eq_true_iff]

/-- Nothing of a row is left out exactly if all its names are columns. -/
theorem perm_written_iff (hnames : row.names.Nodup) (hcolumns : columns.Nodup) :
    (row.written columns).Perm row.entries ↔ row.names ⊆ columns := by
  constructor
  · intro hperm name hname
    obtain ⟨entry, hentry, rfl⟩ := List.mem_map.mp hname
    exact ((mem_written hnames).mp (hperm.mem_iff.mpr hentry)).2
  · intro hsubset
    have hall : row.entries.filter (·.1 ∈ columns) = row.entries := by
      refine List.filter_eq_self.mpr fun entry hentry => decide_eq_true ?_
      exact hsubset (List.mem_map_of_mem hentry)
    have hperm := perm_written hnames hcolumns
    rwa [hall] at hperm

theorem Fills.subset_names (h : row.Fills columns) : columns ⊆ row.names := by
  intro c hc
  obtain ⟨v, hv⟩ := Option.isSome_iff_exists.mp (h c hc)
  exact List.mem_map_of_mem (mem_entries_of_get? hv)

theorem group_eq_tuple (h : row.Fills columns) :
    row.group columns = tuple (row.written columns) := by
  have hitems : columns.map row.item = (row.written columns).map fun entry =>
      [.ofValue (placeholderName entry.1) entry.2] := by
    induction columns with
    | nil => rfl
    | cons c columns ih =>
      obtain ⟨v, hv⟩ := Option.isSome_iff_exists.mp (h c (by simp))
      have hwritten : row.written (c :: columns) = (c, v) :: row.written columns :=
        List.filterMap_cons_some (by rw [hv]; rfl)
      rw [hwritten, List.map_cons, List.map_cons, ih h.of_cons, item, hv]
      rfl
  rw [group, tuple, hitems]

end Row

namespace Statement

variable {style : Style} {s : Statement} {rows : List Row}

theorem writes_insertBody (scope : Scope) : Yields (insertBody style scope (.rows rows)) fun body =>
    ∃ first others, rows = first :: others ∧ (∀ row ∈ rows, row.Fills first.names) ∧
      body = scope.names first.names ++ .text ") VALUES " ::
        Piece.separated ", " (rows.map (·.group first.names)) := by
  cases rows with
  | nil => exact .error
  | cons first others =>
    cases hfirst : first.isEmpty with
    | true =>
      rw [insertBody, hfirst, if_pos rfl]
      exact .error
    | false =>
      by_cases hmay : others.isEmpty ∨ style.binding ≠ .named
      · rw [insertBody_rows others hfirst hmay]
        by_cases hfills : ∀ row ∈ first :: others, row.Fills first.names
        · rw [rowsPieces_of_fills hfills]
          exact .ok ⟨first, others, rfl, hfills, rfl⟩
        · obtain ⟨i, column, -, hpieces⟩ := rowsPieces_of_gap hfills 0
          rw [hpieces]
          exact .error
      · rw [not_or, not_not] at hmay
        rw [insertBody, hfirst, if_neg Bool.false_ne_true, if_pos ⟨by simpa using hmay.1, hmay.2⟩]
        exact .error

/-- Whatever an INSERT of rows is rendered to, each row has a value for each column. -/
theorem writes_rows (hinsert : s.operation = .insert) (hcolumns : s.columns = some (.rows rows)) :
    Resolving.Returns (s.pieces style) fun ps => ∃ first others, rows = first :: others ∧
      (∀ row ∈ rows, row.Fills first.names) ∧ ∃ scope table,
        ps = s.insertion scope table first.names
          (Piece.separated ", " (rows.map (·.group first.names))) := by
  rw [pieces, hinsert]
  refine Resolving.returns_any.bind fun scope _ => ?_
  change Resolving.Returns (s.insertPieces style scope) _
  rw [insertPieces, hcolumns]
  refine Resolving.returns_any.bind fun table _ => ?_
  refine (Resolving.Ensures.except (writes_insertBody scope)).bind fun body hbody => .pure ?_
  obtain ⟨first, others, hrows, hfills, rfl⟩ := hbody
  exact ⟨first, others, hrows, hfills, scope, table, rfl⟩

end Statement

namespace Program

variable {style : Style} {w : Workshop} {rows : List Row} {clauses : List Clause} {r : Rendered}

/-- An INSERT of rows that is rendered writes of each row the entries under the names of the first
row, and each of them once. Every row has these names. It writes all entries of all rows exactly if
no row has another name. -/
theorem result_insertRows_writes (hnames : ∀ row ∈ rows, row.names.Nodup)
    (hr : result ⟨.insertRows rows, clauses⟩ style w = .ok r) :
    ∃ first others, rows = first :: others ∧
      (∃ buffer scope table, r = .ofPieces style.binding buffer
        ((statement ⟨.insertRows rows, clauses⟩ style w).insertion scope table first.names
          (Piece.separated ", " (rows.map fun row => Row.tuple (row.written first.names))))) ∧
      (∀ row ∈ rows, first.names ⊆ row.names ∧
        (row.written first.names).Perm (row.entries.filter (·.1 ∈ first.names))) ∧
      ((∀ row ∈ rows, (row.written first.names).Perm row.entries) ↔
        ∀ row ∈ rows, row.names.Perm first.names) := by
  have hkeeps := keeps_statement (.insertRows rows) clauses style w rfl
  obtain ⟨ps, buffer, houtcome, rfl⟩ := exists_outcome hr
  obtain ⟨first, others, hrows, hfills, scope, table, hps⟩ :=
    outcome_returns (Statement.writes_rows hkeeps.1 hkeeps.2) ps houtcome
  have hcolumns : first.names.Nodup := hnames first (by simp [hrows])
  have htuples : rows.map (·.group first.names) =
      rows.map fun row => Row.tuple (row.written first.names) :=
    List.map_congr_left fun row hrow => Row.group_eq_tuple (hfills row hrow)
  have hperm : ∀ row ∈ rows, row.names ⊆ first.names ↔ row.names.Perm first.names := by
    intro row hrow
    constructor
    · intro hsubset
      refine (List.perm_ext_iff_of_nodup (hnames row hrow) hcolumns).mpr fun name => ?_
      exact ⟨fun h => hsubset h, fun h => (hfills row hrow).subset_names h⟩
    · exact fun hperm => hperm.subset
  refine ⟨first, others, hrows, ⟨buffer, scope, table, ?_⟩, fun row hrow => ⟨?_, ?_⟩, ?_⟩
  · rw [← htuples, ← hps]
  · exact (hfills row hrow).subset_names
  · exact Row.perm_written (hnames row hrow) hcolumns
  · refine forall₂_congr fun row hrow => ?_
    rw [Row.perm_written_iff (hnames row hrow) hcolumns, hperm row hrow]

/-- Nothing is said about the age that only the second account has. -/
theorem result_insertRows_writes_accounts :
    let ann : Row := ⟨[("id", .int 1), ("firstName", .text "Ann")]⟩
    let bob : Row := ⟨[("firstName", .text "Bob"), ("age", .int 41), ("id", .int 2)]⟩
    let P : Program := ⟨.insertRows [ann, bob], [.into (.table "account")]⟩
    (P.result {} {}).map (·.text) =
        .ok "INSERT INTO account (id, first_name) VALUES (?,?), (?,?)" ∧
      (bob.written ["id", "firstName"]).Perm (bob.entries.filter (·.1 ∈ ["id", "firstName"])) ∧
      ¬∀ row ∈ [ann, bob], (row.written ["id", "firstName"]).Perm row.entries := by
  intro ann bob P
  have htext : (P.result {} {}).map (·.text) =
      .ok "INSERT INTO account (id, first_name) VALUES (?,?), (?,?)" := by decide +kernel
  have hnames : ∀ row ∈ [ann, bob], row.names.Nodup := by decide
  obtain ⟨r, hr, -⟩ := exists_of_map_eq_ok htext
  obtain ⟨first, others, hrows, -, hwritten, hall⟩ := result_insertRows_writes hnames hr
  obtain ⟨rfl, -⟩ := List.cons.inj hrows
  refine ⟨htext, (hwritten bob (by simp)).2, fun h => ?_⟩
  have hperm := hall.mp h bob (by simp)
  exact absurd hperm.length_eq (by decide)

/-- The name of the second row is not written, and the INSERT is rendered all the same. -/
theorem name_not_written :
    let rows : List Row := [⟨[("id", .int 1)]⟩, ⟨[("id", .int 2), ("name", .text "Bob")]⟩]
    let P : Program := ⟨.insertRows rows, [.into (.table "t")]⟩
    rows.map Row.names = [["id"], ["id", "name"]] ∧
      (P.result {} {}).map (fun r => (r.text, r.parameters.map Value.literal)) =
        .ok ("INSERT INTO t (id) VALUES (?), (?)", ["1", "2"]) := by
  intro rows P
  exact ⟨rfl, by decide +kernel⟩

end Program

end Cql
