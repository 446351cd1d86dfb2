import Cql.Proofs.Predicate.Flaw
import Cql.Proofs.Program.Parameters
import Cql.Proofs.Statement.Rows

/-!
INSERTs of several rows. Where placeholders have no names, such a program is rendered exactly if
each row has a value for each column of the first one: a group of values for each row, and in each
group a value for each column.
-/

namespace Cql

variable {catalog : Catalog} {style : Style} {w : Workshop}

open Resolving (Leads)

theorem Scope.leads_of_acyclic {E : Error → Prop} {e? : Option Entity}
    (h : ∀ e ∈ e?, ¬ e.IsCyclic catalog) (casing : Casing) :
    Leads (·.catalog = catalog) (ofEntity? casing e?) (fun _ _ => True) E := by
  refine .given fun m hm =>
    (leads_ofEntity? e? casing m).mono (fun _ => id) (fun _ _ _ => trivial) ?_
  rintro err ⟨e, he, -, hcycle⟩
  exact absurd (hm ▸ hcycle.isCyclic) (h e he)

namespace Statement

variable {s : Statement} {first : Row} {others : List Row}

open Row (IsFirstGap)

/-- An INSERT of columns and values into a table. -/
def insertion (s : Statement) (scope : Scope) (table : String) (columns : List String)
    (values : List Piece) : List Piece :=
  .text ("INSERT INTO " ++ table ++ " (") :: (scope.names columns ++ .text ") VALUES " :: values) ++
    (if s.ifNotExists then [.text " IF NOT EXISTS"] else []) ++
    [.text (usingText s.lifetime s.writeTime)]

/-- An INSERT of rows that has a table. Where an entity names the columns, they are found. -/
structure InsertsRows (catalog : Catalog) (rows : List Row) (s : Statement) : Prop where
  operation : s.operation = .insert
  columns : s.columns = some (.rows rows)
  table : s.target.isSome ∨ s.entity.isSome
  acyclic : ∀ e ∈ s.entity, ¬ e.IsCyclic catalog

theorem leads_tableName {P : Memo → Prop} {E : Error → Prop}
    (h : s.target.isSome ∨ s.entity.isSome) :
    Leads P (s.tableName style) (fun _ _ => True) E := by
  rw [tableName]
  cases htarget : s.target with
  | some target => exact .step fun _ _ => trivial
  | none =>
    cases hentity : s.entity with
    | some e =>
      have htables : Leads P (liftM (Memo.tablesOf e)) (fun _ _ => True) E :=
        .step fun _ _ => trivial
      exact htables.bind fun _ => .pure fun _ _ => trivial
    | none => simp [htarget, hentity] at h

theorem leads_insertRows (hb : style.binding ≠ .named)
    (h : s.InsertsRows catalog (first :: others)) (hfirst : first.isEmpty = false) :
    Leads (·.catalog = catalog) (s.pieces style)
      (fun ps _ => (∀ row ∈ first :: others, row.Fills first.names) ∧ ∃ scope table,
        ps = s.insertion scope table first.names
          (Piece.separated ", " ((first :: others).map (·.group first.names))))
      fun err => ∃ i column, IsFirstGap first.names (first :: others) i column ∧
        err = .misuse (.cellMissing i column) := by
  rw [pieces, h.operation]
  refine (Scope.leads_of_acyclic h.acyclic style.casing).bind fun scope => ?_
  change Leads _ (s.insertPieces style scope) _ _
  rw [insertPieces, h.columns]
  refine (leads_tableName h.table).bind fun table => ?_
  have hbody := insertBody_rows others hfirst (.inr hb) scope
  by_cases hfills : ∀ row ∈ first :: others, row.Fills first.names
  · rw [hbody, rowsPieces_of_fills hfills]
    exact .pure fun _ _ => ⟨hfills, scope, table, rfl⟩
  · obtain ⟨i, column, hgap, hpieces⟩ := rowsPieces_of_gap hfills 0
    rw [hbody, hpieces]
    exact .throw fun _ _ => ⟨i, column, hgap, by rw [Nat.zero_add]⟩

end Statement

namespace Program

variable {P : Program} {first : Row} {others : List Row}

open Row (IsFirstGap)

/-- The parameters of an INSERT of rows are those of the rows, one row after the other. -/
theorem parameters_insertRows {ps : List Piece} (hb : style.binding ≠ .literal)
    (hps : P.outcome style w = .ok ps) (hoperation : (P.statement style w).operation = .insert)
    (hcolumns : (P.statement style w).columns = some (.rows (first :: others)))
    (hexpr : ∀ row ∈ first :: others, ∀ v ∈ row.valuesOf first.names, v.isExpr = false) :
    Piece.parametersOf style.binding ps = (first :: others).flatMap (·.valuesOf first.names) := by
  have hvalues : Place.values (P.statement style w).cells =
      (first :: others).flatMap (·.valuesOf first.names) := by
    rw [Statement.values_cells, hoperation, Statement.operands, hcolumns]
    exact List.append_nil _
  rw [(outcome_bears ps hps).parametersOf_eq hb, hvalues, List.filter_eq_self]
  intro v hv
  obtain ⟨row, hrow, hv⟩ := List.mem_flatMap.mp hv
  rw [hexpr row hrow v hv]
  rfl

/-- Several rows are rendered exactly if each of them fills the columns of the first one. The values
stand group by group, in the order of these columns, and so do the parameters where no value is an
expression. Otherwise the first gap is the mistake. -/
theorem result_insertRows (hb : style.binding ≠ .named)
    (hfault : ((P.draft style).run w).1.fault = none)
    (h : (P.statement style w).InsertsRows w.memo.catalog (first :: others))
    (hfirst : first.isEmpty = false) :
    let rows := first :: others
    let columns := first.names
    ((∀ row ∈ rows, row.Fills columns) → ∃ r, P.result style w = .ok r ∧
      (∃ buffer scope table, r = .ofPieces style.binding buffer
        ((P.statement style w).insertion scope table columns
          (Piece.separated ", " (rows.map (·.group columns))))) ∧
      (style.binding = .positional →
        (∀ row ∈ rows, ∀ v ∈ row.valuesOf columns, v.isExpr = false) →
        r.parameters.length = rows.length * columns.length ∧
        ∀ i j (hi : i < rows.length) (hj : j < columns.length),
          r.parameters[i * columns.length + j]? = rows[i].get? columns[j])) ∧
    ((¬ ∀ row ∈ rows, row.Fills columns) → ∃ i column, IsFirstGap columns rows i column ∧
      P.result style w = .error (.misuse (.cellMissing i column))) := by
  intro rows columns
  obtain ⟨s, hcatalog, hpieces⟩ := exists_outcome_eq hfault
  have hleads := Statement.leads_insertRows hb h hfirst s hcatalog
  rw [result_eq]
  rcases hrun : ((P.statement style w).pieces style).run s with ⟨err | ps, t⟩
  all_goals rw [hrun] at hleads hpieces
  · have houtcome : P.outcome style w = .error err := hpieces
    obtain ⟨i, column, hgap, rfl⟩ := hleads
    rw [houtcome]
    exact ⟨fun hfills => absurd hfills hgap.not_fills, fun _ => ⟨i, column, hgap, rfl⟩⟩
  · have houtcome : P.outcome style w = .ok ps := hpieces
    obtain ⟨hfills, scope, table, hps⟩ := hleads
    rw [houtcome]
    refine ⟨fun _ => ⟨_, rfl, ⟨_, scope, table, by rw [hps]⟩, fun hpositional hexpr => ?_⟩,
      fun hnot => absurd hfills hnot⟩
    have hparameters : Piece.parametersOf style.binding ps =
        rows.flatMap (·.valuesOf columns) := by
      refine parameters_insertRows ?_ houtcome h.operation h.columns hexpr
      rw [hpositional]
      decide
    change (Piece.parametersOf style.binding ps).length = _ ∧ ∀ i j _ _,
      (Piece.parametersOf style.binding ps)[i * columns.length + j]? = _
    rw [hparameters]
    exact ⟨Row.length_cells hfills, fun i j hi hj => Row.getElem?_cells hfills hi hj⟩

/-- The second account holds its values in another order; a third one has no number. -/
theorem result_insertRows_accounts :
    let ann : Row := ⟨[("id", .int 1), ("firstName", .text "Ann")]⟩
    let bob : Row := ⟨[("firstName", .text "Bob"), ("id", .int 2)]⟩
    let result := fun others =>
      (⟨.insertRows (ann :: others), [.into (.table "account")]⟩ : Program).result {} {}
    (∃ r, result [bob] = .ok r ∧ r.parameters[1 * 2 + 0]? = some (.int 2) ∧
      r.parameters[1 * 2 + 1]? = some (.text "Bob")) ∧
    (result [bob]).map (·.text) =
      .ok "INSERT INTO account (id, first_name) VALUES (?,?), (?,?)" ∧
    (result [bob, ⟨[("firstName", .text "Eve")]⟩]).map (·.text) =
      .error (.misuse (.cellMissing 2 "id")) := by
  intro ann bob result
  refine ⟨?_, by decide +kernel, by decide +kernel⟩
  let P : Program := ⟨.insertRows [ann, bob], [.into (.table "account")]⟩
  have hinserts : (P.statement {} {}).InsertsRows [] [ann, bob] := ⟨rfl, rfl, .inl rfl, nofun⟩
  have hfault : ((P.draft {}).run {}).1.fault = none := rfl
  obtain ⟨hrendered, -⟩ := result_insertRows (by decide) hfault hinserts rfl
  obtain ⟨r, hr, -, hparameters⟩ := hrendered (by decide)
  obtain ⟨-, hcells⟩ := hparameters rfl (by decide)
  exact ⟨r, hr, hcells 1 0 (by decide) (by decide), hcells 1 1 (by decide) (by decide)⟩

end Program

end Cql
