import Cql.Proofs.Program.Outcome
import Cql.Proofs.Statement.Aliases
import Cql.Proofs.Statement.Slots

/-!
Columns of a program. Clauses leave the columns alone that a draft began with, so a SELECT lists
those that were given, each with its alias.
-/

namespace Cql

open Token (IsQuotation)

/-- What no clause changes. -/
structure Draft.Keeps (operation : Operation) (columns : Option Columns) (d : Draft) : Prop where
  operation : d.statement.operation = operation
  columns : d.statement.columns = columns

namespace Draft.Keeps

variable {operation : Operation} {columns : Option Columns} {d d' : Draft} {clause : Clause}

theorem takes (h : d.Keeps operation columns) (htakes : d.Takes clause d') :
    d'.Keeps operation columns := by
  cases htakes with
  | idle => exact h
  | @added eligibleOf s _ _ _ hadd =>
    obtain ⟨x, rfl⟩ := d.statement.enters_of_add eligibleOf clause s hadd
    constructor
    · exact (d.statement.operation_enter x).trans h.operation
    · exact (d.statement.columns_enter x).trans h.columns
  | misused => exact ⟨h.operation, h.columns⟩
  | foreign => exact ⟨h.operation, h.columns⟩

theorem foldlM (h : d.Keeps operation columns) (clauses : List Clause) :
    Step.Ensures (fun _ => True)
      (clauses.foldlM (fun d clause => Workshop.onMemo (d.apply clause)) d)
      (Keeps operation columns) := by
  refine Step.Ensures.foldlM h fun d hd clause _ => ?_
  exact Workshop.any_onMemo ((d.apply_takes clause).mono fun d' htakes => hd.takes htakes)

end Draft.Keeps

namespace Program

variable {P : Program} {style : Style} {w : Workshop}

/-- A program whose origin is a statement with columns drafts a statement with these columns. -/
theorem keeps_statement {s : Statement} (origin : Origin) (clauses : List Clause) (style : Style)
    (w : Workshop) (horigin : origin.begin style = Origin.start style s) :
    (statement ⟨origin, clauses⟩ style w).operation = s.operation ∧
      (statement ⟨origin, clauses⟩ style w).columns = s.columns := by
  have hstart : Step.Ensures (fun _ => True) (Origin.start style s)
      (Draft.Keeps s.operation s.columns) :=
    Step.ensures_any.bind fun buffer _ => .pure ⟨rfl, rfl⟩
  have hkeeps : Step.Ensures (fun _ => True) (draft ⟨origin, clauses⟩ style)
      (Draft.Keeps s.operation s.columns) := by
    rw [draft, horigin]
    exact hstart.bind fun d hd => hd.foldlM clauses
  obtain ⟨-, hoperation, hcolumns⟩ := hkeeps ⟨w, []⟩ trivial
  exact ⟨hoperation, hcolumns⟩

/-- A SELECT writes its columns in their order, each with its alias, if it has one, in quotes. An
alias is read as one quoted name that stands for it exactly if it holds no quote, and the names of
plain columns hold none. -/
theorem result_select {columns : Columns} {r : Rendered}
    (hselect : (P.statement style w).operation = .select)
    (hcolumns : (P.statement style w).columns = some columns)
    (hwritten : columns.fragment? = none) (hr : P.result style w = .ok r) :
    ∃ scope front rest, scope.casing = style.casing ∧
      r.text.toList = front ++ (listed ", ".toList ((columns.selected scope).map (·.chars scope)) ++
        (" FROM ".toList ++ rest)) ∧
      ∀ x ∈ columns.selected scope,
        (∃ before after, r.text.toList = before ++ x.chars scope ++ after ∧
          after.head? ≠ some '"') ∧
        (x.ReadsBack ↔ ∀ label ∈ x.label, '"' ∉ label.toList) ∧
        ∀ names, columns = .names names → (∀ name ∈ names, IsPath name) → x.ReadsBack := by
  obtain ⟨ps, buffer, houtcome, rfl⟩ := exists_outcome hr
  obtain ⟨scope, front, table, rest, hscope, hps⟩ :=
    outcome_returns (Statement.lists_selected hselect hcolumns hwritten) ps houtcome
  have htext : (Rendered.ofPieces style.binding buffer ps).text.toList =
      (buffer.toList ++ (Piece.textOf style.binding front).toList) ++
        (listed ", ".toList ((columns.selected scope).map (·.chars scope)) ++
          (" FROM ".toList ++ (table.toList ++ (Piece.textOf style.binding rest).toList))) := by
    have hlisted := Piece.toList_separated style.binding ", "
      ((columns.selected scope).map (·.pieces scope))
    rw [List.map_map] at hlisted
    simp only [Rendered.ofPieces, hps, Piece.textOf_append, Piece.textOf_cons,
      Piece.written_text, String.toList_append, hlisted]
    simp [Function.comp_def, Selected.toList_textOf_pieces]
  refine ⟨scope, _, _, hscope, htext, fun x hx => ⟨?_, x.readsBack_iff, ?_⟩⟩
  · obtain ⟨before, after, hsplit, hafter⟩ := exists_listed_eq ", ".toList
      (" FROM ".toList ++ (table.toList ++ (Piece.textOf style.binding rest).toList))
      (List.mem_map_of_mem (f := (·.chars scope)) hx)
    rw [hsplit, ← List.append_assoc, ← List.append_assoc] at htext
    refine ⟨_, after, htext, ?_⟩
    obtain ⟨later, rfl⟩ | rfl := hafter
    · simp
    · simp
  · rintro names rfl hnames
    exact x.readsBack_of_isPath hnames hx

/-- The second alias holds a quote. -/
theorem result_select_owner :
    let P : Program := ⟨.selectAliased [("ownerId", "who? -- :x"), ("id", "a\"b")],
      [.source (.table "account")]⟩
    (P.result {} {}).map (·.text) =
        .ok "SELECT owner_id AS \"who? -- :x\", id AS \"a\"b\" FROM account" ∧
      Selected.ReadsBack ⟨"ownerId", some "who? -- :x"⟩ ∧
      ¬Selected.ReadsBack ⟨"id", some "a\"b"⟩ := by
  intro P
  have htext : (P.result {} {}).map (·.text) =
      .ok "SELECT owner_id AS \"who? -- :x\", id AS \"a\"b\" FROM account" := by decide +kernel
  obtain ⟨r, hr, -⟩ := exists_of_map_eq_ok htext
  have hcolumns : (P.statement {} {}).columns =
      some (.aliased [("ownerId", "who? -- :x"), ("id", "a\"b")]) := rfl
  obtain ⟨scope, -, -, -, -, hread⟩ := result_select rfl hcolumns rfl hr
  refine ⟨htext, ?_, ?_⟩
  · refine (hread ⟨"ownerId", some "who? -- :x"⟩ (by simp [Columns.selected])).2.1.mpr ?_
    rintro label ⟨⟩
    decide
  · intro hback
    have hquote := (hread ⟨"id", some "a\"b"⟩ (by simp [Columns.selected])).2.1.mp hback _ rfl
    exact hquote (by decide)

/-- A quote in an alias ends it, and what stands behind goes on as other tokens. -/
theorem alias_ends_early :
    let P : Program := ⟨.selectAliased [("id", "a\"b")], [.source (.table "t")]⟩
    (P.result {} {}).map (·.text) = .ok "SELECT id AS \"a\"b\" FROM t" ∧
      ¬IsQuotation '"' .quotedName (Selected.aliasChars "a\"b") "a\"b".toList ∧
      (Token.readAll "SELECT id AS \"a\"b\" FROM t".toList).map
          (fun ts => (ts.filter (·.kind = .quotedName)).map (·.text)) =
        .ok ["\"a\"", "\" FROM t"] := by
  intro P
  refine ⟨by decide +kernel, ?_, by decide +kernel⟩
  rw [Selected.aliasChars, Token.isQuotation_self_iff fun _ => rfl]
  decide

end Program

end Cql
