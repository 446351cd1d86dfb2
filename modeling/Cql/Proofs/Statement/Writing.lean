import Cql.Proofs.Step
import Cql.Statement.Writing

/-!
The pieces that are written. Whatever columns are in force and whatever was written before, a part
of a statement writes the pieces that it is rendered to in the scope of these columns, and leaves
them in force. So a statement is written to the pieces that it is rendered to.
-/

namespace Cql

open Writing

/-- What writing ends with, given what rendering ends with. -/
inductive Written (columns : Option ColumnMap) (before : List Piece) :
    Except Error (List Piece) × Logged Memo → Except Error Unit × Logged Writer → Prop
  | ok (ps : List Piece) (t : Logged Memo) :
    Written columns before (.ok ps, t) (.ok (), ⟨⟨t.state, columns, before ++ ps⟩, t.log⟩)
  | error (err : Error) (t : Logged Memo) (written : List Piece) :
    Written columns before (.error err, t) (.error err, ⟨⟨t.state, columns, written⟩, t.log⟩)

namespace Written

variable {columns : Option ColumnMap} {before : List Piece}
  {rendered : Except Error (List Piece) × Logged Memo} {run : Except Error Unit × Logged Writer}

theorem rendered_eq (h : Written columns [] rendered run) : rendered =
    (run.1.map fun _ => run.2.state.written, ⟨run.2.state.memo, run.2.log⟩) := by
  cases h <;> rfl

theorem columns_eq (h : Written columns before rendered run) : run.2.state.columns = columns := by
  cases h <;> rfl

end Written

/-- Writing does what rendering does in the scope of the columns in force, and leaves them in
force. -/
def Writes (casing : Casing) (x : Writing Unit) (y : Scope → Resolving (List Piece)) : Prop :=
  ∀ s : Logged Writer, Written s.state.columns s.state.written
    ((y ⟨casing, s.state.columns⟩).run ⟨s.state.memo, s.log⟩) (x.run s)

/-- A scope is the columns in force and the casing. -/
theorem Scope.ofEntity?_bind {α : Type} (casing : Casing) (e? : Option Entity)
    (next : Scope → Resolving α) : (do
      let scope ← ofEntity? casing e?
      next ⟨casing, scope.columns⟩) = ofEntity? casing e? >>= next := by
  cases e? with
  | none => rfl
  | some e =>
    rw [ofEntity?, bind_assoc, bind_assoc]
    rfl

theorem Writing.run_ofMemo {α : Type} {z : Resolving α} {s : Logged Writer}
    {result : Except Error α} {t : Logged Memo} (hz : z.run ⟨s.state.memo, s.log⟩ = (result, t)) :
    (ofMemo z).run s = (result, ⟨{ s.state with memo := t.state }, t.log⟩) := by
  let ran := z.run ⟨s.state.memo, s.log⟩
  have hran : ran = (result, t) := hz
  change ((ran.1, ⟨{ s.state with memo := ran.2.state }, ran.2.log⟩) : _ × Logged Writer) = _
  rw [hran]

namespace Writes

variable {α : Type} {casing : Casing} {x x' : Writing Unit} {y y' : Scope → Resolving (List Piece)}

theorem congr (h : Writes casing x y) (heq : ∀ scope, y' scope = y scope) : Writes casing x y' :=
  funext heq ▸ h

theorem write (ps : List Piece) : Writes casing (Writing.write ps) fun _ => pure ps :=
  fun s => .ok ps ⟨s.state.memo, s.log⟩

theorem nothing : Writes casing (pure ()) fun _ => pure [] := by
  intro s
  have hwritten : Written s.state.columns s.state.written _ _ := .ok [] ⟨s.state.memo, s.log⟩
  rwa [List.append_nil] at hwritten

theorem throw (err : Error) : Writes casing (throw err) fun _ => throw err :=
  fun s => .error err ⟨s.state.memo, s.log⟩ s.state.written

theorem writeIn (pieces : Scope → Except Error (List Piece)) :
    Writes casing (Writing.writeIn casing pieces) fun scope => liftM (pieces scope) := by
  intro s
  change Written _ _ ((liftM (pieces ⟨casing, s.state.columns⟩) : Resolving _).run _)
    ((liftM (pieces ⟨casing, s.state.columns⟩) >>= Writing.write : Writing Unit).run s)
  cases pieces ⟨casing, s.state.columns⟩ with
  | ok ps => exact .ok ps ⟨s.state.memo, s.log⟩
  | error err => exact .error err ⟨s.state.memo, s.log⟩ s.state.written

/-- What the scope alone tells. -/
theorem told (pieces : Scope → List Piece) :
    Writes casing (Writing.writeIn casing fun scope => .ok (pieces scope)) fun scope =>
      pure (pieces scope) := writeIn fun scope => .ok (pieces scope)

theorem throw_bind (err : Error) {next : Unit → Writing Unit} :
    Writes casing (MonadExcept.throw err >>= next) fun _ => MonadExcept.throw err := throw err

theorem seq (h : Writes casing x y) (h' : Writes casing x' y') :
    Writes casing (do x; x') fun scope => do
      let ps ← y scope
      let qs ← y' scope
      return ps ++ qs := by
  intro s
  have hx := h s
  dsimp only
  cases hy : (y ⟨casing, s.state.columns⟩).run ⟨s.state.memo, s.log⟩ with
  | mk result t =>
  cases hr : x.run s with
  | mk outcome t' =>
  rw [hy, hr] at hx
  cases hx with
  | error err t written =>
    rw [run_bind_error hy, run_bind_error hr]
    exact .error err t written
  | ok ps t =>
    have hx' := h' ⟨⟨t.state, s.state.columns, s.state.written ++ ps⟩, t.log⟩
    rw [run_bind_ok hy, run_bind_ok hr]
    generalize x'.run _ = outcome at hx' ⊢
    cases hy' : (y' ⟨casing, s.state.columns⟩).run t with
    | mk result u =>
    change Written _ _ ((y' ⟨casing, s.state.columns⟩).run t) _ at hx'
    rw [hy'] at hx'
    cases hx' with
    | error err u written =>
      rw [run_bind_error hy']
      exact .error err u written
    | ok qs u =>
      rw [run_bind_ok hy', List.append_assoc]
      exact .ok (ps ++ qs) u

theorem ofMemo_bind {z : Resolving α} {next : α → Writing Unit}
    {next' : α → Scope → Resolving (List Piece)} (h : ∀ a, Writes casing (next a) (next' a)) :
    Writes casing (ofMemo z >>= next) fun scope => z >>= fun a => next' a scope := by
  intro s
  dsimp only
  cases hz : z.run ⟨s.state.memo, s.log⟩ with
  | mk result t =>
  cases result with
  | ok a =>
    rw [run_bind_ok hz, run_bind_ok (run_ofMemo hz)]
    exact h a ⟨{ s.state with memo := t.state }, t.log⟩
  | error err =>
    rw [run_bind_error hz, run_bind_error (run_ofMemo hz)]
    exact .error err t s.state.written

theorem within (h : Writes casing x y) (columns : Option ColumnMap) :
    Writes casing (Writing.within columns x) fun _ => y ⟨casing, columns⟩ := by
  intro s
  have hx := h ⟨{ s.state with columns }, s.log⟩
  let ran := x.run ⟨{ s.state with columns }, s.log⟩
  change Written _ _ _ ran at hx
  change Written _ _ ((y ⟨casing, columns⟩).run ⟨s.state.memo, s.log⟩)
    ((ran.1, ⟨{ ran.2.state with columns := s.state.columns }, ran.2.log⟩) : _ × Logged Writer)
  generalize ran = outcome at hx ⊢
  generalize (y ⟨casing, columns⟩).run ⟨s.state.memo, s.log⟩ = rendered at hx ⊢
  cases hx with
  | error err t written => exact .error err t written
  | ok ps t => exact .ok ps t

/-- What is written in the scope of an entity. -/
theorem withinScope (h : Writes casing x y) (e? : Option Entity) :
    Writes casing
      (ofMemo (Scope.ofEntity? casing e?) >>= fun inner : Scope => Writing.within inner.columns x)
      fun _ => Scope.ofEntity? casing e? >>= y :=
  (ofMemo_bind fun inner : Scope => h.within inner.columns).congr fun _ =>
    (Scope.ofEntity?_bind casing e? y).symm

end Writes

theorem Piece.separated_cons (separator : String) (item : List Piece) (items : List (List Piece)) :
    separated separator (item :: items) = item ++ items.flatMap (.text separator :: ·) := by
  induction items generalizing item with
  | nil => simp [separated]
  | cons next items ih => rw [separated, ih, List.flatMap_cons, List.cons_append]

namespace Selection

theorem writes_writeHead (casing : Casing) (selection : Selection) (target : Target) :
    Writes casing (selection.writeHead casing target) fun scope => do
      if selection.columns.isEmpty then throw (.lacking .subqueryColumns)
      let columns := match fragment? selection.columns with
        | some text => [.text text]
        | none => scope.names selection.columns
      let table ← target.tableName casing
      return .text "SELECT " :: columns ++ [.text " FROM ", .text table] := by
  rw [writeHead]
  by_cases hempty : selection.columns.isEmpty
  · simp only [hempty, if_true]
    exact .throw_bind _
  · simp only [hempty, Bool.false_eq_true, if_false]
    refine ((Writes.write _).seq ((Writes.told _).seq
      (.ofMemo_bind fun table => .write _))).congr fun scope => ?_
    cases fragment? selection.columns <;> simp

theorem writes_write (style : Style) (selection : Selection) {x : Writing Unit}
    {y : Scope → Resolving (List Piece)} (h : Writes style.casing x y) :
    Writes style.casing (selection.write style x) fun _ => do
      let (inner, opening) ← selection.opening style
      let closing ← y inner
      return opening ++ closing := by
  rw [write, opening]
  by_cases hstyle : selection.style = style
  · simp only [hstyle, ne_eq, not_true_eq_false, if_false]
    cases selection.target with
    | none => exact .throw _
    | some target =>
      refine (((selection.writes_writeHead style.casing target).seq h).withinScope _).congr
        fun scope => ?_
      simp only [bind_assoc]
      refine congrArg (_ >>= ·) (funext fun inner => ?_)
      split
      · rfl
      · cases fragment? selection.columns <;> simp only [bind_assoc, pure_bind]
  · simp only [ne_eq, hstyle, not_false_eq_true, if_true]
    exact .throw_bind _

end Selection

namespace Predicate

/-- The pieces of the parts of a junction that stand after its first one. -/
def laterPieces (connective : Connective) (parts : List (List Piece)) : List Piece :=
  parts.flatMap fun part =>
    .text (" " ++ connective.word ++ " ") :: .text "(" :: part ++ [.text ")"]

theorem junctionPieces_cons_cons (connective : Connective) (first second : List Piece)
    (others : List (List Piece)) : junctionPieces connective (first :: second :: others) =
      .text "(" :: first ++ .text ")" :: laterPieces connective (second :: others) := by
  rw [junctionPieces, List.map_cons, Piece.separated_cons, List.flatMap_map, laterPieces]
  · simp
  · simp

mutual

theorem writes_write (style : Style) :
    ∀ p : Predicate, Writes style.casing (p.write style) (p.pieces style)
  | .compare column operator value => by
    refine ((Writes.told _).seq (.write _)).congr fun scope => ?_
    simp [pieces]
  | .between column operator low high => by
    refine ((Writes.told _).seq (.write _)).congr fun scope => ?_
    simp [pieces]
  | .among column operator values => by
    refine ((Writes.told _).seq (.write _)).congr fun scope => ?_
    simp [pieces, memberPieces]
  | .negate inner => by
    refine ((Writes.write _).seq ((writes_write style inner).seq (.write _))).congr fun scope => ?_
    simp [pieces]
  | .junction connective [] => .throw _
  | .junction connective [only] => by
    refine (writes_write style only).congr fun scope => ?_
    simp [pieces, partPieces, junctionPieces]
  | .junction connective (first :: second :: others) => by
    refine ((Writes.write _).seq ((writes_write style first).seq ((Writes.write _).seq
      (writes_writeParts style connective (second :: others))))).congr fun scope => ?_
    simp [pieces, partPieces, junctionPieces_cons_cons]
  | .amongText column operator text => by
    refine ((Writes.told _).seq (.write _)).congr fun scope => ?_
    simp [pieces, memberPieces]
  | .amongSelect column operator selection filter => by
    refine ((Writes.told _).seq ((Writes.write _).seq
      ((selection.writes_write style (writes_writeFilter style filter)).seq (.write _)))).congr
        fun scope => ?_
    simp [pieces, memberPieces]
  | .raw text => .write _

theorem writes_writeParts (style : Style) (connective : Connective) :
    ∀ ps : List Predicate, Writes style.casing (writeParts style connective ps) fun scope =>
      laterPieces connective <$> partPieces style scope ps
  | [] => by
    refine Writes.nothing.congr fun scope => ?_
    simp [partPieces, laterPieces]
  | p :: ps => by
    refine ((Writes.write _).seq ((writes_write style p).seq ((Writes.write _).seq
      (writes_writeParts style connective ps)))).congr fun scope => ?_
    simp [partPieces, laterPieces]

theorem writes_writeFilter (style : Style) : ∀ filter : Option Predicate,
    Writes style.casing (writeFilter style filter) fun scope => filterPieces style scope filter
  | none => .nothing
  | some p => by
    refine ((Writes.write _).seq (writes_write style p)).congr fun scope => ?_
    simp [filterPieces]

end

end Predicate

namespace Statement

theorem writes_writeFilter (style : Style) (s : Statement) :
    Writes style.casing (s.writeFilter style) fun scope => s.filterPieces style scope := by
  unfold writeFilter filterPieces
  cases s.filter with
  | none => exact .nothing
  | some filter =>
    cases filter with
    | predicate p =>
      refine ((Writes.write _).seq (p.writes_write style)).congr fun scope => ?_
      simp
    | raw text =>
      refine ((Writes.write _).seq (.writeIn _)).congr fun scope => ?_
      simp

theorem writes_writeGuard (style : Style) (s : Statement) :
    Writes style.casing (s.writeGuard style) fun scope => s.guardPieces style scope := by
  unfold writeGuard guardPieces
  cases s.guard with
  | none => exact .nothing
  | some guard =>
    cases guard with
    | ifExists => exact .write _
    | predicate p =>
      refine ((Writes.write _).seq (p.writes_write style)).congr fun scope => ?_
      simp
    | raw text =>
      refine ((Writes.write _).seq (.writeIn _)).congr fun scope => ?_
      simp

theorem writes_writeInsert (style : Style) (s : Statement) :
    Writes style.casing (s.writeInsert style) fun scope => s.insertPieces style scope := by
  unfold writeInsert insertPieces
  cases s.columns with
  | none => exact .throw _
  | some columns =>
    refine (Writes.ofMemo_bind fun table => (Writes.write _).seq ((Writes.writeIn _).seq
      ((Writes.write _).seq (.write _)))).congr fun scope => ?_
    simp

theorem writes_writeSelect (style : Style) (s : Statement) :
    Writes style.casing (s.writeSelect style) fun scope => s.selectPieces style scope := by
  unfold writeSelect selectPieces
  cases s.columns with
  | none => exact .throw _
  | some columns =>
    refine (Writes.ofMemo_bind fun table => (Writes.write _).seq ((Writes.write _).seq
      ((Writes.writeIn _).seq ((Writes.write _).seq ((s.writes_writeFilter style).seq
      ((Writes.writeIn _).seq ((Writes.write _).seq (.write _)))))))).congr fun scope => ?_
    cases s.modifier <;> cases s.limit <;> simp

theorem writes_writeUpdate (style : Style) (s : Statement) :
    Writes style.casing (s.writeUpdate style) fun scope => s.updatePieces style scope := by
  unfold writeUpdate updatePieces
  by_cases hempty : s.assignments.isEmpty
  · simp only [hempty, if_true]
    exact .throw_bind _
  · simp only [hempty, Bool.false_eq_true, if_false]
    refine (Writes.ofMemo_bind fun table => (Writes.write _).seq ((Writes.writeIn _).seq
      ((s.writes_writeFilter style).seq (s.writes_writeGuard style)))).congr fun scope => ?_
    simp [Resolving.mapM_liftM]

theorem writes_writeDelete (style : Style) (s : Statement) :
    Writes style.casing (s.writeDelete style) fun scope => s.deletePieces style scope := by
  unfold writeDelete deletePieces
  refine (Writes.ofMemo_bind fun table => (Writes.write _).seq ((Writes.writeIn _).seq
    ((Writes.write _).seq ((s.writes_writeFilter style).seq (s.writes_writeGuard style))))).congr
      fun scope => ?_
  simp

/-- A statement is written to what it is rendered to. -/
theorem written_write (style : Style) (s : Statement) (w : Logged Writer) :
    ∃ columns, Written columns w.state.written ((s.pieces style).run ⟨w.state.memo, w.log⟩)
      ((s.write style).run w) := by
  unfold write pieces
  rw [← Scope.ofEntity?_bind style.casing s.entity]
  cases hscope : (Scope.ofEntity? style.casing s.entity).run ⟨w.state.memo, w.log⟩ with
  | mk result t =>
  cases result with
  | error err =>
    rw [run_bind_error hscope, run_bind_error (run_ofMemo hscope)]
    exact ⟨w.state.columns, .error err t w.state.written⟩
  | ok scope =>
    rw [run_bind_ok hscope, run_bind_ok (run_ofMemo hscope)]
    refine ⟨scope.columns, ?_⟩
    let opened : Logged Writer := ⟨⟨t.state, scope.columns, w.state.written⟩, t.log⟩
    cases s.operation with
    | insert => exact s.writes_writeInsert style opened
    | select => exact s.writes_writeSelect style opened
    | update => exact s.writes_writeUpdate style opened
    | delete => exact s.writes_writeDelete style opened

end Statement

end Cql
