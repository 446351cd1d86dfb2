import Cql.Proofs.Statement.Flaw
import Cql.Proofs.Statement.Writing

/-!
Names by the SELECT around them. A lexicon tells how names are resolved in a SELECT on each entity,
or on a table. By a lexicon a statement is read without a memo: a subquery has a scope of its own
inside it, and what stands beside it or after it has the scope around it. A statement that is
rendered, or written with one set of columns in force at a time, reads so by what is kept then.
-/

namespace Cql

structure Lexicon where
  /-- The scope in a SELECT on an entity, or on a table. -/
  scope : Option Entity → Scope
  /-- The name of the table of an entity. -/
  table : Entity → String

/-- The entity that a subquery reads, if it does not read a table. -/
def Selection.entity? (selection : Selection) : Option Entity :=
  selection.target.bind Target.entity?

namespace Lexicon

variable (l : Lexicon) (style : Style)

def tableName : Target → String
  | .table name => name
  | .entity e => l.table e

/-- A subquery up to its WHERE. -/
def opening (selection : Selection) : Except Error (List Piece) := do
  if selection.style ≠ style then
    throw (.unsupported (.foreignSubquery selection.style style))
  match selection.target with
  | none => throw (.lacking .subqueryTarget)
  | some target =>
    if selection.columns.isEmpty then throw (.lacking .subqueryColumns)
    let columns := match fragment? selection.columns with
      | some text => [.text text]
      | none => (l.scope selection.entity?).names selection.columns
    return .text "SELECT " :: columns ++ [.text " FROM ", .text (l.tableName target)]

open Predicate in
mutual

/-- A predicate in a SELECT on an entity, or on a table. -/
def predicate (around : Option Entity) : Predicate → Except Error (List Piece)
  | .compare column operator value =>
    return [(l.scope around).name column, .text (" " ++ operator ++ " "),
      .ofValue (placeholderName column) value]
  | .between column operator low high =>
    let name := placeholderName column
    return [(l.scope around).name column, .text (" " ++ operator ++ " "),
      .ofValue (camelAfter "min" name) low, .text " AND ",
      .ofValue (camelAfter "max" name) high]
  | .among column operator values =>
    return memberPieces (l.scope around) column operator (valuePieces column values)
  | .negate inner => do
    let inside ← predicate around inner
    return .text "NOT (" :: inside ++ [.text ")"]
  | .junction connective [] => throw (.emptyJunction connective)
  | .junction connective parts => do
    let parts ← predicateParts around parts
    return junctionPieces connective parts
  | .amongText column operator text =>
    return memberPieces (l.scope around) column operator [.text text]
  | .amongSelect column operator selection filter => do
    let opening ← l.opening style selection
    let closing ← predicateFilter selection.entity? filter
    return memberPieces (l.scope around) column operator (opening ++ closing)
  | .raw text => return [.text text]

def predicateParts (around : Option Entity) : List Predicate → Except Error (List (List Piece))
  | [] => return []
  | p :: ps => do
    let first ← predicate around p
    let others ← predicateParts around ps
    return first :: others

def predicateFilter (around : Option Entity) : Option Predicate → Except Error (List Piece)
  | none => return []
  | some p => do
    let inside ← predicate around p
    return .text " WHERE " :: inside

end

section Statement

open Statement

variable (s : Statement)

def statementTable : Except Error String :=
  match s.target, s.entity with
  | some target, _ => return l.tableName target
  | none, some e => return l.table e
  | none, none => throw (.lacking (.target s.operation))

def filter : Except Error (List Piece) :=
  match s.filter with
  | none => return []
  | some (.predicate p) => return .text " WHERE " :: (← l.predicate style s.entity p)
  | some (.raw text) => return .text " WHERE " :: (← (l.scope s.entity).raw text)

def guard : Except Error (List Piece) :=
  match s.guard with
  | none => return []
  | some .ifExists => return [.text " IF EXISTS"]
  | some (.predicate p) => return .text " IF " :: (← l.predicate style s.entity p)
  | some (.raw text) => return .text " IF " :: (← (l.scope s.entity).raw text)

def insert : Except Error (List Piece) :=
  match s.columns with
  | none => throw (.lacking .insertColumns)
  | some columns => do
    let table ← l.statementTable s
    let body ← insertBody style (l.scope s.entity) columns
    let condition := if s.ifNotExists then [.text " IF NOT EXISTS"] else []
    return .text ("INSERT INTO " ++ table ++ " (") :: body ++ condition ++
      [.text (usingText s.lifetime s.writeTime)]

def select : Except Error (List Piece) :=
  match s.columns with
  | none => throw (.lacking .selectColumns)
  | some columns => do
    let table ← l.statementTable s
    let body ← selectBody (l.scope s.entity) columns
    let filter ← l.filter style s
    let order ← s.orderPieces (l.scope s.entity)
    let modifier := match s.modifier with
      | none => []
      | some words => [.text (words ++ " ")]
    let limit := match s.limit with
      | none => []
      | some n => [.text (" LIMIT " ++ toString n)]
    let filtering := if s.allowFiltering then [.text " ALLOW FILTERING"] else []
    return .text "SELECT " :: modifier ++ body ++ .text (" FROM " ++ table) :: filter ++ order ++
      limit ++ filtering

def update : Except Error (List Piece) := do
  if s.assignments.isEmpty then throw (.lacking .assignments)
  let table ← l.statementTable s
  let assignments ← s.assignments.mapM (assignmentPieces (l.scope s.entity))
  let filter ← l.filter style s
  let guard ← l.guard style s
  return .text ("UPDATE " ++ table ++ usingText s.lifetime s.writeTime ++ " SET ") ::
    Piece.separated ", " assignments ++ filter ++ guard

def delete : Except Error (List Piece) := do
  let table ← l.statementTable s
  let body ← deleteBody (l.scope s.entity) s.columns
  let filter ← l.filter style s
  let guard ← l.guard style s
  return .text "DELETE " :: body ++
    .text ("FROM " ++ table ++ usingText none s.writeTime) :: filter ++ guard

/-- A statement, whose own names are resolved in the scope of its entity. -/
def statement : Except Error (List Piece) :=
  match s.operation with
  | .insert => l.insert style s
  | .select => l.select style s
  | .update => l.update style s
  | .delete => l.delete style s

end Statement

end Lexicon

/-- What is kept, as a lexicon. A SELECT on a table has no column map, so names in it are converted
by the casing. -/
def Memo.lexicon (m : Memo) (casing : Casing) : Lexicon where
  scope e? := {
    casing
    columns := e?.bind fun e => (m.columnMaps.lookup (e.typeName, casing)).map (·.value) }
  table e := ((m.tableNames.lookup e.typeName).getD (.ofEntity e)).get casing

namespace Memo

variable {m : Memo} {casing : Casing} {e : Entity}

theorem scope_lexicon {kept : Stamped ColumnMap}
    (h : m.columnMaps.lookup (e.typeName, casing) = some kept) :
    (m.lexicon casing).scope (some e) = ⟨casing, some kept.value⟩ := by
  simp [lexicon, h]

theorem table_lexicon {names : TableNames} (h : m.tableNames.lookup e.typeName = some names) :
    (m.lexicon casing).table e = names.get casing := by
  simp [lexicon, h]

end Memo

namespace Resolving

variable {α β : Type} {H : Lexicon → Prop} {casing : Casing} {xs ys : List Entity}
  {x : Resolving α} {f : Lexicon → Except Error α}

/-- A run that succeeds keeps the column maps of these entities, and gives what is read by the
lexicon of any memo with all that is kept then. -/
def Reads (H : Lexicon → Prop) (casing : Casing) (es : List Entity) (x : Resolving α)
    (f : Lexicon → Except Error α) : Prop :=
  Turns x fun m a m' => m.Grows m' ∧ (∀ e ∈ es, m'.Has casing e.typeName) ∧
    ∀ later, m'.Grows later → H (later.lexicon casing) → f (later.lexicon casing) = .ok a

namespace Reads

theorem pure {a : α} (h : ∀ l, H l → f l = .ok a) : Reads H casing [] (pure a) f := by
  refine (Turns.pure a).mono ?_
  rintro m _ _ ⟨rfl, rfl⟩
  exact ⟨.refl, nofun, fun _ _ hl => h _ hl⟩

theorem throw {err : Error} : Reads H casing xs (throw err) f := nofun

theorem throw_bind {err : Error} {next : β → Resolving α} :
    Reads H casing xs (MonadExcept.throw err >>= next) f := Turns.throw_bind

theorem mono (h : Reads H casing xs x f) {H' : Lexicon → Prop} (hH : ∀ l, H' l → H l)
    {f' : Lexicon → Except Error α} (hf : ∀ l, H' l → f' l = f l) (hsub : ys ⊆ xs) :
    Reads H' casing ys x f' := by
  refine Turns.mono h fun m a m' ⟨hgrows, hhas, hread⟩ => ?_
  refine ⟨hgrows, fun e he => hhas e (hsub he), fun later hlater hl => ?_⟩
  rw [hf _ hl]
  exact hread later hlater (hH _ hl)

/-- What the scope alone tells. -/
theorem told (told : Scope → Except Error α) {around : Option Entity} {scope : Scope}
    (h : ∀ l, H l → l.scope around = scope) :
    Reads H casing [] (liftM (told scope)) fun l => told (l.scope around) := by
  cases htold : told scope with
  | ok a => exact pure fun l hl => by rw [h l hl, htold]
  | error err => exact throw

/-- The next computation may use what is read by the lexicon. -/
theorem bind_of_read {next : α → Resolving β} {next' : α → Lexicon → Except Error β}
    (h : Reads H casing xs x f)
    (hnext : ∀ a, Reads (fun l => H l ∧ f l = .ok a) casing ys (next a) (next' a)) :
    Reads H casing (xs ++ ys) (x >>= next) fun l => f l >>= fun a => next' a l := by
  refine (Turns.bind h hnext).mono ?_
  rintro m b m'' ⟨a, m', ⟨hgrows, hhas, hread⟩, hgrows', hhas', hread'⟩
  refine ⟨hgrows.trans hgrows', fun e he => ?_, fun later hlater hl => ?_⟩
  · obtain he | he := List.mem_append.mp he
    · exact hgrows'.has (hhas e he)
    · exact hhas' e he
  · have ha := hread later (hgrows'.trans hlater) hl
    dsimp only
    rw [ha]
    exact hread' later hlater ⟨hl, ha⟩

theorem bind {next : α → Resolving β} {next' : α → Lexicon → Except Error β}
    (h : Reads H casing xs x f) (hnext : ∀ a, Reads H casing ys (next a) (next' a)) :
    Reads H casing (xs ++ ys) (x >>= next) fun l => f l >>= fun a => next' a l :=
  h.bind_of_read fun a => (hnext a).mono (fun _ => And.left) (fun _ _ => rfl) fun _ h => h

theorem map {g : α → β} {next' : α → Lexicon → Except Error β} (h : Reads H casing xs x f)
    (hnext : ∀ a l, H l → next' a l = .ok (g a)) :
    Reads H casing xs (x >>= fun a => Pure.pure (g a)) fun l => f l >>= fun a => next' a l :=
  (h.bind fun a => pure (hnext a)).mono (fun _ h => h) (fun _ _ => rfl) (by simp)

theorem tablesOf (e : Entity) :
    Reads H casing [] (do return (← Memo.tablesOf e).get casing) fun l => .ok (l.table e) := by
  have htables : Turns (liftM (Memo.tablesOf e)) fun m names m' =>
      m.AddsTables m' ∧ m'.tableNames.lookup e.typeName = some names :=
    .step (Memo.addsTables_tablesOf e)
  refine (htables.bind fun names => .pure _).mono ?_
  rintro m _ m'' ⟨names, m', ⟨hadds, hlookup⟩, rfl, rfl⟩
  refine ⟨hadds.grows, nofun, fun later hlater _ => ?_⟩
  exact congrArg _ (Memo.table_lexicon (hlater.tableNames _ names hlookup))

theorem tableName (target : Target) :
    Reads H casing [] (liftM (target.tableName casing)) fun l => .ok (l.tableName target) := by
  cases target with
  | table name => exact pure fun _ _ => rfl
  | entity e => exact tablesOf e

theorem ofEntity? (e? : Option Entity) :
    Reads H casing e?.toList (Scope.ofEntity? casing e?) fun l => .ok (l.scope e?) := by
  cases e? with
  | none =>
    refine (Turns.pure _).mono ?_
    rintro m _ _ ⟨rfl, rfl⟩
    exact ⟨.refl, nofun, fun _ _ _ => rfl⟩
  | some e =>
    refine ((Memo.turns_columnsOf e casing).bind fun kept => .pure _).mono ?_
    rintro m _ m'' ⟨kept, m', ⟨hgrows, hlookup⟩, rfl, rfl⟩
    refine ⟨hgrows, ?_, fun later hlater _ => ?_⟩
    · simpa using Memo.has_of_lookup hlookup
    · exact congrArg _ (Memo.scope_lexicon (hlater.columnMaps _ kept hlookup))

/-- What follows the look-up of a scope may use whose scope it is. -/
theorem scope_bind {e? : Option Entity} {next : Scope → Resolving α}
    (hnext : ∀ scope, Reads (fun l => H l ∧ l.scope e? = scope) casing ys (next scope) f) :
    Reads H casing (e?.toList ++ ys) (Scope.ofEntity? casing e? >>= next) f :=
  (ofEntity? e?).bind_of_read fun scope =>
    (hnext scope).mono (fun _ hl => ⟨hl.1, Except.ok.inj hl.2⟩) (fun _ _ => rfl) fun _ h => h

end Reads

end Resolving

open Resolving (Reads)

section Parts

variable {α : Type} {style : Style} {H : Lexicon → Prop} {es : List Entity}

theorem Target.reads_scope {next : Scope → Resolving α} {f : Lexicon → Except Error α}
    {casing : Casing} (target : Target) :
    (∀ scope, Reads (fun l => H l ∧ l.scope target.entity? = scope) casing es (next scope) f) →
      Reads H casing (target.entities ++ es)
        ((Scope.ofEntity? casing <| match target with
          | .table _ => none
          | .entity e => some e) >>= next) f := by
  cases target <;> exact .scope_bind

/-- What follows the opening of a subquery has the scope of its entity, or of no entity. -/
theorem Selection.reads_opening {next : Scope × List Piece → Resolving α}
    {next' : List Piece → Lexicon → Except Error α} (selection : Selection)
    (hnext : ∀ inner opening, Reads (fun l => H l ∧ l.scope selection.entity? = inner)
      style.casing es (next (inner, opening)) (next' opening)) :
    Reads H style.casing (selection.entities ++ es) (selection.opening style >>= next) fun l =>
      l.opening style selection >>= fun opening => next' opening l := by
  obtain ⟨made, columns, target⟩ := selection
  unfold opening Lexicon.opening
  dsimp only [entity?] at hnext ⊢
  split
  · exact .throw_bind
  cases target with
  | none => exact .throw_bind
  | some target =>
    rw [entities, Option.toList_some, List.flatMap_singleton]
    dsimp only
    rw [bind_assoc]
    refine target.reads_scope fun scope => ?_
    split
    · exact .throw_bind
    · rw [bind_assoc]
      simp only [pure_bind]
      refine ((Reads.tableName target).bind fun table => hnext scope _).mono (fun _ h => h)
        (fun l hl => ?_) fun _ h => h
      rw [hl.2]
      rfl

namespace Predicate

mutual

theorem reads_pieces (style : Style) : ∀ (p : Predicate) {H : Lexicon → Prop} {scope : Scope}
    {around : Option Entity}, (∀ l, H l → l.scope around = scope) →
      Reads H style.casing p.entities (p.pieces style scope) (·.predicate style around p)
  | .compare .., _, _, _, h => .pure fun l hl => h l hl ▸ rfl
  | .between .., _, _, _, h => .pure fun l hl => h l hl ▸ rfl
  | .among .., _, _, _, h => .pure fun l hl => h l hl ▸ rfl
  | .negate inner, _, _, _, h => (reads_pieces style inner h).map fun _ _ _ => rfl
  | .junction _ [], _, _, _, _ => .throw
  | .junction _ (p :: ps), _, _, _, h =>
    (reads_partPieces style (p :: ps) h).map fun _ _ _ => rfl
  | .amongText .., _, _, _, h => .pure fun l hl => h l hl ▸ rfl
  | .amongSelect _ _ selection filter, _, _, _, h =>
    selection.reads_opening fun _ _ =>
      (reads_filterPieces style filter fun _ hl => hl.2).map fun _ l hl => h l hl.1 ▸ rfl
  | .raw _, _, _, _, _ => .pure fun _ _ => rfl

theorem reads_partPieces (style : Style) : ∀ (ps : List Predicate) {H : Lexicon → Prop}
    {scope : Scope} {around : Option Entity}, (∀ l, H l → l.scope around = scope) →
      Reads H style.casing (partEntities ps) (partPieces style scope ps)
        (·.predicateParts style around ps)
  | [], _, _, _, _ => .pure fun _ _ => rfl
  | p :: ps, _, _, _, h => (reads_pieces style p h).bind fun _ =>
    (reads_partPieces style ps h).map fun _ _ _ => rfl

theorem reads_filterPieces (style : Style) : ∀ (filter : Option Predicate) {H : Lexicon → Prop}
    {scope : Scope} {around : Option Entity}, (∀ l, H l → l.scope around = scope) →
      Reads H style.casing (filterEntities filter) (filterPieces style scope filter)
        (·.predicateFilter style around filter)
  | none, _, _, _, _ => .pure fun _ _ => rfl
  | some p, _, _, _, h => (reads_pieces style p h).map fun _ _ _ => rfl

end

end Predicate

end Parts

namespace Statement

variable {style : Style} {scope : Scope} {s : Statement} {H : Lexicon → Prop}

theorem reads_tableName (style : Style) (s : Statement) :
    Reads H style.casing [] (s.tableName style) (·.statementTable s) := by
  simp only [tableName, Lexicon.statementTable]
  cases s.target with
  | some target => exact .tableName target
  | none =>
    cases s.entity with
    | some e => exact .tablesOf e
    | none => exact .throw

theorem reads_filterPieces (h : ∀ l, H l → l.scope s.entity = scope) :
    Reads H style.casing (Predicate.filterEntities (s.filter.bind Filter.predicate?))
      (s.filterPieces style scope) (·.filter style s) := by
  simp only [filterPieces, Lexicon.filter]
  cases s.filter with
  | none => exact .pure fun _ _ => rfl
  | some filter =>
    cases filter with
    | predicate p => exact (p.reads_pieces style h).map fun _ _ _ => rfl
    | raw text => exact (Reads.told (·.raw text) h).map fun _ _ _ => rfl

theorem reads_guardPieces (h : ∀ l, H l → l.scope s.entity = scope) :
    Reads H style.casing (Predicate.filterEntities (s.guard.bind Guard.predicate?))
      (s.guardPieces style scope) (·.guard style s) := by
  simp only [guardPieces, Lexicon.guard]
  cases s.guard with
  | none => exact .pure fun _ _ => rfl
  | some guard =>
    cases guard with
    | ifExists => exact .pure fun _ _ => rfl
    | predicate p => exact (p.reads_pieces style h).map fun _ _ _ => rfl
    | raw text => exact (Reads.told (·.raw text) h).map fun _ _ _ => rfl

theorem reads_insertPieces (h : ∀ l, H l → l.scope s.entity = scope) :
    Reads H style.casing [] (s.insertPieces style scope) (·.insert style s) := by
  simp only [insertPieces, Lexicon.insert]
  cases s.columns with
  | none => exact .throw
  | some columns =>
    refine (s.reads_tableName style).bind fun _ => ?_
    exact (Reads.told (insertBody style · columns) h).map fun _ _ _ => rfl

theorem reads_selectPieces (h : ∀ l, H l → l.scope s.entity = scope) :
    Reads H style.casing (Predicate.filterEntities (s.filter.bind Filter.predicate?))
      (s.selectPieces style scope) (·.select style s) := by
  rw [← List.append_nil (Predicate.filterEntities _)]
  simp only [selectPieces, Lexicon.select]
  cases s.columns with
  | none => exact .throw
  | some columns =>
    refine (s.reads_tableName style).bind fun _ => ?_
    refine (Reads.told (selectBody · columns) h).bind fun _ => ?_
    refine (reads_filterPieces h).bind fun _ => ?_
    exact (Reads.told (orderPieces · s) h).map fun _ _ _ => rfl

theorem reads_updatePieces (h : ∀ l, H l → l.scope s.entity = scope) :
    Reads H style.casing (Predicate.filterEntities (s.filter.bind Filter.predicate?) ++
        Predicate.filterEntities (s.guard.bind Guard.predicate?))
      (s.updatePieces style scope) (·.update style s) := by
  simp only [updatePieces, Lexicon.update, Resolving.mapM_liftM]
  split
  · exact .throw_bind
  · refine (s.reads_tableName style).bind fun _ => ?_
    refine (Reads.told (fun scope => s.assignments.mapM (assignmentPieces scope)) h).bind fun _ => ?_
    exact (reads_filterPieces h).bind fun _ => (reads_guardPieces h).map fun _ _ _ => rfl

theorem reads_deletePieces (h : ∀ l, H l → l.scope s.entity = scope) :
    Reads H style.casing (Predicate.filterEntities (s.filter.bind Filter.predicate?) ++
        Predicate.filterEntities (s.guard.bind Guard.predicate?))
      (s.deletePieces style scope) (·.delete style s) := by
  refine (s.reads_tableName style).bind fun _ => ?_
  refine (Reads.told (deleteBody · s.columns) h).bind fun _ => ?_
  exact (reads_filterPieces h).bind fun _ => (reads_guardPieces h).map fun _ _ _ => rfl

theorem flatMap_toList (p? : Option Predicate) :
    p?.toList.flatMap Predicate.entities = Predicate.filterEntities p? := by
  cases p? with
  | none => rfl
  | some p => exact List.flatMap_singleton _ p

theorem flatMap_predicates : s.predicates.flatMap Predicate.entities = match s.operation with
    | .insert => []
    | .select => Predicate.filterEntities (s.filter.bind Filter.predicate?)
    | .update | .delete => Predicate.filterEntities (s.filter.bind Filter.predicate?) ++
        Predicate.filterEntities (s.guard.bind Guard.predicate?) := by
  rw [predicates]
  cases s.operation with
  | insert => rfl
  | select => exact flatMap_toList _
  | update | delete => rw [List.flatMap_append, flatMap_toList, flatMap_toList]

/-- A statement is rendered as it is read by what is kept then, or later. -/
theorem reads_pieces (style : Style) (s : Statement) :
    Reads (fun _ => True) style.casing
      (s.entity.toList ++ s.predicates.flatMap Predicate.entities) (s.pieces style)
      (·.statement style s) := by
  refine Reads.scope_bind fun scope => ?_
  have hscope : ∀ l : Lexicon, True ∧ l.scope s.entity = scope → l.scope s.entity = scope :=
    fun _ hl => hl.2
  rw [flatMap_predicates]
  unfold Lexicon.statement
  cases s.operation with
  | insert => exact reads_insertPieces hscope
  | select => exact reads_selectPieces hscope
  | update => exact reads_updatePieces hscope
  | delete => exact reads_deletePieces hscope

/-- A statement that is written with one set of columns in force at a time is what it is rendered
to. It reads so by the lexicon of what is kept then, where a name is resolved in the SELECT around
it: on an entity as the memo resolves it for this entity, and on a table by the casing. A predicate
leaves the columns in force as they were, also when it fails. -/
theorem write_lexical (style : Style) (s : Statement) (m : Memo) (log : List Event) :
    let run := (s.write style).run ⟨{ memo := m }, log⟩
    let writer := run.2.state
    let lexicon := writer.memo.lexicon style.casing
    (s.pieces style).run ⟨m, log⟩ =
        (run.1.map fun _ => writer.written, ⟨writer.memo, run.2.log⟩) ∧
      (run.1 = .ok () → lexicon.statement style s = .ok writer.written ∧
        ∀ e ∈ s.entity.toList ++ s.predicates.flatMap Predicate.entities, ∀ column later,
          (Memo.columnOf e style.casing column).run ⟨writer.memo, later⟩ =
            (.ok ((lexicon.scope (some e)).resolve column), ⟨writer.memo, later⟩)) ∧
      (∀ column, (lexicon.scope none).resolve column = style.casing.physical column) ∧
      ∀ (p : Predicate) (w : Logged Writer),
        ((p.write style).run w).2.state.columns = w.state.columns := by
  intro run writer lexicon
  obtain ⟨columns, hwritten⟩ := s.written_write style ⟨{ memo := m }, log⟩
  have hpieces : (s.pieces style).run ⟨m, log⟩ =
      (run.1.map fun _ => writer.written, ⟨writer.memo, run.2.log⟩) := hwritten.rendered_eq
  refine ⟨hpieces, fun hok => ?_, fun _ => rfl, fun p w => (p.writes_write style w).columns_eq⟩
  rw [hok] at hpieces
  obtain ⟨-, hhas, hread⟩ := s.reads_pieces style _ _ _ hpieces
  refine ⟨hread writer.memo .refl trivial, fun e he column later => ?_⟩
  obtain ⟨kept, hkept⟩ := Option.isSome_iff_exists.mp (hhas e he)
  rw [Memo.scope_lexicon hkept]
  exact run_bind_ok (Memo.columnsOf_of_lookup hkept)

def account : Entity where
  typeName := "crm::Account"
  name := "Account"
  table := some "user_account"
  fields := [{ name := "email", column := some "mail" }]

/-- In accounts, `email` is a column with another name, in visits it is not. -/
def scattered (operation : Operation) : Statement where
  operation := operation
  entity := some account
  columns := some (.names ["email"])
  filter := some (.predicate (.junction .and [
    .amongSelect "email" "IN" ⟨⟨.lowerUnderscore, .literal⟩, ["email"], some (.table "visits")⟩
      (some (.junction .or [
        .amongSelect "email" "IN" ⟨⟨.lowerUnderscore, .literal⟩, ["email"], some (.entity account)⟩
          (some (.raw "id = 1")),
        .equal "email" (.int 2)])),
    .equal "email" (.int 3)]))
  guard := some (.predicate (.equal "email" (.int 4)))
  order := [.column "email" none]

/-- After the subqueries `email` is again the column of the account. -/
theorem write_lexical_scattered :
    let style : Style := ⟨.lowerUnderscore, .literal⟩
    let run operation := ((scattered operation).write style).run ⟨{ memo := {} }, []⟩
    let lexicon operation := (run operation).2.state.memo.lexicon style.casing
    let texts operation := ((lexicon operation).statement style (scattered operation)).map
      fun ps => ps.map (Piece.written style.binding)
    let subquery := ["SELECT ", "email", " FROM ", "visits", " WHERE ", "(", "email", " IN (",
      "SELECT ", "mail", " FROM ", "user_account", " WHERE ", "id = 1", ")", ")", " OR ", "(",
      "email", " = ", "2", ")"]
    let filter := " WHERE " :: "(" :: "mail" :: " IN (" :: subquery ++
      [")", ")", " AND ", "(", "mail", " = ", "3", ")"]
    texts .select = .ok (["SELECT ", "mail", " AS \"email\"", " FROM user_account"] ++ filter ++
        [" ORDER BY ", "mail"]) ∧
      texts .delete = .ok (["DELETE ", "mail", " ", "FROM user_account"] ++ filter ++
        [" IF ", "mail", " = ", "4"]) ∧
      ((Memo.columnOf account style.casing "email").run ⟨(run .select).2.state.memo, []⟩).1 =
        .ok "mail" := by
  intro style run lexicon texts subquery filter
  have hread : ∀ operation, (run operation).1 = .ok () → texts operation =
      .ok ((run operation).2.state.written.map (Piece.written style.binding)) := by
    intro operation hok
    have hlexicon := (write_lexical style (scattered operation) {} []).2.1 hok
    exact congrArg (Except.map _) hlexicon.1
  have hselect : (run .select).1 = .ok () := by
    dsimp only [style, run]
    cbv
  have hdelete : (run .delete).1 = .ok () := by
    dsimp only [style, run]
    cbv
  refine ⟨(hread .select hselect).trans (congrArg _ ?_),
    (hread .delete hdelete).trans (congrArg _ ?_), ?_⟩
  · dsimp only [style, run, filter, subquery]
    cbv
  · dsimp only [style, run, filter, subquery]
    cbv
  · have hcolumn := ((write_lexical style (scattered .select) {} []).2.1 hselect).2 account
      List.mem_cons_self "email" []
    have hname : ((lexicon .select).scope (some account)).resolve "email" = "mail" := by
      dsimp only [style, run, lexicon]
      cbv
    exact (congrArg Prod.fst hcolumn).trans (congrArg Except.ok hname)

end Statement

end Cql
