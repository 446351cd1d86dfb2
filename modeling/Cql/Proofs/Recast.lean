import Cql.Origin
import Cql.Proofs.Step

/-!
The same drafting in another style or with other values. Styles and values are replaced everywhere,
and drafting goes on in lockstep: which clauses are taken, which mistakes are made and what is noted
stay the same.
-/

namespace Cql

/-- What stands in place of each style of a subquery and of each value. -/
structure Recast where
  style : Style → Style := id
  value : Value → Value := id

def Recast.toStyle (style : Style) : Recast := { style := fun _ => style }

variable (r : Recast)

def Row.recast (row : Row) : Row := ⟨row.entries.map fun entry => (entry.1, r.value entry.2)⟩

def Selection.recast (s : Selection) : Selection := { s with style := r.style s.style }

namespace Predicate

mutual

def recast : Predicate → Predicate
  | .compare column operator v => .compare column operator (r.value v)
  | .between column operator low high => .between column operator (r.value low) (r.value high)
  | .among column operator values => .among column operator (values.map r.value)
  | .negate inner => .negate (recast inner)
  | .junction connective parts => .junction connective (recastParts parts)
  | .amongText column operator text => .amongText column operator text
  | .amongSelect column operator selection filter =>
    .amongSelect column operator (selection.recast r) (recastFilter filter)
  | .raw text => .raw text

def recastParts : List Predicate → List Predicate
  | [] => []
  | p :: ps => recast p :: recastParts ps

def recastFilter : Option Predicate → Option Predicate
  | none => none
  | some p => some (recast p)

end

end Predicate

def Columns.recast : Columns → Columns
  | .names columns => .names columns
  | .aliased columns => .aliased columns
  | .row values => .row (values.recast r)
  | .rows list => .rows (list.map (Row.recast r))

def Assignment.recast : Assignment → Assignment
  | .hole column => .hole column
  | .value column v => .value column (r.value v)
  | .raw text => .raw text

def Filter.recast : Filter → Filter
  | .predicate p => .predicate (p.recast r)
  | .raw text => .raw text

def Guard.recast : Guard → Guard
  | .ifExists => .ifExists
  | .predicate p => .predicate (p.recast r)
  | .raw text => .raw text

def Statement.recast (s : Statement) : Statement :=
  { s with
    columns := s.columns.map (Columns.recast r)
    assignments := s.assignments.map (Assignment.recast r)
    filter := s.filter.map (Filter.recast r)
    guard := s.guard.map (Guard.recast r) }

def Clause.recast : Clause → Clause
  | .setValue column v => .setValue column (r.value v)
  | .setRow row => .setRow (row.recast r)
  | .setEntity e snapshot excluded => .setEntity e (snapshot.recast r) excluded
  | .filter p => .filter (p.recast r)
  | .filterKeys values => .filterKeys (values.map r.value)
  | .guard p => .guard (p.recast r)
  | clause => clause

def Origin.recast : Origin → Origin
  | .insertRow row => .insertRow (row.recast r)
  | .insertRows rows => .insertRows (rows.map (Row.recast r))
  | .insertEntity e snapshot excluded => .insertEntity e (snapshot.recast r) excluded
  | .insertEntities e snapshots excluded =>
    .insertEntities e (snapshots.map (Row.recast r)) excluded
  | .updateEntity e snapshot excluded => .updateEntity e (snapshot.recast r) excluded
  | origin => origin

def Draft.recast (d : Draft) : Draft :=
  { d with style := r.style d.style, statement := d.statement.recast r }

namespace Row

variable (row : Row)

@[simp]
theorem names_recast : (row.recast r).names = row.names := by
  simp [names, recast, Function.comp_def]

@[simp]
theorem get?_recast (name : String) : (row.recast r).get? name = (row.get? name).map r.value := by
  obtain ⟨entries⟩ := row
  induction entries with
  | nil => rfl
  | cons entry entries ih =>
    obtain ⟨n, v⟩ := entry
    simp only [get?, recast, List.map_cons, List.lookup_cons] at ih ⊢
    cases name == n <;> simp [ih]

@[simp]
theorem isEmpty_recast : (row.recast r).isEmpty = row.isEmpty := by simp [isEmpty, recast]

theorem restrict_recast (keep : String → Bool) :
    (row.recast r).restrict keep = (row.restrict keep).recast r := by
  simp [restrict, recast, List.filter_map, Function.comp_def]

end Row

theorem Predicate.recastParts_eq_map (ps : List Predicate) :
    recastParts r ps = ps.map (recast r) := by
  induction ps with
  | nil => rfl
  | cons p ps ih => simp [recastParts, ih]

theorem Entity.matchKeys_recast (e : Entity) (values : List Value) :
    e.matchKeys (values.map r.value) = (e.matchKeys values).map (Predicate.recast r) := by
  have hparts : e.keys.zipWith (fun key value => Predicate.equal key.name value)
      (values.map r.value) = (e.keys.zipWith (fun key value => Predicate.equal key.name value)
        values).map (Predicate.recast r) := by
    rw [List.map_zipWith, List.zipWith_map_right]
    rfl
  simp only [matchKeys]
  split
  · rfl
  · rw [List.length_map, hparts]
    split
    · rfl
    generalize e.keys.zipWith (fun key value => Predicate.equal key.name value) values = parts
    obtain _ | ⟨p, _ | ⟨q, ps⟩⟩ := parts
    · rfl
    · rfl
    · simp [Except.map, Predicate.recast, Predicate.recastParts_eq_map]

namespace Statement

theorem entityAssignments_recast (e : Entity) (eligible : Eligible) (snapshot : Row)
    (excluded : List String) :
    entityAssignments e eligible (snapshot.recast r) excluded =
      (entityAssignments e eligible snapshot excluded).map (Assignment.recast r) := by
  simp [entityAssignments, List.map_filterMap, Function.comp_def, Assignment.recast]

theorem rowAssignments_recast (row : Row) :
    rowAssignments (row.recast r) = (rowAssignments row).map (Assignment.recast r) := by
  simp [rowAssignments, Row.recast, Function.comp_def, Assignment.recast]

variable (s : Statement)

theorem setTarget_recast (clause : ClauseKind) (target : Target) :
    (s.recast r).setTarget clause target = (s.setTarget clause target).map (recast r) := by
  have htarget : (s.recast r).target = s.target := rfl
  simp only [setTarget]
  rw [htarget]
  cases s.target with
  | some _ => rfl
  | none => cases target <;> rfl

theorem setFilter_recast (f : Filter) :
    (s.recast r).setFilter (f.recast r) = (s.setFilter f).map (recast r) := by
  have hfilter : (s.recast r).filter = s.filter.map (Filter.recast r) := rfl
  simp only [setFilter]
  rw [hfilter]
  cases s.filter <;> rfl

theorem setGuard_recast (g : Guard) :
    (s.recast r).setGuard (g.recast r) = (s.setGuard g).map (recast r) := by
  have hguard : (s.recast r).guard = s.guard.map (Guard.recast r) := rfl
  simp only [setGuard]
  rw [hguard]
  cases s.guard <;> rfl

theorem assign_recast (assignments : List Assignment) :
    (s.recast r).assign (assignments.map (Assignment.recast r)) =
      (s.assign assignments).recast r := by
  simp [assign, recast]

theorem add_recast (eligibleOf : Entity → Eligible) (clause : Clause) :
    (s.recast r).add eligibleOf (clause.recast r) = (s.add eligibleOf clause).map (recast r) := by
  cases clause with
  | into target => exact s.setTarget_recast r .into target
  | source target => exact s.setTarget_recast r .source target
  | setHoles columns =>
    have hholes : columns.map Assignment.hole =
        (columns.map Assignment.hole).map (Assignment.recast r) := by
      simp [Assignment.recast, Function.comp_def]
    simp only [Clause.recast, add]
    rw [hholes, assign_recast]
    simp [Except.map, Assignment.recast, Function.comp_def]
  | setValue column v => exact congrArg Except.ok (s.assign_recast r [.value column v])
  | setRow row =>
    simp only [Clause.recast, add, rowAssignments_recast, assign_recast]
    rfl
  | setEntity e snapshot excluded =>
    simp only [Clause.recast, add, entityAssignments_recast]
    exact congrArg Except.ok (assign_recast r { s with entity := s.entity <|> some e } _)
  | setRaw text => exact congrArg Except.ok (s.assign_recast r [.raw text])
  | filter p => exact s.setFilter_recast r (.predicate p)
  | filterRaw text => exact s.setFilter_recast r (.raw text)
  | filterKeys values =>
    have hentity : (s.recast r).entity = s.entity := rfl
    simp only [Clause.recast, add, hentity]
    cases s.entity with
    | none => rfl
    | some e =>
      simp only [Entity.matchKeys_recast]
      cases e.matchKeys values with
      | error err => rfl
      | ok p => exact s.setFilter_recast r (.predicate p)
  | guard p => exact s.setGuard_recast r (.predicate p)
  | guardRaw text => exact s.setGuard_recast r (.raw text)
  | ifExists => exact s.setGuard_recast r .ifExists
  | order | orderRaw | limit | allowFiltering | lifetime | writeTime | ifNotExists => rfl

theorem addClause_recast (clause : Clause) :
    (s.recast r).addClause (clause.recast r) = Except.map (recast r) <$> s.addClause clause := by
  cases clause with
  | setEntity e snapshot excluded =>
    simp only [Clause.recast, addClause, map_bind, map_pure]
    refine congrArg (Memo.eligibleOf e >>= ·) (funext fun eligible => ?_)
    rw [← add_recast]
    rfl
  | into | source | setHoles | setValue | setRow | setRaw | filter | filterRaw | filterKeys | order
  | orderRaw | limit | allowFiltering | lifetime | writeTime | guard | guardRaw | ifExists
  | ifNotExists =>
    simp only [addClause, map_pure, ← add_recast]
    rfl

end Statement

namespace Draft

variable (d : Draft)

theorem record_recast (result : Except Error Statement) :
    (d.recast r).record (result.map (Statement.recast r)) = (d.record result).recast r := by
  cases result <;> rfl

theorem apply_recast (clause : Clause) :
    (d.recast r).apply (clause.recast r) = recast r <$> d.apply clause := by
  have hkind : (clause.recast r).kind = clause.kind := by cases clause <;> rfl
  have hclosed : (d.recast r).isClosed = d.isClosed := rfl
  have hfault : (d.recast r).fault = d.fault := rfl
  have hoperation : (d.recast r).statement.operation = d.statement.operation := rfl
  have hstatement : (d.recast r).statement = d.statement.recast r := rfl
  simp only [apply]
  rw [hkind, hclosed, hfault, hoperation]
  split
  · rfl
  split
  · rw [hstatement, Statement.addClause_recast]
    simp only [bind_map_left, map_bind, map_pure, record_recast]
  · rfl

end Draft

namespace Origin

theorem start_recast (style : Style) (s : Statement) :
    start (r.style style) (s.recast r) = Draft.recast r <$> start style s := by
  simp only [start, map_bind, map_pure]
  rfl

theorem insertable_recast (e : Entity) (excluded : List String) (snapshot : Row) :
    insertable e excluded (snapshot.recast r) =
      Row.recast r <$> insertable e excluded snapshot := by
  simp only [insertable, map_bind, map_pure, Row.restrict_recast]

theorem keyValues_recast (e : Entity) (snapshot : Row) :
    keyValues e (snapshot.recast r) = (keyValues e snapshot).map (List.map r.value) := by
  refine mapM_eq_map_mapM (fun key => ?_) e.keys
  rw [Row.get?_recast]
  cases snapshot.get? key.name <;> rfl

theorem matchKeys_recast (e : Entity) (snapshot : Row) :
    (keyValues e (snapshot.recast r) >>= e.matchKeys) =
      (keyValues e snapshot >>= e.matchKeys).map (Predicate.recast r) := by
  rw [keyValues_recast]
  cases keyValues e snapshot with
  | error err => rfl
  | ok values => exact e.matchKeys_recast r values

theorem onMemo_apply_recast (d : Draft) (clause : Clause) :
    Workshop.onMemo ((d.recast r).apply (clause.recast r)) =
      Draft.recast r <$> Workshop.onMemo (d.apply clause) := by
  rw [Draft.apply_recast]
  rfl

/-- A recast origin begins the recast draft, if names are written as before. -/
theorem begin_recast {style : Style} (hcasing : (r.style style).casing = style.casing)
    (origin : Origin) :
    (origin.recast r).begin (r.style style) = Draft.recast r <$> origin.begin style := by
  cases origin with
  | insert | insertRow | insertRows | select | selectAliased | selectWith | update | updateType
  | deleteFrom | deleteEntity | delete =>
    simp only [begin, ← start_recast]
    rfl
  | insertEntity e snapshot excluded =>
    simp only [recast, begin, insertable_recast, bind_map_left, map_bind, ← start_recast]
    rfl
  | insertEntities e snapshots excluded =>
    have hrows := mapM_eq_map_mapM (insertable_recast r e excluded) snapshots
    simp only [recast, begin, List.mapM_map, Function.comp_def, hrows, bind_map_left, map_bind,
      ← start_recast]
    rfl
  | selectEntity e excluded =>
    simp only [recast, begin, map_bind, ← start_recast]
    rfl
  | selectNested e excluded =>
    have hstart := start_recast r style ({ operation := .select : Statement }.onTarget (.entity e))
    simp only [recast, begin, hcasing, map_bind]
    refine (congrArg (· >>= _) hstart).trans ?_
    rw [bind_map_left]
    refine congrArg (_ >>= ·) (funext fun d => congrArg (_ >>= ·) (funext fun result => ?_))
    cases result <;> rfl
  | updateEntity e snapshot excluded =>
    have hstart := start_recast r style ({ operation := .update : Statement }.onTarget (.entity e))
    simp only [recast, begin, matchKeys_recast, map_bind]
    refine (congrArg (· >>= _) hstart).trans ?_
    rw [bind_map_left]
    refine congrArg (_ >>= ·) (funext fun d => ?_)
    refine (congrArg (· >>= _) (onMemo_apply_recast r d (.setEntity e snapshot excluded))).trans ?_
    rw [bind_map_left]
    refine congrArg (_ >>= ·) (funext fun d => ?_)
    cases keyValues e snapshot >>= e.matchKeys with
    | error err => rfl
    | ok p => exact onMemo_apply_recast r d (.filter p)

end Origin

end Cql
