import Cql.Proofs.Draft.Described

/-!
The values that clauses and origins bring to a draft, read off the calls themselves. A draft without
a mistake holds the values of all its calls, clause by clause, in the order in which they were made.
-/

namespace Cql

/-- The values in the clauses of a statement. -/
structure Operands where
  inserted : List Value := []
  assigned : List Value := []
  filtered : List Value := []
  guarded : List Value := []

namespace Operands

instance : Append Operands where
  append o p := ⟨o.inserted ++ p.inserted, o.assigned ++ p.assigned, o.filtered ++ p.filtered,
    o.guarded ++ p.guarded⟩

/-- The values of a statement in the order of its text. -/
def of (o : Operands) : Operation → List Value
  | .insert => o.inserted
  | .select => o.filtered
  | .update => o.assigned ++ o.filtered ++ o.guarded
  | .delete => o.filtered ++ o.guarded

def join : List Operands → Operands
  | [] => {}
  | o :: os => o ++ join os

theorem append_def (o p : Operands) : o ++ p = ⟨o.inserted ++ p.inserted, o.assigned ++ p.assigned,
    o.filtered ++ p.filtered, o.guarded ++ p.guarded⟩ := rfl

@[simp]
theorem append_empty (o : Operands) : o ++ ({} : Operands) = o := by
  simp [append_def]

theorem append_assoc (o p q : Operands) : o ++ p ++ q = o ++ (p ++ q) := by
  simp [append_def]

end Operands

/-- The values of a row for some columns. -/
def Row.valuesOf (row : Row) (columns : List String) : List Value := columns.filterMap row.get?

/-- Row by row, in the order of the columns of the first row. -/
def Columns.values : Columns → List Value
  | .names _ | .aliased _ | .rows [] => []
  | .row own => own.valuesOf own.names
  | .rows (first :: others) => (first :: others).flatMap (·.valuesOf first.names)

def Assignment.value? : Assignment → Option Value
  | .value _ v => some v
  | _ => none

def Filter.operands : Filter → List Value
  | .predicate p => p.operands
  | .raw _ => []

def Guard.operands : Guard → List Value
  | .predicate p => p.operands
  | _ => []

def Statement.operands (s : Statement) : Operands where
  inserted := s.columns.toList.flatMap Columns.values
  assigned := s.assignments.filterMap Assignment.value?
  filtered := s.filter.toList.flatMap Filter.operands
  guarded := s.guard.toList.flatMap Guard.operands

/-- The values of a clause, where the properties of entities are known. -/
def Clause.operands (eligibleOf : Entity → Eligible) : Clause → Operands
  | .setValue _ v => { assigned := [v] }
  | .setRow row => { assigned := row.entries.map Prod.snd }
  | .setEntity e snapshot excluded =>
    let assignments := Statement.entityAssignments e (eligibleOf e) snapshot excluded
    { assigned := assignments.filterMap Assignment.value? }
  | .filter p => { filtered := p.operands }
  | .filterKeys values => { filtered := values }
  | .guard p => { guarded := p.operands }
  | _ => {}

def Origin.operation : Origin → Operation
  | .insert _ | .insertRow _ | .insertRows _ | .insertEntity .. | .insertEntities .. => .insert
  | .select _ | .selectAliased _ | .selectWith .. | .selectEntity .. | .selectNested .. => .select
  | .update _ | .updateType _ | .updateEntity .. => .update
  | .deleteFrom _ | .deleteEntity _ | .delete _ => .delete

def Origin.operands (eligibleOf : Entity → Eligible) : Origin → Operands
  | .insertRow row => { inserted := (Columns.row row).values }
  | .insertRows rows => { inserted := (Columns.rows rows).values }
  | .insertEntity e snapshot excluded =>
    { inserted := (Columns.row (inserted eligibleOf e excluded snapshot)).values }
  | .insertEntities e snapshots excluded =>
    { inserted := (Columns.rows (snapshots.map (inserted eligibleOf e excluded))).values }
  | .updateEntity e snapshot excluded =>
    (Clause.setEntity e snapshot excluded).operands eligibleOf ++
      { filtered := snapshot.valuesOf (e.keys.map (·.name)) }
  | _ => {}

section Congruence

variable {eligibleOf eligibleOf' : Entity → Eligible}

theorem Clause.operands_congr {clause : Clause}
    (h : ∀ e ∈ clause.entities, eligibleOf e = eligibleOf' e) :
    clause.operands eligibleOf = clause.operands eligibleOf' := by
  cases clause with
  | setEntity e snapshot excluded => rw [operands, operands, h e List.mem_cons_self]
  | _ => rfl

theorem Origin.operands_congr {origin : Origin}
    (h : ∀ e ∈ origin.entities, eligibleOf e = eligibleOf' e) :
    origin.operands eligibleOf = origin.operands eligibleOf' := by
  have hinserted : ∀ e ∈ origin.entities, inserted eligibleOf e = inserted eligibleOf' e := by
    intro e he
    funext excluded snapshot
    rw [inserted, inserted, h e he]
  cases origin with
  | insertEntity e | insertEntities e =>
    rw [operands, operands, hinserted e List.mem_cons_self]
  | updateEntity e snapshot excluded =>
    have hset : ∀ e' ∈ (Clause.setEntity e snapshot excluded).entities,
        eligibleOf e' = eligibleOf' e' := h
    rw [operands, operands, Clause.operands_congr hset]
  | _ => rfl

end Congruence

/-- An INSERT of several rows. -/
def Origin.SeveralRows : Origin → Prop
  | .insertRows (_ :: _ :: _) | .insertEntities _ (_ :: _ :: _) _ => True
  | _ => False

theorem Place.values_rowCells (columns : List String) (row : Row) :
    values (rowCells columns row) = row.valuesOf columns := by
  induction columns with
  | nil => rfl
  | cons c columns ih =>
    rw [rowCells] at ih
    rw [rowCells, List.flatMap_cons, values_append, ih, Row.valuesOf, Row.valuesOf,
      List.filterMap_cons]
    cases row.get? c <;> rfl

theorem Columns.values_cells (columns : Columns) : Place.values columns.cells = columns.values := by
  obtain names | aliased | row | _ | ⟨first, others⟩ := columns
  · rw [cells, values, Place.values, List.filterMap_map]
    simp
  · rfl
  · exact Place.values_rowCells _ _
  · rfl
  · rw [cells, values, Place.values_flatMap]
    simp only [Place.values_rowCells]

theorem Assignment.values_cells (assignments : List Assignment) :
    Place.values (assignments.flatMap Assignment.cells) =
      assignments.filterMap Assignment.value? := by
  induction assignments with
  | nil => rfl
  | cons a assignments ih =>
    rw [List.flatMap_cons, Place.values_append, ih, List.filterMap_cons]
    cases a <;> rfl

namespace Statement

/-- The values in the cells of a statement are its operands, in the order of the text. -/
theorem values_cells (s : Statement) : Place.values s.cells = s.operands.of s.operation := by
  have hinserted : Place.values ((s.columns.map Columns.cells).getD []) = s.operands.inserted := by
    rw [operands]
    cases s.columns with
    | none => rfl
    | some columns => simpa using columns.values_cells
  have hfiltered : Place.values ((s.filter.map Filter.cells).getD []) = s.operands.filtered := by
    rw [operands]
    obtain _ | p | text := s.filter
    · rfl
    · simp [Filter.cells, Filter.operands, Predicate.operands]
    · rfl
  have hguarded : Place.values ((s.guard.map Guard.cells).getD []) = s.operands.guarded := by
    rw [operands]
    obtain _ | _ | p | text := s.guard
    · rfl
    · rfl
    · simp [Guard.cells, Guard.operands, Predicate.operands]
    · rfl
  have hassigned := Assignment.values_cells s.assignments
  rw [cells]
  cases s.operation with
  | insert => exact hinserted
  | select => exact hfiltered
  | update =>
    rw [Place.values_append, Place.values_append, hassigned, hfiltered, hguarded]
    rfl
  | delete =>
    rw [Place.values_append, hfiltered, hguarded]
    rfl

/-- What a clause adds to a statement. -/
structure Gains (s : Statement) (o : Operands) (es : List Entity) (s' : Statement) : Prop where
  operands : s'.operands = s.operands ++ o
  entities : s'.entities ⊆ s.entities ++ es
  operation : s'.operation = s.operation
  columns : s'.columns = s.columns

variable {s s' : Statement}

theorem Gains.refl (s : Statement) : s.Gains {} [] s :=
  ⟨by simp, by simp, rfl, rfl⟩

theorem Gains.trans {s'' : Statement} {o p : Operands} {es fs : List Entity} (h : s.Gains o es s')
    (h' : s'.Gains p fs s'') : s.Gains (o ++ p) (es ++ fs) s'' where
  operands := by rw [h'.operands, h.operands, Operands.append_assoc]
  entities := by
    have hs := h.entities
    have hs' := h'.entities
    grind
  operation := h'.operation.trans h.operation
  columns := h'.columns.trans h.columns

theorem gains_onTarget (s : Statement) (target : Target) :
    s.Gains {} target.entities (s.onTarget target) := by
  cases target with
  | table name =>
    refine ⟨?_, fun e he => ?_, rfl, rfl⟩
    · simp [onTarget, operands]
    · grind [onTarget, entities, Target.entities]
  | entity e =>
    refine ⟨?_, fun e' he' => ?_, rfl, rfl⟩
    · simp [onTarget, operands]
    · grind [onTarget, entities, Target.entities]

theorem gains_setTarget (s : Statement) (kind : ClauseKind) (target : Target) :
    Yields (s.setTarget kind target) (s.Gains {} target.entities) := by
  rw [setTarget]
  split
  · exact .error
  · exact .ok (s.gains_onTarget target)

theorem gains_setFilter (s : Statement) (filter : Filter) :
    Yields (s.setFilter filter) (s.Gains { filtered := filter.operands } filter.entities) := by
  rw [setFilter]
  split
  · exact .error
  · rename_i hnone
    refine .ok ⟨?_, fun e he => ?_, rfl, rfl⟩
    · simp [operands, hnone, Operands.append_def]
    · grind [entities]

theorem gains_setGuard (s : Statement) (guard : Guard) :
    Yields (s.setGuard guard) (s.Gains { guarded := guard.operands } guard.entities) := by
  rw [setGuard]
  split
  · exact .error
  · rename_i hnone
    refine .ok ⟨?_, fun e he => ?_, rfl, rfl⟩
    · simp [operands, hnone, Operands.append_def]
    · grind [entities]

theorem gains_assign (s : Statement) (assignments : List Assignment) :
    s.Gains { assigned := assignments.filterMap Assignment.value? } [] (s.assign assignments) := by
  refine ⟨?_, ?_, rfl, rfl⟩
  · simp [operands, assign, Operands.append_def]
  · simp [entities, assign]

theorem values_rowAssignments (row : Row) :
    (rowAssignments row).filterMap Assignment.value? = row.entries.map Prod.snd := by
  rw [rowAssignments, List.filterMap_map, ← List.filterMap_eq_map]
  rfl

/-- A clause that a statement takes brings its values and its entities with it. -/
theorem gains_add (eligibleOf : Entity → Eligible) (s : Statement) (clause : Clause) :
    Yields (s.add eligibleOf clause)
      (s.Gains (clause.operands eligibleOf) clause.entities) := by
  cases clause with
  | into target => exact s.gains_setTarget .into target
  | source target => exact s.gains_setTarget .source target
  | setHoles columns =>
    have hholes : (columns.map Assignment.hole).filterMap Assignment.value? = [] := by
      rw [List.filterMap_map]
      exact List.filterMap_eq_nil_iff.mpr fun _ _ => rfl
    have hgains := s.gains_assign (columns.map .hole)
    rw [hholes] at hgains
    exact .ok hgains
  | setValue column v => exact .ok (s.gains_assign [.value column v])
  | setRow row =>
    have hgains := s.gains_assign (rowAssignments row)
    rw [values_rowAssignments] at hgains
    exact .ok hgains
  | setEntity e snapshot excluded =>
    have hentity : s.Gains {} [e] { s with entity := s.entity <|> some e } := by
      refine ⟨by simp [operands], fun e' he' => ?_, rfl, rfl⟩
      cases hs : s.entity <;> grind [entities]
    exact .ok (hentity.trans (gains_assign _ _))
  | setRaw text => exact .ok (s.gains_assign [.raw text])
  | filter p => exact s.gains_setFilter (.predicate p)
  | filterRaw text => exact s.gains_setFilter (.raw text)
  | filterKeys values =>
    simp only [add]
    cases s.entity with
    | none => exact .error
    | some e =>
      refine (e.yields_matchKeys values).bind fun p hp => ?_
      obtain ⟨hentities, hoperands⟩ := hp
      have hgains := s.gains_setFilter (.predicate p)
      rw [Filter.operands, Filter.entities, hentities, hoperands] at hgains
      exact hgains
  | guard p => exact s.gains_setGuard (.predicate p)
  | guardRaw text => exact s.gains_setGuard (.raw text)
  | ifExists => exact s.gains_setGuard .ifExists
  | order | orderRaw | limit | allowFiltering | lifetime | writeTime | ifNotExists =>
    exact .ok ⟨(Operands.append_empty _).symm, List.subset_append_left _ _, rfl, rfl⟩

end Statement

namespace Draft

open Statement (Gains)

theorem fault_fail_ne (d : Draft) (e : Error) : (d.fail e).fault ≠ none := by
  rw [fail]
  cases d.fault <;> simp

variable {eligibleOf : Entity → Eligible}

theorem gains_take {d : Draft} {clause : Clause} (h : (d.take eligibleOf clause).fault = none) :
    d.fault = none ∧ d.statement.Gains (clause.operands eligibleOf) clause.entities
      (d.take eligibleOf clause).statement := by
  rw [take] at h ⊢
  split at h
  · rename_i hfault
    rw [h] at hfault
    cases hfault
  rename_i hfault
  have hnone : d.fault = none := by simpa using hfault
  rw [if_neg hfault]
  split at h
  · rename_i hoperation
    rw [if_pos hoperation]
    cases hadd : d.statement.add eligibleOf clause with
    | ok s => exact ⟨hnone, d.statement.gains_add eligibleOf clause s hadd⟩
    | error e =>
      rw [hadd] at h
      exact absurd h (d.fault_fail_ne e)
  · exact absurd h (d.fault_fail_ne _)

/-- Clauses one after the other bring all their values and entities. -/
theorem gains_takes {clauses : List Clause} {d : Draft}
    (h : (clauses.foldl (take eligibleOf) d).fault = none) :
    d.fault = none ∧ d.statement.Gains (.join (clauses.map (Clause.operands eligibleOf)))
      (clauses.flatMap Clause.entities) (clauses.foldl (take eligibleOf) d).statement := by
  induction clauses generalizing d with
  | nil => exact ⟨h, .refl _⟩
  | cons clause clauses ih =>
    obtain ⟨hfault, hothers⟩ := ih h
    obtain ⟨hnone, hfirst⟩ := gains_take hfault
    exact ⟨hnone, hfirst.trans hothers⟩

end Draft

namespace Origin

theorem yields_keyValues (e : Entity) (snapshot : Row) :
    Yields (keyValues e snapshot) fun values =>
      values = snapshot.valuesOf (e.keys.map (·.name)) := by
  refine yields_mapM.mono fun values hvalues => ?_
  rw [Row.valuesOf, List.filterMap_map]
  generalize e.keys = keys at hvalues
  induction hvalues with
  | nil => rfl
  | @cons key v keys values hkey _ ih =>
    rw [List.filterMap_cons, Function.comp_apply, ← ih]
    cases hv : snapshot.get? key.name with
    | none => simp [hv] at hkey
    | some v' =>
      obtain rfl : v' = v := by simpa [hv] using hkey
      rfl

/-- What the statement of an origin is made of. -/
structure Begins (eligibleOf : Entity → Eligible) (origin : Origin) (s : Statement) : Prop where
  operands : s.operands = origin.operands eligibleOf
  entities : s.entities ⊆ origin.entities
  operation : s.operation = origin.operation
  severalRows : s.RepeatsNames → origin.SeveralRows

variable {eligibleOf : Entity → Eligible}

/-- An origin of no more than columns, and their entity. -/
theorem begins_of_columns {origin : Origin} {s : Statement} {columns : Columns}
    (hcolumns : s.columns = some columns) (hassignments : s.assignments = [])
    (hfilter : s.filter = none) (hguard : s.guard = none)
    (hoperands : { inserted := columns.values } = origin.operands eligibleOf)
    (hentities : s.entities ⊆ origin.entities) (hoperation : s.operation = origin.operation)
    (hrows : columns.RepeatNames → origin.SeveralRows) : origin.Begins eligibleOf s where
  operands := by simp [Statement.operands, hcolumns, hassignments, hfilter, hguard, hoperands]
  entities := hentities
  operation := hoperation
  severalRows := by
    rintro ⟨-, columns', hcolumns', hrepeat⟩
    obtain rfl := Option.some.inj (hcolumns.symm.trans hcolumns')
    exact hrows hrepeat

/-- An origin of no more than a target. -/
theorem begins_of_target {origin : Origin} {operation : Operation} (target : Target)
    (h : operation ≠ .insert) (hoperation : operation = origin.operation)
    (hoperands : {} = origin.operands eligibleOf) (hentities : target.entities = origin.entities) :
    origin.Begins eligibleOf ({ operation : Statement }.onTarget target) := by
  have hgains := Statement.gains_onTarget { operation } target
  refine ⟨hgains.operands.trans hoperands, ?_, hgains.operation.trans hoperation, ?_⟩
  · rw [← hentities]
    exact hgains.entities
  · rintro ⟨hinsert, -⟩
    exact absurd (hgains.operation.symm.trans hinsert) h

variable {leavesOf : Entity → Except Error (List String)}

theorem begins_updateEntity (e : Entity) (snapshot : Row) (excluded : List String)
    (h : ((updateEntity e snapshot excluded).opened eligibleOf leavesOf).fault = none) :
    (updateEntity e snapshot excluded).Begins eligibleOf
      ((updateEntity e snapshot excluded).opened eligibleOf leavesOf).statement := by
  have hkeys : Yields (keyValues e snapshot >>= e.matchKeys) fun p =>
      p.entities = [] ∧ p.operands = snapshot.valuesOf (e.keys.map (·.name)) :=
    (yields_keyValues e snapshot).bind fun values hvalues => hvalues ▸ e.yields_matchKeys values
  rw [opened] at h ⊢
  cases hp : keyValues e snapshot >>= e.matchKeys with
  | error err =>
    rw [hp] at h
    exact absurd h (Draft.fault_fail_ne _ err)
  | ok p =>
    rw [hp] at h
    obtain ⟨hentities, hoperands⟩ := hkeys p hp
    obtain ⟨hset, hfilter⟩ := Draft.gains_take h
    have hgains := (Statement.gains_onTarget { operation := .update } (.entity e)).trans
      ((Draft.gains_take hset).2.trans hfilter)
    refine ⟨?_, ?_, hgains.operation, ?_⟩
    · refine hgains.operands.trans ?_
      rw [operands, ← hoperands]
      rfl
    · refine List.Subset.trans hgains.entities ?_
      rw [Clause.entities, Clause.entities, hentities]
      simp [Statement.entities, Target.entities, entities]
    · rintro ⟨hoperation, -⟩
      exact absurd (hgains.operation.symm.trans hoperation) (by decide)

theorem begins_opened (origin : Origin) (h : (origin.opened eligibleOf leavesOf).fault = none) :
    origin.Begins eligibleOf (origin.opened eligibleOf leavesOf).statement := by
  cases origin with
  | insert | insertRow | select | selectAliased | selectWith | delete =>
    exact begins_of_columns rfl rfl rfl rfl rfl (List.nil_subset _) rfl False.elim
  | insertRows rows =>
    refine begins_of_columns rfl rfl rfl rfl rfl (List.nil_subset _) rfl ?_
    rcases rows with _ | ⟨first, _ | ⟨next, others⟩⟩ <;> exact id
  | insertEntity e snapshot excluded =>
    exact begins_of_columns rfl rfl rfl rfl rfl (List.Subset.refl [e]) rfl False.elim
  | insertEntities e snapshots excluded =>
    refine begins_of_columns rfl rfl rfl rfl rfl (List.Subset.refl [e]) rfl ?_
    rcases snapshots with _ | ⟨first, _ | ⟨next, others⟩⟩ <;> exact id
  | selectEntity e excluded =>
    refine begins_of_columns rfl rfl rfl rfl rfl ?_ rfl False.elim
    exact (Statement.gains_onTarget { operation := .select } (.entity e)).entities
  | selectNested e excluded =>
    rw [opened] at h ⊢
    cases hleaves : leavesOf e with
    | error err =>
      rw [hleaves] at h
      exact absurd h (Draft.fault_fail_ne _ err)
    | ok names =>
      refine begins_of_columns rfl rfl rfl rfl rfl ?_ rfl False.elim
      exact (Statement.gains_onTarget { operation := .select } (.entity e)).entities
  | update table => exact begins_of_target (.table table) (by decide) rfl rfl rfl
  | updateType e => exact begins_of_target (.entity e) (by decide) rfl rfl rfl
  | deleteFrom table => exact begins_of_target (.table table) (by decide) rfl rfl rfl
  | deleteEntity e => exact begins_of_target (.entity e) (by decide) rfl rfl rfl
  | updateEntity e snapshot excluded => exact begins_updateEntity e snapshot excluded h

end Origin

end Cql
