import Cql.Error
import Cql.Mapping
import Cql.Stamped
import Cql.Step

/-!
Mappings of entities, kept once they are made. Type names are the keys. Resolving the columns of
an entity follows its nested fields, and fails on a walk that comes back to a type name. What was
kept before a failure stays kept.
-/

namespace Cql

structure Memo where
  catalog : Catalog := []
  columnMaps : List ((String × Casing) × Stamped ColumnMap) := []
  tableNames : List (String × TableNames) := []
  eligible : List (String × Eligible) := []
  /-- The serial number of the next column map. -/
  nextSerial : Nat := 0
  deriving Inhabited

/-- Steps on a memo that may fail; the memo and the events outlive a failure. -/
abbrev Resolving := ExceptT Error (Step Memo)

namespace Memo

/-- Nothing is kept any more. -/
def clear (m : Memo) : Memo := { catalog := m.catalog, nextSerial := m.nextSerial }

def tablesOf (e : Entity) : Step Memo TableNames := do
  let m ← Step.current
  match m.tableNames.lookup e.typeName with
  | some names => return names
  | none =>
    let names := TableNames.ofEntity e
    Step.put { m with tableNames := (e.typeName, names) :: m.tableNames }
    return names

def eligibleOf (e : Entity) : Step Memo Eligible := do
  let m ← Step.current
  match m.eligible.lookup e.typeName with
  | some names => return names
  | none =>
    let names := Eligible.ofEntity e
    Step.note (.propertiesResolved e.typeName names.select.length names.insert.length
      names.update.length)
    Step.put { m with eligible := (e.typeName, names) :: m.eligible }
    return names

/-- How many entities of the catalog a walk has not come by. -/
def unvisited (catalog : Catalog) (walk : List String) : Nat :=
  catalog.countP (·.typeName ∉ walk)

theorem unvisited_concat_le (catalog : Catalog) (walk : List String) (name : String) :
    unvisited catalog (walk ++ [name]) ≤ unvisited catalog walk := by
  unfold unvisited
  apply List.countP_mono_left
  intro e _ h
  simp_all

theorem unvisited_concat_lt {catalog : Catalog} {walk : List String} {e : Entity}
    (hmem : e ∈ catalog) (hnew : e.typeName ∉ walk) :
    unvisited catalog (walk ++ [e.typeName]) < unvisited catalog walk := by
  induction catalog with
  | nil => simp at hmem
  | cons a as ih =>
    have hle := unvisited_concat_le as walk e.typeName
    unfold unvisited at hle ih ⊢
    rw [List.countP_cons, List.countP_cons]
    rcases List.mem_cons.mp hmem with h | h
    · subst h
      have hold : decide (e.typeName ∉ walk) = true := by simpa using hnew
      have hend : decide (e.typeName ∉ walk ++ [e.typeName]) = false := by simp
      rw [hold, hend]
      simp only [Bool.false_eq_true, ↓reduceIte]
      omega
    · have hlt := ih h
      have hhead : (if decide (a.typeName ∉ walk ++ [e.typeName]) = true then 1 else 0) ≤
          (if decide (a.typeName ∉ walk) = true then 1 else 0) := by
        by_cases ha : a.typeName ∈ walk <;> simp [ha]
        split <;> omega
      omega

/-- The column entries of fields, whose entity stands at the end of the walk. -/
def resolveFields (catalog : Catalog) (casing : Casing) (walk : List String) :
    List Field → Resolving (List (String × String))
  | [] => return []
  | f :: fs => do
    let own ←
      if f.isTransient then pure []
      else match f.nested with
        | none => pure [(f.name, f.physical casing)]
        | some i =>
          match _hsub : catalog[i]? with
          | none => pure []
          | some sub => do
            let tables ← tablesOf sub
            if _hwalk : sub.typeName ∈ walk then throw (.cyclic (walk ++ [sub.typeName]))
            else
              let entries ← resolveFields catalog casing (walk ++ [sub.typeName]) sub.fields
              pure (entries.map (ColumnMap.qualify f.name (tables.get casing)))
    let others ← resolveFields catalog casing walk fs
    return own ++ others
termination_by fields => (unvisited catalog walk, fields.length)
decreasing_by
  · exact Prod.Lex.right _ (Nat.lt_succ_self _)
  · exact Prod.Lex.left _ _ (unvisited_concat_lt (List.mem_of_getElem? _hsub) _hwalk)

/-- The columns of an entity. A map that is made anew is kept and noted. -/
def columnsOf (e : Entity) (casing : Casing) : Resolving (Stamped ColumnMap) := do
  let m ← Step.current (σ := Memo)
  match m.columnMaps.lookup (e.typeName, casing) with
  | some kept => return kept
  | none =>
    let entries ← resolveFields m.catalog casing [e.typeName] e.fields
    let made : ColumnMap := { entries }
    Step.note (σ := Memo) (.columnsResolved e.typeName casing made.size)
    let m ← Step.current (σ := Memo)
    let stamped := ⟨m.nextSerial, made⟩
    Step.put (σ := Memo) { m with
      columnMaps := ((e.typeName, casing), stamped) :: m.columnMaps
      nextSerial := m.nextSerial + 1 }
    return stamped

/-- The physical name of a property, also of one that the entity does not declare. -/
def columnOf (e : Entity) (casing : Casing) (logical : String) : Resolving String := do
  let columns ← columnsOf e casing
  return (columns.value.get? logical).getD (casing.physical logical)

end Memo

end Cql
