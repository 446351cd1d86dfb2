import Cql.Proofs.Mapping.Cycle

/-!
Looking up the columns of an entity, on any memo. A map that is kept is given; else one is made and
kept, or a cycle of nested fields is told. Nothing that is kept is ever replaced.
-/

namespace Cql.Memo

variable {e : Entity} {casing : Casing} {m m' m'' : Memo}

/-- The memo with one more column map. -/
def keep (m : Memo) (e : Entity) (casing : Casing) (columns : ColumnMap) : Memo :=
  { m with
    columnMaps := ((e.typeName, casing), ⟨m.nextSerial, columns⟩) :: m.columnMaps
    nextSerial := m.nextSerial + 1 }

/-- Only names of tables were added. -/
structure AddsTables (m m' : Memo) : Prop where
  catalog : m'.catalog = m.catalog
  columnMaps : m'.columnMaps = m.columnMaps
  nextSerial : m'.nextSerial = m.nextSerial
  tableNames : ∀ name names, m.tableNames.lookup name = some names →
    m'.tableNames.lookup name = some names

namespace AddsTables

theorem refl : AddsTables m m := ⟨rfl, rfl, rfl, fun _ _ h => h⟩

theorem trans (h : AddsTables m m') (h' : AddsTables m' m'') : AddsTables m m'' where
  catalog := h'.catalog.trans h.catalog
  columnMaps := h'.columnMaps.trans h.columnMaps
  nextSerial := h'.nextSerial.trans h.nextSerial
  tableNames name names hnames := h'.tableNames name names (h.tableNames name names hnames)

end AddsTables

theorem addsTables_tablesOf (sub : Entity) (s : Logged Memo) :
    AddsTables s.state (tablesOf sub s).2.state ∧
      (tablesOf sub s).2.state.tableNames.lookup sub.typeName = some (tablesOf sub s).1 := by
  rw [tablesOf, Step.current_bind]
  cases hlookup : s.state.tableNames.lookup sub.typeName with
  | some names => exact ⟨.refl, hlookup⟩
  | none =>
    refine ⟨⟨rfl, rfl, rfl, fun name names hnames => ?_⟩, List.lookup_cons_self⟩
    have hne : name ≠ sub.typeName := by
      rintro rfl
      rw [hlookup] at hnames
      cases hnames
    change ((sub.typeName, _) :: s.state.tableNames).lookup name = some names
    rw [List.lookup_cons, beq_false_of_ne hne]
    exact hnames

/-- How looking up columns can end. -/
inductive LooksUp (e : Entity) (casing : Casing) (s : Logged Memo) :
    Except Error (Stamped ColumnMap) × Logged Memo → Prop
  | kept {kept : Stamped ColumnMap}
    (h : s.state.columnMaps.lookup (e.typeName, casing) = some kept) :
    LooksUp e casing s (.ok kept, s)
  | made {m : Memo} {log : List Event} (columns : ColumnMap)
    (hnew : s.state.columnMaps.lookup (e.typeName, casing) = none)
    (hacyclic : ¬ e.IsCyclic s.state.catalog) (hadds : AddsTables s.state m) :
    LooksUp e casing s (.ok ⟨m.nextSerial, columns⟩, ⟨m.keep e casing columns, log⟩)
  | failed {err : Error} {t : Logged Memo}
    (hnew : s.state.columnMaps.lookup (e.typeName, casing) = none)
    (hcycle : e.TellsCycle s.state.catalog err) (hadds : AddsTables s.state t.state) :
    LooksUp e casing s (.error err, t)

theorem run_current (s : Logged Memo) :
    (liftM (Step.current (σ := Memo)) : Resolving Memo).run s = (.ok s.state, s) := rfl

theorem looksUp_columnsOf (e : Entity) (casing : Casing) (s : Logged Memo) :
    LooksUp e casing s ((columnsOf e casing).run s) := by
  have hwalk : [e.typeName].Nodup := by simp
  have htables : ∀ sub, Step.Ensures (AddsTables s.state) (tablesOf sub) fun _ => True :=
    fun sub t ht => ⟨ht.trans (addsTables_tablesOf sub t).1, trivial⟩
  have hsettles : Resolving.Settles (AddsTables s.state)
      (resolveFields s.state.catalog casing [e.typeName] e.fields) _ _ :=
    settles_resolveFields htables casing hwalk e.fields
  have hresolve := hsettles s .refl
  rw [columnsOf, run_bind_ok (run_current s)]
  dsimp only
  cases hlookup : s.state.columnMaps.lookup (e.typeName, casing) with
  | some kept => exact .kept hlookup
  | none =>
    dsimp only
    rcases hfields : (resolveFields s.state.catalog casing [e.typeName] e.fields).run s with
      ⟨err | entries, t⟩ <;> rw [hfields] at hresolve
    · rw [run_bind_error hfields]
      exact .failed hlookup (.of_fields hresolve.2) hresolve.1
    · rw [run_bind_ok hfields]
      exact .made { entries } hlookup (Entity.endsAll_iff.mp hresolve.2) hresolve.1

theorem catalog_columnsOf (e : Entity) (casing : Casing) (s : Logged Memo) :
    ((columnsOf e casing).run s).2.state.catalog = s.state.catalog := by
  have hlooks := looksUp_columnsOf e casing s
  generalize (columnsOf e casing).run s = looked at hlooks
  cases hlooks with
  | kept => rfl
  | made _ _ _ hadds | failed _ _ hadds => exact hadds.catalog

variable {s t : Logged Memo} {kept : Stamped ColumnMap}

/-- What was looked up is kept. -/
theorem lookup_columnsOf (h : (columnsOf e casing).run s = (.ok kept, t)) :
    t.state.columnMaps.lookup (e.typeName, casing) = some kept := by
  have hlooks := looksUp_columnsOf e casing s
  rw [h] at hlooks
  cases hlooks with
  | kept hlookup => exact hlookup
  | made => exact List.lookup_cons_self

theorem columnsOf_of_lookup (h : s.state.columnMaps.lookup (e.typeName, casing) = some kept) :
    (columnsOf e casing).run s = (.ok kept, s) := by
  have hlooks := looksUp_columnsOf e casing s
  generalize (columnsOf e casing).run s = looked at hlooks
  cases hlooks with
  | kept hlookup =>
    rw [h] at hlookup
    cases hlookup
    rfl
  | made _ hnew | failed hnew =>
    rw [h] at hnew
    cases hnew

/-- What is kept stays kept. -/
structure Grows (m m' : Memo) : Prop where
  columnMaps : ∀ key kept, m.columnMaps.lookup key = some kept →
    m'.columnMaps.lookup key = some kept
  tableNames : ∀ name names, m.tableNames.lookup name = some names →
    m'.tableNames.lookup name = some names

namespace Grows

theorem refl : Grows m m := ⟨fun _ _ h => h, fun _ _ h => h⟩

theorem trans (h : Grows m m') (h' : Grows m' m'') : Grows m m'' where
  columnMaps key kept hkept := h'.columnMaps key kept (h.columnMaps key kept hkept)
  tableNames name names hnames := h'.tableNames name names (h.tableNames name names hnames)

end Grows

theorem AddsTables.grows (h : AddsTables m m') : Grows m m' where
  columnMaps key kept hkept := by rwa [h.columnMaps]
  tableNames := h.tableNames

theorem grows_keep (columns : ColumnMap) (hnew : m.columnMaps.lookup (e.typeName, casing) = none) :
    Grows m (m.keep e casing columns) where
  columnMaps key kept hkept := by
    have hne : key ≠ (e.typeName, casing) := by
      rintro rfl
      rw [hnew] at hkept
      cases hkept
    rw [keep, List.lookup_cons, beq_false_of_ne hne]
    exact hkept
  tableNames _ _ hnames := hnames

theorem turns_columnsOf (e : Entity) (casing : Casing) :
    Resolving.Turns (columnsOf e casing) fun m kept m' =>
      Grows m m' ∧ m'.columnMaps.lookup (e.typeName, casing) = some kept := by
  intro s kept t hrun
  refine ⟨?_, lookup_columnsOf hrun⟩
  have hlooks := looksUp_columnsOf e casing s
  rw [hrun] at hlooks
  cases hlooks with
  | kept => exact .refl
  | made columns hnew _ hadds =>
    refine hadds.grows.trans (grows_keep columns ?_)
    rw [hadds.columnMaps, hnew]

/-- The column map of the type is kept. -/
def Has (m : Memo) (casing : Casing) (typeName : String) : Prop :=
  (m.columnMaps.lookup (typeName, casing)).isSome

theorem has_of_lookup {name : String} {kept : Stamped ColumnMap}
    (h : m.columnMaps.lookup (name, casing) = some kept) : m.Has casing name := by
  rw [Has, h, Option.isSome_some]

theorem AddsTables.has_iff (h : AddsTables m m') {casing : Casing} {name : String} :
    m'.Has casing name ↔ m.Has casing name := by
  rw [Has, h.columnMaps, Has]

theorem Grows.has (h : Grows m m') {name : String} (hm : m.Has casing name) :
    m'.Has casing name := by
  obtain ⟨kept, hkept⟩ := Option.isSome_iff_exists.mp hm
  exact has_of_lookup (h.columnMaps _ kept hkept)

theorem has_keep_iff {columns : ColumnMap} {name : String} :
    (m.keep e casing columns).Has casing name ↔ m.Has casing name ∨ name = e.typeName := by
  rw [Has, keep, List.lookup_cons]
  by_cases hname : name = e.typeName
  · simp [hname]
  · have hkey : ((name, casing) == (e.typeName, casing)) = false :=
      beq_false_of_ne fun heq => hname (Prod.mk.inj heq).1
    simp only [hkey, hname, or_false]
    rfl

/-- The columns of an entity, if there is one, were looked up. -/
structure LookedUp (e? : Option Entity) (casing : Casing) (m m' : Memo) : Prop where
  catalog : m'.catalog = m.catalog
  acyclic : ∀ e ∈ e?, m.Has casing e.typeName ∨ ¬ e.IsCyclic m.catalog
  has_iff : ∀ name, m'.Has casing name ↔ m.Has casing name ∨ name ∈ typeNames e?.toList

theorem LookedUp.addsTables {e? : Option Entity} (h : LookedUp e? casing m m')
    (hadds : AddsTables m' m'') : LookedUp e? casing m m'' where
  catalog := hadds.catalog.trans h.catalog
  acyclic := h.acyclic
  has_iff name := hadds.has_iff.trans (h.has_iff name)

/-- A cycle is in the way of the columns of an entity, and they are not kept. -/
def MeetsCycle (e? : Option Entity) (casing : Casing) (m : Memo) (err : Error) : Prop :=
  ∃ e ∈ e?, ¬ m.Has casing e.typeName ∧ e.TellsCycle m.catalog err

theorem leads_columnsOf (e : Entity) (casing : Casing) (m : Memo) :
    Resolving.Leads (· = m) (columnsOf e casing) (fun _ => LookedUp (some e) casing m)
      (MeetsCycle (some e) casing m) := by
  rintro s rfl
  have hlooks := looksUp_columnsOf e casing s
  generalize (columnsOf e casing).run s = looked at hlooks
  cases hlooks with
  | kept h =>
    have hhas := has_of_lookup h
    refine ⟨rfl, by simpa using .inl hhas, fun name => ⟨.inl, Or.rec id fun hname => ?_⟩⟩
    rwa [List.mem_singleton.mp hname]
  | made columns _ hacyclic hadds =>
    refine ⟨hadds.catalog, by simpa using .inr hacyclic, fun name => ?_⟩
    simp [has_keep_iff, hadds.has_iff, typeNames]
  | failed hnew hcycle => exact ⟨e, rfl, by simp [Has, hnew], hcycle⟩

end Cql.Memo
