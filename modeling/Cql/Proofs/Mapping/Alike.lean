import Cql.Proofs.Mapping.Lookup
import Cql.Proofs.Recall

/-!
Memos that answer alike. Whatever each of them keeps, for some entities they give the same logical
names, each under its own casing, and the same properties. They go on to do so as long as both are
asked for the same. The properties that a memo gave once are those that it gives at the end.
-/

namespace Cql.Memo

variable {catalog : Catalog} {es : List Entity} {e : Entity} {casing casing' : Casing}
  {m m' : Memo}

/-- The logical names that a memo gives for an entity: those that it keeps under the type name, or
else those of the entity. -/
def namesOf (m : Memo) (casing : Casing) (e : Entity) : Except Error (List String) :=
  match m.columnMaps.lookup (e.typeName, casing) with
  | some kept => .ok kept.value.logicalNames
  | none => e.leaves m.catalog

def propertiesOf (m : Memo) (e : Entity) : Eligible :=
  (m.eligible.lookup e.typeName).getD (.ofEntity e)

/-- The memos give the same for these entities. -/
structure Alike (es : List Entity) (casing casing' : Casing) (m m' : Memo) : Prop where
  names : ∀ e ∈ es, m.namesOf casing e = m'.namesOf casing' e
  properties : ∀ e ∈ es, m.propertiesOf e = m'.propertiesOf e

theorem IsTrue.namesOf_eq (h : m.IsTrue catalog es) (he : e ∈ es) (casing : Casing) :
    m.namesOf casing e = e.leaves catalog := by
  rw [namesOf]
  split
  · rename_i kept hlookup
    exact (h.columnMaps e he casing kept hlookup).symm
  · rw [h.ofCatalog]

theorem IsTrue.propertiesOf_eq (h : m.IsTrue catalog es) (he : e ∈ es) :
    m.propertiesOf e = .ofEntity e := by
  rw [propertiesOf]
  cases hlookup : m.eligible.lookup e.typeName with
  | some names => exact h.eligible e he names hlookup
  | none => rfl

/-- Memos that are true to the same entities answer alike, also where type names do not tell these
apart. -/
theorem IsTrue.alike (h : m.IsTrue catalog es) (h' : m'.IsTrue catalog es)
    (casing casing' : Casing) : Alike es casing casing' m m' where
  names _ he := (h.namesOf_eq he casing).trans (h'.namesOf_eq he casing').symm
  properties _ he := (h.propertiesOf_eq he).trans (h'.propertiesOf_eq he).symm

theorem agree_tablesOf (e : Entity) :
    Step.Agree (Alike es casing casing') (tablesOf e) (tablesOf e) fun _ _ => True := by
  have hstate : ∀ s : Logged Memo,
      ∃ tableNames, (tablesOf e s).2.state = { s.state with tableNames } := by
    intro s
    rw [tablesOf, Step.current_bind]
    cases s.state.tableNames.lookup e.typeName with
    | some names => exact ⟨_, rfl⟩
    | none => exact ⟨_, rfl⟩
  intro s t hst
  obtain ⟨_, hs⟩ := hstate s
  obtain ⟨_, ht⟩ := hstate t
  rw [hs, ht]
  exact ⟨⟨hst.names, hst.properties⟩, trivial⟩

/-- A memo gives the properties that it has, and keeps them. -/
theorem eligibleOf_spec (e : Entity) (s : Logged Memo) :
    (eligibleOf e s).1 = s.state.propertiesOf e ∧
      ∃ eligible, (eligibleOf e s).2.state = { s.state with eligible } ∧
        eligible.lookup e.typeName = some (s.state.propertiesOf e) ∧
        ∀ name, name ≠ e.typeName → eligible.lookup name = s.state.eligible.lookup name := by
  rw [eligibleOf, Step.current_bind, propertiesOf]
  cases hlookup : s.state.eligible.lookup e.typeName with
  | some names => exact ⟨rfl, _, rfl, hlookup, fun _ _ => rfl⟩
  | none =>
    refine ⟨rfl, _, rfl, List.lookup_cons_self, fun name hname => ?_⟩
    rw [List.lookup_cons, beq_false_of_ne hname]

theorem propertiesOf_eligibleOf (e e' : Entity) (s : Logged Memo) :
    (eligibleOf e s).2.state.propertiesOf e' =
      if e'.typeName = e.typeName then s.state.propertiesOf e else s.state.propertiesOf e' := by
  obtain ⟨-, eligible, hstate, hkept, hothers⟩ := eligibleOf_spec e s
  rw [hstate, propertiesOf]
  split
  · rename_i hname
    rw [hname, hkept, Option.getD_some]
  · rename_i hname
    rw [hothers _ hname, propertiesOf]

theorem agree_eligibleOf (he : e ∈ es) :
    Step.Agree (Alike es casing casing') (eligibleOf e) (eligibleOf e) (· = ·) := by
  intro s t hst
  obtain ⟨hs, eligible, hstate, -⟩ := eligibleOf_spec e s
  obtain ⟨ht, eligible', hstate', -⟩ := eligibleOf_spec e t
  refine ⟨⟨?_, fun e' he' => ?_⟩, ?_⟩
  · rw [hstate, hstate']
    exact hst.names
  · rw [propertiesOf_eligibleOf, propertiesOf_eligibleOf, hst.properties e he,
      hst.properties e' he']
  · rw [hs, ht, hst.properties e he]

theorem matches_namesOf (e : Entity) (casing : Casing) (s : Logged Memo) :
    Matches (fun kept names => kept.value.logicalNames = names) ((columnsOf e casing).run s).1
      (s.state.namesOf casing e) := by
  have hleaves : Matches (fun entries names => entries.map Prod.fst = names)
      ((resolveFields s.state.catalog casing [e.typeName] e.fields).run s).1
      (e.leaves s.state.catalog) :=
    (agree_leaves (K := fun _ => True) (fun _ => Step.ensures_any) e casing s s trivial).2
  rw [columnsOf, run_bind_ok (run_current s), namesOf]
  cases s.state.columnMaps.lookup (e.typeName, casing) with
  | some kept => exact .ok rfl
  | none =>
    dsimp only
    rcases hfields : (resolveFields s.state.catalog casing [e.typeName] e.fields).run s with
      ⟨result, t⟩
    rw [hfields] at hleaves
    generalize e.leaves s.state.catalog = leaves at hleaves
    cases hleaves with
    | ok hnames =>
      rw [run_bind_ok hfields]
      exact .ok hnames
    | error err =>
      rw [run_bind_error hfields]
      exact .error err

theorem eligible_columnsOf (e : Entity) (casing : Casing) (s : Logged Memo) :
    ((columnsOf e casing).run s).2.state.eligible = s.state.eligible := by
  let K (m : Memo) : Prop := m.eligible = s.state.eligible
  have htables : ∀ sub, Step.Ensures K (tablesOf sub) fun _ => True := by
    intro sub
    refine Step.Ensures.current.bind fun m hm => ?_
    split
    · exact .pure trivial
    · refine (Step.Ensures.put ?_).bind fun _ _ => .pure trivial
      exact hm
  have hcolumns : Resolving.Ensures K (columnsOf e casing) fun _ => True := by
    refine (Resolving.Ensures.step Step.Ensures.current).bind fun m _ => ?_
    split
    · exact Resolving.Ensures.pure trivial
    · have hfields : Resolving.Ensures K
          (resolveFields m.catalog casing [e.typeName] e.fields) fun _ => True :=
        Step.Ensures.mono (agree_leaves htables e casing).ensures fun _ _ _ _ => trivial
      refine hfields.bind fun entries _ => ?_
      refine (Resolving.Ensures.step Step.Ensures.note).bind fun _ _ => ?_
      refine (Resolving.Ensures.step Step.Ensures.current).bind fun m hm => ?_
      exact (Resolving.Ensures.step (Step.Ensures.put hm)).bind fun _ _ => .pure trivial
  exact (hcolumns s rfl).1

/-- Names that were looked up are given for every entity of the type name. -/
theorem namesOf_columnsOf (e e' : Entity) (casing : Casing) (s : Logged Memo) :
    ((columnsOf e casing).run s).2.state.namesOf casing e' =
      if e'.typeName = e.typeName ∧ ((columnsOf e casing).run s).1.isOk then
        s.state.namesOf casing e
      else s.state.namesOf casing e' := by
  have hnames := matches_namesOf e casing s
  have hlooks := looksUp_columnsOf e casing s
  generalize (columnsOf e casing).run s = looked at hnames hlooks
  cases hlooks with
  | kept hlookup =>
    split
    · rename_i hsame
      rw [namesOf, namesOf, hsame.1, hlookup]
    · rfl
  | made columns hnew _ hadds =>
    generalize hgiven : s.state.namesOf casing e = given at hnames
    cases hnames with
    | ok hcolumns =>
      subst hcolumns
      by_cases hname : e'.typeName = e.typeName
      · rw [if_pos ⟨hname, rfl⟩, namesOf, keep, hname, List.lookup_cons_self]
      · have hkey : ((e'.typeName, casing) == (e.typeName, casing)) = false :=
          beq_false_of_ne fun heq => hname (Prod.mk.inj heq).1
        rw [if_neg fun hsame => hname hsame.1, namesOf, keep, List.lookup_cons, hkey, namesOf]
        dsimp only
        rw [hadds.columnMaps, hadds.catalog]
  | failed _ _ hadds =>
    split
    · rename_i hsame
      cases hsame.2
    · rw [namesOf, namesOf, hadds.columnMaps, hadds.catalog]

theorem agree_columnsOf (he : e ∈ es) :
    Resolving.Agree (Alike es casing casing') (columnsOf e casing) (columnsOf e casing')
      fun kept kept' => kept.value.logicalNames = kept'.value.logicalNames := by
  intro s t hst
  have hnames := matches_namesOf e casing s
  have hnames' := matches_namesOf e casing' t
  rw [hst.names e he] at hnames
  have hmatches := (hnames.through hnames').mono
    fun kept kept' ⟨_, hkept, hkept'⟩ => hkept.trans hkept'.symm
  have hok := hmatches.isOk_eq
  refine ⟨⟨fun e' he' => ?_, fun e' he' => ?_⟩, hmatches⟩
  · rw [namesOf_columnsOf, namesOf_columnsOf, hok, hst.names e he, hst.names e' he']
  · rw [propertiesOf, propertiesOf, eligible_columnsOf, eligible_columnsOf]
    exact hst.properties e' he'

/-- From memos so related, the columns of the entities are found on both or the same cycle is told
on both, and the memos are so related again. -/
structure LookUpsAgree (es : List Entity) (casing casing' : Casing) (I : Memo → Memo → Prop) :
    Prop where
  columns : ∀ e ∈ es, Resolving.Agree I (columnsOf e casing) (columnsOf e casing') fun _ _ => True
  tables : ∀ e, Step.Agree I (tablesOf e) (tablesOf e) fun _ _ => True

theorem lookUpsAgree_alike : LookUpsAgree es casing casing' (Alike es casing casing') where
  columns _ he := (agree_columnsOf he).mono fun _ _ _ => trivial
  tables e := agree_tablesOf e

theorem lookUpsAgree_isTrue (htold : AreTold es) :
    LookUpsAgree es casing casing' fun m m' => m.IsTrue catalog es ∧ m'.IsTrue catalog es where
  columns e he s t hst := by
    obtain ⟨hs, hmatches⟩ := ensures_true_columnsOf htold he casing s hst.1
    obtain ⟨ht, hmatches'⟩ := ensures_true_columnsOf htold he casing' t hst.2
    exact ⟨⟨hs, ht⟩, (hmatches.through hmatches').mono fun _ _ _ => trivial⟩
  tables e s t hst :=
    ⟨⟨(ensures_true_tablesOf e s hst.1).1, (ensures_true_tablesOf e t hst.2).1⟩, trivial⟩

/-- What the memo keeps of properties, the last one keeps as well, and both have the same catalog. -/
structure Precedes (m last : Memo) : Prop where
  catalog : m.catalog = last.catalog
  eligible : ∀ name names, m.eligible.lookup name = some names →
    last.eligible.lookup name = some names

theorem Precedes.refl (m : Memo) : m.Precedes m := ⟨rfl, fun _ _ h => h⟩

variable (last : Memo)

theorem recalls_eligibleOf (e : Entity) :
    Step.Recalls (Precedes · last) (eligibleOf e) (· = last.propertiesOf e) := by
  intro s hlast
  obtain ⟨hresult, eligible, hstate, hkept, hothers⟩ := eligibleOf_spec e s
  rw [hstate] at hlast
  have hgiven : last.eligible.lookup e.typeName = some (s.state.propertiesOf e) :=
    hlast.eligible _ _ hkept
  have hproperties : last.propertiesOf e = s.state.propertiesOf e := by
    rw [propertiesOf, hgiven, Option.getD_some]
  refine ⟨⟨hlast.catalog, fun name names hnames => ?_⟩, hresult.trans hproperties.symm⟩
  by_cases hname : name = e.typeName
  · subst hname
    rw [hgiven, propertiesOf, hnames, Option.getD_some]
  · exact hlast.eligible _ _ ((hothers name hname).trans hnames)

theorem recalls_columnsOf (e : Entity) (casing : Casing) :
    Step.Recalls (Precedes · last) (columnsOf e casing).run fun _ => True := by
  intro s hlast
  refine ⟨⟨?_, fun name names hnames => hlast.eligible name names ?_⟩, trivial⟩
  · rw [← hlast.catalog, catalog_columnsOf]
  · rw [eligible_columnsOf]
    exact hnames

end Cql.Memo
