import Cql.Proofs.Determined
import Cql.Proofs.Mapping.Described

/-!
A memo that keeps of some entities exactly what would be made for them anew. What it is asked for is
then the same whatever it keeps, also after it was cleared.
-/

namespace Cql

variable {catalog : Catalog} {es : List Entity} {e : Entity}

/-- The columns of an entity with those of nested fields, or the cycle in these. -/
def Entity.columns (catalog : Catalog) (casing : Casing) (e : Entity) :
    Except Error (List (String × String)) :=
  ((Memo.resolveFields catalog casing [e.typeName] e.fields).run ⟨{ catalog }, []⟩).1

structure Memo.IsExact (catalog : Catalog) (es : List Entity) (m : Memo) : Prop where
  ofCatalog : m.catalog = catalog
  columnMaps : ∀ e ∈ es, ∀ casing, ∀ kept ∈ m.columnMaps.lookup (e.typeName, casing),
    e.columns catalog casing = .ok kept.value.entries
  tableNames : ∀ e ∈ es, ∀ names ∈ m.tableNames.lookup e.typeName, names = TableNames.ofEntity e
  eligible : ∀ e ∈ es, ∀ names ∈ m.eligible.lookup e.typeName, names = Eligible.ofEntity e

namespace Memo

theorem isExact_ofCatalog : Memo.IsExact catalog es { catalog } := ⟨rfl, by simp, by simp, by simp⟩

theorem IsExact.clear {m : Memo} (h : m.IsExact catalog es) : m.clear.IsExact catalog es :=
  ⟨h.ofCatalog, by simp [Memo.clear], by simp [Memo.clear], by simp [Memo.clear]⟩

theorem ensures_exact_tablesOf (htold : AreTold es) (he : e ∈ es) :
    Step.Ensures (IsExact catalog es) (tablesOf e) (· = TableNames.ofEntity e) := by
  refine Step.Ensures.current.bind fun m hm => ?_
  split
  · rename_i names hlookup
    exact .pure (hm.tableNames e he names hlookup)
  · refine (Step.Ensures.put ?_).bind fun _ _ => .pure rfl
    refine { hm with tableNames := fun e' he' names hnames => ?_ }
    obtain ⟨hname, rfl⟩ | hold := mem_lookup_cons hnames
    · rw [htold e' he' e he hname]
    · exact hm.tableNames e' he' names hold

theorem ensures_exact_eligibleOf (htold : AreTold es) (he : e ∈ es) :
    Step.Ensures (IsExact catalog es) (eligibleOf e) (· = Eligible.ofEntity e) := by
  refine Step.Ensures.current.bind fun m hm => ?_
  split
  · rename_i names hlookup
    exact .pure (hm.eligible e he names hlookup)
  · refine Step.Ensures.note.bind fun _ _ => (Step.Ensures.put ?_).bind fun _ _ => .pure rfl
    refine { hm with eligible := fun e' he' names hnames => ?_ }
    obtain ⟨hname, rfl⟩ | hold := mem_lookup_cons hnames
    · rw [htold e' he' e he hname]
    · exact hm.eligible e' he' names hold

theorem determined_resolveFields (htold : AreTold es) (hcatalog : catalog ⊆ es) (casing : Casing)
    (walk : List String) (fields : List Field) :
    Resolving.Determined (IsExact catalog es) (resolveFields catalog casing walk fields)
      fun _ => True := by
  -- The fields after the first one add their entries behind its own.
  have hjoin : ∀ {own : List (String × String)} {others : Resolving (List (String × String))},
      Resolving.Determined (IsExact catalog es) others (fun _ => True) →
      Resolving.Determined (IsExact catalog es)
        (do let own ← pure own; let entries ← others; return own ++ entries)
        fun _ => True :=
    fun hothers => hothers.bind fun _ _ => .pure trivial
  fun_induction resolveFields catalog casing walk fields with
  | case1 => exact .pure trivial
  | case2 walk f fs _ _ ih => exact hjoin ih
  | case3 walk f fs _ _ _ ih => exact hjoin ih
  | case4 walk f fs _ _ i _ _ ih => exact hjoin ih
  | case5 walk f fs _ _ i _ sub hsub ihothers ihsub =>
    have hmem : sub ∈ es := hcatalog (List.mem_of_getElem? hsub)
    have htables : Step.Determined (IsExact catalog es) (tablesOf sub) fun _ => True :=
      .of_ensures trivial (ensures_exact_tablesOf htold hmem)
    refine (Resolving.Determined.step htables).bind fun tables _ => ?_
    split
    · exact .throw_bind _
    · rename_i hwalk
      refine (ihsub hwalk).bind fun entries _ => ?_
      exact hjoin ihothers

theorem ensures_columns (htold : AreTold es) (hcatalog : catalog ⊆ es) (e : Entity)
    (casing : Casing) : Step.Ensures (IsExact catalog es)
      (resolveFields catalog casing [e.typeName] e.fields).run (· = e.columns catalog casing) :=
  (determined_resolveFields htold hcatalog casing _ _).ensures_eq (s := ⟨{ catalog }, []⟩)
    isExact_ofCatalog

/-- The columns that a memo gives are those made anew. -/
theorem ensures_exact_columnsOf (htold : AreTold es) (hcatalog : catalog ⊆ es) (he : e ∈ es)
    (casing : Casing) : Step.Ensures (IsExact catalog es) (columnsOf e casing).run fun result =>
      Matches (fun kept entries => kept.value.entries = entries) result
        (e.columns catalog casing) := by
  have hresolve : Resolving.Agree (fun m _ => IsExact catalog es m)
      (resolveFields catalog casing [e.typeName] e.fields) (liftM (e.columns catalog casing))
      fun entries entries' => entries = entries' := by
    intro s t hs
    obtain ⟨hstate, hresult⟩ := ensures_columns htold hcatalog e casing s hs
    refine ⟨hstate, ?_⟩
    rw [hresult]
    exact Matches.eq_refl _
  refine Resolving.Agree.ensures (.step_left Step.Ensures.current fun m hm => ?_)
  split
  · rename_i kept hlookup
    rw [hm.columnMaps e he casing kept hlookup]
    exact .pure rfl
  · rw [hm.ofCatalog, ← bind_pure (liftM (e.columns catalog casing))]
    refine hresolve.known.bind fun entries entries' ⟨hentries, hcolumns⟩ => ?_
    refine .step_left Step.Ensures.note fun _ _ => ?_
    refine .step_left Step.Ensures.current fun m hm => ?_
    refine .step_left (Step.Ensures.put ?_) fun _ _ => .pure hentries
    refine { hm with columnMaps := fun e' he' casing' kept hkept => ?_ }
    obtain ⟨hkey, rfl⟩ | hold := mem_lookup_cons hkept
    · obtain ⟨hname, rfl⟩ := Prod.mk.inj hkey
      rw [htold e' he' e he hname, hcolumns, ← hentries]
    · exact hm.columnMaps e' he' casing' kept hold

/-- What is made of the columns alone is determined. -/
theorem determined_columnsOf {α : Type} {Q : α → Prop} (htold : AreTold es)
    (hcatalog : catalog ⊆ es) (he : e ∈ es) (casing : Casing) {next : ColumnMap → Resolving α}
    (hnext : ∀ columns, Resolving.Determined (IsExact catalog es) (next columns) Q) :
    Resolving.Determined (IsExact catalog es)
      (do let columns ← columnsOf e casing; next columns.value) Q := by
  have hcolumns := ensures_exact_columnsOf htold hcatalog he casing
  rw [Resolving.Determined, ExceptT.run_bind]
  cases hmade : e.columns catalog casing with
  | ok entries =>
    obtain ⟨result, hyields, hresult⟩ := hnext ⟨entries⟩
    refine ⟨result, hyields, hcolumns.bind fun kept hkept => ?_⟩
    rw [hmade] at hkept
    cases hkept with
    | @ok kept _ hentries =>
      have hvalue : kept.value = ⟨entries⟩ := congrArg ColumnMap.mk hentries
      change Step.Ensures _ (next kept.value).run _
      rw [hvalue]
      exact hresult
  | error err =>
    refine ⟨.error err, .error, hcolumns.bind fun kept hkept => ?_⟩
    rw [hmade] at hkept
    cases hkept
    exact .pure rfl

theorem leaves_columns (casing : Casing) (e : Entity) :
    Matches (fun entries names => entries.map Prod.fst = names) (e.columns catalog casing)
      (e.leaves catalog) := by
  have hagree : Resolving.Agree (fun _ _ => True)
      (resolveFields catalog casing [e.typeName] e.fields) (liftM (e.leaves catalog))
      fun entries names => entries.map Prod.fst = names :=
    agree_leaves (K := fun _ => True) (fun _ => Step.ensures_any) e casing
  exact (hagree ⟨{ catalog }, []⟩ ⟨{ catalog }, []⟩ trivial).2

end Memo

end Cql
