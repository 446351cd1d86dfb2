import Cql.Proofs.Agree

/-!
A memo that is true to some entities: what it keeps of them is what their descriptions say. The
names that it gives are then the same whatever it keeps, and the logical names are the same under
every casing.
-/

namespace Cql

/-- Type names tell these entities apart. -/
def AreTold (es : List Entity) : Prop :=
  ∀ e ∈ es, ∀ other ∈ es, e.typeName = other.typeName → e = other

instance : DecidablePred AreTold := fun es =>
  inferInstanceAs (Decidable (∀ e ∈ es, ∀ other ∈ es, e.typeName = other.typeName → e = other))

theorem areTold_singleton (e : Entity) : AreTold [e] := by simp [AreTold]

/-- The logical names of the columns of an entity, with those of nested fields. -/
def Entity.leaves (catalog : Catalog) (e : Entity) : Except Error (List String) :=
  ((Memo.resolveFields catalog .lowerCamel [e.typeName] e.fields).run ⟨{ catalog }, []⟩).1.map
    (List.map Prod.fst)

structure Memo.IsTrue (catalog : Catalog) (es : List Entity) (m : Memo) : Prop where
  ofCatalog : m.catalog = catalog
  columnMaps : ∀ e ∈ es, ∀ casing, ∀ kept ∈ m.columnMaps.lookup (e.typeName, casing),
    e.leaves catalog = .ok kept.value.logicalNames
  eligible : ∀ e ∈ es, ∀ names ∈ m.eligible.lookup e.typeName, names = Eligible.ofEntity e

/-- What is looked up under a key is what was put there last. -/
theorem mem_lookup_cons {α β : Type} [BEq α] [LawfulBEq α] {entries : List (α × β)} {a key : α}
    {b kept : β} (h : kept ∈ ((a, b) :: entries).lookup key) :
    key = a ∧ kept = b ∨ kept ∈ entries.lookup key := by
  rw [List.lookup_cons] at h
  split at h
  · rename_i heq
    exact .inl ⟨by simpa using heq, by simpa using h.symm⟩
  · exact .inr h

namespace Memo

variable {catalog : Catalog} {es : List Entity} {e : Entity}

theorem isTrue_ofCatalog : Memo.IsTrue catalog es { catalog } := ⟨rfl, by simp, by simp⟩

theorem ensures_true_tablesOf (e : Entity) :
    Step.Ensures (IsTrue catalog es) (tablesOf e) fun _ => True := by
  refine Step.Ensures.current.bind fun m hm => ?_
  split
  · exact .pure trivial
  · refine (Step.Ensures.put ?_).bind fun _ _ => .pure trivial
    exact { hm with }

theorem ensures_true_eligibleOf (htold : AreTold es) (he : e ∈ es) :
    Step.Ensures (IsTrue catalog es) (eligibleOf e) fun names => names = Eligible.ofEntity e := by
  refine Step.Ensures.current.bind fun m hm => ?_
  split
  · rename_i names hlookup
    exact .pure (hm.eligible e he names hlookup)
  · refine Step.Ensures.note.bind fun _ _ => (Step.Ensures.put ?_).bind fun _ _ => .pure rfl
    refine { hm with eligible := fun e' he' names hnames => ?_ }
    obtain ⟨hname, rfl⟩ | hold := mem_lookup_cons hnames
    · rw [htold e' he' e he hname]
    · exact hm.eligible e' he' names hold

/-- Neither the casing nor what the memo keeps has a part in the logical names. -/
theorem agree_resolveFields {I : Memo → Memo → Prop}
    (htables : ∀ sub, Step.Agree I (tablesOf sub) (tablesOf sub) fun _ _ => True)
    (casing casing' : Casing) (walk : List String) (fields : List Field) :
    Resolving.Agree I (resolveFields catalog casing walk fields)
      (resolveFields catalog casing' walk fields) fun entries entries' =>
        entries.map Prod.fst = entries'.map Prod.fst := by
  -- The fields after the first one add their names behind its own.
  have hjoin : ∀ {own own' : List (String × String)}
      {others others' : Resolving (List (String × String))},
      own.map Prod.fst = own'.map Prod.fst →
      Resolving.Agree I others others'
        (fun entries entries' => entries.map Prod.fst = entries'.map Prod.fst) →
      Resolving.Agree I (do let entries ← others; return own ++ entries)
        (do let entries ← others'; return own' ++ entries)
        fun entries entries' => entries.map Prod.fst = entries'.map Prod.fst :=
    fun hown hothers => hothers.bind fun _ _ h => .pure (by simp [hown, h])
  have hnone : ([] : List (String × String)).map Prod.fst =
      ([] : List (String × String)).map Prod.fst := rfl
  fun_induction resolveFields catalog casing walk fields with
  | case1 =>
    rw [resolveFields]
    exact .pure rfl
  | case2 walk f fs _ htransient ih =>
    rw [resolveFields, if_pos htransient]
    exact .bind (.pure hnone) fun _ _ hown => hjoin hown ih
  | case3 walk f fs _ htransient hnested ih =>
    rw [resolveFields, if_neg htransient]
    simp only [hnested]
    have hown : [(f.name, f.physical casing)].map Prod.fst =
        [(f.name, f.physical casing')].map Prod.fst := rfl
    exact .bind (.pure hown) fun _ _ hown => hjoin hown ih
  | case4 walk f fs _ htransient i hnested hsub ih =>
    rw [resolveFields, if_neg htransient]
    simp only [hnested]
    generalize catalog[i]? = found at hsub ⊢
    subst hsub
    exact .bind (.pure hnone) fun _ _ hown => hjoin hown ih
  | case5 walk f fs _ htransient i hnested sub hsub ihothers ihsub =>
    rw [resolveFields, if_neg htransient]
    simp only [hnested]
    generalize catalog[i]? = found at hsub ⊢
    subst hsub
    refine (Resolving.Agree.step (htables sub)).bind fun tables tables' _ => ?_
    split
    · exact .throw_bind _
    · rename_i hwalk
      refine (ihsub hwalk).bind fun entries entries' hentries => ?_
      have hown : (entries.map (ColumnMap.qualify f.name (tables.get casing))).map Prod.fst =
          (entries'.map (ColumnMap.qualify f.name (tables'.get casing'))).map Prod.fst := by
        have hnames := congrArg (List.map fun name => f.name ++ "." ++ name) hentries
        simpa [ColumnMap.qualify, Function.comp_def] using hnames
      exact .bind (.pure hown) fun _ _ hown => hjoin hown ihothers

/-- Fields are resolved to the logical names, whatever the memo keeps. -/
theorem agree_leaves {K : Memo → Prop}
    (htables : ∀ sub, Step.Ensures K (tablesOf sub) fun _ => True) (e : Entity) (casing : Casing) :
    Resolving.Agree (fun m _ => K m) (resolveFields catalog casing [e.typeName] e.fields)
      (liftM (e.leaves catalog)) fun entries names => entries.map Prod.fst = names := by
  have hfields : Resolving.Agree (fun m _ => K m)
      (resolveFields catalog casing [e.typeName] e.fields)
      (resolveFields catalog .lowerCamel [e.typeName] e.fields)
      fun entries entries' => entries.map Prod.fst = entries'.map Prod.fst :=
    agree_resolveFields (fun sub s t hs => htables sub s hs) casing .lowerCamel _ _
  intro s t hs
  obtain ⟨hstate, hmatches⟩ := hfields s ⟨{ catalog }, []⟩ hs
  exact ⟨hstate, hmatches.map_right⟩

/-- The columns of an entity have its logical names. -/
theorem ensures_true_columnsOf (htold : AreTold es) (he : e ∈ es) (casing : Casing) :
    Step.Ensures (IsTrue catalog es) (columnsOf e casing).run fun result =>
      Matches (fun kept names => kept.value.logicalNames = names) result (e.leaves catalog) := by
  refine Resolving.Agree.ensures (.step_left Step.Ensures.current fun m hm => ?_)
  split
  · rename_i kept hlookup
    rw [hm.columnMaps e he casing kept hlookup]
    exact .pure rfl
  · rw [hm.ofCatalog, ← bind_pure (liftM (e.leaves catalog))]
    refine (agree_leaves ensures_true_tablesOf e casing).known.bind
      fun entries names ⟨hnames, hleaves⟩ => ?_
    refine .step_left Step.Ensures.note fun _ _ => ?_
    refine .step_left Step.Ensures.current fun m hm => ?_
    refine .step_left (Step.Ensures.put ?_) fun _ _ => .pure hnames
    refine { hm with columnMaps := fun e' he' casing' kept hkept => ?_ }
    obtain ⟨hkey, rfl⟩ | hold := mem_lookup_cons hkept
    · rw [htold e' he' e he (congrArg Prod.fst hkey), hleaves, ← hnames]
      rfl
    · exact hm.columnMaps e' he' casing' kept hold

end Memo

end Cql
