import Cql.Mapping.Request
import Cql.Proofs.Mapping.Exact
import Cql.Proofs.Mapping.Lookup
import Cql.Proofs.Mapping.Search
import Cql.Proofs.Statement.Plain

/-!
What a memo was asked before has no part in its answers. Where type names tell the entities apart,
each request of a sequence is answered as on a memo that keeps nothing, also after failures and after
the memo was cleared. Column maps are kept as one object until they are cleared.
-/

namespace Cql.Memo

variable {α : Type} {catalog : Catalog} {es : List Entity} {e : Entity} {casing : Casing}

/-- The entities that a memo is asked about. -/
def Request.entities : Request → List Entity
  | .columns e _ | .physical? e _ _ | .tables e | .eligible e | .column e _ _
  | .sameTwice e _ => [e]
  | .clear | .matchKeys .. => []

/-- A memo that can be asked for the mappings of some entities can be asked anything about them. -/
theorem ensures_answer {I : Memo → Prop} {r : Request}
    (hcolumns : ∀ e ∈ r.entities, ∀ casing, Resolving.Ensures I (columnsOf e casing) fun _ => True)
    (htables : ∀ e ∈ r.entities, Step.Ensures I (tablesOf e) fun _ => True)
    (heligible : ∀ e ∈ r.entities, Step.Ensures I (eligibleOf e) fun _ => True)
    (hclear : r = .clear → ∀ m, I m → I m.clear) :
    Resolving.Ensures I (answer r) fun _ => True := by
  cases r with
  | columns e casing | physical? e casing logical =>
    exact (hcolumns e (by simp [Request.entities]) casing).bind fun _ _ => .pure trivial
  | tables e =>
    have hstep := htables e (by simp [Request.entities])
    exact (Resolving.Ensures.step hstep).bind fun _ _ => .pure trivial
  | eligible e =>
    have hstep := heligible e (by simp [Request.entities])
    exact (Resolving.Ensures.step hstep).bind fun _ _ => .pure trivial
  | column e casing logical =>
    have hname : Resolving.Ensures I (columnOf e casing logical) fun _ => True :=
      (hcolumns e (by simp [Request.entities]) casing).bind fun _ _ => .pure trivial
    exact hname.bind fun _ _ => .pure trivial
  | sameTwice e casing =>
    have hstep := hcolumns e (by simp [Request.entities]) casing
    exact hstep.bind fun _ _ => hstep.bind fun _ _ => .pure trivial
  | clear =>
    have hstep := Step.Ensures.update (hclear rfl)
    exact (Resolving.Ensures.step hstep).bind fun _ _ => .pure trivial
  | matchKeys e values =>
    simp only [answer]
    split
    · exact .throw
    · exact .pure trivial

/-- The memo after some requests. -/
def after (m : Memo) (requests : List Request) : Memo :=
  requests.foldl (fun m r => (Step.run (answer r).run m).2.1) m

/-- What a request is answered after others, by a memo that kept nothing at first. -/
def replyAfter (catalog : Catalog) (history : List Request) (r : Request) : Except Error Answer :=
  (Step.run (answer r).run (after { catalog } history)).1

/-- The column map that a memo gives after some requests, with the number that tells it from other
makings. -/
def objectAfter (catalog : Catalog) (history : List Request) (e : Entity) (casing : Casing) :
    Except Error (Stamped ColumnMap) :=
  (Step.run (columnsOf e casing).run (after { catalog } history)).1

theorem after_append (m : Memo) (requests others : List Request) :
    m.after (requests ++ others) = (m.after requests).after others := List.foldl_append

theorem after_cons (m : Memo) (r : Request) (requests : List Request) :
    m.after (r :: requests) = after (Step.run (answer r).run m).2.1 requests := rfl

/-- What every request keeps holds after all of them. -/
theorem ensures_after {I : Memo → Prop} {requests : List Request} {m : Memo}
    (h : ∀ r ∈ requests, Resolving.Ensures I (answer r) fun _ => True) (hm : I m) :
    I (m.after requests) := by
  induction requests generalizing m with
  | nil => exact hm
  | cons r requests ih =>
    have hnext := (h r (by simp) ⟨m, []⟩ hm).1
    exact ih (fun r hr => h r (by simp [hr])) hnext

/-- Two look-ups in a row are one. -/
theorem columnsOf_twice (next : Stamped ColumnMap → Stamped ColumnMap → Resolving α) :
    (do let first ← columnsOf e casing; let second ← columnsOf e casing; next first second) =
      (do let kept ← columnsOf e casing; next kept kept) := by
  refine funext fun s => ?_
  change ((columnsOf e casing >>= _ : Resolving α)).run s =
    ((columnsOf e casing >>= _ : Resolving α)).run s
  rcases hfirst : (columnsOf e casing).run s with ⟨err | kept, t⟩
  · rw [run_bind_error hfirst, run_bind_error hfirst]
  · rw [run_bind_ok hfirst, run_bind_ok hfirst]
    exact run_bind_ok (columnsOf_of_lookup (lookup_columnsOf hfirst))

theorem determined_answer (htold : AreTold es) (hcatalog : catalog ⊆ es) {r : Request}
    (h : r.entities ⊆ es) :
    Resolving.Determined (IsExact catalog es) (answer r) fun _ => True := by
  have hcolumns : ∀ {e : Entity} (casing : Casing) (tell : ColumnMap → Answer), e ∈ es →
      Resolving.Determined (IsExact catalog es)
        (do let columns ← columnsOf e casing; return tell columns.value) fun _ => True :=
    fun casing tell he => determined_columnsOf htold hcatalog he casing fun _ => .pure trivial
  cases r with
  | columns e casing => exact hcolumns casing .columns (h (by simp [Request.entities]))
  | physical? e casing logical =>
    exact hcolumns casing (fun m => .name? (m.get? logical)) (h (by simp [Request.entities]))
  | tables e =>
    have he : e ∈ es := h (by simp [Request.entities])
    have htables : Step.Determined (IsExact catalog es) (tablesOf e) fun _ => True :=
      .of_ensures trivial (ensures_exact_tablesOf htold he)
    exact (Resolving.Determined.step htables).bind fun _ _ => .pure trivial
  | eligible e =>
    have he : e ∈ es := h (by simp [Request.entities])
    have heligible : Step.Determined (IsExact catalog es) (eligibleOf e) fun _ => True :=
      .of_ensures trivial (ensures_exact_eligibleOf htold he)
    exact (Resolving.Determined.step heligible).bind fun _ _ => .pure trivial
  | column e casing logical =>
    have hname := hcolumns casing (fun m => .name ((m.get? logical).getD (casing.physical logical)))
      (h (List.mem_singleton_self e))
    simpa [answer, columnOf] using hname
  | sameTwice e casing =>
    have hflag := hcolumns casing (fun _ => .flag true) (h (List.mem_singleton_self e))
    rw [answer, columnsOf_twice]
    simpa using hflag
  | clear =>
    have hclear : Step.Determined (IsExact catalog es) (Step.update clear) fun _ => True :=
      .of_ensures (a := ()) trivial ((Step.Ensures.update fun _ => IsExact.clear).mono fun _ _ => rfl)
    exact (Resolving.Determined.step hclear).bind fun _ _ => .pure trivial
  | matchKeys e values =>
    simp only [answer]
    split
    · exact .throw _
    · exact .pure trivial

theorem isExact_after (htold : AreTold es) (hcatalog : catalog ⊆ es) {requests : List Request}
    (h : ∀ r ∈ requests, r.entities ⊆ es) : (after { catalog } requests).IsExact catalog es :=
  ensures_after (fun r hr => ((determined_answer htold hcatalog (h r hr)).ensures).mono
    fun _ _ _ _ => trivial) isExact_ofCatalog

section Objects

variable {I : List ((String × Casing) × Stamped ColumnMap) → Nat → Prop}

/-- What is said of column maps and of the next number holds after every request, if a map that is
made anew leaves it true. -/
theorem ensures_maps_answer
    (hmake : ∀ maps n key columns, I maps n → maps.lookup key = none →
      I ((key, ⟨n, columns⟩) :: maps) (n + 1))
    {r : Request} (hclear : r = .clear → ∀ maps n, I maps n → I [] n) :
    Resolving.Ensures (fun m => I m.columnMaps m.nextSerial) (answer r) fun _ => True := by
  have htables : ∀ e, Step.Ensures (fun m => I m.columnMaps m.nextSerial) (tablesOf e)
      fun _ => True := by
    intro e
    refine Step.Ensures.current.bind fun m hm => ?_
    split
    · exact .pure trivial
    · refine (Step.Ensures.put ?_).bind fun _ _ => .pure trivial
      exact hm
  refine ensures_answer (fun e _ casing => ?_) (fun e _ => htables e) (fun e _ => ?_)
    fun hr _ hm => hclear hr _ _ hm
  · intro s hs
    have hlooks := looksUp_columnsOf e casing s
    generalize (columnsOf e casing).run s = looked at hlooks
    refine ⟨?_, fun _ _ => trivial⟩
    cases hlooks with
    | kept => exact hs
    | made columns hnew _ hadds =>
      refine hmake _ _ _ _ ?_ (hadds.columnMaps ▸ hnew)
      rw [hadds.columnMaps, hadds.nextSerial]
      exact hs
    | failed _ _ hadds =>
      rw [hadds.columnMaps, hadds.nextSerial]
      exact hs
  · refine Step.Ensures.current.bind fun m hm => ?_
    split
    · exact .pure trivial
    · refine Step.Ensures.note.bind fun _ _ => (Step.Ensures.put ?_).bind fun _ _ => .pure trivial
      exact hm

theorem maps_after
    (hmake : ∀ maps n key columns, I maps n → maps.lookup key = none →
      I ((key, ⟨n, columns⟩) :: maps) (n + 1))
    {requests : List Request} (hclear : .clear ∈ requests → ∀ maps n, I maps n → I [] n) {m : Memo}
    (hm : I m.columnMaps m.nextSerial) :
    I (m.after requests).columnMaps (m.after requests).nextSerial := by
  refine ensures_after (I := fun m => I m.columnMaps m.nextSerial) (fun r hr => ?_) hm
  exact ensures_maps_answer hmake fun hclears => hclear (hclears ▸ hr)

variable {m : Memo} {requests : List Request} {kept : Stamped ColumnMap}

/-- A column map that is kept stays until the memo is cleared. -/
theorem lookup_after (hclear : .clear ∉ requests)
    (h : m.columnMaps.lookup (e.typeName, casing) = some kept) :
    (m.after requests).columnMaps.lookup (e.typeName, casing) = some kept := by
  refine maps_after (I := fun maps _ => maps.lookup (e.typeName, casing) = some kept) ?_
    (fun hclears => absurd hclears hclear) h
  intro maps n key columns hkept hnew
  have hne : (e.typeName, casing) ≠ key := by
    rintro rfl
    rw [hnew] at hkept
    cases hkept
  rw [List.lookup_cons, beq_false_of_ne hne]
  exact hkept

/-- The numbers of the column maps that are kept are less than the next one. -/
theorem serial_lt_after (hm : ∀ entry ∈ m.columnMaps, entry.2.serial < m.nextSerial) :
    ∀ entry ∈ (m.after requests).columnMaps, entry.2.serial < (m.after requests).nextSerial := by
  refine maps_after (I := fun maps n => ∀ entry ∈ maps, entry.2.serial < n) ?_
    (fun _ _ _ _ _ h => nomatch h) hm
  rintro maps n key columns hold - entry hentry
  obtain rfl | hentry := List.mem_cons.mp hentry
  · exact Nat.lt_succ_self n
  · exact Nat.lt_succ_of_lt (hold entry hentry)

theorem le_nextSerial_after (m : Memo) (requests : List Request) :
    m.nextSerial ≤ (m.after requests).nextSerial :=
  maps_after (I := fun _ n => m.nextSerial ≤ n) (fun _ _ _ _ h _ => Nat.le_succ_of_le h)
    (fun _ _ _ h => h) (Nat.le_refl _)

/-- After the memo was cleared every column map has a number of its own. -/
theorem le_serial_after_clear (m : Memo) (requests : List Request) :
    ∀ entry ∈ (m.clear.after requests).columnMaps, m.nextSerial ≤ entry.2.serial := by
  refine (maps_after (m := m.clear) (I := fun maps n => m.nextSerial ≤ n ∧ ∀ entry ∈ maps,
    m.nextSerial ≤ entry.2.serial) ?_ (fun _ _ _ h => ⟨h.1, by simp⟩) ⟨Nat.le_refl _, ?_⟩).2
  · rintro maps n key columns ⟨hle, hold⟩ -
    refine ⟨Nat.le_succ_of_le hle, fun entry hentry => ?_⟩
    obtain rfl | hentry := List.mem_cons.mp hentry
    · exact hle
    · exact hold entry hentry
  · exact fun _ h => nomatch h

end Objects

theorem after_columns (m : Memo) (e : Entity) (casing : Casing) (requests : List Request) :
    m.after (.columns e casing :: requests) =
      ((columnsOf e casing).run ⟨m, []⟩).2.state.after requests := by
  rw [after_cons]
  refine congrArg (after · requests) ?_
  change (((columnsOf e casing >>= _ : Resolving Answer)).run ⟨m, []⟩).2.state = _
  rcases hrun : (columnsOf e casing).run ⟨m, []⟩ with ⟨err | kept, t⟩
  · rw [run_bind_error hrun]
  · rw [run_bind_ok hrun]
    rfl

theorem matches_objectAfter (htold : AreTold es) (hcatalog : catalog ⊆ es) (he : e ∈ es)
    (casing : Casing) {history : List Request} (h : ∀ r ∈ history, r.entities ⊆ es) :
    Matches (fun kept entries => kept.value.entries = entries) (objectAfter catalog history e casing)
      (e.columns catalog casing) :=
  (ensures_exact_columnsOf htold hcatalog he casing ⟨_, []⟩ (isExact_after htold hcatalog h)).2

/-- The first look-up of a column map, and the memo that a later one finds. -/
theorem exists_of_objectAfter {before : List Request} {kept : Stamped ColumnMap}
    (h : objectAfter catalog before e casing = .ok kept) :
    ∃ m : Memo, m.columnMaps.lookup (e.typeName, casing) = some kept ∧
      kept.serial < m.nextSerial ∧ ∀ between,
        after { catalog } (before ++ .columns e casing :: between) = m.after between := by
  have hlater : ∀ between, after { catalog } (before ++ .columns e casing :: between) =
      ((columnsOf e casing).run ⟨after { catalog } before, []⟩).2.state.after between := by
    intro between
    rw [after_append, after_columns]
  rcases hrun : (columnsOf e casing).run ⟨after { catalog } before, []⟩ with ⟨result, t⟩
  have hresult : result = .ok kept := (congrArg Prod.fst hrun).symm.trans h
  subst hresult
  rw [hrun] at hlater
  have hlookup := lookup_columnsOf hrun
  have hserials : ∀ entry ∈ t.state.columnMaps, entry.2.serial < t.state.nextSerial := by
    rw [show t.state = _ from (hlater []).symm]
    exact serial_lt_after fun _ h => nomatch h
  exact ⟨t.state, hlookup, hserials _ (mem_of_lookup hlookup), hlater⟩

/-- A column map that is made after the memo was cleared has a greater number than those before. -/
theorem serial_lt_of_clear {before early late : List Request} {kept kept' : Stamped ColumnMap}
    (h : objectAfter catalog before e casing = .ok kept)
    (h' : objectAfter catalog (before ++ .columns e casing :: (early ++ .clear :: late)) e casing =
      .ok kept') : kept.serial < kept'.serial := by
  obtain ⟨m, -, hserial, hlater⟩ := exists_of_objectAfter h
  obtain ⟨m', hlookup, -, hafter⟩ := exists_of_objectAfter h'
  have hm' : m' = (m.after early).clear.after (late ++ [.columns e casing]) := by
    have hall := hlater (early ++ .clear :: (late ++ [.columns e casing]))
    rw [after_append m, after_cons] at hall
    refine Eq.trans ?_ hall
    rw [show m' = _ from (hafter []).symm]
    simp
  have hnew : (m.after early).nextSerial ≤ kept'.serial := by
    have hall := le_serial_after_clear (m.after early) (late ++ [.columns e casing])
    rw [← hm'] at hall
    exact hall _ (mem_of_lookup hlookup)
  have hgrows := le_nextSerial_after m early
  omega

/-- A column map that is looked up again is the same object unless the memo was cleared. -/
theorem objectAfter_again (htold : AreTold es) (hcatalog : catalog ⊆ es) (he : e ∈ es)
    {before between : List Request} (hbefore : ∀ r ∈ before, r.entities ⊆ es)
    (hbetween : ∀ r ∈ between, r.entities ⊆ es) {kept : Stamped ColumnMap}
    (h : objectAfter catalog before e casing = .ok kept) :
    ∃ kept', objectAfter catalog (before ++ .columns e casing :: between) e casing = .ok kept' ∧
      kept'.value = kept.value ∧ (kept'.serial = kept.serial ↔ Request.clear ∉ between) := by
  by_cases hclear : Request.clear ∈ between
  · have hhistory : ∀ r ∈ before ++ .columns e casing :: between, r.entities ⊆ es := by
      intro r hr
      rw [List.mem_append, List.mem_cons] at hr
      obtain hr | rfl | hr := hr
      · exact hbefore r hr
      · exact fun _ hr => List.mem_singleton.mp hr ▸ he
      · exact hbetween r hr
    have hfirst := matches_objectAfter htold hcatalog he casing hbefore
    have hsecond := matches_objectAfter htold hcatalog he casing hhistory
    rw [h] at hfirst
    generalize hagain : objectAfter catalog (before ++ .columns e casing :: between) e casing = again
      at hsecond
    generalize e.columns catalog casing = columns at hfirst hsecond
    cases hfirst with
    | ok hentries =>
      cases hsecond with
      | @ok kept' _ hentries' =>
        refine ⟨kept', rfl, congrArg ColumnMap.mk (hentries'.trans hentries.symm), ?_⟩
        obtain ⟨early, late, rfl⟩ := List.append_of_mem hclear
        exact iff_of_false (serial_lt_of_clear h hagain).ne' (not_not_intro hclear)
  · obtain ⟨m, hlookup, -, hlater⟩ := exists_of_objectAfter h
    have hkept := columnsOf_of_lookup (s := ⟨m.after between, []⟩) (lookup_after hclear hlookup)
    refine ⟨kept, ?_, rfl, iff_of_true rfl hclear⟩
    rw [objectAfter, hlater]
    exact congrArg Prod.fst hkept

/-- Whatever a memo was asked before, it answers as if it kept nothing. Two look-ups of the columns
of an entity give the same object if the memo is not cleared between them, and else equal ones. -/
theorem answers_fresh (htold : AreTold es) (hcatalog : catalog ⊆ es) {requests : List Request}
    (h : ∀ r ∈ requests, r.entities ⊆ es) :
    (∀ before r rest, requests = before ++ r :: rest →
      replyAfter catalog before r = replyAfter catalog [] r) ∧
    ∀ before e casing between rest,
      requests = before ++ .columns e casing :: (between ++ .columns e casing :: rest) →
      ∀ kept, objectAfter catalog before e casing = .ok kept →
        ∃ kept', objectAfter catalog (before ++ .columns e casing :: between) e casing = .ok kept' ∧
          kept'.value = kept.value ∧ (kept'.serial = kept.serial ↔ Request.clear ∉ between) := by
  constructor
  · rintro before r rest rfl
    have hr : r.entities ⊆ es := h r (by simp)
    have hexact := isExact_after htold hcatalog fun r hr => h r (List.mem_append_left _ hr)
    have hsame := (determined_answer htold hcatalog hr).ensures_eq (s := ⟨{ catalog }, []⟩)
      isExact_ofCatalog
    exact (hsame ⟨_, []⟩ hexact).2
  · rintro before e casing between rest rfl kept hkept
    have he : e ∈ es := h (.columns e casing) (by simp) (List.mem_singleton_self e)
    exact objectAfter_again htold hcatalog he (fun r hr => h r (by simp [hr]))
      (fun r hr => h r (by simp [hr])) hkept

/-- Neither a failure, which keeps names of tables, nor clearing is seen in an answer. -/
theorem answers_fresh_failing :
    let catalog := [address, person, team, member]
    let look (e : Entity) := Request.columns e .lowerUnderscore
    let early := [look member, .tables team]
    let late := [look person, .clear, look member]
    AreTold catalog ∧
      (∀ r ∈ look person :: (early ++ (late ++ [look person])), r.entities ⊆ catalog) ∧
      replyAfter catalog (look person :: (early ++ [look person, .clear])) (look member) =
        .error (.cyclic ["crm::Member", "crm::Team", "crm::Member"]) ∧
      ∃ kept kept' kept'', objectAfter catalog [] person .lowerUnderscore = .ok kept ∧
        objectAfter catalog (look person :: early) person .lowerUnderscore = .ok kept' ∧
        objectAfter catalog (look person :: (early ++ late)) person .lowerUnderscore = .ok kept'' ∧
        kept'.serial = kept.serial ∧ kept''.value = kept.value ∧ kept''.serial ≠ kept.serial := by
  intro catalog look early late
  have htold : AreTold catalog := by decide
  have hentities : ∀ r ∈ look person :: (early ++ (late ++ [look person])),
      r.entities ⊆ catalog := by
    simp [look, early, late, Request.entities, catalog]
  obtain ⟨hreplies, hobjects⟩ := answers_fresh htold (List.Subset.refl catalog) hentities
  have hfails : replyAfter catalog [] (look member) =
      .error (.cyclic ["crm::Member", "crm::Team", "crm::Member"]) := by
    dsimp only [catalog, look]
    cbv
  obtain ⟨kept, hkept⟩ : ∃ kept, objectAfter catalog [] person .lowerUnderscore = .ok kept := by
    dsimp only [catalog]
    exact ⟨_, by cbv⟩
  obtain ⟨kept', hkept', -, hsame⟩ :=
    hobjects [] person .lowerUnderscore early [.clear, look member, look person] rfl kept hkept
  obtain ⟨kept'', hkept'', hvalue, hrenewed⟩ :=
    hobjects [] person .lowerUnderscore (early ++ late) [] rfl kept hkept
  refine ⟨htold, hentities, ?_, kept, kept', kept'', hkept, hkept', hkept'', ?_, hvalue, ?_⟩
  · exact (hreplies _ _ [look person] rfl).trans hfails
  · exact hsame.mpr (by simp [early, look])
  · exact mt hrenewed.mp (by simp [late])

end Cql.Memo
