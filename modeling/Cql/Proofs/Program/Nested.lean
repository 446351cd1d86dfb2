import Cql.Proofs.Mapping.OwnLeaves
import Cql.Proofs.Program.Order
import Cql.Proofs.Program.Update
import Cql.Proofs.Statement.Names

/-!
Selects of an entity, with the columns of nested fields or without. The columns without them are
those that stop at a field of the entity itself. Where no field is nested, both selects are one.
-/

namespace Cql

open Statement (Entry)

variable {catalog : Catalog} {e : Entity} {style : Style} {w : Workshop} {excluded : List String}

namespace Statement

variable {s : Statement}

/-- The SELECT of some columns of an entity. -/
def selecting (e : Entity) (columns : List String) : Statement :=
  { operation := .select, columns := some (.names columns) : Statement }.onTarget (.entity e)

/-- A SELECT from an entity. -/
structure SelectsFrom (e : Entity) (s : Statement) : Prop where
  operation : s.operation = .select
  entity : s.entity = some e
  target : s.isTaken .target

namespace SelectsFrom

theorem enter (h : s.SelectsFrom e) {x : Entry} (htarget : x.slot ≠ .target)
    (hassignments : x.slot ≠ .assignments) : (s.enter x).SelectsFrom e where
  operation := (s.operation_enter x).trans h.operation
  entity := (entity_enter htarget hassignments).trans h.entity
  target := (isTaken_enter htarget).trans h.target

/-- A clause that a SELECT takes leaves its entity alone. -/
theorem add (h : s.SelectsFrom e) {clause : Clause} (hassignments : clause.slot ≠ .assignments) :
    Yields (s.add Eligible.ofEntity clause) (SelectsFrom e) := by
  cases hreads : clause.readsEntity with
  | false =>
    obtain ⟨x, hx⟩ := Clause.exists_entry hreads Eligible.ofEntity
    rw [s.add_eq hx]
    split
    · exact .error
    rename_i hfree
    refine .ok (h.enter ?_ ?_)
    all_goals rw [Clause.slot_entry hx]
    · rintro heq
      exact hfree (heq ▸ h.target)
    · exact hassignments
  | true =>
    cases clause <;> cases hreads
    rename_i values
    rw [Statement.add, h.entity]
    refine Yields.bind (Q := fun _ => True) (fun _ _ => trivial) fun p _ => ?_
    rw [setFilter]
    split
    · exact .error
    · exact .ok { h with }

/-- No clause of a SELECT asks the memo for anything. -/
theorem accept (h : s.SelectsFrom e) (clause : Clause) : ∃ result : Except Error Statement,
    s.accept clause = liftM result ∧ Yields result (SelectsFrom e) := by
  by_cases htaken : s.operation ∈ clause.kind.operations
  · have hslot : clause.slot ≠ .assignments := by
      rw [h.operation] at htaken
      rw [Clause.slot]
      generalize clause.kind = kind at htaken ⊢
      cases kind <;> first | decide | exact absurd htaken (by decide)
    refine ⟨s.add Eligible.ofEntity clause, ?_, h.add hslot⟩
    rw [Statement.accept, if_pos htaken, addClause_eq, Clause.eligible_of_slot hslot]
    rfl
  · refine ⟨.error (.misuse (.notTaken clause.kind s.operation)), ?_, .error⟩
    rw [Statement.accept, if_neg htaken]
    rfl

theorem foldlM_accept (h : s.SelectsFrom e) (clauses : List Clause) :
    ∃ result : Except Error Statement,
      clauses.foldlM Statement.accept s = liftM result ∧ Yields result (SelectsFrom e) := by
  induction clauses generalizing s with
  | nil => exact ⟨.ok s, rfl, .ok h⟩
  | cons clause clauses ih =>
    obtain ⟨result, haccept, hyields⟩ := h.accept clause
    rw [List.foldlM_cons, haccept]
    cases result with
    | error err => exact ⟨.error err, rfl, .error⟩
    | ok s' => exact ih (hyields s' rfl)

/-- Where the columns of the entity were looked up before, its SELECT is rendered to the same. -/
theorem pieces_eq (h : s.SelectsFrom e) {s₀ t s₁ t₁ : Logged Memo} {kept : Stamped ColumnMap}
    (hrun : (Memo.columnsOf e style.casing).run s₀ = (.ok kept, t))
    (hnames : s₀.state.SameNames s₁.state) (ht : t₁.state = t.state) :
    ((s.pieces style).run s₁).1 = ((s.pieces style).run t₁).1 := by
  let looked := (Memo.columnsOf e style.casing).run s₁
  obtain ⟨hresult, hsame⟩ : ((Memo.columnsOf e style.casing).run s₀).1 = looked.1 ∧
      ((Memo.columnsOf e style.casing).run s₀).2.state.SameNames looked.2.state :=
    Memo.readsNames_columnsOf e style.casing s₀ s₁ hnames
  rw [hrun] at hresult hsame
  have hfirst : (Memo.columnsOf e style.casing).run s₁ = (.ok kept, looked.2) :=
    Prod.ext hresult.symm rfl
  have hagain : (Memo.columnsOf e style.casing).run t₁ = (.ok kept, t₁) :=
    Memo.columnsOf_of_lookup (ht ▸ Memo.lookup_columnsOf hrun)
  have hpieces : s.pieces style = (do
      let columns ← Memo.columnsOf e style.casing
      s.selectPieces style { casing := style.casing, columns := some columns.value }) := by
    rw [pieces, h.entity, h.operation, Scope.ofEntity?, bind_assoc]
    rfl
  rw [hpieces, run_bind_ok hfirst, run_bind_ok hagain]
  refine ((s.readsNames_selectPieces _ t₁ _ ?_).1).symm
  rw [ht]
  exact hsame

theorem foldlM_pieces_eq (h : s.SelectsFrom e) (clauses : List Clause) {s₀ t s₁ t₁ : Logged Memo}
    {kept : Stamped ColumnMap} (hrun : (Memo.columnsOf e style.casing).run s₀ = (.ok kept, t))
    (hnames : s₀.state.SameNames s₁.state) (ht : t₁.state = t.state) :
    ((clauses.foldlM Statement.accept s >>= (·.pieces style)).run s₁).1 =
      ((clauses.foldlM Statement.accept s >>= (·.pieces style)).run t₁).1 := by
  obtain ⟨result, haccept, hyields⟩ := h.foldlM_accept clauses
  rw [haccept]
  cases result with
  | error err => rfl
  | ok s' => exact (hyields s' rfl).pieces_eq hrun hnames ht

end SelectsFrom

end Statement

theorem TextPool.acquire_eq (p : TextPool) (log : List Event) :
    (acquire ⟨p, log⟩).1 = p.free.headD "" := by
  rw [acquire, Step.current_bind]
  dsimp only
  split
  · rfl
  · rfl

/-- The draft of a SELECT of some columns of an entity, with the next buffer of a workshop. -/
def Draft.selecting (style : Style) (w : Workshop) (e : Entity) (columns : List String) :
    Draft where
  style
  statement := .selecting e columns
  buffer := some (w.pool.free.headD "")

namespace Origin

variable (hw : w.IsTrue catalog [e]) (style : Style) (excluded : List String)
include hw

theorem begin_selectEntity : ∃ t, (selectEntity e excluded).begin style ⟨w, []⟩ =
      (.selecting style w e (Eligible.without excluded (Eligible.ofEntity e).select), t) ∧
    w.memo.SameNames t.state.memo := by
  have heligible : (Memo.eligibleOf e ⟨w.memo, []⟩).1 = .ofEntity e :=
    (Memo.ensures_true_eligibleOf (areTold_singleton e) List.mem_cons_self
      ⟨w.memo, []⟩ hw).2
  refine ⟨_, Prod.ext ?_ rfl, Memo.sameNames_eligibleOf e ⟨w.memo, []⟩⟩
  rw [Draft.selecting, ← heligible,
    ← TextPool.acquire_eq w.pool (Memo.eligibleOf e ⟨w.memo, []⟩).2.log]
  rfl

theorem begin_selectNested {names : List String} (hnames : e.leaves catalog = .ok names) :
    ∃ log kept t u, (Memo.columnsOf e style.casing).run ⟨w.memo, log⟩ = (.ok kept, t) ∧
      (selectNested e excluded).begin style ⟨w, []⟩ =
        (.selecting style w e (Eligible.without excluded names), u) ∧ u.state.memo = t.state := by
  let acquired := TextPool.acquire ⟨w.pool, []⟩
  have hmatches : Matches (fun kept names => kept.value.logicalNames = names)
      ((Memo.columnsOf e style.casing).run ⟨w.memo, acquired.2.log⟩).1 (e.leaves catalog) :=
    (Memo.ensures_true_columnsOf (areTold_singleton e) List.mem_cons_self style.casing
      ⟨w.memo, acquired.2.log⟩ hw).2
  rw [hnames] at hmatches
  rcases hrun : (Memo.columnsOf e style.casing).run ⟨w.memo, acquired.2.log⟩ with ⟨result, t⟩
  rw [hrun] at hmatches
  cases hmatches with
  | @ok kept _ hkept =>
    let s : Statement := { operation := .select : Statement }.onTarget (.entity e)
    have hstart : start style s ⟨w, []⟩ = (⟨style, s, some acquired.1, none⟩,
        ⟨⟨w.memo, acquired.2.state⟩, acquired.2.log⟩) := rfl
    have hlook : Workshop.onMemo (Memo.columnsOf e style.casing).run
        ⟨⟨w.memo, acquired.2.state⟩, acquired.2.log⟩ =
          (.ok kept, ⟨⟨t.state, acquired.2.state⟩, t.log⟩) := by
      simp only [Workshop.onMemo, Step.within, hrun]
    refine ⟨_, kept, t, ⟨⟨t.state, acquired.2.state⟩, t.log⟩, hrun, ?_, rfl⟩
    rw [Draft.selecting, ← hkept, ← TextPool.acquire_eq w.pool []]
    exact (Step.bind_eq hstart).trans (Step.bind_eq hlook)

end Origin

namespace Program

/-- Selects an entity with its own columns. -/
def selecting (e : Entity) (excluded : List String) (clauses : List Clause) : Program where
  origin := .selectEntity e excluded
  clauses := clauses

/-- Selects an entity with its columns and those of nested fields. -/
def selectingNested (e : Entity) (excluded : List String) (clauses : List Clause) : Program where
  origin := .selectNested e excluded
  clauses := clauses

theorem without_map_key (leaves : Tour) :
    Eligible.without excluded (leaves.map (·.2.key)) =
      (leaves.filter (·.2.key ∉ excluded)).map (·.2.key) := List.filter_map

theorem statement_selecting (hw : w.IsTrue catalog [e]) :
    (selecting e excluded []).statement style w =
      .selecting e (Eligible.without excluded (Eligible.ofEntity e).select) :=
  statement_eq (P := selecting e excluded []) (areTold_singleton e) hw

theorem statement_selectingNested {names : List String} (hw : w.IsTrue catalog [e])
    (hnames : e.leaves catalog = .ok names) :
    (selectingNested e excluded []).statement style w =
      .selecting e (Eligible.without excluded names) := by
  refine (statement_eq (P := selectingNested e excluded []) (areTold_singleton e) hw).trans ?_
  rw [drafted, draftedBy, selectingNested, List.foldl_nil, Origin.opened, hnames]
  rfl

/-- Without nested fields, both selects give the same with any clauses. -/
theorem result_selecting_eq (hw : w.IsTrue catalog [e])
    (hflat : ∀ f ∈ e.fields, f.isTransient ∨ f.nested = none) (clauses : List Clause) :
    (selecting e excluded clauses).result style w =
      (selectingNested e excluded clauses).result style w := by
  obtain ⟨u, hbegin, hnames⟩ := Origin.begin_selectEntity hw style excluded
  obtain ⟨log, kept, t, u', hrun, hbegin', hmemo⟩ :=
    Origin.begin_selectNested hw style excluded (Entity.leaves_of_flat hflat)
  have hselects : (Statement.selecting e (Eligible.without excluded
      (Eligible.ofEntity e).select)).SelectsFrom e := ⟨rfl, rfl, rfl⟩
  rw [result_eq_acceptAll, result_eq_acceptAll]
  dsimp only [selecting, selectingNested]
  rw [hbegin, hbegin']
  exact congrArg (Except.map _) (hselects.foldlM_pieces_eq clauses hrun hnames hmemo)

/-- A SELECT of an entity with the columns of nested fields has those that stop at a field of the
entity itself, in their order, and others; the plain one has just those. Without nested fields, both
give the same with any clauses. -/
theorem selects_entity (hw : w.IsTrue catalog [e]) :
    (¬ e.IsCyclic catalog → ∃ leaves, e.AreLeaves catalog leaves ∧
      let shown := leaves.filter (·.2.key ∉ excluded)
      ((selectingNested e excluded []).statement style w).columns =
          some (.names (shown.map (·.2.key))) ∧
        ((selecting e excluded []).statement style w).columns =
          some (.names ((shown.filter (·.1.length = 1)).map (·.2.key)))) ∧
    ((∀ f ∈ e.fields, f.isTransient ∨ f.nested = none) → ∀ clauses,
      (selecting e excluded clauses).result style w =
        (selectingNested e excluded clauses).result style w) := by
  refine ⟨fun hacyclic => ?_, result_selecting_eq hw⟩
  obtain ⟨leaves, hleaves, hnames⟩ := Entity.exists_leaves hacyclic
  refine ⟨leaves, hleaves, ?_, ?_⟩
  · rw [statement_selectingNested hw hnames, without_map_key]
    rfl
  · rw [statement_selecting hw, ← Entity.map_key_ownLeaves, ← hleaves.filter_eq, without_map_key,
      List.filter_comm]
    rfl

/-- A parcel with the addresses of its sender, and an address with a clause. -/
theorem selects_entity_parcel :
    let catalog := [Memo.address, Memo.person]
    let w : Workshop := { memo := { catalog } }
    let nested := (selectingNested Memo.parcel ["sender.office.street"] []).statement {} w
    let flat := (selecting Memo.parcel ["sender.office.street"] []).statement {} w
    let result := (selecting Memo.address [] [.limit 3]).result {} w
    (∃ leaves, Memo.parcel.AreLeaves catalog leaves ∧
      let shown := leaves.filter (·.2.key ∉ ["sender.office.street"])
      nested.columns = some (.names (shown.map (·.2.key))) ∧
        flat.columns = some (.names ((shown.filter (·.1.length = 1)).map (·.2.key)))) ∧
      nested.columns = some (.names ["label", "sender.home.street"]) ∧
      flat.columns = some (.names ["label"]) ∧
      result = (selectingNested Memo.address [] [.limit 3]).result {} w ∧
      result.map (·.text) = .ok "SELECT street FROM address LIMIT 3" := by
  intro catalog w nested flat result
  have hnested : nested.columns = some (.names ["label", "sender.home.street"]) := by
    dsimp only [nested, w, catalog]
    cbv
  have hflat : flat.columns = some (.names ["label"]) := by
    dsimp only [flat, w, catalog]
    cbv
  have htext : result.map (·.text) = .ok "SELECT street FROM address LIMIT 3" := by
    dsimp only [result, w, catalog]
    cbv
  have hacyclic : ¬ Memo.parcel.IsCyclic catalog := by
    have hends := Entity.ends_leaves catalog Memo.parcel
    have hleaves : Memo.parcel.leaves catalog =
        .ok ["label", "sender.home.street", "sender.office.street"] := by
      dsimp only [catalog]
      cbv
    rwa [hleaves] at hends
  have hw : ∀ e, w.IsTrue catalog [e] := fun e => Memo.isTrue_ofCatalog
  exact ⟨(selects_entity (hw Memo.parcel)).1 hacyclic, hnested, hflat,
    (selects_entity (hw Memo.address)).2 (by decide) [.limit 3], htext⟩

end Program

end Cql
