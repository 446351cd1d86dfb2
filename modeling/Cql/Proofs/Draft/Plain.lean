import Cql.Proofs.Mapping.Plain
import Cql.Proofs.Recast

/-!
Drafting plain statements. A plain origin begins a plain draft and every plain clause keeps it
plain, whatever the memo has kept of plain entities before; the buffers in the pool are empty all
the time. Other styles, and other values of the same kind, leave origins and clauses plain.
-/

namespace Cql

variable {known : Entity → Prop} {admits : Value → Prop}

namespace Predicate

theorem arePlain_iff {ps : List Predicate} :
    ArePlain known admits ps ↔ ∀ p ∈ ps, p.IsPlain known admits := by
  induction ps with
  | nil => simp [ArePlain]
  | cons p ps ih => simp [ArePlain, ih]

mutual

theorem IsPlain.recast {r : Recast} (hr : ∀ v, admits v → admits (r.value v)) :
    ∀ p : Predicate, p.IsPlain known admits → (p.recast r).IsPlain known admits
  | .compare .., ⟨hcolumn, hoperator, hv⟩ => ⟨hcolumn, hoperator, hr _ hv⟩
  | .between .., ⟨hcolumn, hoperator, hlow, hhigh⟩ => ⟨hcolumn, hoperator, hr _ hlow, hr _ hhigh⟩
  | .among column operator values, ⟨hcolumn, hoperator, hvalues⟩ => by
    refine ⟨hcolumn, hoperator, fun v hv => ?_⟩
    obtain ⟨w, hw, rfl⟩ := List.mem_map.mp hv
    exact hr w (hvalues w hw)
  | .negate inner, h => IsPlain.recast hr inner h
  | .junction _ ps, h => ArePlain.recast hr ps h
  | .amongSelect _ _ selection filter, ⟨hcolumn, hoperator, hselection, hfilter⟩ =>
    ⟨hcolumn, hoperator, ⟨hselection.columns, hselection.target⟩,
      IsPlainFilter.recast hr filter hfilter⟩

theorem ArePlain.recast {r : Recast} (hr : ∀ v, admits v → admits (r.value v)) :
    ∀ ps : List Predicate, ArePlain known admits ps → ArePlain known admits (recastParts r ps)
  | [], _ => trivial
  | p :: ps, ⟨hp, hps⟩ => ⟨IsPlain.recast hr p hp, ArePlain.recast hr ps hps⟩

theorem IsPlainFilter.recast {r : Recast} (hr : ∀ v, admits v → admits (r.value v)) :
    ∀ filter : Option Predicate, IsPlainFilter known admits filter →
      IsPlainFilter known admits (recastFilter r filter)
  | none, _ => trivial
  | some p, h => IsPlain.recast hr p h

end

end Predicate

theorem Row.admits_recast {r : Recast} (hr : ∀ v, admits v → admits (r.value v)) (row : Row)
    (h : ∀ entry ∈ row.entries, admits entry.2) :
    ∀ entry ∈ (row.recast r).entries, admits entry.2 := by
  intro entry hentry
  obtain ⟨own, hown, rfl⟩ := List.mem_map.mp hentry
  exact hr _ (h own hown)

theorem Row.IsPlain.recast {r : Recast} (hr : ∀ v, admits v → admits (r.value v)) {row : Row}
    (h : row.IsPlain admits) : (row.recast r).IsPlain admits := by
  refine ⟨fun entry hentry => ?_, row.admits_recast hr h.values⟩
  obtain ⟨own, hown, rfl⟩ := List.mem_map.mp hentry
  exact h.names own hown

theorem Clause.IsPlain.recast {r : Recast} (hr : ∀ v, admits v → admits (r.value v))
    {clause : Clause} (h : clause.IsPlain known admits) :
    (clause.recast r).IsPlain known admits := by
  cases clause with
  | setValue column v => exact ⟨h.1, hr v h.2⟩
  | setRow row => exact Row.IsPlain.recast hr h
  | setEntity e snapshot excluded => exact ⟨h.1, snapshot.admits_recast hr h.2⟩
  | filter p | guard p => exact Predicate.IsPlain.recast hr p h
  | filterKeys values =>
    intro v hv
    obtain ⟨own, hown, rfl⟩ := List.mem_map.mp hv
    exact hr own (h own hown)
  | into | source | setHoles | setRaw | filterRaw | order | orderRaw | limit | allowFiltering
  | lifetime | writeTime | guardRaw | ifExists | ifNotExists => exact h

theorem Origin.IsPlain.recast {r : Recast} (hr : ∀ v, admits v → admits (r.value v))
    {origin : Origin} (h : origin.IsPlain known admits) :
    (origin.recast r).IsPlain known admits := by
  cases origin with
  | insertRow row => exact Row.IsPlain.recast hr h
  | insertRows rows =>
    intro row hrow
    obtain ⟨own, hown, rfl⟩ := List.mem_map.mp hrow
    exact (h own hown).recast hr
  | insertEntity e snapshot excluded | updateEntity e snapshot excluded =>
    exact ⟨h.1, snapshot.admits_recast hr h.2⟩
  | insertEntities e snapshots excluded =>
    refine ⟨h.1, fun snapshot hsnapshot => ?_⟩
    obtain ⟨own, hown, rfl⟩ := List.mem_map.mp hsnapshot
    exact own.admits_recast hr (h.2 own hown)
  | insert | select | selectAliased | selectWith | selectEntity | selectNested | update | updateType
  | deleteFrom | deleteEntity | delete => exact h

theorem Entity.IsPlain.isPlain_matchKeys {e : Entity} (h : e.IsPlain) {values : List Value}
    (hvalues : ∀ v ∈ values, admits v) :
    Yields (e.matchKeys values) (Predicate.IsPlain known admits) := by
  have hparts : ∀ p ∈ e.keys.zipWith (fun key value => Predicate.equal key.name value) values,
      p.IsPlain known admits := by
    intro p hp
    obtain ⟨i, hi, rfl⟩ := List.getElem_of_mem hp
    rw [List.getElem_zipWith]
    refine ⟨.inl (h.fields _ ?_).name, by simp [standardOperators], hvalues _ (List.getElem_mem _)⟩
    exact List.mem_of_mem_filter (List.getElem_mem _)
  rw [matchKeys]
  split
  · exact .error
  split
  · exact .error
  split
  · rename_i single hsingle
    exact .ok (hparts single (by simp [hsingle]))
  · exact .ok (Predicate.arePlain_iff.mpr hparts)

namespace Statement

variable {s : Statement}

theorem IsPlain.assign (h : s.IsPlain known admits) {assignments : List Assignment}
    (hassignments : ∀ a ∈ assignments, a.IsPlain admits) :
    (s.assign assignments).IsPlain known admits :=
  { h with
    assignments := fun a ha => (List.mem_append.mp ha).elim (h.assignments a) (hassignments a) }

theorem IsPlain.onTarget (h : s.IsPlain known admits) {target : Target}
    (htarget : target.IsPlain known) :
    (s.onTarget target).IsPlain known admits := by
  cases target with
  | table name => exact { h with target := by rintro _ ⟨⟩; exact htarget }
  | entity e =>
    exact { h with
      target := by rintro _ ⟨⟩; exact htarget
      entity := by rintro _ ⟨⟩; exact htarget }

theorem IsPlain.setTarget (h : s.IsPlain known admits) (clause : ClauseKind) {target : Target}
    (htarget : target.IsPlain known) :
    Yields (s.setTarget clause target) (IsPlain known admits) := by
  rw [Statement.setTarget]
  split
  · exact .error
  · exact .ok (h.onTarget htarget)

theorem IsPlain.setFilter (h : s.IsPlain known admits) {filter : Filter}
    (hfilter : filter.IsPlain known admits) :
    Yields (s.setFilter filter) (IsPlain known admits) := by
  rw [Statement.setFilter]
  split
  · exact .error
  · exact .ok { h with filter := by simpa using hfilter }

theorem IsPlain.setGuard (h : s.IsPlain known admits) {guard : Guard}
    (hguard : guard.IsPlain known admits) :
    Yields (s.setGuard guard) (IsPlain known admits) := by
  rw [Statement.setGuard]
  split
  · exact .error
  · exact .ok { h with guard := by simpa using hguard }

theorem isPlain_rowAssignments {row : Row} (h : row.IsPlain admits) :
    ∀ a ∈ rowAssignments row, a.IsPlain admits := by
  intro a ha
  obtain ⟨entry, hentry, rfl⟩ := List.mem_map.mp ha
  exact ⟨h.names entry hentry, h.values entry hentry⟩

theorem isPlain_entityAssignments (e : Entity) {eligible : Eligible} (heligible : eligible.IsPlain)
    {snapshot : Row} (hsnapshot : ∀ entry ∈ snapshot.entries, admits entry.2)
    (excluded : List String) :
    ∀ a ∈ entityAssignments e eligible snapshot excluded, a.IsPlain admits := by
  intro a ha
  obtain ⟨name, hname, hvalue⟩ := List.mem_filterMap.mp ha
  obtain ⟨v, hv, rfl⟩ := Option.map_eq_some_iff.mp hvalue
  have hupdate : name ∈ eligible.update := List.mem_of_mem_filter (List.mem_of_mem_filter hname)
  exact ⟨.inl (heligible.update name hupdate), hsnapshot _ (mem_of_lookup hv)⟩

/-- A plain clause keeps a statement plain. -/
theorem IsPlain.add (h : s.IsPlain known admits) (hknown : ∀ e, known e → e.IsPlain)
    {eligibleOf : Entity → Eligible} (heligible : ∀ e, known e → (eligibleOf e).IsPlain)
    {clause : Clause} (hclause : clause.IsPlain known admits) :
    Yields (s.add eligibleOf clause) (IsPlain known admits) := by
  cases clause with
  | into target => exact h.setTarget .into hclause
  | source target => exact h.setTarget .source hclause
  | setHoles columns =>
    refine .ok (h.assign fun a ha => ?_)
    obtain ⟨c, hc, rfl⟩ := List.mem_map.mp ha
    exact hclause c hc
  | setValue column v =>
    refine .ok (h.assign fun a ha => ?_)
    obtain rfl : a = .value column v := by simpa using ha
    exact hclause
  | setRow row => exact .ok (h.assign (isPlain_rowAssignments hclause))
  | setEntity e snapshot excluded =>
    have hassignments := isPlain_entityAssignments e (heligible e hclause.1) hclause.2 excluded
    have hentity : ∀ own ∈ s.entity <|> some e, known own := by
      intro own hown
      cases hs : s.entity with
      | none =>
        obtain rfl : e = own := by simpa [hs] using hown
        exact hclause.1
      | some kept =>
        obtain rfl : kept = own := by simpa [hs] using hown
        exact h.entity kept hs
    have hplain : IsPlain known admits { s with entity := s.entity <|> some e } :=
      { h with entity := hentity }
    exact .ok (hplain.assign hassignments)
  | setRaw | filterRaw | orderRaw | guardRaw => exact hclause.elim
  | filter p => exact h.setFilter hclause
  | filterKeys values =>
    rw [Statement.add]
    cases hs : s.entity with
    | none => exact .error
    | some e =>
      have hkeys : Yields (e.matchKeys values) (Predicate.IsPlain known admits) :=
        (hknown e (h.entity e hs)).isPlain_matchKeys hclause
      exact hkeys.bind fun p hp => h.setFilter hp
  | order columns =>
    refine .ok { h with order := fun item hitem => ?_ }
    obtain hitem | hitem := List.mem_append.mp hitem
    · exact h.order item hitem
    · obtain ⟨c, hc, rfl⟩ := List.mem_map.mp hitem
      exact hclause c hc
  | guard p => exact h.setGuard hclause
  | ifExists => exact h.setGuard hclause
  | limit | allowFiltering | lifetime | writeTime | ifNotExists =>
    exact .ok ⟨h.target, h.entity, h.columns, h.modifier, h.assignments, h.filter, h.guard, h.order⟩

theorem IsPlain.ensures_addClause (h : s.IsPlain known admits) {clause : Clause}
    (hclause : clause.IsPlain known admits) :
    Step.Ensures (Memo.IsPlain known) (s.addClause clause) fun result =>
      Yields result (IsPlain known admits) := by
  refine .given fun m hm => ?_
  have hknown := hm.catalog.plain
  simp only [addClause]
  split
  · exact (Memo.ensures_eligibleOf hclause.1).bind fun eligible heligible =>
      .pure (h.add hknown (fun _ _ => heligible) hclause)
  · have heligible := fun e he => Eligible.isPlain_ofEntity (hknown e he)
    exact .pure (h.add hknown heligible hclause)

end Statement

structure Draft.IsPlain (known : Entity → Prop) (admits : Value → Prop) (d : Draft) : Prop where
  statement : d.statement.IsPlain known admits
  buffer : ∀ text ∈ d.buffer, text = ""

def TextPool.IsPlain (pool : TextPool) : Prop := ∀ text ∈ pool.free, text = ""

structure Workshop.IsPlain (known : Entity → Prop) (w : Workshop) : Prop where
  memo : w.memo.IsPlain known
  pool : w.pool.IsPlain

theorem TextPool.ensures_acquire : Step.Ensures IsPlain acquire (· = "") := by
  refine Step.Ensures.current.bind fun pool hpool => ?_
  have htail : ∀ text ∈ pool.free.tail, text = "" :=
    fun text h => hpool text (List.mem_of_mem_tail h)
  have hhead : pool.free.headD "" = "" := by
    cases hfree : pool.free with
    | nil => rfl
    | cons text texts => exact hpool text (by simp [hfree])
  refine (Step.Ensures.put htail).bind fun _ _ => ?_
  dsimp only
  split
  · exact Step.Ensures.note.bind fun _ _ => .pure hhead
  · exact .pure hhead

namespace Workshop

variable {α : Type} {Q : α → Prop}

/-- A workshop in which nothing is kept yet. -/
theorem isPlain_of_catalog {catalog : Catalog} (h : catalog.Covers known)
    (config : TextPool.Config) : IsPlain known { memo := { catalog }, pool := { config } } :=
  ⟨Memo.isPlain_of_catalog h, by simp [TextPool.IsPlain]⟩

theorem ensures_onMemo {step : Step Memo α} (h : Step.Ensures (Memo.IsPlain known) step Q) :
    Step.Ensures (IsPlain known) (onMemo step) Q :=
  h.within (fun _ hw => hw.memo) fun _ _ hm hw => ⟨hm, hw.pool⟩

theorem ensures_onPool {step : Step TextPool α} (h : Step.Ensures TextPool.IsPlain step Q) :
    Step.Ensures (IsPlain known) (onPool step) Q :=
  h.within (fun _ hw => hw.pool) fun _ _ hp hw => ⟨hw.memo, hp⟩

end Workshop

namespace Draft

variable {d : Draft}

theorem IsPlain.ensures_apply (h : d.IsPlain known admits) {clause : Clause}
    (hclause : clause.IsPlain known admits) :
    Step.Ensures (Memo.IsPlain known) (d.apply clause) (IsPlain known admits) := by
  rw [apply]
  split
  · exact .pure h
  split
  · refine (h.statement.ensures_addClause hclause).bind fun result hresult => .pure ?_
    cases result with
    | ok s => exact ⟨hresult s rfl, h.buffer⟩
    | error e => exact ⟨h.statement, h.buffer⟩
  · exact .pure ⟨h.statement, h.buffer⟩

end Draft

namespace Origin

theorem ensures_start (style : Style) {s : Statement} (h : s.IsPlain known admits) :
    Step.Ensures (Workshop.IsPlain known) (start style s) (Draft.IsPlain known admits) := by
  refine (Workshop.ensures_onPool TextPool.ensures_acquire).bind fun text htext => .pure ⟨h, ?_⟩
  rintro _ ⟨⟩
  exact htext

theorem ensures_insertable {e : Entity} (he : known e) (excluded : List String) {snapshot : Row}
    (hsnapshot : ∀ entry ∈ snapshot.entries, admits entry.2) :
    Step.Ensures (Workshop.IsPlain known) (insertable e excluded snapshot)
      (Row.IsPlain admits) := by
  refine (Workshop.ensures_onMemo (Memo.ensures_eligibleOf he)).bind fun eligible heligible =>
    .pure ⟨fun entry hentry => ?_, fun entry hentry => ?_⟩
  · obtain ⟨-, hkept⟩ := List.mem_filter.mp hentry
    have hname : entry.1 ∈ eligible.insert := List.mem_of_mem_filter (of_decide_eq_true hkept)
    exact .inl (heligible.insert _ hname)
  · exact hsnapshot entry (List.mem_of_mem_filter hentry)

theorem isPlain_keyValues (e : Entity) {snapshot : Row}
    (hsnapshot : ∀ entry ∈ snapshot.entries, admits entry.2) :
    Yields (keyValues e snapshot) fun values => ∀ v ∈ values, admits v := by
  refine yields_mapM_of_forall fun key _ => ?_
  split
  · rename_i v hv
    exact .ok (hsnapshot _ (mem_of_lookup hv))
  · exact .error

/-- A plain origin begins a plain draft. -/
theorem ensures_begin (style : Style) {origin : Origin} (h : origin.IsPlain known admits) :
    Step.Ensures (Workshop.IsPlain known) (origin.begin style) (Draft.IsPlain known admits) := by
  have hempty : ∀ operation, Statement.IsPlain known admits { operation } := fun operation =>
    ⟨by simp, by simp, by simp, by simp, by simp, by simp, by simp, by simp⟩
  have hcolumns : ∀ operation (columns : Columns), columns.IsPlain admits →
      Statement.IsPlain known admits { operation, columns := some columns } :=
    fun operation columns h =>
      { hempty operation with columns := by rintro _ ⟨⟩; exact h }
  cases origin with
  | insert columns => exact ensures_start style (hcolumns .insert _ h)
  | insertRow row => exact ensures_start style (hcolumns .insert _ h)
  | insertRows rows => exact ensures_start style (hcolumns .insert _ h)
  | insertEntity e snapshot excluded =>
    refine (ensures_insertable h.1 excluded h.2).bind fun row hrow => ?_
    refine ensures_start style { hcolumns .insert (.row row) hrow with entity := ?_ }
    rintro _ ⟨⟩
    exact h.1
  | insertEntities e snapshots excluded =>
    refine (Step.Ensures.mapM fun snapshot hsnapshot =>
      ensures_insertable h.1 excluded (h.2 snapshot hsnapshot)).bind fun rows hrows => ?_
    refine ensures_start style { hcolumns .insert (.rows rows) hrows with entity := ?_ }
    rintro _ ⟨⟩
    exact h.1
  | select columns => exact ensures_start style (hcolumns .select _ h)
  | selectAliased columns => exact ensures_start style (hcolumns .select _ h)
  | selectWith modifier columns =>
    refine ensures_start style { hcolumns .select (.names columns) h.2 with modifier := ?_ }
    rintro _ ⟨⟩
    exact h.1
  | selectEntity e excluded =>
    have htarget : (Target.entity e).IsPlain known := h
    refine (Workshop.ensures_onMemo (Memo.ensures_eligibleOf h)).bind fun eligible heligible => ?_
    have hnames : ∀ c ∈ Eligible.without excluded eligible.select, IsColumn c :=
      fun c hc => .inl (heligible.select c (List.mem_of_mem_filter hc))
    exact ensures_start style ((hcolumns .select (.names _) hnames).onTarget htarget)
  | selectNested e excluded =>
    have htarget : (Target.entity e).IsPlain known := h
    refine (ensures_start style ((hempty .select).onTarget htarget)).bind fun d hd => ?_
    refine (Workshop.ensures_onMemo (Memo.ensures_columnsOf h style.casing)).bind
      fun result hresult => ?_
    cases result with
    | error err => exact .pure ⟨hd.statement, hd.buffer⟩
    | ok columns =>
      refine .pure ⟨{ hd.statement with columns := ?_ }, hd.buffer⟩
      rintro _ ⟨⟩ c hc
      obtain ⟨entry, hentry, rfl⟩ := List.mem_map.mp (List.mem_of_mem_filter hc)
      exact .inl ((hresult columns rfl).logical entry hentry)
  | update table => exact ensures_start style ((hempty .update).onTarget h)
  | updateType e => exact ensures_start style ((hempty .update).onTarget h)
  | updateEntity e snapshot excluded =>
    have htarget : (Target.entity e).IsPlain known := h.1
    have hsnapshot : (Clause.setEntity e snapshot excluded).IsPlain known admits := h
    refine .given fun w hw => ?_
    have hplain : e.IsPlain := hw.memo.catalog.plain e h.1
    refine (ensures_start style ((hempty .update).onTarget htarget)).bind fun d hd => ?_
    refine (Workshop.ensures_onMemo (hd.ensures_apply hsnapshot)).bind fun d hd => ?_
    have hkeys : Yields (keyValues e snapshot >>= e.matchKeys) (Predicate.IsPlain known admits) :=
      (isPlain_keyValues e h.2).bind fun values hvalues => hplain.isPlain_matchKeys hvalues
    split
    · exact .pure ⟨hd.statement, hd.buffer⟩
    · rename_i p hp
      exact Workshop.ensures_onMemo (hd.ensures_apply (hkeys p hp))
  | deleteFrom table => exact ensures_start style ((hempty .delete).onTarget h)
  | deleteEntity e => exact ensures_start style ((hempty .delete).onTarget h)
  | delete columns => exact ensures_start style (hcolumns .delete _ h)

end Origin

end Cql
