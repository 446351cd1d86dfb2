import Cql.Proofs.Draft.Described

/-!
The same calls on two workshops whose memos answer alike. In any two styles they draft the same
statement or make the same first mistake. The statement is the one that is drafted by the properties
that the memo gives in the end.
-/

namespace Cql

variable {es : List Entity} {style style' : Style}

/-- An open draft in one style and in another, each with a buffer of its own. -/
def Draft.InStyles (style style' : Style) (d d' : Draft) : Prop :=
  ∃ (drawn : Draft) (buffer buffer' : String),
    d = drawn.within style buffer ∧ d' = drawn.within style' buffer'

def Workshop.Alike (es : List Entity) (casing casing' : Casing) (w w' : Workshop) : Prop :=
  w.memo.Alike es casing casing' w'.memo

namespace Workshop

variable {α β : Type} {casing casing' : Casing} {R : α → β → Prop}

theorem agree_onMemo {step : Step Memo α} {step' : Step Memo β}
    (h : Step.Agree (Memo.Alike es casing casing') step step' R) :
    Step.Agree (Alike es casing casing') (onMemo step) (onMemo step') R :=
  h.within (fun _ _ hw => hw) fun _ _ _ _ hm _ => hm

theorem agree_onPool (step : Step TextPool α) (step' : Step TextPool β) :
    Step.Agree (Alike es casing casing') (onPool step) (onPool step') fun _ _ => True :=
  fun _ _ hw => ⟨hw, trivial⟩

end Workshop

namespace Draft

theorem InStyles.fail {d d' : Draft} (h : InStyles style style' d d') (e : Error) :
    InStyles style style' (d.fail e) (d'.fail e) := by
  obtain ⟨drawn, buffer, buffer', rfl, rfl⟩ := h
  exact ⟨drawn.fail e, buffer, buffer', rfl, rfl⟩

theorem agree_apply {d d' : Draft} (hd : InStyles style style' d d') {clause : Clause}
    (h : clause.entities ⊆ es) {casing casing' : Casing} :
    Step.Agree (Memo.Alike es casing casing') (d.apply clause) (d'.apply clause)
      (InStyles style style') := by
  obtain ⟨drawn, buffer, buffer', rfl, rfl⟩ := hd
  have hadd : Step.Agree (Memo.Alike es casing casing') (drawn.statement.addClause clause)
      (drawn.statement.addClause clause) (· = ·) := by
    simp only [Statement.addClause]
    split
    · rename_i e snapshot excluded
      have he : e ∈ es := h (by simp [Clause.entities])
      exact (Memo.agree_eligibleOf he).bind fun names names' hnames => .pure (by rw [hnames])
    · exact .pure rfl
  have hopen : ∀ style buffer, (drawn.within style buffer).isClosed = false := fun _ _ => rfl
  have hfault : ∀ style buffer, (drawn.within style buffer).fault = drawn.fault := fun _ _ => rfl
  have hstatement : ∀ style buffer, (drawn.within style buffer).statement = drawn.statement :=
    fun _ _ => rfl
  simp only [apply, hopen, hfault, hstatement, Bool.false_eq_true, or_false]
  split
  · exact .pure ⟨drawn, buffer, buffer', rfl, rfl⟩
  split
  · refine hadd.bind fun result result' hresult => .pure ?_
    rw [← hresult, within_record, within_record]
    exact ⟨drawn.record result, buffer, buffer', rfl, rfl⟩
  · exact .pure ⟨drawn.fail _, buffer, buffer', rfl, rfl⟩

end Draft

namespace Origin

open Draft (InStyles)

theorem agree_blank (s : Statement) :
    Step.Agree (Workshop.Alike es style.casing style'.casing) (start style s) (start style' s)
      (InStyles style style') :=
  (Workshop.agree_onPool _ _).bind fun buffer buffer' _ =>
    .pure ⟨.blank s, buffer, buffer', rfl, rfl⟩

theorem agree_insertable {e : Entity} (he : e ∈ es) (excluded : List String) (snapshot : Row) :
    Step.Agree (Workshop.Alike es style.casing style'.casing) (insertable e excluded snapshot)
      (insertable e excluded snapshot) (· = ·) :=
  (Workshop.agree_onMemo (Memo.agree_eligibleOf he)).bind fun names names' hnames =>
    .pure (by rw [hnames])

theorem agree_begin {origin : Origin} (h : origin.entities ⊆ es) :
    Step.Agree (Workshop.Alike es style.casing style'.casing) (origin.begin style)
      (origin.begin style') (InStyles style style') := by
  cases origin with
  | insert | insertRow | insertRows | select | selectAliased | selectWith | update | updateType
  | deleteFrom | deleteEntity | delete => exact agree_blank _
  | insertEntity e snapshot excluded =>
    have he : e ∈ es := h (by simp [entities])
    refine (agree_insertable he excluded snapshot).bind fun row row' hrow => ?_
    rw [hrow]
    exact agree_blank _
  | insertEntities e snapshots excluded =>
    have he : e ∈ es := h (by simp [entities])
    refine (Step.Agree.mapM fun snapshot _ => agree_insertable he excluded snapshot).bind
      fun rows rows' hrows => ?_
    rw [hrows]
    exact agree_blank _
  | selectEntity e excluded =>
    have he : e ∈ es := h (by simp [entities])
    refine (Workshop.agree_onMemo (Memo.agree_eligibleOf he)).bind fun names names' hnames => ?_
    rw [hnames]
    exact agree_blank _
  | selectNested e excluded =>
    have he : e ∈ es := h (by simp [entities])
    refine (agree_blank _).bind fun d d' hd => ?_
    refine (Workshop.agree_onMemo (Memo.agree_columnsOf he)).bind fun result result' hresult => ?_
    cases hresult with
    | error err => exact .pure (hd.fail err)
    | ok hnames =>
      obtain ⟨drawn, buffer, buffer', rfl, rfl⟩ := hd
      dsimp only
      rw [hnames]
      exact .pure ⟨{ drawn with statement := _ }, buffer, buffer', rfl, rfl⟩
  | updateEntity e snapshot excluded =>
    have hclause : (Clause.setEntity e snapshot excluded).entities ⊆ es := h
    refine (agree_blank _).bind fun d d' hd => ?_
    refine (Workshop.agree_onMemo (Draft.agree_apply hd hclause)).bind fun d d' hd => ?_
    cases hp : keyValues e snapshot >>= e.matchKeys with
    | error err => exact .pure (hd.fail err)
    | ok p =>
      have hfilter : (Clause.filter p).entities ⊆ es := by
        rw [Clause.entities, entities_keys e snapshot p hp]
        exact List.nil_subset es
      exact Workshop.agree_onMemo (Draft.agree_apply hd hfilter)

end Origin

section Recalls

variable {α : Type} {I : Memo → Prop} {Q : α → Prop}

theorem Workshop.recalls_onMemo {step : Step Memo α} (h : Step.Recalls I step Q) :
    Step.Recalls (fun w : Workshop => I w.memo) (onMemo step) Q :=
  fun w hw => h ⟨w.state.memo, w.log⟩ hw

theorem Workshop.recalls_onPool (step : Step TextPool α) :
    Step.Recalls (fun w : Workshop => I w.memo) (onPool step) fun _ => True :=
  fun _ hw => ⟨hw, trivial⟩

variable (last : Memo)

theorem Draft.recalls_take (d : Draft) (clause : Clause) :
    Step.Recalls (Memo.Precedes · last) (d.apply clause) fun d' =>
      d.isClosed = false → d' = d.take last.propertiesOf clause := by
  have hadd : Step.Recalls (Memo.Precedes · last) (d.statement.addClause clause)
      (· = d.statement.add last.propertiesOf clause) := by
    cases clause with
    | setEntity e snapshot excluded =>
      refine (Memo.recalls_eligibleOf last e).bind fun names => .pure fun hnames => ?_
      rw [hnames]
      rfl
    | _ => exact .pure rfl
  cases hclosed : d.isClosed with
  | true =>
    have happly : d.apply clause = pure d := if_pos (.inr hclosed)
    rw [happly]
    exact .pure fun hopen => by cases hopen
  | false =>
    rw [apply, take, hclosed]
    simp only [Bool.false_eq_true, or_false]
    split
    · exact .pure fun _ => rfl
    split
    · refine hadd.bind fun result => .pure fun hresult _ => ?_
      rw [hresult]
    · exact .pure fun _ => rfl

namespace Origin

theorem recalls_blank (style : Style) (s : Statement) :
    Step.Recalls (fun w : Workshop => I w.memo) (start style s) fun d =>
      ∃ buffer, d = (Draft.blank s).within style buffer :=
  (Workshop.recalls_onPool _).bind fun buffer => .pure fun _ => ⟨buffer, rfl⟩

theorem recalls_inserted (e : Entity) (excluded : List String) (snapshot : Row) :
    Step.Recalls (fun w : Workshop => w.memo.Precedes last) (insertable e excluded snapshot)
      (· = inserted last.propertiesOf e excluded snapshot) := by
  refine (Workshop.recalls_onMemo (Memo.recalls_eligibleOf last e)).bind fun names =>
    .pure fun hnames => ?_
  rw [hnames, inserted]

/-- The draft that an origin begins is the one by the properties that the memo gives in the end. -/
theorem recalls_opened (style : Style) (origin : Origin) :
    Step.Recalls (fun w : Workshop => w.memo.Precedes last) (origin.begin style) fun d =>
      ∃ leavesOf buffer, d = (origin.opened last.propertiesOf leavesOf).within style buffer := by
  have hblank : ∀ s, Step.Recalls (fun w : Workshop => w.memo.Precedes last) (start style s)
      fun d => ∃ buffer, d = (Draft.blank s).within style buffer :=
    recalls_blank (I := (Memo.Precedes · last)) style
  -- Most origins do not ask for names.
  have hopened : ∀ {s : Statement} {d : Draft},
      origin.opened last.propertiesOf (fun _ => .ok []) = .blank s →
      (∃ buffer, d = (Draft.blank s).within style buffer) →
      ∃ leavesOf buffer, d = (origin.opened last.propertiesOf leavesOf).within style buffer := by
    rintro s d hs ⟨buffer, hd⟩
    exact ⟨fun _ => .ok [], buffer, hs ▸ hd⟩
  cases origin with
  | insert | insertRow | insertRows | select | selectAliased | selectWith | update | updateType
  | deleteFrom | deleteEntity | delete => exact (hblank _).mono fun d => hopened rfl
  | insertEntity e snapshot excluded =>
    refine (recalls_inserted last e excluded snapshot).bind fun row => ?_
    exact (hblank _).mono fun d hd hrow => hopened (by rw [hrow]; rfl) hd
  | insertEntities e snapshots excluded =>
    refine (Step.Recalls.mapM_eq (recalls_inserted last e excluded) snapshots).bind fun rows => ?_
    exact (hblank _).mono fun d hd hrows => hopened (by rw [hrows]; rfl) hd
  | selectEntity e excluded =>
    refine (Workshop.recalls_onMemo (Memo.recalls_eligibleOf last e)).bind fun names => ?_
    exact (hblank _).mono fun d hd hnames => hopened (by rw [hnames]; rfl) hd
  | selectNested e excluded =>
    refine (hblank _).bind fun d => ?_
    refine (Workshop.recalls_onMemo (Memo.recalls_columnsOf last e style.casing)).bind
      fun result => ?_
    cases result with
    | error err =>
      refine .pure fun _ ⟨buffer, hd⟩ => ⟨fun _ => .error err, buffer, ?_⟩
      rw [hd]
      rfl
    | ok kept =>
      refine .pure fun _ ⟨buffer, hd⟩ => ⟨fun _ => .ok kept.value.logicalNames, buffer, ?_⟩
      rw [hd]
      rfl
  | updateEntity e snapshot excluded =>
    refine (hblank _).bind fun d => ?_
    refine (Workshop.recalls_onMemo (d.recalls_take last (.setEntity e snapshot excluded))).bind
      fun d' => ?_
    cases hp : keyValues e snapshot >>= e.matchKeys with
    | error err =>
      refine .pure fun hset ⟨buffer, hd⟩ => ⟨fun _ => .ok [], buffer, ?_⟩
      rw [hset (by rw [hd]; rfl), hd, Draft.within_take, opened]
      simp only [hp]
      rfl
    | ok p =>
      refine (Workshop.recalls_onMemo (d'.recalls_take last (.filter p))).mono
        fun d'' hfilter hset ⟨buffer, hd⟩ => ⟨fun _ => .ok [], buffer, ?_⟩
      have hd' := hset (by rw [hd]; rfl)
      rw [hd, Draft.within_take] at hd'
      rw [hfilter (by rw [hd']; rfl), hd', Draft.within_take, opened]
      simp only [hp]

end Origin

end Recalls

end Cql
