import Cql.Proofs.Draft.Taking
import Cql.Proofs.Statement.Mistakes

/-!
Drafting by descriptions of entities, their properties and their names, without a memo. With a memo
that is true to the entities of a draft, this is the drafting that goes on: the memo, the pool and
the style have no part in the statement of the draft or in its first mistake.
-/

namespace Cql

/-- The entities that a clause brings to a statement. -/
def Clause.entities : Clause → List Entity
  | .into target | .source target => target.entities
  | .setEntity e _ _ => [e]
  | .filter p | .guard p => p.entities
  | _ => []

def Origin.entities : Origin → List Entity
  | .insertEntity e _ _ | .insertEntities e _ _ | .selectEntity e _ | .selectNested e _
  | .updateType e | .updateEntity e _ _ | .deleteEntity e => [e]
  | _ => []

/-- A predicate on the keys compares the values with them, in order, and reads no other entity. -/
theorem Entity.yields_matchKeys (e : Entity) (values : List Value) :
    Yields (e.matchKeys values) fun p => p.entities = [] ∧ p.operands = values := by
  have hparts : ∀ (keys : List Field) (values : List Value), values.length ≤ keys.length →
      let parts := keys.zipWith (fun key value => Predicate.equal key.name value) values
      Predicate.partEntities parts = [] ∧ parts.flatMap Predicate.operands = values := by
    intro keys
    induction keys with
    | nil =>
      intro values hlength
      obtain rfl : values = [] := List.eq_nil_of_length_eq_zero (Nat.le_zero.mp hlength)
      exact ⟨rfl, rfl⟩
    | cons key keys ih =>
      intro values hlength
      cases values with
      | nil => exact ⟨rfl, rfl⟩
      | cons v values =>
        obtain ⟨hentities, hoperands⟩ := ih values (Nat.le_of_succ_le_succ hlength)
        exact ⟨hentities, congrArg (v :: ·) hoperands⟩
  rw [matchKeys]
  split
  · exact .error
  split
  · exact .error
  rename_i hlength
  obtain ⟨hentities, hoperands⟩ := hparts e.keys values (by omega)
  split
  · rename_i single hsingle
    rw [hsingle] at hentities hoperands
    simp [Predicate.partEntities] at hentities hoperands
    exact .ok ⟨hentities, hoperands⟩
  · exact .ok ⟨hentities, (Predicate.operands_junction _ _).trans hoperands⟩

/-- A predicate on the keys of a snapshot reads no entity. -/
theorem Origin.entities_keys (e : Entity) (snapshot : Row) :
    Yields (keyValues e snapshot >>= e.matchKeys) fun p => p.entities = [] :=
  Yields.bind (Q := fun _ => True) (fun _ _ => trivial) fun values _ =>
    (e.yields_matchKeys values).mono fun _ hp => hp.1

namespace Draft

/-- An open draft of a statement. -/
def blank (s : Statement) : Draft := { style := {}, statement := s, buffer := some "" }

/-- The draft in a style, with something in its buffer. -/
def within (d : Draft) (style : Style) (buffer : String) : Draft :=
  { d with style, buffer := some buffer }

/-- The draft with a clause, where the properties of entities are known. -/
def take (eligibleOf : Entity → Eligible) (d : Draft) (clause : Clause) : Draft :=
  if d.fault.isSome then d
  else if d.statement.operation ∈ clause.kind.operations then
    d.record (d.statement.add eligibleOf clause)
  else d.fail (.misuse (.notTaken clause.kind d.statement.operation))

theorem within_fail (d : Draft) (style : Style) (buffer : String) (e : Error) :
    (d.within style buffer).fail e = (d.fail e).within style buffer := rfl

theorem within_record (d : Draft) (style : Style) (buffer : String)
    (result : Except Error Statement) :
    (d.within style buffer).record result = (d.record result).within style buffer := by
  cases result <;> rfl

theorem within_take (eligibleOf : Entity → Eligible) (d : Draft) (style : Style) (buffer : String)
    (clause : Clause) :
    (d.within style buffer).take eligibleOf clause =
      (d.take eligibleOf clause).within style buffer := by
  have hfault : (d.within style buffer).fault = d.fault := rfl
  have hstatement : (d.within style buffer).statement = d.statement := rfl
  rw [take, take, hfault, hstatement, within_record, within_fail]
  split
  · rfl
  split
  · rfl
  · rfl

end Draft

namespace Origin

section Opened

variable (eligibleOf : Entity → Eligible) (leavesOf : Entity → Except Error (List String))

/-- The entries of a snapshot that an INSERT writes. -/
def inserted (e : Entity) (excluded : List String) (snapshot : Row) : Row :=
  snapshot.restrict (· ∈ Eligible.without excluded (eligibleOf e).insert)

/-- The draft that an origin begins, where the properties of entities and their logical names are
known. -/
def opened : Origin → Draft
  | .insert columns => .blank { operation := .insert, columns := some (.names columns) }
  | .insertRow row => .blank { operation := .insert, columns := some (.row row) }
  | .insertRows rows => .blank { operation := .insert, columns := some (.rows rows) }
  | .insertEntity e snapshot excluded => .blank
    { operation := .insert, entity := some e,
      columns := some (.row (inserted eligibleOf e excluded snapshot)) }
  | .insertEntities e snapshots excluded => .blank
    { operation := .insert, entity := some e,
      columns := some (.rows (snapshots.map (inserted eligibleOf e excluded))) }
  | .select columns => .blank { operation := .select, columns := some (.names columns) }
  | .selectAliased columns => .blank { operation := .select, columns := some (.aliased columns) }
  | .selectWith modifier columns => .blank
    { operation := .select, columns := some (.names columns), modifier := some modifier }
  | .selectEntity e excluded =>
    let columns := Eligible.without excluded (eligibleOf e).select
    .blank ({ operation := .select, columns := some (.names columns) : Statement }.onTarget
      (.entity e))
  | .selectNested e excluded =>
    let s := { operation := .select : Statement }.onTarget (.entity e)
    match leavesOf e with
    | .error err => (Draft.blank s).fail err
    | .ok names => .blank { s with columns := some (.names (Eligible.without excluded names)) }
  | .update table => .blank ({ operation := .update : Statement }.onTarget (.table table))
  | .updateType e => .blank ({ operation := .update : Statement }.onTarget (.entity e))
  | .updateEntity e snapshot excluded =>
    let d := (Draft.blank ({ operation := .update : Statement }.onTarget (.entity e))).take
      eligibleOf (.setEntity e snapshot excluded)
    match keyValues e snapshot >>= e.matchKeys with
    | .error err => d.fail err
    | .ok p => d.take eligibleOf (.filter p)
  | .deleteFrom table => .blank ({ operation := .delete : Statement }.onTarget (.table table))
  | .deleteEntity e => .blank ({ operation := .delete : Statement }.onTarget (.entity e))
  | .delete columns => .blank { operation := .delete, columns := some (.names columns) }

end Opened

end Origin

variable {catalog : Catalog} {es : List Entity}

def Workshop.IsTrue (catalog : Catalog) (es : List Entity) (w : Workshop) : Prop :=
  w.memo.IsTrue catalog es

/-- Invariants under which a memo gives what the entities are described as, and a workshop keeps
that memo and has a buffer of some kind. -/
structure Workshop.Describes (catalog : Catalog) (es : List Entity) (I : Memo → Prop)
    (J : Workshop → Prop) (B : String → Prop) : Prop where
  eligible : ∀ e ∈ es, Step.Ensures I (Memo.eligibleOf e) (· = Eligible.ofEntity e)
  columns : ∀ e ∈ es, ∀ casing, Step.Ensures I (Memo.columnsOf e casing).run fun result =>
    Matches (fun kept names => kept.value.logicalNames = names) result (e.leaves catalog)
  onMemo : ∀ {α : Type} {step : Step Memo α} {Q : α → Prop}, Step.Ensures I step Q →
    Step.Ensures J (onMemo step) Q
  acquire : Step.Ensures J (onPool TextPool.acquire) B

namespace Workshop

variable {α : Type} {Q : α → Prop}

theorem ensures_true_onMemo {step : Step Memo α}
    (h : Step.Ensures (Memo.IsTrue catalog es) step Q) :
    Step.Ensures (IsTrue catalog es) (onMemo step) Q :=
  h.within (fun _ hw => hw) fun _ _ hm _ => hm

theorem ensures_true_onPool (step : Step TextPool α) :
    Step.Ensures (IsTrue catalog es) (onPool step) fun _ => True :=
  Step.ensures_any.within (fun _ _ => trivial) fun _ _ _ hw => hw

theorem describes_isTrue (htold : AreTold es) :
    Describes catalog es (Memo.IsTrue catalog es) (IsTrue catalog es) fun _ => True where
  eligible _ he := Memo.ensures_true_eligibleOf htold he
  columns _ he casing := Memo.ensures_true_columnsOf htold he casing
  onMemo h := ensures_true_onMemo h
  acquire := ensures_true_onPool _

end Workshop

variable {I : Memo → Prop} {J : Workshop → Prop} {B : String → Prop}

theorem Draft.ensures_take
    (heligible : ∀ e ∈ es, Step.Ensures I (Memo.eligibleOf e) (· = Eligible.ofEntity e)) {d : Draft}
    (hopen : d.isClosed = false) {clause : Clause} (h : clause.entities ⊆ es) :
    Step.Ensures I (d.apply clause) (· = d.take Eligible.ofEntity clause) := by
  have hadd : Step.Ensures I (d.statement.addClause clause)
      (· = d.statement.add Eligible.ofEntity clause) := by
    simp only [Statement.addClause]
    split
    · rename_i e snapshot excluded
      have he : e ∈ es := h (by simp [Clause.entities])
      refine (heligible e he).bind fun names hnames => .pure ?_
      rw [hnames]
      rfl
    · exact .pure rfl
  rw [apply, take, hopen]
  simp only [Bool.false_eq_true, or_false]
  split
  · exact .pure rfl
  split
  · refine hadd.bind fun result hresult => .pure ?_
    rw [hresult]
  · exact .pure rfl

namespace Origin

open Workshop (Describes)

theorem ensures_blank (hJ : Describes catalog es I J B) (style : Style) (s : Statement) :
    Step.Ensures J (start style s) fun d =>
      ∃ buffer, B buffer ∧ d = (Draft.blank s).within style buffer :=
  hJ.acquire.bind fun buffer hbuffer => .pure ⟨buffer, hbuffer, rfl⟩

theorem ensures_inserted (hJ : Describes catalog es I J B) {e : Entity} (he : e ∈ es)
    (excluded : List String) (snapshot : Row) :
    Step.Ensures J (insertable e excluded snapshot)
      (· = inserted Eligible.ofEntity e excluded snapshot) := by
  refine (hJ.onMemo (hJ.eligible e he)).bind fun names hnames => .pure ?_
  rw [hnames, inserted]

theorem ensures_opened (hJ : Describes catalog es I J B) (style : Style) {origin : Origin}
    (h : origin.entities ⊆ es) :
    Step.Ensures J (origin.begin style) fun d => ∃ buffer, B buffer ∧
      d = (origin.opened Eligible.ofEntity (Entity.leaves catalog)).within style buffer := by
  cases origin with
  | insert | insertRow | insertRows | select | selectAliased | selectWith | update | updateType
  | deleteFrom | deleteEntity | delete => exact ensures_blank hJ style _
  | insertEntity e snapshot excluded =>
    have he : e ∈ es := h (by simp [entities])
    refine (ensures_inserted hJ he excluded snapshot).bind fun row hrow => ?_
    rw [hrow]
    exact ensures_blank hJ style _
  | insertEntities e snapshots excluded =>
    have he : e ∈ es := h (by simp [entities])
    refine (Step.Ensures.mapM_eq (ensures_inserted hJ he excluded) snapshots).bind
      fun rows hrows => ?_
    rw [hrows]
    exact ensures_blank hJ style _
  | selectEntity e excluded =>
    have he : e ∈ es := h (by simp [entities])
    refine (hJ.onMemo (hJ.eligible e he)).bind fun names hnames => ?_
    rw [hnames]
    exact ensures_blank hJ style _
  | selectNested e excluded =>
    have he : e ∈ es := h (by simp [entities])
    refine (ensures_blank hJ style _).bind fun d ⟨buffer, hbuffer, hd⟩ => ?_
    refine (hJ.onMemo (hJ.columns e he style.casing)).bind fun result hresult => ?_
    rw [opened, hd]
    generalize e.leaves catalog = leaves at hresult
    cases hresult with
    | ok hnames =>
      obtain rfl := hnames
      exact .pure ⟨buffer, hbuffer, rfl⟩
    | error err => exact .pure ⟨buffer, hbuffer, rfl⟩
  | updateEntity e snapshot excluded =>
    have hclause : (Clause.setEntity e snapshot excluded).entities ⊆ es := h
    refine (ensures_blank hJ style _).bind fun d ⟨buffer, hbuffer, hd⟩ => ?_
    have hset : Step.Ensures I (d.apply (.setEntity e snapshot excluded))
        (· = d.take Eligible.ofEntity (.setEntity e snapshot excluded)) :=
      Draft.ensures_take hJ.eligible (by rw [hd]; rfl) hclause
    refine (hJ.onMemo hset).bind fun d' hd' => ?_
    rw [hd, Draft.within_take] at hd'
    rw [opened]
    cases hp : keyValues e snapshot >>= e.matchKeys with
    | error err => exact .pure ⟨buffer, hbuffer, by rw [hd']; rfl⟩
    | ok p =>
      have hfilter : (Clause.filter p).entities ⊆ es := by
        rw [Clause.entities, entities_keys e snapshot p hp]
        exact List.nil_subset es
      have htake : Step.Ensures I (d'.apply (.filter p))
          (· = d'.take Eligible.ofEntity (.filter p)) :=
        Draft.ensures_take hJ.eligible (by rw [hd']; rfl) hfilter
      refine (hJ.onMemo htake).mono fun d'' hd'' => ⟨buffer, hbuffer, ?_⟩
      rw [hd'', hd', Draft.within_take]

end Origin

end Cql
