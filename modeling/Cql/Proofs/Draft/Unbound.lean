import Cql.Proofs.Draft.Taking
import Cql.Proofs.Statement.Places

/-!
Columns whose values the caller binds. They are the columns that an INSERT or a SET names without a
value; a draft counts them as they are given, and each takes one place of the statement.
-/

namespace Cql

def Place.isUnbound (p : Place) : Bool := p.value?.isNone

def Assignment.isHole : Assignment → Bool
  | .hole _ => true
  | _ => false

def Statement.unbound (s : Statement) : Nat :=
  match s.operation, s.columns with
  | .insert, some (.names columns) => columns.length
  | .update, _ => s.assignments.countP Assignment.isHole
  | _, _ => 0

def Clause.unbound : Clause → Nat
  | .setHoles columns => columns.length
  | _ => 0

def Origin.unbound : Origin → Nat
  | .insert columns => columns.length
  | _ => 0

theorem Place.countP_ofValue (name : String) (v : Value) :
    (Place.ofValue name v).countP isUnbound = 0 := by
  rw [ofValue]
  split <;> rfl

namespace Predicate

mutual

theorem countP_places : ∀ p : Predicate, p.places.countP Place.isUnbound = 0
  | .compare .. => Place.countP_ofValue _ _
  | .between .. => by simp only [places, List.countP_append, Place.countP_ofValue]
  | .among column operator values => by
    simp [places, List.countP_flatMap, Place.countP_ofValue, Function.comp_def]
  | .negate inner => countP_places inner
  | .junction _ parts => countP_partPlaces parts
  | .amongText .. => rfl
  | .amongSelect _ _ _ filter => countP_filterPlaces filter
  | .raw _ => rfl

theorem countP_partPlaces : ∀ ps : List Predicate, (partPlaces ps).countP Place.isUnbound = 0
  | [] => rfl
  | p :: ps => by simp only [partPlaces, List.countP_append, countP_places p, countP_partPlaces ps]

theorem countP_filterPlaces : ∀ filter : Option Predicate,
    (filterPlaces filter).countP Place.isUnbound = 0
  | none => rfl
  | some p => countP_places p

end

end Predicate

theorem countP_rowPlaces (columns : List String) (row : Row) :
    (rowPlaces columns row).countP Place.isUnbound = 0 := by
  have hcell : ∀ c, (((row.get? c).map (Place.ofValue (placeholderName c))).getD []).countP
      Place.isUnbound = 0 := by
    intro c
    cases row.get? c with
    | none => rfl
    | some v => exact Place.countP_ofValue _ v
  simp [rowPlaces, List.countP_flatMap, hcell, Function.comp_def]

theorem Assignment.countP_places (assignments : List Assignment) :
    (assignments.flatMap Assignment.places).countP Place.isUnbound =
      assignments.countP Assignment.isHole := by
  induction assignments with
  | nil => rfl
  | cons a assignments ih =>
    rw [List.flatMap_cons, List.countP_append, List.countP_cons, ih, Nat.add_comm]
    congr 1
    cases a with
    | hole | raw => rfl
    | value c v => exact Place.countP_ofValue _ v

/-- The unbound places of a statement are its unbound columns. -/
theorem Statement.countP_places (s : Statement) :
    s.places.countP Place.isUnbound = s.unbound := by
  have hfilter : ((s.filter.map Filter.places).getD []).countP Place.isUnbound = 0 := by
    obtain _ | p | text := s.filter
    · rfl
    · exact p.countP_places
    · rfl
  have hguard : ((s.guard.map Guard.places).getD []).countP Place.isUnbound = 0 := by
    obtain _ | _ | p | text := s.guard
    · rfl
    · rfl
    · exact p.countP_places
    · rfl
  unfold places unbound
  cases s.operation with
  | insert =>
    obtain _ | names | aliased | row | _ | ⟨first, others⟩ := s.columns
    · rfl
    · simp [Columns.places, Place.isUnbound, Function.comp_def]
    · rfl
    · exact countP_rowPlaces _ _
    · rfl
    · simp [Columns.places, List.countP_flatMap, countP_rowPlaces, Function.comp_def]
  | select => simpa using hfilter
  | update =>
    simp only [List.countP_append, Assignment.countP_places, hfilter, hguard, Nat.add_zero]
  | delete => simp only [List.countP_append, hfilter, hguard]

namespace Statement

variable {s s' : Statement}

theorem unbound_onTarget (s : Statement) (target : Target) :
    (s.onTarget target).unbound = s.unbound := by
  cases target <;> rfl

theorem unbound_assign (hoperation : s.operation = .update) (assignments : List Assignment) :
    (s.assign assignments).unbound = s.unbound + assignments.countP Assignment.isHole := by
  have hassign : (s.assign assignments).operation = .update := hoperation
  simp only [unbound]
  rw [hassign, hoperation]
  exact List.countP_append

theorem unbound_setTarget (kind : ClauseKind) (target : Target) :
    Yields (s.setTarget kind target) fun s' => s'.unbound = s.unbound := by
  rw [setTarget]
  split
  · exact .error
  · exact .ok (s.unbound_onTarget target)

theorem unbound_setFilter (filter : Filter) :
    Yields (s.setFilter filter) fun s' => s'.unbound = s.unbound := by
  rw [setFilter]
  split
  · exact .error
  · exact .ok rfl

theorem unbound_setGuard (guard : Guard) :
    Yields (s.setGuard guard) fun s' => s'.unbound = s.unbound := by
  rw [setGuard]
  split
  · exact .error
  · exact .ok rfl

theorem isHole_rowAssignments (row : Row) :
    (rowAssignments row).countP Assignment.isHole = 0 := by
  refine List.countP_eq_zero.mpr fun a ha => ?_
  obtain ⟨entry, -, rfl⟩ := List.mem_map.mp ha
  exact Bool.false_ne_true

theorem isHole_entityAssignments (e : Entity) (eligible : Eligible) (snapshot : Row)
    (excluded : List String) :
    (entityAssignments e eligible snapshot excluded).countP Assignment.isHole = 0 := by
  refine List.countP_eq_zero.mpr fun a ha => ?_
  obtain ⟨name, -, hvalue⟩ := List.mem_filterMap.mp ha
  obtain ⟨v, -, rfl⟩ := Option.map_eq_some_iff.mp hvalue
  exact Bool.false_ne_true

/-- A clause that a statement takes brings its unbound columns with it. -/
theorem unbound_add {eligibleOf : Entity → Eligible} {clause : Clause}
    (hoperation : s.operation ∈ clause.kind.operations) (h : s.add eligibleOf clause = .ok s') :
    s'.unbound = s.unbound + clause.unbound := by
  have hupdate : clause.kind = .assignment → s.operation = .update := by
    intro hkind
    simpa [hkind, ClauseKind.operations] using hoperation
  cases clause with
  | into target => exact unbound_setTarget .into target s' h
  | source target => exact unbound_setTarget .source target s' h
  | setHoles columns =>
    cases h
    rw [unbound_assign (hupdate rfl), List.countP_map]
    simp [Clause.unbound, Assignment.isHole, Function.comp_def]
  | setValue column v =>
    cases h
    rw [unbound_assign (hupdate rfl)]
    rfl
  | setRow row =>
    cases h
    rw [unbound_assign (hupdate rfl), isHole_rowAssignments]
    rfl
  | setEntity e snapshot excluded =>
    cases h
    refine (unbound_assign (s := { s with entity := s.entity <|> some e }) (hupdate rfl) _).trans ?_
    rw [isHole_entityAssignments]
    rfl
  | setRaw text =>
    cases h
    rw [unbound_assign (hupdate rfl)]
    rfl
  | filter p => exact unbound_setFilter (.predicate p) s' h
  | filterRaw text => exact unbound_setFilter (.raw text) s' h
  | filterKeys values =>
    cases hentity : s.entity with
    | none => simp [add, hentity] at h
    | some e =>
      cases hkeys : e.matchKeys values with
      | error err => simp [add, hentity, hkeys, Except.bind] at h
      | ok p =>
        have hset : s.setFilter (.predicate p) = .ok s' := by
          simpa [add, hentity, hkeys, Except.bind] using h
        exact unbound_setFilter (.predicate p) s' hset
  | guard p => exact unbound_setGuard (.predicate p) s' h
  | guardRaw text => exact unbound_setGuard (.raw text) s' h
  | ifExists => exact unbound_setGuard .ifExists s' h
  | order | orderRaw | limit | allowFiltering | lifetime | writeTime | ifNotExists =>
    cases h
    rfl

end Statement

/-- The draft is open, and unless it holds a mistake it has so many unbound columns. -/
structure Draft.Counts (n : Nat) (d : Draft) : Prop where
  isOpen : d.isClosed = false
  unbound : d.fault = none → d.statement.unbound = n

theorem Draft.Counts.apply {n : Nat} {d : Draft} (h : d.Counts n) (clause : Clause) :
    Step.Ensures (fun _ => True) (d.apply clause) (Counts (n + clause.unbound)) := by
  refine (d.apply_takes clause).mono fun d' htakes => ⟨?_, fun hfault => ?_⟩
  · exact (congrArg Option.isNone htakes.buffer).trans h.isOpen
  · obtain ⟨hnone, hoperation, eligibleOf, hadd⟩ := htakes.added_of_fault h.isOpen hfault
    rw [Statement.unbound_add hoperation hadd, h.unbound hnone]

theorem Draft.counts_fail {n : Nat} {d : Draft} (h : d.isClosed = false) (e : Error) :
    (d.fail e).Counts n := by
  refine ⟨h, fun hfault => ?_⟩
  cases hd : d.fault <;> simp [fail, hd] at hfault

theorem Origin.counts_begin (style : Style) (origin : Origin) :
    Step.Ensures (fun _ => True) (origin.begin style) (Draft.Counts origin.unbound) := by
  have hbegun : ∀ s, Step.Ensures (fun _ => True) (start style s) fun d =>
      d.isClosed = false ∧ d.statement = s :=
    fun s => Step.ensures_any.bind fun buffer _ => .pure ⟨rfl, rfl⟩
  have hstart : ∀ s n, s.unbound = n →
      Step.Ensures (fun _ => True) (start style s) (Draft.Counts n) :=
    fun s n hs => (hbegun s).mono fun d hd => ⟨hd.1, fun _ => hd.2 ▸ hs⟩
  cases origin with
  | insert | insertRow | insertRows | select | selectAliased | selectWith | update | updateType
  | deleteFrom | deleteEntity | delete => exact hstart _ _ rfl
  | insertEntity | insertEntities | selectEntity =>
    exact Step.ensures_any.bind fun _ _ => hstart _ _ rfl
  | selectNested e excluded =>
    refine (hbegun _).bind fun d hd => Step.ensures_any.bind fun result _ => ?_
    cases result with
    | error err => exact .pure (Draft.counts_fail hd.1 err)
    | ok columns => exact .pure ⟨hd.1, fun _ => by rw [hd.2]; rfl⟩
  | updateEntity e snapshot excluded =>
    refine (hstart _ 0 rfl).bind fun d hd =>
      (Workshop.any_onMemo (hd.apply (.setEntity e snapshot excluded))).bind fun d hd => ?_
    split
    · exact .pure (Draft.counts_fail hd.isOpen _)
    · rename_i p _
      exact Workshop.any_onMemo (hd.apply (.filter p))

end Cql
