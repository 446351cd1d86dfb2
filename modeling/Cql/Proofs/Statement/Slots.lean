import Cql.Proofs.Step
import Cql.Statement.Clause

/-!
Slots of a statement. A clause writes one slot, and except for the one that matches keys it reads no
slot that it does not write. So two clauses for different slots can be given in either order, and
neither decides whether the other is taken.
-/

namespace Cql

namespace Statement

inductive Slot
  | target
  | assignments
  | filter
  | guard
  | order
  | limit
  | lifetime
  | writeTime
  | allowFiltering
  | ifNotExists
  deriving DecidableEq, Repr

/-- The slot holds one thing, if any. -/
def Slot.isSingle : Slot → Bool
  | .assignments | .order | .allowFiltering | .ifNotExists => false
  | _ => true

/-- What a clause writes into a slot. -/
inductive Entry
  | target (target : Target)
  /-- Assignments, and the entity that they bring to a statement without one. -/
  | assignments (e? : Option Entity) (assignments : List Assignment)
  | filter (f : Filter)
  | guard (g : Guard)
  | order (items : List OrderItem)
  | limit (count : Nat)
  | lifetime (seconds : Nat)
  | writeTime (micros : Int)
  | allowFiltering
  | ifNotExists

def Entry.slot : Entry → Slot
  | .target _ => .target
  | .assignments .. => .assignments
  | .filter _ => .filter
  | .guard _ => .guard
  | .order _ => .order
  | .limit _ => .limit
  | .lifetime _ => .lifetime
  | .writeTime _ => .writeTime
  | .allowFiltering => .allowFiltering
  | .ifNotExists => .ifNotExists

def enter (s : Statement) : Entry → Statement
  | .target target => s.onTarget target
  | .assignments e? assignments => { s with entity := s.entity <|> e? }.assign assignments
  | .filter f => { s with filter := some f }
  | .guard g => { s with guard := some g }
  | .order items => s.addOrder items
  | .limit count => { s with limit := some count }
  | .lifetime seconds => { s with lifetime := some seconds }
  | .writeTime micros => { s with writeTime := some micros }
  | .allowFiltering => { s with allowFiltering := true }
  | .ifNotExists => { s with ifNotExists := true }

/-- The slot is filled, so that a clause for it is a mistake. -/
def isTaken (s : Statement) : Slot → Bool
  | .target => s.target.isSome
  | .filter => s.filter.isSome
  | .guard => s.guard.isSome
  | _ => false

variable {s : Statement} {x y : Entry} {slot : Slot}

/-- What is written into different slots can be written in either order. A target and assignments
both touch the entity of the statement, but a target puts its own in any case. -/
theorem enter_comm (s : Statement) (h : x.slot ≠ y.slot) :
    (s.enter x).enter y = (s.enter y).enter x := by
  have htarget : ∀ target y, Entry.slot y ≠ .target →
      (s.enter (.target target)).enter y = (s.enter y).enter (.target target) := by
    intro target y hy
    cases target <;> cases y <;> first | rfl | exact absurd rfl hy
  cases x with
  | target target => exact htarget target y h.symm
  | assignments | filter | guard | order | limit | lifetime | writeTime | allowFiltering
  | ifNotExists =>
    cases y with
    | target target => exact (htarget target _ h).symm
    | assignments | filter | guard | order | limit | lifetime | writeTime | allowFiltering
    | ifNotExists => first | rfl | exact absurd rfl h

theorem isTaken_enter (h : x.slot ≠ slot) : (s.enter x).isTaken slot = s.isTaken slot := by
  cases x with
  | target target =>
    cases target <;> cases slot <;> first | rfl | exact absurd rfl h
  | assignments | filter | guard | order | limit | lifetime | writeTime | allowFiltering
  | ifNotExists =>
    cases slot <;> first | rfl | exact absurd rfl h

theorem operation_enter (s : Statement) (x : Entry) : (s.enter x).operation = s.operation := by
  cases x with
  | target target => cases target <;> rfl
  | assignments | filter | guard | order | limit | lifetime | writeTime | allowFiltering
  | ifNotExists => rfl

theorem columns_enter (s : Statement) (x : Entry) : (s.enter x).columns = s.columns := by
  cases x with
  | target target => cases target <;> rfl
  | assignments | filter | guard | order | limit | lifetime | writeTime | allowFiltering
  | ifNotExists => rfl

theorem entity_enter (htarget : x.slot ≠ .target) (hassignments : x.slot ≠ .assignments) :
    (s.enter x).entity = s.entity := by
  cases x with
  | target => exact absurd rfl htarget
  | assignments => exact absurd rfl hassignments
  | filter | guard | order | limit | lifetime | writeTime | allowFiltering | ifNotExists => rfl

theorem isTaken_of_not_isSingle (h : slot.isSingle = false) : s.isTaken slot = false := by
  cases slot <;> first | rfl | cases h

end Statement

open Statement (Slot Entry)

def ClauseKind.slot : ClauseKind → Slot
  | .into | .source => .target
  | .assignment => .assignments
  | .filter => .filter
  | .guard | .ifExists => .guard
  | .order => .order
  | .limit => .limit
  | .lifetime => .lifetime
  | .writeTime => .writeTime
  | .allowFiltering => .allowFiltering
  | .ifNotExists => .ifNotExists

/-- The mistake of a clause for a slot that is filled. -/
def ClauseKind.refusal : ClauseKind → Misuse
  | .filter => .filterTaken
  | .guard | .ifExists => .guardTaken
  | kind => .targetTaken kind

namespace Clause

def slot (clause : Clause) : Slot := clause.kind.slot

/-- What the clause writes, given the properties that each operation may touch. The clause that
matches keys needs the entity of the statement for it. -/
def entry? (eligibleOf : Entity → Eligible) : Clause → Option Entry
  | .into target | .source target => some (.target target)
  | .setHoles columns => some (.assignments none (columns.map .hole))
  | .setValue column value => some (.assignments none [.value column value])
  | .setRow row => some (.assignments none (Statement.rowAssignments row))
  | .setEntity e snapshot excluded => some (.assignments (some e)
    (Statement.entityAssignments e (eligibleOf e) snapshot excluded))
  | .setRaw text => some (.assignments none [.raw text])
  | .filter p => some (.filter (.predicate p))
  | .filterRaw text => some (.filter (.raw text))
  | .filterKeys _ => none
  | .order columns => some (.order (columns.map fun (c, d) => .column c d))
  | .orderRaw text => some (.order [.raw text])
  | .limit count => some (.limit count)
  | .allowFiltering => some .allowFiltering
  | .lifetime seconds => some (.lifetime seconds)
  | .writeTime micros => some (.writeTime micros)
  | .guard p => some (.guard (.predicate p))
  | .guardRaw text => some (.guard (.raw text))
  | .ifExists => some (.guard .ifExists)
  | .ifNotExists => some .ifNotExists

variable {eligibleOf : Entity → Eligible} {clause : Clause} {x : Entry}

theorem slot_entry (h : clause.entry? eligibleOf = some x) : x.slot = clause.slot := by
  cases clause <;> cases h <;> rfl

end Clause

/-- A clause is refused if its slot is filled, and writes the slot otherwise. -/
theorem Statement.add_eq {eligibleOf : Entity → Eligible} {clause : Clause} {x : Entry}
    (s : Statement) (h : clause.entry? eligibleOf = some x) :
    s.add eligibleOf clause =
      if s.isTaken clause.slot then .error (.misuse clause.kind.refusal) else .ok (s.enter x) := by
  have htarget : ∀ kind target, s.setTarget kind target =
      if s.target.isSome then .error (.misuse (.targetTaken kind))
      else .ok (s.enter (.target target)) := by
    intro kind target
    rw [setTarget]
    cases s.target <;> rfl
  have hfilter : ∀ f, s.setFilter f =
      if s.filter.isSome then .error (.misuse .filterTaken) else .ok (s.enter (.filter f)) := by
    intro f
    rw [setFilter]
    cases s.filter <;> rfl
  have hguard : ∀ g, s.setGuard g =
      if s.guard.isSome then .error (.misuse .guardTaken) else .ok (s.enter (.guard g)) := by
    intro g
    rw [setGuard]
    cases s.guard <;> rfl
  have hassign : ∀ assignments, s.assign assignments = s.enter (.assignments none assignments) := by
    simp [enter]
  cases clause with
  | into target | source target =>
    cases h
    exact htarget _ target
  | filter p | filterRaw text =>
    cases h
    exact hfilter _
  | guard p | guardRaw text | ifExists =>
    cases h
    exact hguard _
  | setHoles | setValue | setRow | setRaw =>
    cases h
    exact congrArg Except.ok (hassign _)
  | filterKeys values => cases h
  | setEntity | order | orderRaw | limit | allowFiltering | lifetime | writeTime | ifNotExists =>
    cases h
    rfl

namespace Clause

/-- The properties that a clause reads, looked up for the one clause that needs them. -/
def eligible : Clause → Step Memo (Entity → Eligible)
  | .setEntity e _ _ => do
    let names ← Memo.eligibleOf e
    return fun _ => names
  | _ => return Eligible.ofEntity

theorem eligible_of_slot {clause : Clause} (h : clause.slot ≠ .assignments) :
    clause.eligible = pure Eligible.ofEntity := by
  cases clause <;> first | rfl | exact absurd rfl h

/-- The clause matches keys of the entity that the statement has by then. -/
def readsEntity : Clause → Bool
  | .filterKeys _ => true
  | _ => false

theorem exists_entry {clause : Clause} (h : clause.readsEntity = false)
    (eligibleOf : Entity → Eligible) : ∃ x, clause.entry? eligibleOf = some x := by
  cases clause <;> first | exact ⟨_, rfl⟩ | cases h

/-- Clauses that an operation takes, without one that fills a slot again or reads another slot. -/
structure AreFor (operation : Operation) (clauses : List Clause) : Prop where
  taken : ∀ clause ∈ clauses, operation ∈ clause.kind.operations
  unkeyed : ∀ clause ∈ clauses, clause.readsEntity = false
  once : ∀ slot : Slot, slot.isSingle → clauses.countP (·.slot = slot) ≤ 1

/-- The same clauses, with the assignments and the sort columns in their order. -/
structure Reorders (clauses others : List Clause) : Prop where
  perm : clauses.Perm others
  assignments :
    clauses.filter (·.slot = .assignments) = others.filter (·.slot = .assignments)
  order : clauses.filter (·.slot = .order) = others.filter (·.slot = .order)

variable {operation : Operation} {clause : Clause} {clauses others : List Clause}

namespace AreFor

theorem of_cons (h : AreFor operation (clause :: clauses)) : AreFor operation clauses where
  taken c hc := h.taken c (by simp [hc])
  unkeyed c hc := h.unkeyed c (by simp [hc])
  once slot hsingle := by
    have hcount := h.once slot hsingle
    rw [List.countP_cons] at hcount
    omega

theorem slot_ne (h : AreFor operation (clause :: clauses)) {c : Clause} (hc : c ∈ clauses)
    (hsingle : c.slot.isSingle) : c.slot ≠ clause.slot := by
  intro heq
  have hcount := h.once c.slot hsingle
  have hpos : 0 < clauses.countP (·.slot = c.slot) :=
    List.countP_pos_iff.mpr ⟨c, hc, by simp⟩
  rw [List.countP_cons, heq] at hcount
  rw [heq] at hpos
  simp only [decide_true, if_true] at hcount
  omega

theorem perm (h : AreFor operation clauses) (hperm : clauses.Perm others) :
    AreFor operation others where
  taken c hc := h.taken c (hperm.mem_iff.mpr hc)
  unkeyed c hc := h.unkeyed c (hperm.mem_iff.mpr hc)
  once slot hsingle := by
    rw [← hperm.countP_eq]
    exact h.once slot hsingle

/-- Reordered clauses stand in the same order in each slot. -/
theorem filter_eq (h : AreFor operation clauses) (hothers : Reorders clauses others) (slot : Slot) :
    clauses.filter (·.slot = slot) = others.filter (·.slot = slot) := by
  have hperm : (clauses.filter (·.slot = slot)).Perm (others.filter (·.slot = slot)) :=
    hothers.perm.filter _
  -- There is one clause for each flag, however often it is given.
  have hflag : ∀ flag : Clause, (∀ c : Clause, c.slot = slot → c = flag) →
      clauses.filter (·.slot = slot) = others.filter (·.slot = slot) := by
    intro flag honly
    have hreplicate : ∀ cs : List Clause, cs.filter (·.slot = slot) =
        List.replicate (cs.filter (·.slot = slot)).length flag := by
      refine fun cs => List.eq_replicate_iff.mpr ⟨rfl, fun c hc => honly c ?_⟩
      simpa using (List.mem_filter.mp hc).2
    rw [hreplicate clauses, hreplicate others, hperm.length_eq]
  by_cases hsingle : slot.isSingle
  · have hlength := h.once slot hsingle
    rw [List.countP_eq_length_filter] at hlength
    generalize clauses.filter (·.slot = slot) = own at hperm hlength ⊢
    obtain _ | ⟨c, _ | ⟨d, ds⟩⟩ := own
    · exact hperm.nil_eq
    · exact List.singleton_perm.mp hperm
    · simp at hlength
  · cases slot with
    | assignments => exact hothers.assignments
    | order => exact hothers.order
    | allowFiltering =>
      exact hflag .allowFiltering fun c hc => by cases c <;> first | rfl | cases hc
    | ifNotExists =>
      exact hflag .ifNotExists fun c hc => by cases c <;> first | rfl | cases hc
    | target | filter | guard | limit | lifetime | writeTime => exact absurd rfl hsingle

end AreFor

end Clause

namespace Statement

variable {s : Statement} {clauses others : List Clause} {clause other : Clause}

/-- A clause that is taken writes one slot. -/
theorem enters_of_add (s : Statement) (eligibleOf : Entity → Eligible) (clause : Clause) :
    Yields (s.add eligibleOf clause) fun s' => ∃ x, s' = s.enter x := by
  cases hreads : clause.readsEntity with
  | false =>
    obtain ⟨x, hx⟩ := Clause.exists_entry hreads eligibleOf
    rw [s.add_eq hx]
    split
    · exact .error
    · exact .ok ⟨x, rfl⟩
  | true =>
    cases clause <;> cases hreads
    rw [add]
    split
    · exact .error
    · refine Yields.bind (Q := fun _ => True) (fun _ _ => trivial) fun p _ => ?_
      rw [setFilter]
      split
      · exact .error
      · exact .ok ⟨.filter (.predicate p), rfl⟩

theorem addClause_eq (s : Statement) (clause : Clause) :
    s.addClause clause = do return s.add (← clause.eligible) clause := by
  cases clause <;> rfl

/-- The statement with what a clause writes, whatever its slot holds. -/
def overwrite (s : Statement) (clause : Clause) : Step Memo Statement := do
  return (clause.entry? (← clause.eligible)).elim s s.enter

theorem overwrite_comm (s : Statement) (h : clause.slot ≠ other.slot) :
    (s.overwrite clause >>= (·.overwrite other)) =
      (s.overwrite other >>= (·.overwrite clause)) := by
  have henter : ∀ eligibleOf eligibleOf' (s : Statement),
      (other.entry? eligibleOf').elim ((clause.entry? eligibleOf).elim s s.enter)
          ((clause.entry? eligibleOf).elim s s.enter).enter =
        (clause.entry? eligibleOf).elim ((other.entry? eligibleOf').elim s s.enter)
          ((other.entry? eligibleOf').elim s s.enter).enter := by
    intro eligibleOf eligibleOf' s
    cases hx : clause.entry? eligibleOf with
    | none => rfl
    | some x =>
      cases hy : other.entry? eligibleOf' with
      | none => rfl
      | some y =>
        refine s.enter_comm ?_
        rwa [Clause.slot_entry hx, Clause.slot_entry hy]
  -- At most one of the two looks up properties.
  by_cases hclause : clause.slot = .assignments
  · have hother : other.slot ≠ .assignments := fun heq => h (hclause.trans heq.symm)
    simp only [overwrite, Clause.eligible_of_slot hother, pure_bind, bind_assoc, henter]
  · simp only [overwrite, Clause.eligible_of_slot hclause, pure_bind, bind_assoc, henter]

open Clause (AreFor Reorders)

/-- Other slots stay as they are. -/
theorem overwrite_keeps (s : Statement) (clause : Clause) :
    Step.Ensures (fun _ => True) (s.overwrite clause) fun s' => s'.operation = s.operation ∧
      ∀ slot, slot ≠ clause.slot → s'.isTaken slot = s.isTaken slot := by
  refine Step.ensures_any.bind fun eligibleOf _ => .pure ?_
  cases hx : clause.entry? eligibleOf with
  | none => exact ⟨rfl, fun _ _ => rfl⟩
  | some x =>
    refine ⟨s.operation_enter x, fun slot hslot => isTaken_enter ?_⟩
    rw [Clause.slot_entry hx]
    exact hslot.symm

theorem isTaken_of_overwrite (h : AreFor s.operation (clause :: clauses)) :
    Step.Ensures (fun _ => True) (s.overwrite clause) fun s' => s'.operation = s.operation ∧
      ∀ c ∈ clauses, s'.isTaken c.slot = s.isTaken c.slot := by
  refine (s.overwrite_keeps clause).mono fun s' ⟨hoperation, hkeeps⟩ => ⟨hoperation, ?_⟩
  intro c hc
  by_cases hsingle : c.slot.isSingle
  · exact hkeeps c.slot (h.slot_ne hc hsingle)
  · rw [Bool.not_eq_true] at hsingle
    rw [isTaken_of_not_isSingle hsingle, isTaken_of_not_isSingle hsingle]

end Statement

end Cql
