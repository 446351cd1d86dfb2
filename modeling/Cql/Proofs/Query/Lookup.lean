import Cql.Proofs.Query.Binding
import Cql.Proofs.Query.Slotwise

/-!
Values for the slots of a query that was read. Its slots have either all names or none, so binding
looks up the names in the order of their slots and fails at the first one without a value, or it
fails at the first slot and looks up nothing.
-/

namespace Cql.Query

variable {α : Type} {s : String} {q : Query} {lookup : String → Option α}

/-- A query that was read has no names or one for every slot. -/
theorem names_of_read (h : read s = .ok q) :
    q.names = [] ∨ q.names.length = q.parameterCount := by
  by_cases hverb : Token.isManipulation s.toList
  · obtain ⟨ts, -, hmixture, rfl⟩ := read_eq_ok hverb h
    by_cases hmark : ∃ t ∈ ts, dialect? t = some .mark
    · obtain ⟨t, ht, hdialect⟩ := hmark
      have hnames : ts.filterMap Token.name? = [] :=
        Token.filterMap_name?_eq_nil fun u hu d hd => eq_of_mixture?_eq_none hmixture
          (List.mem_filterMap.mpr ⟨u, hu, hd⟩) (List.mem_filterMap.mpr ⟨t, ht, hdialect⟩)
      exact .inl (by simp [hnames])
    · have hcount : (ts.filterMap Token.name?).length = ts.countP Token.isPlaceholder :=
        Token.length_filterMap_name? fun t ht hdialect => hmark ⟨t, ht, hdialect⟩
      exact .inr (by simpa using hcount)
  · rw [read, if_neg hverb] at h
    cases h
    exact .inl rfl

namespace Slotwise

/-- Slot by slot, the names are looked up that stand under the numbers of the slots. -/
theorem bindSlots_numbered (lookup : String → Option α) (names : List String) (count slot : Nat) :
    bindSlots (numbered names) lookup (List.range' slot count) =
      bindFrom lookup slot count (names.drop slot) := by
  induction count generalizing slot with
  | zero => rfl
  | succ count ih =>
    rw [List.range'_succ, bindSlots, get?_numbered]
    cases hname : names[slot]? with
    | none =>
      rw [List.drop_eq_nil_of_le (List.getElem?_eq_none_iff.mp hname)]
      rfl
    | some name =>
      obtain ⟨hslot, hget⟩ := List.getElem?_eq_some_iff.mp hname
      rw [List.drop_eq_getElem_cons hslot, hget, ih (slot + 1)]
      rfl

theorem bind_ofQuery (q : Query) (lookup : String → Option α) :
    (ofQuery q).bind lookup = q.bind lookup := by
  rw [Reading.bind, List.range_eq_range']
  exact bindSlots_numbered lookup q.names q.parameterCount 0

end Slotwise

/-- Names of all slots are looked up in their order, up to the first one without a value. -/
theorem bind_of_names (lookup : String → Option α)
    (hcount : q.names.length = q.parameterCount) :
    (∀ name ∈ q.names, (lookup name).isSome) ∧
        (∃ values, q.names.map lookup = values.map some ∧
          q.bind lookup = (.ok values, q.names)) ∨
      ∃ before name after, q.names = before ++ name :: after ∧
        (∀ other ∈ before, (lookup other).isSome) ∧ lookup name = none ∧
        q.bind lookup = (.error (.unbound name), before ++ [name]) := by
  rw [bind, ← hcount]
  obtain hall | ⟨before, name, after, hnames, hbefore, hname⟩ :=
    forall_isSome_or_exists_first lookup q.names
  · have hbind := bindFrom_of_forall 0 hall
    exact .inl ⟨hall, _, (bindFrom_eq_ok 0).mp (congrArg Prod.fst hbind), hbind⟩
  · refine .inr ⟨before, name, after, hnames, hbefore, hname, ?_⟩
    rw [hnames]
    exact bindFrom_of_missing 0 hbefore hname

/-- Slots without names have no values. -/
theorem bind_of_names_eq_nil (hnames : q.names = []) (hslots : 0 < q.parameterCount) :
    q.bind lookup = (.error (.unbound "#1"), []) := by
  obtain ⟨count, hcount⟩ := Nat.exists_eq_succ_of_ne_zero (Nat.ne_of_gt hslots)
  rw [bind, hnames, hcount]
  rfl

theorem bind_of_no_slots (h : q.parameterCount = 0) : q.bind lookup = (.ok [], []) := by
  rw [bind, h]
  rfl

/-- A query with names takes the value of each name in each of its slots, and asks for the names in
the order of slots; it fails at the first name without a value and asks for no later one. The number
of a slot is told only of a query without names, and then it is the first slot, and nothing is asked
for. A query without slots takes no values. -/
theorem bind_read (h : read s = .ok q) (attributes : List (String × String))
    (lookup : String → Option α) :
    let tagged := q.withAttributes attributes
    Slotwise.read s = .ok (Slotwise.ofQuery q) ∧
      (Slotwise.ofQuery tagged).bind lookup = tagged.bind lookup ∧
      tagged.bind lookup = q.bind lookup ∧
      (q.isNamed →
        ((∃ values, (q.bind lookup).1 = .ok values) ↔ ∀ name ∈ q.names, (lookup name).isSome) ∧
        (∀ values, (q.bind lookup).1 = .ok values →
          q.names.map lookup = values.map some ∧ (q.bind lookup).2 = q.names) ∧
        ∀ fault, (q.bind lookup).1 = .error fault → ∃ before name after,
          q.names = before ++ name :: after ∧ (∀ other ∈ before, (lookup other).isSome) ∧
          lookup name = none ∧ fault = .unbound name ∧ (q.bind lookup).2 = before ++ [name]) ∧
      (¬q.isNamed → 0 < q.parameterCount → q.bind lookup = (.error (.unbound "#1"), [])) ∧
      (∀ fault, q.bind lookup = (.error fault, []) → ¬q.isNamed ∧ fault = .unbound "#1") ∧
      (q.parameterCount = 0 → q.bind lookup = (.ok [], [])) := by
  intro tagged
  have hslotwise : Slotwise.read s = .ok (Slotwise.ofQuery q) := by
    rw [Slotwise.read_eq, h]
    rfl
  have hnamed : q.isNamed → q.names.length = q.parameterCount := by
    intro hnamed
    refine (names_of_read h).resolve_left fun hnil => ?_
    simp [isNamed, hnil] at hnamed
  have hpositional : ¬q.isNamed → q.names = [] := by simp [isNamed]
  refine ⟨hslotwise, Slotwise.bind_ofQuery tagged lookup, rfl, fun hq => ?_, fun hq hslots => ?_,
    fun fault hfault => ?_, bind_of_no_slots⟩
  · obtain ⟨hall, found, hfound, hbind⟩ | ⟨before, name, after, hnames, hbefore, hname, hbind⟩ :=
      bind_of_names lookup (hnamed hq)
    · rw [hbind]
      refine ⟨⟨fun _ => hall, fun _ => ⟨found, rfl⟩⟩, fun values hvalues => ?_, nofun⟩
      cases hvalues
      exact ⟨hfound, rfl⟩
    · rw [hbind]
      refine ⟨⟨nofun, fun hall => ?_⟩, nofun, fun fault hfault => ?_⟩
      · have hsome := hall name (by simp [hnames])
        simp [hname] at hsome
      · cases hfault
        exact ⟨before, name, after, hnames, hbefore, hname, rfl, rfl⟩
  · exact bind_of_names_eq_nil (hpositional hq) hslots
  · by_cases hq : q.isNamed
    · obtain ⟨-, found, -, hbind⟩ | ⟨before, name, after, -, -, -, hbind⟩ :=
        bind_of_names lookup (hnamed hq)
      · simp [hbind] at hfault
      · simp [hbind] at hfault
    · refine ⟨hq, ?_⟩
      rcases Nat.eq_zero_or_pos q.parameterCount with hnone | hslots
      · simp [bind_of_no_slots hnone] at hfault
      · rw [bind_of_names_eq_nil (hpositional hq) hslots] at hfault
        cases hfault
        rfl

/-- A name stands in two slots; once all names have values, and once the second one has none. -/
theorem bind_read_repeating :
    let q : Query := {
      source := "SELECT :b, :a, :b, :c"
      canonical := "SELECT ?, ?, ?, ?"
      names := ["b", "a", "b", "c"]
      parameterCount := 4 }
    let all (name : String) : Option Nat := [("a", 1), ("b", 2), ("c", 3)].lookup name
    let few (name : String) : Option Nat := [("b", 2), ("c", 3)].lookup name
    read "SELECT :b, :a, :b, :c" = .ok q ∧ (∃ values, (q.bind all).1 = .ok values) ∧
      ∃ before name after, q.names = before ++ name :: after ∧ few name = none ∧
        (q.bind few).2 = before ++ [name] := by
  intro q all few
  have hread : read "SELECT :b, :a, :b, :c" = .ok q := by cbv
  obtain ⟨-, -, -, hall, -⟩ := bind_read hread [] all
  obtain ⟨-, -, -, hfew, -⟩ := bind_read hread [] few
  obtain ⟨hsucceeds, -⟩ := hall rfl
  obtain ⟨-, -, hfails⟩ := hfew rfl
  obtain ⟨before, name, after, hnames, -, hname, -, hasked⟩ := hfails (.unbound "a") rfl
  exact ⟨hread, hsucceeds.mpr (by decide), before, name, after, hnames, hname, hasked⟩

end Cql.Query
