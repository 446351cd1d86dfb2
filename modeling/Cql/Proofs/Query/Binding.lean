import Mathlib
import Cql.Query.Binding
import Cql.Value

/-!
Binding values to slots by the names of the slots. Every slot can be given a value of its own if and
only if no two slots have the same name.
-/

namespace Cql.Query

variable {α : Type} {lookup : String → Option α} {names : List String} {values : List α}

/-- Slots with names take the values that are found for their names. -/
theorem bindFrom_eq_ok (slot : Nat) :
    (bindFrom lookup slot names.length names).1 = .ok values ↔
      names.map lookup = values.map some := by
  induction names generalizing slot values with
  | nil => cases values <;> simp [bindFrom]
  | cons name names ih =>
    cases hname : lookup name with
    | none => cases values <;> simp [bindFrom, hname]
    | some v =>
      cases hlater : (bindFrom lookup (slot + 1) names.length names).1 with
      | error fault =>
        have hnone : ∀ vs : List α, names.map lookup ≠ vs.map some := by
          intro vs hvs
          rw [← ih (slot + 1), hlater] at hvs
          cases hvs
        cases values <;> simp [bindFrom, hname, hlater, Except.map, hnone]
      | ok vs =>
        have hvs := (ih (slot + 1)).mp hlater
        have hinj := List.map_injective_iff.mpr (Option.some_injective α)
        cases values <;> simp [bindFrom, hname, hlater, Except.map, hvs, hinj.eq_iff]

/-- Where every name has a value, all of them are looked up. -/
theorem bindFrom_of_forall (slot : Nat) (h : ∀ name ∈ names, (lookup name).isSome) :
    bindFrom lookup slot names.length names = (.ok (names.filterMap lookup), names) := by
  induction names generalizing slot with
  | nil => rfl
  | cons name names ih =>
    obtain ⟨v, hv⟩ := Option.isSome_iff_exists.mp (h name (by simp))
    have hlater := ih (slot + 1) fun other hother => h other (by simp [hother])
    simp only [List.length_cons, bindFrom, hv, hlater, List.filterMap_cons_some hv, Except.map]

/-- Nothing is looked up after the first name that has no value. -/
theorem bindFrom_of_missing (slot : Nat) {before after : List String} {name : String}
    (hbefore : ∀ other ∈ before, (lookup other).isSome) (hname : lookup name = none) :
    bindFrom lookup slot (before ++ name :: after).length (before ++ name :: after) =
      (.error (.unbound name), before ++ [name]) := by
  induction before generalizing slot with
  | nil => simp only [List.nil_append, List.length_cons, bindFrom, hname]
  | cons other before ih =>
    obtain ⟨v, hv⟩ := Option.isSome_iff_exists.mp (hbefore other (by simp))
    have hlater := ih (slot + 1) fun o ho => hbefore o (by simp [ho])
    simp only [List.cons_append, List.length_cons, bindFrom, hv, hlater, Except.map]

/-- Either every name has a value, or there is a first one that has none. -/
theorem forall_isSome_or_exists_first (lookup : String → Option α) (names : List String) :
    (∀ name ∈ names, (lookup name).isSome) ∨ ∃ before name after,
      names = before ++ name :: after ∧ (∀ other ∈ before, (lookup other).isSome) ∧
        lookup name = none := by
  cases hfind : names.find? (fun name => (lookup name).isNone) with
  | none =>
    refine .inl fun name hname => Option.isSome_iff_ne_none.mpr ?_
    simpa using List.find?_eq_none.mp hfind name hname
  | some name =>
    obtain ⟨hname, before, after, rfl, hbefore⟩ := List.find?_eq_some_iff_append.mp hfind
    exact .inr ⟨before, name, after, rfl, by simpa using hbefore, by simpa using hname⟩

/-- Whatever values the slots are to have, values for the names can be chosen so that each slot gets
its own. -/
def BindsEach (q : Query) : Prop :=
  ∀ values : List Value, values.length = q.parameterCount →
    ∃ lookup, (q.bind lookup).1 = .ok values

theorem map_lookup_zip (hnames : names.Nodup) (hlength : values.length = names.length) :
    names.map (fun name => (names.zip values).lookup name) = values.map some := by
  induction names generalizing values with
  | nil => simpa using hlength
  | cons name names ih =>
    obtain _ | ⟨v, values⟩ := values
    · simp at hlength
    obtain ⟨hnew, hnames⟩ := List.nodup_cons.mp hnames
    have hothers : ∀ other ∈ names, (((name, v) :: names.zip values).lookup other) =
        (names.zip values).lookup other := by
      intro other hother
      have hne : (other == name) = false := beq_false_of_ne fun h => hnew (h ▸ hother)
      rw [List.lookup_cons, hne]
    rw [List.zip_cons_cons, List.map_cons, List.map_cons, List.map_congr_left hothers,
      ih hnames (by simpa using hlength), List.lookup_cons_self]

/-- A query whose slots have names gives every slot a value of its own exactly if no name stands in
two slots. -/
theorem bindsEach_iff {q : Query} (hcount : q.parameterCount = q.names.length) :
    q.BindsEach ↔ q.names.Nodup := by
  have hbind : ∀ (lookup : String → Option Value) (values : List Value),
      (q.bind lookup).1 = .ok values ↔ q.names.map lookup = values.map some := by
    intro lookup values
    rw [bind, hcount]
    exact bindFrom_eq_ok 0
  constructor
  · intro hbinds
    obtain ⟨lookup, hlookup⟩ :=
      hbinds ((List.range q.parameterCount).map (Value.int ∘ Int.ofNat)) (by simp)
    rw [hbind] at hlookup
    apply List.Nodup.of_map lookup
    rw [hlookup, List.map_map]
    refine List.nodup_range.map fun k l h => ?_
    simpa using h
  · intro hnames values hlength
    exact ⟨_, (hbind _ values).mpr (map_lookup_zip hnames (hlength.trans hcount))⟩

end Cql.Query
