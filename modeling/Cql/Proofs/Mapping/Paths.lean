import Mathlib.Data.List.Lex
import Cql.Proofs.Mapping.Cycle

/-!
Paths through nested fields. A path goes by positions, each in the fields of the entity that the
field before it holds. Of two paths the one with the smaller position where they first differ is the
earlier one, and a path is earlier than those that go on from it, so paths stand in the order of
declaration.
-/

namespace Cql

variable {catalog : Catalog} {e sub : Entity} {f : Field} {n : Nat} {path : List Nat}

/-- Where a path stops. -/
structure Stop where
  /-- The names of the fields on the path. -/
  names : List String
  /-- The entity that declares the last of them. -/
  owner : Entity
  field : Field
  deriving DecidableEq

/-- The same stop for an entity that holds under this name the one where the path begins. -/
def Stop.under (name : String) (stop : Stop) : Stop := { stop with names := name :: stop.names }

/-- Some paths with their stops. -/
abbrev Tour := List (List Nat × Stop)

namespace Entity

/-- Where a path of positions stops. Each field on it but the last holds the entity with the next
one. -/
def stop? (catalog : Catalog) (e : Entity) : List Nat → Option Stop
  | [] => none
  | i :: path =>
    e.fields[i]?.bind fun f =>
      if f.isTransient then none
      else match path with
        | [] => some ⟨[f.name], e, f⟩
        | _ :: _ => (f.nestedEntity? catalog).bind fun sub =>
          (sub.stop? catalog path).map (.under f.name)

/-- The entity holds the other one in a field where this path stops. -/
def Holds (catalog : Catalog) (e : Entity) (path : List Nat) (sub : Entity) : Prop :=
  ∃ stop, e.stop? catalog path = some stop ∧ stop.field.nestedEntity? catalog = some sub

/-- The first one with this type name among the entities that the entity holds. -/
def HoldsFirst (catalog : Catalog) (e : Entity) (name : String) (first : Entity) : Prop :=
  ∃ path, e.Holds catalog path first ∧ first.typeName = name ∧
    ∀ earlier < path, ∀ sub, e.Holds catalog earlier sub → sub.typeName ≠ name

/-- The paths that stop at fields that are not nested, in their order. -/
structure AreLeaves (catalog : Catalog) (e : Entity) (leaves : Tour) : Prop where
  sorted : leaves.Pairwise (·.1 < ·.1)
  mem_iff : ∀ path stop, (path, stop) ∈ leaves ↔
    e.stop? catalog path = some stop ∧ stop.field.nested = none

/-- A path stops at the field that its first position stands for, or where the rest of it stops in
what the field holds. -/
theorem stop?_cons_eq_some_iff {stop : Stop} : e.stop? catalog (n :: path) = some stop ↔
    ∃ f, e.fields[n]? = some f ∧ f.isTransient = false ∧
      (path = [] ∧ stop = ⟨[f.name], e, f⟩ ∨
        ∃ sub, f.nestedEntity? catalog = some sub ∧
          ∃ inner, sub.stop? catalog path = some inner ∧ stop = inner.under f.name) := by
  rw [stop?, Option.bind_eq_some_iff]
  refine exists_congr fun f => and_congr_right fun _ => ?_
  cases f.isTransient with
  | true => simp
  | false =>
    cases path with
    | nil => simp [stop?, eq_comm]
    | cons i path => simp [Option.bind_eq_some_iff, eq_comm (a := stop)]

theorem stop?_of_field (hf : e.fields[n]? = some f) (hkept : f.isTransient = false) {stop : Stop} :
    e.stop? catalog (n :: path) = some stop ↔ path = [] ∧ stop = ⟨[f.name], e, f⟩ ∨
      ∃ sub, f.nestedEntity? catalog = some sub ∧
        ∃ inner, sub.stop? catalog path = some inner ∧ stop = inner.under f.name := by
  rw [stop?_cons_eq_some_iff]
  simp [hf, hkept]

theorem stop?_of_transient (hf : e.fields[n]? = some f) (htransient : f.isTransient = true) :
    e.stop? catalog (n :: path) = none := by
  simp [stop?, hf, htransient]

theorem stop?_of_length_le (h : e.fields.length ≤ n) : e.stop? catalog (n :: path) = none := by
  simp [stop?, List.getElem?_eq_none h]

theorem ne_nil_of_stop? {stop : Stop} (h : e.stop? catalog path = some stop) : path ≠ [] := by
  rintro rfl
  cases h

/-- A path of one position stops at a field of the entity itself, a longer one at a field of an
entity that is held. -/
theorem owner_of_stop? {stop : Stop} (h : e.stop? catalog path = some stop) :
    stop.names ≠ [] ∧ (stop.names.length = 1 → stop.owner = e) ∧
      (stop.names.length ≠ 1 → stop.owner ∈ catalog) := by
  induction path generalizing e stop with
  | nil => cases h
  | cons i path ih =>
    obtain ⟨f, -, -, ⟨rfl, rfl⟩ | ⟨sub, hsub, inner, hinner, rfl⟩⟩ := stop?_cons_eq_some_iff.mp h
    · exact ⟨by simp, fun _ => rfl, fun hlength => absurd rfl hlength⟩
    · obtain ⟨hne, hown, hheld⟩ := ih hinner
      refine ⟨by simp [Stop.under], fun hlength => ?_, fun _ => ?_⟩
      · simp [Stop.under, hne] at hlength
      · by_cases hlength : inner.names.length = 1
        · exact hown hlength ▸ Field.mem_of_nestedEntity? hsub
        · exact hheld hlength

end Entity

/-- The stops of an entity by paths that begin with such a position, in the order of the paths. -/
structure IsTour (catalog : Catalog) (e : Entity) (begins : Nat → Prop) (tour : Tour) : Prop where
  sorted : tour.Pairwise (·.1 < ·.1)
  mem_iff : ∀ path stop, (path, stop) ∈ tour ↔
    e.stop? catalog path = some stop ∧ ∃ i later, path = i :: later ∧ begins i

namespace Tour

variable {tour tour' : Tour} {stop : Stop}

/-- The entities that are held at the stops. -/
def held (catalog : Catalog) (tour : Tour) : List Entity :=
  tour.filterMap (·.2.field.nestedEntity? catalog)

/-- The stops at fields that are not nested. -/
def leaves (tour : Tour) : Tour := tour.filter (·.2.field.nested = none)

/-- The same tour through a field at this position and with this name. -/
def under (i : Nat) (name : String) (tour : Tour) : Tour :=
  tour.map (Prod.map (i :: ·) (Stop.under name))

theorem held_append : held catalog (tour ++ tour') = held catalog tour ++ held catalog tour' :=
  List.filterMap_append

theorem leaves_append : leaves (tour ++ tour') = leaves tour ++ leaves tour' :=
  List.filter_append _ _

theorem held_under (i : Nat) (name : String) :
    held catalog (under i name tour) = held catalog tour := List.filterMap_map

theorem leaves_under (i : Nat) (name : String) :
    leaves (under i name tour) = under i name (leaves tour) := List.filter_map

theorem held_cons_of_none (h : stop.field.nestedEntity? catalog = none) :
    held catalog ((path, stop) :: tour) = held catalog tour := List.filterMap_cons_none h

theorem held_cons_of_some (h : stop.field.nestedEntity? catalog = some sub) :
    held catalog ((path, stop) :: tour) = sub :: held catalog tour := List.filterMap_cons_some h

theorem leaves_cons_of_none (h : stop.field.nested = none) :
    leaves ((path, stop) :: tour) = (path, stop) :: leaves tour :=
  List.filter_cons_of_pos (by simpa using h)

theorem leaves_cons_of_ne_none (h : stop.field.nested ≠ none) :
    leaves ((path, stop) :: tour) = leaves tour :=
  List.filter_cons_of_neg (by simpa using h)

end Tour

namespace IsTour

variable {begins : Nat → Prop} {tour own others : Tour}

theorem nil (h : ∀ i path, begins i → e.stop? catalog (i :: path) = none) :
    IsTour catalog e begins [] := by
  refine ⟨.nil, fun path stop => iff_of_false List.not_mem_nil ?_⟩
  rintro ⟨hstop, i, later, rfl, hbegins⟩
  rw [h i later hbegins] at hstop
  cases hstop

theorem mem_iff_stop? (h : IsTour catalog e (0 ≤ ·) tour) {path : List Nat} {stop : Stop} :
    (path, stop) ∈ tour ↔ e.stop? catalog path = some stop := by
  refine (h.mem_iff path stop).trans (and_iff_left_of_imp fun hstop => ?_)
  obtain ⟨i, later, rfl⟩ := List.exists_cons_of_ne_nil (Entity.ne_nil_of_stop? hstop)
  exact ⟨i, later, rfl, Nat.zero_le i⟩

theorem append (hown : IsTour catalog e (· = n) own)
    (hothers : IsTour catalog e (n + 1 ≤ ·) others) : IsTour catalog e (n ≤ ·) (own ++ others) where
  sorted := by
    refine List.pairwise_append.mpr ⟨hown.sorted, hothers.sorted, ?_⟩
    rintro ⟨path, stop⟩ hpath ⟨path', stop'⟩ hpath'
    obtain ⟨-, i, later, rfl, rfl⟩ := (hown.mem_iff _ _).mp hpath
    obtain ⟨-, j, later', rfl, hlt⟩ := (hothers.mem_iff _ _).mp hpath'
    exact List.cons_lt_cons_iff.mpr (.inl hlt)
  mem_iff path stop := by
    rw [List.mem_append, hown.mem_iff, hothers.mem_iff, ← and_or_left]
    refine and_congr_right fun _ => ⟨?_, ?_⟩
    · rintro (⟨i, later, hpath, hi⟩ | ⟨i, later, hpath, hi⟩) <;>
        exact ⟨i, later, hpath, by omega⟩
    · rintro ⟨i, later, hpath, hi⟩
      obtain heq | hlt := Nat.eq_or_lt_of_le hi
      · exact .inl ⟨i, later, hpath, heq.symm⟩
      · exact .inr ⟨i, later, hpath, hlt⟩

theorem singleton (hf : e.fields[n]? = some f) (hkept : f.isTransient = false)
    (hnone : f.nestedEntity? catalog = none) :
    IsTour catalog e (· = n) [([n], ⟨[f.name], e, f⟩)] where
  sorted := List.pairwise_singleton _ _
  mem_iff path stop := by
    rw [List.mem_singleton, Prod.mk.injEq]
    constructor
    · rintro ⟨rfl, rfl⟩
      exact ⟨(Entity.stop?_of_field hf hkept).mpr (.inl ⟨rfl, rfl⟩), n, [], rfl, rfl⟩
    · rintro ⟨hstop, i, later, rfl, rfl⟩
      obtain ⟨rfl, rfl⟩ | ⟨sub, hsub, -⟩ := (Entity.stop?_of_field hf hkept).mp hstop
      · exact ⟨rfl, rfl⟩
      · rw [hnone] at hsub
        cases hsub

/-- A field that holds an entity stands before what can be reached through it. -/
theorem nested (hf : e.fields[n]? = some f) (hkept : f.isTransient = false)
    (hsub : f.nestedEntity? catalog = some sub) (h : IsTour catalog sub (0 ≤ ·) tour) :
    IsTour catalog e (· = n) (([n], ⟨[f.name], e, f⟩) :: tour.under n f.name) where
  sorted := by
    refine List.pairwise_cons.mpr ⟨?_, List.pairwise_map.mpr (h.sorted.imp ?_)⟩
    · intro reached hreached
      obtain ⟨⟨path, stop⟩, hpath, rfl⟩ := List.mem_map.mp hreached
      obtain ⟨-, i, later, rfl, -⟩ := (h.mem_iff _ _).mp hpath
      exact List.cons_lt_cons_iff.mpr (.inr ⟨rfl, List.nil_lt_cons i later⟩)
    · exact fun hlt => List.cons_lt_cons_iff.mpr (.inr ⟨rfl, hlt⟩)
  mem_iff path stop := by
    rw [List.mem_cons, Prod.mk.injEq, Tour.under, List.mem_map]
    constructor
    · rintro (⟨rfl, rfl⟩ | ⟨⟨later, inner⟩, hinner, heq⟩)
      · exact ⟨(Entity.stop?_of_field hf hkept).mpr (.inl ⟨rfl, rfl⟩), n, [], rfl, rfl⟩
      · obtain ⟨rfl, rfl⟩ := Prod.mk.inj heq
        have hstop := ((h.mem_iff _ _).mp hinner).1
        exact ⟨(Entity.stop?_of_field hf hkept).mpr (.inr ⟨sub, hsub, inner, hstop, rfl⟩), n, later,
          rfl, rfl⟩
    · rintro ⟨hstop, i, later, rfl, rfl⟩
      obtain ⟨rfl, rfl⟩ | ⟨held, hheld, inner, hinner, rfl⟩ :=
        (Entity.stop?_of_field hf hkept).mp hstop
      · exact .inl ⟨rfl, rfl⟩
      · obtain rfl : sub = held := Option.some.inj (hsub.symm.trans hheld)
        exact .inr ⟨(later, inner), h.mem_iff_stop?.mpr hinner, rfl⟩

theorem areLeaves (h : IsTour catalog e (0 ≤ ·) tour) : e.AreLeaves catalog (Tour.leaves tour) where
  sorted := h.sorted.filter _
  mem_iff path stop := by
    rw [Tour.leaves, List.mem_filter, h.mem_iff_stop?, decide_eq_true_iff]

theorem holdsFirst (h : IsTour catalog e (0 ≤ ·) tour) {name : String} {first : Entity}
    (hfirst : (Tour.held catalog tour).find? (·.typeName = name) = some first) :
    e.HoldsFirst catalog name first := by
  have hname : first.typeName = name := by simpa using List.find?_some hfirst
  rw [Tour.held, List.find?_filterMap] at hfirst
  obtain ⟨⟨path, stop⟩, hfound, hheld⟩ := Option.bind_eq_some_iff.mp hfirst
  obtain ⟨-, before, after, rfl, hbefore⟩ := List.find?_eq_some_iff_append.mp hfound
  refine ⟨path, ⟨stop, h.mem_iff_stop?.mp (by simp), hheld⟩, hname, ?_⟩
  rintro earlier hlt sub ⟨stop', hstop', hsub⟩ hname'
  -- What stands after the first one has a later path.
  obtain hmem | hmem := List.mem_append.mp (h.mem_iff_stop?.mpr hstop')
  · have hnot := hbefore _ hmem
    simp [hsub, hname'] at hnot
  · obtain heq | hmem := List.mem_cons.mp hmem
    · cases heq
      exact lt_irrefl _ hlt
    · have hsorted := (List.pairwise_append.mp h.sorted).2.1
      exact lt_asymm hlt ((List.pairwise_cons.mp hsorted).1 _ hmem)

end IsTour

end Cql
