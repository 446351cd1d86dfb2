import Mathlib.Data.List.Sort
import Cql.Proofs.Mapping.Leaves

/-!
The columns of an entity itself among its leaves: those with paths of one position. Where no field
is nested, there are no others.
-/

namespace Cql

variable {catalog : Catalog} {e : Entity}

/-- The logical name of a column. -/
def Stop.key (stop : Stop) : String := ".".intercalate stop.names

theorem Memo.resolveFields_of_flat (casing : Casing) (walk : List String) {fields : List Field}
    (hflat : ∀ f ∈ fields, f.isTransient ∨ f.nested = none) :
    resolveFields catalog casing walk fields =
      pure ((fields.filter (·.isColumn)).map fun f => (f.name, f.physical casing)) := by
  induction fields with
  | nil =>
    rw [resolveFields]
    rfl
  | cons f fs ih =>
    rw [resolveFields, ih fun f hf => hflat f (by simp [hf]), List.filter_cons]
    by_cases htransient : f.isTransient
    · rw [if_pos htransient, if_neg (by simp [Field.isColumn, htransient])]
      rfl
    · have hnested : f.nested = none := (hflat f (by simp)).resolve_left htransient
      rw [if_neg htransient, if_pos (by simp [Field.isColumn, htransient, hnested])]
      simp only [hnested]
      rfl

namespace Entity

/-- The columns of the entity itself, with their paths. -/
def ownLeaves (e : Entity) : Tour :=
  (e.fields.zipIdx.filter (·.1.isColumn)).map fun place => ([place.2], ⟨[place.1.name], e, place.1⟩)

theorem map_key_ownLeaves (e : Entity) :
    e.ownLeaves.map (·.2.key) = (Eligible.ofEntity e).select := by
  have hfields : (e.fields.zipIdx.filter (·.1.isColumn)).map Prod.fst =
      e.fields.filter (·.isColumn) := by
    conv_rhs => rw [← List.zipIdx_map_fst 0 e.fields, List.filter_map]
    rfl
  have hkey : ∀ place : Field × Nat, (⟨[place.1.name], e, place.1⟩ : Stop).key = place.1.name :=
    fun place => by simp [Stop.key]
  rw [Eligible.ofEntity, ← hfields, ownLeaves, List.map_map, List.map_map]
  exact List.map_congr_left fun place _ => hkey place

theorem sorted_ownLeaves (e : Entity) : e.ownLeaves.Pairwise (·.1 < ·.1) := by
  have hplaces : e.fields.zipIdx.Pairwise fun place other => place.2 < other.2 := by
    rw [← List.pairwise_map (f := Prod.snd) (R := (· < ·)), List.zipIdx_map_snd]
    exact List.pairwise_lt_range'
  rw [ownLeaves, List.pairwise_map]
  exact (hplaces.filter _).imp fun h => List.cons_lt_cons_iff.mpr (.inl h)

/-- They are the leaves with paths of one position. -/
theorem mem_ownLeaves {path : List Nat} {stop : Stop} : (path, stop) ∈ e.ownLeaves ↔
    (e.stop? catalog path = some stop ∧ stop.field.nested = none) ∧ path.length = 1 := by
  constructor
  · intro h
    obtain ⟨⟨f, i⟩, hplace, heq⟩ := List.mem_map.mp h
    obtain ⟨hmem, hcolumn⟩ := List.mem_filter.mp hplace
    obtain ⟨rfl, rfl⟩ := Prod.mk.inj heq
    have hf : e.fields[i]? = some f := List.mem_zipIdx_iff_getElem?.mp hmem
    rw [Field.isColumn, Bool.and_eq_true, Bool.not_eq_true', Option.isNone_iff_eq_none] at hcolumn
    exact ⟨⟨(stop?_of_field hf hcolumn.1).mpr (.inl ⟨rfl, rfl⟩), hcolumn.2⟩, rfl⟩
  · rintro ⟨⟨hstop, hnested⟩, hlength⟩
    obtain ⟨i, rfl⟩ := List.length_eq_one_iff.mp hlength
    obtain ⟨f, hf, hkept, ⟨-, rfl⟩ | ⟨sub, -, inner, hinner, -⟩⟩ := stop?_cons_eq_some_iff.mp hstop
    · refine List.mem_map.mpr ⟨(f, i), List.mem_filter.mpr ⟨?_, ?_⟩, rfl⟩
      · exact List.mem_zipIdx_iff_getElem?.mpr hf
      · change f.nested = none at hnested
        simp [Field.isColumn, hkept, hnested]
    · cases hinner

/-- The leaves with paths of one position are the columns of the entity itself. -/
theorem AreLeaves.filter_eq {leaves : Tour} (h : e.AreLeaves catalog leaves) :
    leaves.filter (·.1.length = 1) = e.ownLeaves := by
  have hirrefl : Std.Irrefl fun place other : List Nat × Stop => place.1 < other.1 :=
    ⟨fun place => List.lt_irrefl place.1⟩
  have hantisymm : Std.Antisymm fun place other : List Nat × Stop => place.1 < other.1 :=
    ⟨fun place other h h' => absurd h' (lt_asymm h)⟩
  refine List.Pairwise.eq_of_mem_iff (h.sorted.filter _) e.sorted_ownLeaves fun ⟨path, stop⟩ => ?_
  rw [List.mem_filter, h.mem_iff, decide_eq_true_eq]
  exact mem_ownLeaves.symm

/-- The logical names of the columns are those of the leaves. -/
theorem exists_leaves (hacyclic : ¬ e.IsCyclic catalog) :
    ∃ leaves, e.AreLeaves catalog leaves ∧ e.leaves catalog = .ok (leaves.map (·.2.key)) := by
  obtain ⟨kept, t, leaves, hrun, hleaves, hmaps, -⟩ :=
    Memo.columnsOf_leaves catalog .lowerCamel hacyclic
  have hmatches : Matches (fun kept names => kept.value.logicalNames = names)
      ((Memo.columnsOf e .lowerCamel).run ⟨{ catalog }, []⟩).1 (e.leaves catalog) :=
    (Memo.ensures_true_columnsOf (areTold_singleton e) List.mem_cons_self .lowerCamel
      ⟨{ catalog }, []⟩ Memo.isTrue_ofCatalog).2
  have hnames : kept.value.logicalNames = leaves.map (·.2.key) := by
    rw [ColumnMap.logicalNames, eq_comm, ← List.forall₂_eq_eq_eq, List.forall₂_map_left_iff,
      List.forall₂_map_right_iff]
    exact hmaps.imp fun leaf entry h => h.key.symm
  refine ⟨leaves, hleaves, ?_⟩
  rw [hrun] at hmatches
  generalize e.leaves catalog = told at hmatches ⊢
  cases hmatches with
  | ok hkept => rw [← hkept, hnames]

/-- Without nested fields, the columns of an entity are its own. -/
theorem leaves_of_flat (hflat : ∀ f ∈ e.fields, f.isTransient ∨ f.nested = none) :
    e.leaves catalog = .ok (Eligible.ofEntity e).select := by
  rw [leaves, Memo.resolveFields_of_flat .lowerCamel _ hflat, Eligible.ofEntity]
  change Except.ok _ = _
  rw [List.map_map]
  rfl

end Entity

end Cql
