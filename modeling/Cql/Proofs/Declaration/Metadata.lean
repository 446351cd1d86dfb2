import Cql.Proofs.Declaration.Snapshot
import Cql.Proofs.Mapping.Described

/-!
The description of a derived entity and the snapshot of its fields. Both are made of the same marks:
the calls that build a field of the description set what its marks say, and the fields that the
description counts among its columns are those that the snapshot has entries for.
-/

namespace Cql.Declaration

variable {d : Declaration} {D : Derived} {ms : List Member}

theorem Outline.built_eq (placeOf : String → Nat) (o : Outline) :
    o.built placeOf = o.field placeOf := by
  obtain ⟨logical, declared, ⟨column, key, readOnly, fixed, transient, nested⟩, nestedType⟩ := o
  have hflags : (flags ⟨column, key, readOnly, fixed, transient, nested⟩).foldl
      (Call.apply placeOf) { name := logical, column := column } =
        { name := logical, column := column, isKey := key, isReadOnly := readOnly,
          isFixed := fixed, isTransient := transient } := by
    cases key <;> cases readOnly <;> cases fixed <;> cases transient <;> rfl
  have hcolumn : (column.map Call.column).toList.foldl (Call.apply placeOf)
      { name := logical } = { name := logical, column := column } := by
    cases column <;> rfl
  rw [built, calls, List.foldl_append, List.foldl_append, hcolumn, hflags]
  cases nestedType <;> rfl

namespace Derived.IsOf

variable {path : String} {placeOf : String → Nat}

theorem select_eq (h : D.IsOf ms) :
    (Eligible.ofEntity (D.entity path placeOf)).select = D.snapshot.map Prod.fst := by
  have hselect : (Eligible.ofEntity (D.entity path placeOf)).select =
      (ms.filter Member.isColumn).map fun m => logicalName m.name :=
    h.map_filter_fields (fun m o ho => ho.isColumn_field placeOf) fun m o ho => ho.logical
  rw [hselect, h.snapshot_eq, List.map_map]
  rfl

/-- A transient field is nothing else, and a nested one is no key and has no column. -/
theorem consistent_field (h : D.IsOf ms) : ∀ f ∈ (D.entity path placeOf).fields,
    ¬(f.isTransient ∧ (f.isKey ∨ f.nested.isSome ∨ f.column.isSome)) ∧
      ¬(f.nested.isSome ∧ (f.isKey ∨ f.column.isSome)) := by
  intro f hf
  obtain ⟨o, ho, rfl⟩ := List.mem_map.mp hf
  obtain ⟨m, hm⟩ := h.exists_member ho
  have hkey : (o.field placeOf).isKey → o.marks.isTransient = false ∧ o.marks.isNested = false :=
    hm.consistent.key
  have hcolumn : (o.field placeOf).column.isSome →
      o.marks.isTransient = false ∧ o.marks.isNested = false := hm.consistent.column
  have hnested : (o.field placeOf).nested.isSome = o.marks.isNested := by
    rw [Outline.field, Option.isSome_map, hm.nested]
  rw [hnested]
  constructor
  · rintro ⟨htransient, hfield | hfield | hfield⟩
    · exact Bool.false_ne_true ((hkey hfield).1.symm.trans htransient)
    · exact Bool.false_ne_true ((hm.consistent.nested hfield).symm.trans htransient)
    · exact Bool.false_ne_true ((hcolumn hfield).1.symm.trans htransient)
  · rintro ⟨hmark, hfield | hfield⟩
    · exact Bool.false_ne_true ((hkey hfield).2.symm.trans hmark)
    · exact Bool.false_ne_true ((hcolumn hfield).2.symm.trans hmark)

end Derived.IsOf

/-- The description of a derived entity is what the calls for its fields build, and the names that
its snapshot has entries for are, in order, those that a memo of it gives for a SELECT. Each key is
among them, and no field is marked in a way that contradicts itself. -/
theorem snapshot_selected (h : derive d = .ok D) (path : String) (placeOf : String → Nat)
    (catalog : Catalog) :
    let e := D.entity path placeOf
    let names := D.snapshot.map Prod.fst
    e.fields = D.fields.map (Outline.built placeOf) ∧
      Step.Ensures (Memo.IsTrue catalog [e]) (Memo.eligibleOf e) (·.select = names) ∧
      (∀ f ∈ e.fields, f.isKey → f.name ∈ names) ∧
      ∀ f ∈ e.fields,
        ¬(f.isTransient ∧ (f.isKey ∨ f.nested.isSome ∨ f.column.isSome)) ∧
          ¬(f.nested.isSome ∧ (f.isKey ∨ f.column.isSome)) := by
  intro e names
  obtain ⟨ms, -, hD⟩ := derive_eq_ok d D h
  have hselect : (Eligible.ofEntity e).select = names := hD.select_eq
  refine ⟨?_, ?_, fun f hf hkey => ?_, hD.consistent_field⟩
  · exact List.map_congr_left fun o _ => (o.built_eq placeOf).symm
  · have hgiven : Step.Ensures (Memo.IsTrue catalog [e]) (Memo.eligibleOf e)
        (· = Eligible.ofEntity e) :=
      Memo.ensures_true_eligibleOf (areTold_singleton e) (List.mem_singleton_self e)
    refine hgiven.mono fun eligible heligible => ?_
    rw [heligible, hselect]
  · rw [← hselect]
    exact List.mem_map_of_mem (List.mem_filter.mpr ⟨hf, hD.isColumn_of_isKey f hf hkey⟩)

theorem snapshot_selected_account : ∃ D, derive account = .ok D ∧
    D.snapshot.map Prod.fst = ["accountId", "firstName", "type"] ∧
    ((Memo.eligibleOf (D.entity "crm" fun _ => 0)).run { catalog := [] }).1.select =
      ["accountId", "firstName", "type"] ∧
    ∀ f ∈ (D.entity "crm" fun _ => 0).fields, f.isKey → f.name ∈ D.snapshot.map Prod.fst := by
  obtain ⟨D, hD⟩ : ∃ D, derive account = .ok D := ⟨_, rfl⟩
  obtain ⟨-, hmemo, hkeys, -⟩ := snapshot_selected hD "crm" (fun _ => 0) []
  have hnames : D.snapshot.map Prod.fst = ["accountId", "firstName", "type"] := by
    have hmade : (derive account).map (·.snapshot.map Prod.fst) =
        .ok ["accountId", "firstName", "type"] := by decide +kernel
    rw [hD] at hmade
    exact Except.ok.inj hmade
  refine ⟨D, hD, hnames, ?_, hkeys⟩
  rw [← hnames]
  exact (hmemo ⟨{ catalog := [] }, []⟩ Memo.isTrue_ofCatalog).2

end Cql.Declaration
