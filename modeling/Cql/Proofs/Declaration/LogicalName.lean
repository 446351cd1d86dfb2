import Cql.Proofs.Casing.Camel
import Cql.Proofs.Declaration.Derivation
import Cql.Proofs.Mapping.Exact
import Cql.Proofs.Statement.Cells
import Cql.Proofs.Statement.Plain

/-!
Logical names of derived fields. They are made of letters and digits. An entity without declared
columns has the physical name of a field for its column, and a SELECT in camel case writes it
without an alias; it is the logical name exactly if this is in camel case already.
-/

namespace Cql

variable {catalog : Catalog} {casing : Casing} {e : Entity} {entries : List (String × String)}

/-- Every entry is that of a nested field, which is a path, or it has the physical name. -/
def ColumnMap.IsUndeclared (casing : Casing) (m : ColumnMap) : Prop :=
  ∀ entry ∈ m.entries, '.' ∈ entry.1.toList ∨ entry.2 = casing.physical entry.1

open ColumnMap (IsUndeclared)

theorem Memo.returns_resolveFields {fields : List Field} (h : ∀ f ∈ fields, f.column = none)
    (walk : List String) : Resolving.Returns (resolveFields catalog casing walk fields)
      fun entries => IsUndeclared casing { entries } := by
  -- The fields after the first one add their entries behind its own.
  have hjoin : ∀ {own : List (String × String)} {others : Resolving (List (String × String))},
      IsUndeclared casing { entries := own } →
      Resolving.Returns others (fun entries => IsUndeclared casing { entries }) →
      Resolving.Returns (do let own ← pure own; let entries ← others; return own ++ entries)
        fun entries => IsUndeclared casing { entries } :=
    fun hown hothers => .bind (.pure hown) fun _ hown => hothers.bind fun _ hothers =>
      .pure (List.forall_mem_append.mpr ⟨hown, hothers⟩)
  have hnone : IsUndeclared casing { entries := [] } := List.forall_mem_nil _
  fun_induction resolveFields catalog casing walk fields with
  | case1 => exact .pure hnone
  | case2 walk f fs _ _ ih => exact hjoin hnone (ih fun g hg => h g (by simp [hg]))
  | case3 walk f fs _ _ _ ih =>
    refine hjoin ?_ (ih fun g hg => h g (by simp [hg]))
    exact List.forall_mem_singleton.mpr (.inr (by simp [Field.physical, h f List.mem_cons_self]))
  | case4 walk f fs _ _ i _ _ ih => exact hjoin hnone (ih fun g hg => h g (by simp [hg]))
  | case5 walk f fs _ _ i hi sub hsub ihothers ihsub =>
    refine Resolving.returns_any.bind fun tables _ => ?_
    split
    · exact Resolving.Ensures.throw_bind
    · refine Resolving.returns_any.bind fun entries _ => ?_
      refine hjoin ?_ (ihothers fun g hg => h g (by simp [hg]))
      exact List.forall_mem_map.mpr fun inner _ => .inl (by simp [ColumnMap.qualify])

theorem Entity.isUndeclared_columns (h : ∀ f ∈ e.fields, f.column = none) :
    Yields (e.columns catalog casing) fun entries => IsUndeclared casing { entries } :=
  (Memo.returns_resolveFields h [e.typeName] ⟨{ catalog }, []⟩ trivial).2

/-- A name without dots is resolved to its physical name, unless a column is declared. -/
theorem Scope.resolve_of_undeclared (hentries : e.columns catalog casing = .ok entries)
    (h : ∀ f ∈ e.fields, f.column = none) {logical : String} (hdot : '.' ∉ logical.toList) :
    resolve ⟨casing, some ⟨entries⟩⟩ logical = casing.physical logical := by
  rw [resolve]
  cases hlookup : entries.lookup logical with
  | none => simp [ColumnMap.get?, hlookup]
  | some physical =>
    have hphysical : physical = casing.physical logical :=
      (e.isUndeclared_columns h entries hentries _ (mem_of_lookup hlookup)).resolve_left hdot
    simp [ColumnMap.get?, hlookup, hphysical]

namespace Declaration

theorem isAlphanum_logicalName (name : String) : ∀ c ∈ (logicalName name).toList, c.isAlphanum := by
  intro c hc
  rw [logicalName, String.toList_ofList] at hc
  exact Casing.Words.isAlphanum_of_mem_lowerCamel
    (fun _ hword _ => Casing.Words.isAlphanum_of_mem hword) hc

/-- Every field of a derived entity has the logical name of a declared one. -/
theorem logical_derive (d : Declaration) : Yields (derive d) fun D =>
    ∀ o ∈ D.fields, ∃ name, o.logical = logicalName name := by
  refine (derive_eq_ok d).mono fun D ⟨ms, _, hD⟩ o ho => ?_
  obtain ⟨m, hm⟩ := hD.exists_member ho
  exact ⟨m.name, hm.logical⟩

theorem lowerCamel_logicalName (name : String) :
    Casing.lowerCamel.physical (logicalName name) = logicalName name ↔
      Casing.IsCamel (logicalName name).toList :=
  Casing.lowerCamel_physical_eq_self (isAlphanum_logicalName name)

/-- A logical name stays as it is in camel case exactly if its capitals stand where words begin. So
it is with the columns of a derived entity that declares none: exactly then a SELECT, which has no
aliases under this casing, writes their logical names. -/
theorem unaliased_derived (name : String) :
    (Casing.lowerCamel.physical (logicalName name) = logicalName name ↔
      Casing.IsCamel (logicalName name).toList) ∧
    ∀ (d : Declaration) (D : Derived) (path : String) (placeOf : String → Nat) (catalog : Catalog)
      (entries : List (String × String)), derive d = .ok D →
      (∀ o ∈ D.fields, o.marks.column = none) →
      (D.entity path placeOf).columns catalog .lowerCamel = .ok entries →
      ∀ f ∈ (D.entity path placeOf).fields,
        (f.physical .lowerCamel = f.name ↔ Casing.IsCamel f.name.toList) ∧
        (Statement.selectColumn ⟨.lowerCamel, some ⟨entries⟩⟩ f.name = [.text f.name] ↔
          Casing.IsCamel f.name.toList) := by
  refine ⟨lowerCamel_logicalName name, ?_⟩
  intro d D path placeOf catalog entries hderive hnone hentries f hf
  have hcolumns : ∀ g ∈ (D.entity path placeOf).fields, g.column = none :=
    List.forall_mem_map.mpr hnone
  have hname : ∃ own, f.name = logicalName own := by
    obtain ⟨o, ho, rfl⟩ := List.mem_map.mp hf
    exact logical_derive d D hderive o ho
  obtain ⟨own, hname⟩ := hname
  have hphysical : f.physical .lowerCamel = Casing.lowerCamel.physical f.name := by
    rw [Field.physical, hcolumns f hf, Option.getD_none]
  have hdot : '.' ∉ f.name.toList := by
    rw [hname]
    exact fun hdot => absurd (isAlphanum_logicalName own '.' hdot) (by decide)
  have hselect : Statement.selectColumn ⟨.lowerCamel, some ⟨entries⟩⟩ f.name =
      [.text (Casing.lowerCamel.physical f.name)] := by
    rw [Statement.selectColumn, if_neg (by simp [Casing.isLogical]), Scope.name,
      Scope.resolve_of_undeclared hentries hcolumns hdot]
  have hcamel : Casing.lowerCamel.physical f.name = f.name ↔ Casing.IsCamel f.name.toList := by
    rw [hname]
    exact lowerCamel_logicalName own
  refine ⟨by rw [hphysical, hcamel], ?_⟩
  rw [hselect, ← hcamel]
  simp

/-- A person with names and coordinates. -/
def person : Declaration where
  name := "Person"
  shape := .record [⟨"first_name", "String", []⟩, ⟨"r#type", "String", []⟩, ⟨"x_y_z", "i64", []⟩]

theorem unaliased_derived_person :
    Casing.lowerCamel.physical (logicalName "first_name") = logicalName "first_name" ∧
    ∃ D entries, derive person = .ok D ∧
    (D.entity "crm" fun _ => 0).columns [] .lowerCamel = .ok entries ∧
    Statement.selectColumn ⟨.lowerCamel, some ⟨entries⟩⟩ "firstName" = [.text "firstName"] ∧
    Statement.selectColumn ⟨.lowerCamel, some ⟨entries⟩⟩ "xYZ" ≠ [.text "xYZ"] := by
  have hcolumns : Entity.columns [] .lowerCamel ⟨"crm::Person", "Person", none,
      [{ name := "firstName" }, { name := "type" }, { name := "xYZ" }]⟩ =
      .ok [("firstName", "firstName"), ("type", "type"), ("xYZ", "xYz")] := by
    rw [Entity.columns]
    simp only [Memo.resolveFields]
    rfl
  obtain ⟨hfirst, hderived⟩ := unaliased_derived "first_name"
  have hfields := hderived person _ "crm" (fun _ => 0) [] _ rfl (by decide) hcolumns
  refine ⟨hfirst.mpr (by decide +kernel), _, _, rfl, hcolumns, ?_, ?_⟩
  · exact (hfields { name := "firstName" } List.mem_cons_self).2.mpr (by decide +kernel)
  · exact fun h => absurd ((hfields { name := "xYZ" } (by decide)).2.mp h) (by decide +kernel)

/-- One-letter words after the first make capitals that no word begins with. -/
theorem logicalName_recased : ¬ ∀ name : String, Casing.isPlain (plainName name) →
    Casing.lowerCamel.physical (logicalName name) = logicalName name := by
  intro hall
  have h := hall "a_b_c" (by decide)
  revert h
  decide +kernel

end Declaration

end Cql
