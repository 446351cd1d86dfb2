import Cql.Proofs.Declaration.Snapshot
import Cql.Proofs.Program.Update

/-!
Updates of derived entities. A field that is marked as a key is a column, since the marks of an
accepted field do not contradict each other, so that the snapshot has a value for each key.
-/

namespace Cql

theorem Statement.entityAssignments_eq_nil {e : Entity} {snapshot : Row} {excluded : List String}
    (h : ∀ f ∈ e.fields, f.isColumn → (snapshot.get? f.name).isSome) :
    entityAssignments e (.ofEntity e) snapshot excluded = [] ↔ e.settable excluded = [] := by
  have hvalue : ∀ name ∈ e.settable excluded, (snapshot.get? name).isSome := by
    intro name hname
    obtain ⟨f, hf, rfl⟩ := List.mem_map.mp (List.mem_filter.mp (List.mem_filter.mp hname).1).1
    obtain ⟨hmem, hwritable⟩ := List.mem_filter.mp hf
    exact h f hmem (by simp_all)
  rw [entityAssignments, ← Entity.settable, List.filterMap_eq_nil_iff]
  constructor
  · intro hnone
    refine List.eq_nil_iff_forall_not_mem.mpr fun name hname => ?_
    have hsome := hvalue name hname
    rw [Option.map_eq_none_iff.mp (hnone name hname)] at hsome
    cases hsome
  · intro hnil
    rw [hnil]
    exact List.forall_mem_nil _

namespace Declaration

/-- The logical names of the columns that an update sets: an update may write them, they are not
excluded, and the first member with the name is no key. -/
def settable (ms : List Member) (excluded : List String) : List String :=
  let writable := ms.filter fun m =>
    m.isColumn && !m.isMarked "read_only" && !m.isMarked "non_updatable"
  (writable.map fun m => logicalName m.name).filter fun name =>
    name ∉ excluded && !(ms.find? fun m => logicalName m.name = name).any (·.isMarked "id")

namespace Derived.IsOf

variable {D : Derived} {ms : List Member} {path : String} {placeOf : String → Nat}

theorem keys_eq_nil_iff (h : D.IsOf ms) :
    (D.entity path placeOf).keys = [] ↔ ∀ m ∈ ms, m.isMarked "id" = false := by
  have hkeys : (D.entity path placeOf).keys.map Field.name =
      (ms.filter (·.isMarked "id")).map fun m => logicalName m.name :=
    h.map_filter_fields (fun m o ho => ho.marked "id") fun m o ho => ho.logical
  rw [← List.map_eq_nil_iff, hkeys, List.map_eq_nil_iff, List.filter_eq_nil_iff]
  simp only [Bool.not_eq_true]

/-- The snapshot has a value for each column. -/
theorem isSome_get?_row (h : D.IsOf ms) (valueOf : String → Value) :
    ∀ f ∈ (D.entity path placeOf).fields, f.isColumn → ((D.row valueOf).get? f.name).isSome := by
  intro f hf hcolumn
  have hnames : ((D.entity path placeOf).fields.filter (·.isColumn)).map Field.name =
      (ms.filter Member.isColumn).map fun m => logicalName m.name :=
    h.map_filter_fields (fun m o ho => ho.isColumn_field placeOf) fun m o ho => ho.logical
  have hname : f.name ∈ (ms.filter Member.isColumn).map fun m => logicalName m.name := by
    rw [← hnames]
    exact List.mem_map_of_mem (List.mem_filter.mpr ⟨hf, hcolumn⟩)
  rw [Option.isSome_iff_ne_none, h.row_eq]
  intro hnone
  refine Row.get?_ofList_eq_none_iff.mp hnone ?_
  rw [List.map_map]
  exact hname

theorem any_isKey_field? (h : D.IsOf ms) (name : String) :
    ((D.entity path placeOf).field? name).any (·.isKey) =
      (ms.find? fun m => logicalName m.name = name).any (·.isMarked "id") := by
  have hkeys : ((D.entity path placeOf).fields.filter (·.name = name)).map Field.isKey =
      (ms.filter fun m => logicalName m.name = name).map (·.isMarked "id") :=
    h.map_filter_fields (fun m o ho => by rw [← ho.logical]; rfl) fun m o ho => ho.marked "id"
  have hfirst := congrArg List.head? hkeys
  rw [List.head?_map, List.head?_map, List.head?_filter, List.head?_filter] at hfirst
  have hany := congrArg (Option.any id) hfirst
  rwa [Option.any_map, Option.any_map] at hany

theorem settable_entity (h : D.IsOf ms) (excluded : List String) :
    (D.entity path placeOf).settable excluded = settable ms excluded := by
  have hwritable : (Eligible.ofEntity (D.entity path placeOf)).update =
      (ms.filter fun m => m.isColumn && !m.isMarked "read_only" && !m.isMarked "non_updatable").map
        fun m => logicalName m.name := by
    refine h.map_filter_fields (fun m o ho => ?_) fun m o ho => ho.logical
    rw [ho.isColumn_field, ← ho.marked, ← ho.marked]
    rfl
  rw [Entity.settable, Eligible.without, hwritable, List.filter_filter, settable]
  refine List.filter_congr fun name _ => ?_
  rw [h.any_isKey_field?, Bool.and_comm]

end Derived.IsOf

/-- A derived entity with keys is always matched by them. Its update fails only for a cycle of
nested fields, or else where no assignment is left; without keys the one failure is that there are
none. -/
theorem update_derived (d : Declaration) (D : Derived) (h : derive d = .ok D) (path : String)
    (placeOf : String → Nat) (valueOf : String → Value) (excluded : List String) (style : Style)
    (catalog : Catalog) (w : Workshop) (hw : w.IsTrue catalog [D.entity path placeOf]) :
    ∃ ms, members d.shape = .ok ms ∧
      let e := D.entity path placeOf
      let result := (Program.updating e (D.row valueOf) excluded).result style w
      ((∀ m ∈ ms, m.isMarked "id" = false) → result = .error (.misuse (.noKeys e.typeName))) ∧
      ((∃ m ∈ ms, m.isMarked "id" = true) →
        (e.IsCyclic catalog → ∃ err, result = .error err ∧ e.TellsCycle catalog err) ∧
        (¬ e.IsCyclic catalog → settable ms excluded = [] →
          result = .error (.lacking .assignments)) ∧
        (¬ e.IsCyclic catalog → settable ms excluded ≠ [] → ∃ r, result = .ok r)) := by
  obtain ⟨ms, hms, hD⟩ := derive_eq_ok d D h
  refine ⟨ms, hms, fun hnone => ?_, fun ⟨m, hm, hmarked⟩ => ?_⟩
  · exact Program.result_updating_of_keys_eq_nil hw (hD.keys_eq_nil_iff.mpr hnone)
  have hkeys : (D.entity path placeOf).keys ≠ [] := by
    intro hnil
    rw [hD.keys_eq_nil_iff.mp hnil m hm] at hmarked
    cases hmarked
  have hvalues : ∀ f ∈ (D.entity path placeOf).fields, f.isColumn →
      ((D.row valueOf).get? f.name).isSome := hD.isSome_get?_row valueOf
  have hsupplied : ∀ key ∈ (D.entity path placeOf).keys,
      ((D.row valueOf).get? key.name).isSome := by
    intro key hkey
    obtain ⟨hfield, hmark⟩ := List.mem_filter.mp hkey
    exact hvalues key hfield (hD.isColumn_of_isKey key hfield hmark)
  have hends : Ends _ _
      ((Program.updating (D.entity path placeOf) (D.row valueOf) excluded).result style w) :=
    Program.ends_updating hw hkeys hsupplied
  rw [ne_eq, Statement.entityAssignments_eq_nil hvalues, hD.settable_entity] at hends
  revert hends
  generalize Program.result _ style w = result
  intro hends
  cases result with
  | ok r =>
    obtain ⟨hacyclic, hsome⟩ := hends
    exact ⟨fun hcyclic => absurd hcyclic hacyclic, fun _ hnil => absurd hnil hsome,
      fun _ _ => ⟨r, rfl⟩⟩
  | error err =>
    obtain htells | ⟨hacyclic, hnil, rfl⟩ := hends
    · have hcyclic := htells.isCyclic
      exact ⟨fun _ => ⟨err, rfl, htells⟩, fun hacyclic => absurd hcyclic hacyclic,
        fun hacyclic => absurd hcyclic hacyclic⟩
    · exact ⟨fun hcyclic => absurd hcyclic hacyclic, fun _ _ => rfl,
        fun _ hsome => absurd hnil hsome⟩

/-- The types that an account holds. -/
def held : Catalog :=
  [{ typeName := "crm::Address", name := "Address", fields := [{ name := "street" }] }]

/-- Accounts as they are described. -/
def accounts : Entity where
  typeName := "crm::Account"
  name := "Account"
  table := some "accounts"
  fields := [{ name := "accountId", isKey := true }, { name := "firstName" },
    { name := "type", column := some "kind", isReadOnly := true },
    { name := "balance", isTransient := true }, { name := "home", nested := some 0 }]

theorem not_isCyclic_accounts : ¬ accounts.IsCyclic held := by
  rw [Entity.isCyclic_iff (by decide)]
  rintro ⟨sub, -, hcycle⟩
  obtain rfl := List.mem_singleton.mp (Entity.mem_catalog hcycle)
  -- An address holds nothing, so no walk comes back to it.
  obtain ⟨_, ⟨f, hf, -, hnested⟩, -⟩ := Relation.TransGen.head'_iff.mp hcycle
  obtain rfl := List.mem_singleton.mp hf
  cases hnested

theorem update_derived_account : ∃ D, derive account = .ok D ∧
    D.entity "crm" (fun _ => 0) = accounts ∧ ∀ valueOf style,
    (∃ r, (Program.updating accounts (D.row valueOf) []).result style { memo.catalog := held } =
      .ok r) ∧
    (Program.updating accounts (D.row valueOf) ["firstName"]).result style
      { memo.catalog := held } = .error (.lacking .assignments) := by
  obtain ⟨D, hD⟩ : ∃ D, derive account = .ok D := ⟨_, rfl⟩
  have hentity : D.entity "crm" (fun _ => 0) = accounts := by
    have hmade : (derive account).map (·.entity "crm" fun _ => 0) = .ok accounts := by
      decide +kernel
    rw [hD] at hmade
    exact Except.ok.inj hmade
  refine ⟨D, hD, hentity, fun valueOf style => ?_⟩
  have hw : Workshop.IsTrue held [D.entity "crm" fun _ => 0] { memo.catalog := held } :=
    Memo.isTrue_ofCatalog
  have hderived : ∀ excluded, _ := fun excluded =>
    update_derived account D hD "crm" (fun _ => 0) valueOf excluded style held _ hw
  rw [hentity] at hderived
  have hkey : ∀ ms, members account.shape = .ok ms → ∃ m ∈ ms, m.isMarked "id" = true := by
    intro ms hms
    rw [← Except.ok.inj hms]
    decide
  constructor
  · obtain ⟨ms, hms, -, hresult⟩ := hderived []
    refine (hresult (hkey ms hms)).2.2 not_isCyclic_accounts ?_
    rw [← Except.ok.inj hms]
    decide +kernel
  · obtain ⟨ms, hms, -, hresult⟩ := hderived ["firstName"]
    refine (hresult (hkey ms hms)).2.1 not_isCyclic_accounts ?_
    rw [← Except.ok.inj hms]
    decide +kernel

end Declaration

end Cql
