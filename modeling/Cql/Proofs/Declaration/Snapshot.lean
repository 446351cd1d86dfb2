import Cql.Proofs.Casing.Snake
import Cql.Proofs.Declaration.Derivation
import Cql.Proofs.Row

/-!
Snapshots of derived entities. A snapshot is made of one entry for each column of the declaration,
in its order, but two columns may have one logical name, and then the value of the later one takes
the place of the other's. Names in snake case whose words begin with letters never do.
-/

namespace Cql.Declaration

variable {d : Declaration} {D : Derived} {ms : List Member}

/-- Names of columns in snake case that differ have different logical names. -/
theorem logicalName_inj {name other : String} (hname : Casing.IsSnake (plainName name))
    (hother : Casing.IsSnake (plainName other)) (h : logicalName name = logicalName other) :
    plainName name = plainName other := by
  rw [logicalName, logicalName, String.ofList_inj] at h
  rw [← Casing.uncapitalized_snake hname, h, Casing.uncapitalized_snake hother]

theorem nodup_logicalName (hnames : (ms.map fun m => plainName m.name).Nodup)
    (hsnake : ∀ m ∈ ms, Casing.IsSnake (plainName m.name)) :
    (ms.map fun m => logicalName m.name).Nodup := by
  refine List.pairwise_map.mpr ((List.pairwise_map.mp hnames).imp_of_mem ?_)
  intro m m' hm hm' hne hsame
  exact hne (logicalName_inj (hsnake m hm) (hsnake m' hm') hsame)

namespace Derived.IsOf

theorem snapshot_eq (h : D.IsOf ms) : D.snapshot = (ms.filter Member.isColumn).map fun m =>
    (logicalName m.name, "::core::clone::Clone::clone(&self." ++ m.name ++ ")") := by
  refine map_filter_eq h.fields (fun m o ho => ho.isInSnapshot) ?_
  intro m o ho
  rw [ho.logical, ← ho.declared]
  rfl

theorem row_eq (h : D.IsOf ms) (valueOf : String → Value) :
    D.row valueOf = Row.ofList ((ms.filter Member.isColumn).map fun m =>
      (logicalName m.name, valueOf m.name)) := by
  refine congrArg Row.ofList (map_filter_eq h.fields (fun m o ho => ho.isInSnapshot) ?_)
  intro m o ho
  rw [ho.logical, ho.declared]

end Derived.IsOf

/-- An account with a cached balance and a nested address. -/
def account : Declaration where
  name := "Account"
  attributes := [[.assign "table" (.text "accounts")]]
  shape := .record [⟨"account_id", "i64", [[.word "id"]]⟩, ⟨"first_name", "String", []⟩,
    ⟨"r#type", "i32", [[.word "read_only"], [.assign "column" (.text "kind")]]⟩,
    ⟨"balance", "i64", [[.word "transient"]]⟩, ⟨"home", "Address", [[.word "nested"]]⟩]

/-- An address with two lines. -/
def address : Declaration where
  name := "Address"
  shape := .record [⟨"line_1", "String", []⟩, ⟨"line1", "String", []⟩]

end Cql.Declaration
