import Cql.Declaration.Derivation
import Cql.Proofs.Declaration.Marks

/-!
What is derived from a declaration, field by field. Each field of the description is that of the
member in its place.
-/

namespace Cql.Declaration

/-- The outline says what the member says. -/
structure Outline.IsOf (m : Member) (o : Outline) : Prop where
  logical : o.logical = logicalName m.name
  declared : o.declared = m.name
  marked : ∀ word, o.marks.isSet word = m.isMarked word
  consistent : o.marks.IsConsistent
  nested : o.nestedType.isSome = o.marks.isNested

theorem Outline.isOf_ofMember (m : Member) : Yields (Outline.ofMember m) (Outline.IsOf m) := by
  refine (Marks.ofAttributes_eq_ok m.attributes).bind fun marks ⟨hmarked, hconsistent⟩ => .ok ?_
  refine ⟨rfl, rfl, hmarked, hconsistent, ?_⟩
  cases marks.isNested <;> rfl

/-- The members of a declaration with the fields that are derived from them, in their order. -/
structure Derived.IsOf (ms : List Member) (D : Derived) : Prop where
  fields : List.Forall₂ Outline.IsOf ms D.fields
  nonempty : D.fields ≠ []

theorem derive_eq_ok (d : Declaration) :
    Yields (derive d) fun D => ∃ ms, members d.shape = .ok ms ∧ D.IsOf ms := by
  rw [derive]
  split
  · exact .error
  refine yields_self.bind fun table _ => yields_self.bind fun ms hms => ?_
  refine yields_mapM.bind fun fields hfields => ?_
  split
  · exact .error
  · rename_i hempty
    refine .ok ⟨ms, hms, hfields.imp fun m o ho => Outline.isOf_ofMember m o ho, ?_⟩
    simpa using hempty

theorem map_filter_eq {α β γ : Type} {R : α → β → Prop} {as : List α} {bs : List β}
    (h : List.Forall₂ R as bs) {p : α → Bool} {q : β → Bool} {f : α → γ} {g : β → γ}
    (hp : ∀ a b, R a b → q b = p a) (hf : ∀ a b, R a b → g b = f a) :
    (bs.filter q).map g = (as.filter p).map f := by
  induction h with
  | nil => rfl
  | cons hab _ ih =>
    rw [List.filter_cons, List.filter_cons, hp _ _ hab]
    split
    · rw [List.map_cons, List.map_cons, hf _ _ hab, ih]
    · exact ih

/-- The member is a column of its own entity. -/
def Member.isColumn (m : Member) : Bool := !m.isMarked "transient" && !m.isMarked "nested"

theorem Outline.IsOf.isInSnapshot {m : Member} {o : Outline} (h : o.IsOf m) :
    o.isInSnapshot = m.isColumn := by
  rw [Outline.isInSnapshot, Member.isColumn, ← h.marked, ← h.marked]
  rfl

/-- The field of an entity is a column if the member is. -/
theorem Outline.IsOf.isColumn_field {m : Member} {o : Outline} (h : o.IsOf m)
    (placeOf : String → Nat) : (o.field placeOf).isColumn = m.isColumn := by
  rw [← h.isInSnapshot, Outline.isInSnapshot, ← h.nested]
  cases hnested : o.nestedType <;> simp [Field.isColumn, Outline.field, hnested]

namespace Derived.IsOf

variable {D : Derived} {ms : List Member} {path : String} {placeOf : String → Nat}

theorem exists_member (h : D.IsOf ms) {o : Outline} (ho : o ∈ D.fields) : ∃ m, o.IsOf m := by
  obtain ⟨i, hi, rfl⟩ := List.getElem_of_mem ho
  have hlength := h.fields.length_eq
  exact ⟨_, h.fields.get (by omega) hi⟩

/-- What is said of some fields of the entity is what the members in their places say. -/
theorem map_filter_fields (h : D.IsOf ms) {γ : Type} {q : Field → Bool} {p : Member → Bool}
    {f : Field → γ} {g : Member → γ}
    (hq : ∀ (m : Member) (o : Outline), o.IsOf m → q (o.field placeOf) = p m)
    (hf : ∀ (m : Member) (o : Outline), o.IsOf m → f (o.field placeOf) = g m) :
    ((D.entity path placeOf).fields.filter q).map f = (ms.filter p).map g := by
  rw [entity, List.filter_map, List.map_map]
  exact map_filter_eq h.fields hq hf

theorem isColumn_of_isKey (h : D.IsOf ms) :
    ∀ f ∈ (D.entity path placeOf).fields, f.isKey → f.isColumn := by
  intro f hf hkey
  obtain ⟨o, ho, rfl⟩ := List.mem_map.mp hf
  obtain ⟨m, hm⟩ := h.exists_member ho
  obtain ⟨htransient, hnested⟩ := hm.consistent.key hkey
  rw [hm.isColumn_field, ← hm.isInSnapshot, Outline.isInSnapshot, htransient, hnested]
  rfl

end Derived.IsOf

end Cql.Declaration
