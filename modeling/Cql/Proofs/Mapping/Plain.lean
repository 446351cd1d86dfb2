import Cql.Proofs.Statement.Plain
import Cql.Proofs.Step

/-!
Mappings of plain entities. What a memo gives for a plain entity are paths where names are logical,
and characters without meaning where they are physical. It does not matter what the memo keeps of
other entities.
-/

namespace Cql

open Token

/-- What is looked up is the new entry or was there before. -/
theorem forall_mem_lookup_cons {α β : Type} [BEq α] {entries : List (α × β)} {a key : α} {b : β}
    {Q : β → Prop} (hb : Q b) (h : ∀ kept ∈ entries.lookup key, Q kept) :
    ∀ kept ∈ ((a, b) :: entries).lookup key, Q kept := by
  intro kept hkept
  rw [List.lookup_cons] at hkept
  split at hkept
  · obtain rfl : b = kept := by simpa using hkept
    exact hb
  · exact h kept hkept

theorem IsPath.append {s t : String} (hs : IsPath s) (ht : IsPath t) : IsPath (s ++ "." ++ t) := by
  intro part hpart
  have hchars : (s ++ "." ++ t).toList = s.toList ++ '.' :: t.toList := by simp
  rw [hchars, Text.Split.splitWhere_append (by rfl)] at hpart
  exact (List.mem_append.mp hpart).elim (hs part) (ht part)

structure ColumnMap.IsPlain (m : ColumnMap) : Prop where
  logical : ∀ entry ∈ m.entries, IsPath entry.1
  physical : ∀ entry ∈ m.entries, Inert entry.2

def TableNames.IsPlain (names : TableNames) : Prop := ∀ casing, Inert (names.get casing)

structure Eligible.IsPlain (names : Eligible) : Prop where
  select : ∀ name ∈ names.select, IsPath name
  insert : ∀ name ∈ names.insert, IsPath name
  update : ∀ name ∈ names.update, IsPath name

/-- The known entities are plain, and those that their fields hold are known. -/
structure Catalog.Covers (catalog : Catalog) (known : Entity → Prop) : Prop where
  plain : ∀ e, known e → e.IsPlain
  nested : ∀ e, known e → ∀ f ∈ e.fields, ∀ sub ∈ f.nestedEntity? catalog, known sub

/-- Where all entities of a catalog are plain, all plain entities may be named. -/
theorem Catalog.covers_of_forall {catalog : Catalog} (h : ∀ e ∈ catalog, e.IsPlain) :
    catalog.Covers Entity.IsPlain := by
  refine ⟨fun _ he => he, fun e _ f _ sub hsub => ?_⟩
  obtain ⟨i, -, hi⟩ := Option.bind_eq_some_iff.mp hsub
  exact h sub (List.mem_of_getElem? hi)

theorem Catalog.Covers.fields {catalog : Catalog} {known : Entity → Prop}
    (h : catalog.Covers known) {e : Entity} (he : known e) :
    ∀ f ∈ e.fields, f.IsPlain ∧ ∀ sub ∈ f.nestedEntity? catalog, known sub :=
  fun f hf => ⟨(h.plain e he).fields f hf, h.nested e he f hf⟩

structure Memo.IsPlain (known : Entity → Prop) (m : Memo) : Prop where
  catalog : m.catalog.Covers known
  columnMaps : ∀ e, known e → ∀ casing,
    ∀ kept ∈ m.columnMaps.lookup (e.typeName, casing), kept.value.IsPlain
  tableNames : ∀ e, known e → ∀ names ∈ m.tableNames.lookup e.typeName, names.IsPlain
  eligible : ∀ e, known e → ∀ names ∈ m.eligible.lookup e.typeName, names.IsPlain

theorem TableNames.isPlain_ofEntity {e : Entity} (h : e.IsPlain) : (ofEntity e).IsPlain := by
  have htable := h.table
  have hget : ∀ casing : Casing, Inert (e.table.getD (casing.physical e.name)) := by
    intro casing
    cases ht : e.table with
    | none => exact casing.inert_physical (by simpa [ht] using htable.inert)
    | some table => simpa [ht] using htable.inert
  intro casing
  cases casing <;> exact hget _

theorem Eligible.isPlain_ofEntity {e : Entity} (h : e.IsPlain) : (ofEntity e).IsPlain := by
  have hmem : ∀ p : Field → Bool, ∀ name ∈ (e.fields.filter p).map (·.name), IsPath name := by
    intro p name hname
    obtain ⟨f, hf, rfl⟩ := List.mem_map.mp hname
    exact (h.fields f (List.mem_of_mem_filter hf)).name
  exact ⟨hmem _, hmem _, hmem _⟩

theorem Field.IsPlain.inert_physical {f : Field} (h : f.IsPlain) (casing : Casing) :
    Inert (f.physical casing) := by
  cases hcolumn : f.column with
  | none => simpa [Field.physical, hcolumn] using casing.inert_physical h.name.inert
  | some c => simpa [Field.physical, hcolumn] using (h.column c hcolumn).inert

theorem ColumnMap.inert_of_get? {m : ColumnMap} (h : m.IsPlain) {logical name : String}
    (hget : m.get? logical = some name) : Inert name :=
  h.physical _ (mem_of_lookup hget)

theorem ColumnMap.IsPlain.append {own others : List (String × String)}
    (hown : ColumnMap.IsPlain { entries := own })
    (hothers : ColumnMap.IsPlain { entries := others }) :
    ColumnMap.IsPlain { entries := own ++ others } :=
  ⟨fun entry h => (List.mem_append.mp h).elim (hown.logical entry) (hothers.logical entry),
    fun entry h => (List.mem_append.mp h).elim (hown.physical entry) (hothers.physical entry)⟩

theorem ColumnMap.IsPlain.qualify {entries : List (String × String)} {field table : String}
    (h : ColumnMap.IsPlain { entries }) (hfield : IsPath field) (htable : Inert table) :
    ColumnMap.IsPlain { entries := entries.map (ColumnMap.qualify field table) } := by
  constructor
  · intro entry hentry
    obtain ⟨inner, hinner, rfl⟩ := List.mem_map.mp hentry
    exact hfield.append (h.logical inner hinner)
  · intro entry hentry
    obtain ⟨inner, hinner, rfl⟩ := List.mem_map.mp hentry
    have hphysical := h.physical inner hinner
    simp only [ColumnMap.qualify]
    split
    · exact hphysical
    · exact (htable.append (by decide)).append hphysical

namespace Memo

variable {known : Entity → Prop}

theorem isPlain_of_catalog {catalog : Catalog} (h : catalog.Covers known) :
    Memo.IsPlain known { catalog } :=
  ⟨h, by simp, by simp, by simp⟩

theorem ensures_tablesOf {e : Entity} (h : known e) :
    Step.Ensures (IsPlain known) (tablesOf e) TableNames.IsPlain := by
  refine Step.Ensures.current.bind fun m hm => ?_
  split
  · rename_i names hlookup
    exact .pure (hm.tableNames e h names hlookup)
  · have hnew := TableNames.isPlain_ofEntity (hm.catalog.plain e h)
    refine (Step.Ensures.put ?_).bind fun _ _ => .pure hnew
    exact { hm with tableNames := fun e' h' => forall_mem_lookup_cons hnew (hm.tableNames e' h') }

theorem ensures_eligibleOf {e : Entity} (h : known e) :
    Step.Ensures (IsPlain known) (eligibleOf e) Eligible.IsPlain := by
  refine Step.Ensures.current.bind fun m hm => ?_
  split
  · rename_i names hlookup
    exact .pure (hm.eligible e h names hlookup)
  · have hnew := Eligible.isPlain_ofEntity (hm.catalog.plain e h)
    refine Step.Ensures.note.bind fun _ _ => (Step.Ensures.put ?_).bind fun _ _ => .pure hnew
    exact { hm with eligible := fun e' h' => forall_mem_lookup_cons hnew (hm.eligible e' h') }

theorem ensures_resolveFields {catalog : Catalog} (casing : Casing) (walk : List String)
    (hcatalog : catalog.Covers known) (fields : List Field)
    (hfields : ∀ f ∈ fields, f.IsPlain ∧ ∀ sub ∈ f.nestedEntity? catalog, known sub) :
    Resolving.Ensures (IsPlain known) (resolveFields catalog casing walk fields) fun entries =>
      ColumnMap.IsPlain { entries } := by
  -- The fields after the first one add their entries behind its own.
  have hjoin : ∀ {own : List (String × String)} {others : Resolving (List (String × String))},
      ColumnMap.IsPlain { entries := own } →
      Resolving.Ensures (IsPlain known) others (fun entries => ColumnMap.IsPlain { entries }) →
      Resolving.Ensures (IsPlain known) (do let entries ← others; return own ++ entries)
        fun entries => ColumnMap.IsPlain { entries } :=
    fun hown hothers => hothers.bind fun _ h => .pure (hown.append h)
  have hnone : ColumnMap.IsPlain { entries := [] } := ⟨by simp, by simp⟩
  fun_induction resolveFields catalog casing walk fields with
  | case1 => exact .pure hnone
  | case2 walk f fs _ _ ih =>
    exact .bind (.pure hnone) fun own hown => hjoin hown (ih fun g hg => hfields g (by simp [hg]))
  | case3 walk f fs _ _ _ ih =>
    obtain ⟨hf, -⟩ := hfields f (by simp)
    have hown : ColumnMap.IsPlain { entries := [(f.name, f.physical casing)] } :=
      ⟨by simpa using hf.name, by simpa using hf.inert_physical casing⟩
    exact .bind (.pure hown) fun own hown => hjoin hown (ih fun g hg => hfields g (by simp [hg]))
  | case4 walk f fs _ _ i _ _ ih =>
    exact .bind (.pure hnone) fun own hown => hjoin hown (ih fun g hg => hfields g (by simp [hg]))
  | case5 walk f fs _ _ i hi sub hsub ihothers ihsub =>
    obtain ⟨hf, hnested⟩ := hfields f (by simp)
    have hknown : known sub := hnested sub (by simp [Field.nestedEntity?, hi, hsub])
    refine (Resolving.Ensures.step (ensures_tablesOf hknown)).bind fun tables htables => ?_
    split
    · exact Resolving.Ensures.throw_bind
    · rename_i hwalk
      refine (ihsub hwalk (hcatalog.fields hknown)).bind fun entries hentries => ?_
      exact .bind (.pure (hentries.qualify hf.name (htables casing)))
        fun own hown => hjoin hown (ihothers fun g hg => hfields g (by simp [hg]))

theorem ensures_columnsOf {e : Entity} (h : known e) (casing : Casing) :
    Resolving.Ensures (IsPlain known) (columnsOf e casing) fun kept => kept.value.IsPlain := by
  refine (Resolving.Ensures.step Step.Ensures.current).bind fun m hm => ?_
  split
  · rename_i kept hlookup
    exact .pure (hm.columnMaps e h casing kept hlookup)
  · have hresolve := ensures_resolveFields casing [e.typeName] hm.catalog _ (hm.catalog.fields h)
    refine hresolve.bind fun entries hentries => ?_
    refine (Resolving.Ensures.step Step.Ensures.note).bind fun _ _ => ?_
    refine (Resolving.Ensures.step Step.Ensures.current).bind fun m hm => ?_
    refine (Resolving.Ensures.step (Step.Ensures.put ?_)).bind fun _ _ => .pure hentries
    exact { hm with
      columnMaps := fun e' h' casing' =>
        forall_mem_lookup_cons hentries (hm.columnMaps e' h' casing') }

end Memo

end Cql
