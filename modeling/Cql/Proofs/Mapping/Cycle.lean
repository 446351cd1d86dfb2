import Mathlib.Data.List.Chain
import Mathlib.Data.List.Nodup
import Cql.Proofs.Mapping.Described

/-!
Cycles of nested fields. The columns of an entity can be resolved unless some walk from it through
nested fields comes by a type name twice. A walk that fails ends with the first type name that it
comes back to.
-/

namespace Cql

variable {catalog : Catalog} {es : List Entity} {e : Entity}

theorem Field.mem_of_nestedEntity? {f : Field} {sub : Entity}
    (h : f.nestedEntity? catalog = some sub) : sub ∈ catalog := by
  obtain ⟨i, -, hi⟩ := Option.bind_eq_some_iff.mp h
  exact List.mem_of_getElem? hi

/-- A field of the first entity holds the other one. -/
def Entity.Nests (catalog : Catalog) (e sub : Entity) : Prop :=
  ∃ f ∈ e.fields, f.isTransient = false ∧ f.nestedEntity? catalog = some sub

/-- Each of the entities holds the next one. -/
def IsWalk (catalog : Catalog) (walk : List Entity) : Prop := walk.IsChain (Entity.Nests catalog)

def typeNames (walk : List Entity) : List String := walk.map Entity.typeName

/-- Some walk from the entity comes by a type name twice. -/
def Entity.IsCyclic (catalog : Catalog) (e : Entity) : Prop :=
  ∃ walk, IsWalk catalog (e :: walk) ∧ ¬ (typeNames (e :: walk)).Nodup

/-- The names are distinct but for the last one, which stands before. -/
def ComesBack (names : List String) : Prop :=
  ∃ before name, names = before ++ [name] ∧ before.Nodup ∧ name ∈ before

/-- A walk that begins with what one of the fields holds. -/
def GoesOn (catalog : Catalog) (fields : List Field) (walk : List Entity) : Prop :=
  ∃ f ∈ fields, f.isTransient = false ∧ ∃ sub later, walk = sub :: later ∧
    f.nestedEntity? catalog = some sub ∧ IsWalk catalog walk

theorem goesOn_cons {f : Field} {fs : List Field} {walk : List Entity} :
    GoesOn catalog (f :: fs) walk ↔ GoesOn catalog [f] walk ∨ GoesOn catalog fs walk := by
  simp [GoesOn]

/-- A walk from an entity goes on through its fields. -/
theorem isWalk_cons {walk : List Entity} :
    IsWalk catalog (e :: walk) ↔ walk = [] ∨ GoesOn catalog e.fields walk := by
  cases walk with
  | nil => simp [IsWalk]
  | cons sub walk =>
    rw [IsWalk, List.isChain_cons_cons]
    constructor
    · rintro ⟨⟨f, hf, hkept, hsub⟩, hwalk⟩
      exact .inr ⟨f, hf, hkept, sub, walk, rfl, hsub, hwalk⟩
    · rintro (hnil | ⟨f, hf, hkept, _, _, hcons, hsub, hwalk⟩)
      · cases hnil
      · cases hcons
        exact ⟨⟨f, hf, hkept, hsub⟩, hwalk⟩

/-- A walk that goes on from a field comes by what the field holds. -/
theorem goesOn_singleton {f : Field} {sub : Entity} (hkept : f.isTransient = false)
    (hsub : f.nestedEntity? catalog = some sub) {walk : List Entity} :
    GoesOn catalog [f] walk ↔
      ∃ later, walk = sub :: later ∧ (later = [] ∨ GoesOn catalog sub.fields later) := by
  constructor
  · rintro ⟨_, hf, -, held, later, rfl, hheld, hwalk⟩
    obtain rfl := List.mem_singleton.mp hf
    obtain rfl : sub = held := Option.some.inj (hsub.symm.trans hheld)
    exact ⟨later, rfl, isWalk_cons.mp hwalk⟩
  · rintro ⟨later, rfl, hlater⟩
    exact ⟨f, by simp, hkept, sub, later, rfl, hsub, isWalk_cons.mpr hlater⟩

namespace Memo

open Resolving (Settles)

variable {I : Memo → Prop}

/-- No walk through the fields comes by a name twice. -/
def EndsAll (catalog : Catalog) (walk : List String) (fields : List Field) : Prop :=
  ∀ later, GoesOn catalog fields later → (walk ++ typeNames later).Nodup

/-- The error tells a walk through the fields that comes back to a name. -/
def TellsCycle (catalog : Catalog) (walk : List String) (fields : List Field) (err : Error) :
    Prop :=
  ∃ later, GoesOn catalog fields later ∧ err = .cyclic (walk ++ typeNames later) ∧
    ComesBack (walk ++ typeNames later)

theorem endsAll_of_holdsNothing {walk : List String} {f : Field}
    (h : f.isTransient = true ∨ f.nestedEntity? catalog = none) : EndsAll catalog walk [f] := by
  rintro later ⟨_, hf, hkept, sub, _, _, hsub, _⟩
  obtain rfl := List.mem_singleton.mp hf
  obtain htransient | hnone := h
  · rw [hkept] at htransient
    cases htransient
  · rw [hnone] at hsub
    cases hsub

/-- A field that leads to no cycle leaves it to the fields after it. -/
theorem settles_append {walk : List String} {f : Field} {fs : List Field}
    {own : List (String × String)} {others : Resolving (List (String × String))}
    (hown : EndsAll catalog walk [f])
    (hothers : Settles I others (fun _ => EndsAll catalog walk fs) (TellsCycle catalog walk fs)) :
    Settles I (do let own ← pure own; let entries ← others; return own ++ entries)
      (fun _ => EndsAll catalog walk (f :: fs)) (TellsCycle catalog walk (f :: fs)) := by
  refine .bind (.pure (Q := fun _ => True) trivial) fun own _ => ?_
  refine .bind (hothers.mono (fun _ h => h) ?_) fun entries hentries => .pure ?_
  · rintro err ⟨later, hlater, herr⟩
    exact ⟨later, goesOn_cons.mpr (.inr hlater), herr⟩
  · exact fun later hlater => (goesOn_cons.mp hlater).elim (hown later) (hentries later)

/-- This holds under any invariant that table names do not touch. -/
theorem settles_resolveFields (hI : ∀ sub, Step.Ensures I (tablesOf sub) fun _ => True)
    (casing : Casing) {walk : List String} (hwalk : walk.Nodup) (fields : List Field) :
    Settles I (resolveFields catalog casing walk fields) (fun _ => EndsAll catalog walk fields)
      (TellsCycle catalog walk fields) := by
  fun_induction resolveFields catalog casing walk fields with
  | case1 =>
    refine .pure fun later hlater => ?_
    obtain ⟨_, hf, _⟩ := hlater
    cases hf
  | case2 walk f fs _ htransient ih =>
    exact settles_append (endsAll_of_holdsNothing (.inl htransient)) (ih hwalk)
  | case3 walk f fs _ _ hnested ih =>
    have hnone : f.nestedEntity? catalog = none := by simp [Field.nestedEntity?, hnested]
    exact settles_append (endsAll_of_holdsNothing (.inr hnone)) (ih hwalk)
  | case4 walk f fs _ _ i hnested hmissing ih =>
    have hnone : f.nestedEntity? catalog = none := by simp [Field.nestedEntity?, hnested, hmissing]
    exact settles_append (endsAll_of_holdsNothing (.inr hnone)) (ih hwalk)
  | case5 walk f fs _ htransient i hnested sub hsub ihothers ihsub =>
    have hheld : f.nestedEntity? catalog = some sub := by
      simp [Field.nestedEntity?, hnested, hsub]
    have hgoes : ∀ {later}, GoesOn catalog [f] later ↔ _ :=
      goesOn_singleton (by simpa using htransient) hheld
    refine .bind (.step (hI sub)) fun tables _ => ?_
    split
    · rename_i hback
      refine .throw_bind ⟨[sub], goesOn_cons.mpr (.inl (hgoes.mpr ⟨[], rfl, .inl rfl⟩)), rfl, ?_⟩
      exact ⟨walk, sub.typeName, rfl, hwalk, hback⟩
    · -- What the field holds is walked through before the fields after it.
      rename_i hnew
      have hlonger : (walk ++ [sub.typeName]).Nodup := by
        refine List.nodup_append.mpr ⟨hwalk, by simp, ?_⟩
        rintro name hname _ hlast rfl
        exact hnew (List.mem_singleton.mp hlast ▸ hname)
      have hnames : ∀ later, walk ++ [sub.typeName] ++ typeNames later =
          walk ++ typeNames (sub :: later) := fun later => List.append_assoc _ _ _
      refine .bind ((ihsub hnew hlonger).mono (fun _ h => h) ?_) fun entries hentries => ?_
      · rintro err ⟨later, hlater, herr, hback⟩
        rw [hnames] at herr hback
        exact ⟨sub :: later, goesOn_cons.mpr (.inl (hgoes.mpr ⟨later, rfl, .inr hlater⟩)), herr,
          hback⟩
      · refine settles_append (fun later hlater => ?_) (ihothers hwalk)
        obtain ⟨later, rfl, rfl | hlater⟩ := hgoes.mp hlater
        · exact hlonger
        · rw [← hnames]
          exact hentries later hlater

end Memo

theorem ComesBack.not_nodup {names : List String} (h : ComesBack names) : ¬ names.Nodup := by
  obtain ⟨before, name, rfl, -, hmem⟩ := h
  intro hnodup
  exact (List.nodup_append.mp hnodup).2.2 name hmem name (by simp) rfl

namespace Entity

open Relation (ReflTransGen TransGen)

theorem mem_catalog {sub : Entity} (h : TransGen (Nests catalog) e sub) : sub ∈ catalog := by
  obtain ⟨_, -, f, -, -, hsub⟩ := TransGen.tail'_iff.mp h
  exact Field.mem_of_nestedEntity? hsub

theorem endsAll_iff : Memo.EndsAll catalog [e.typeName] e.fields ↔ ¬ e.IsCyclic catalog := by
  constructor
  · rintro hends ⟨walk, hwalk, hrepeats⟩
    obtain rfl | hwalk := isWalk_cons.mp hwalk
    · exact hrepeats (by simp [typeNames])
    · exact hrepeats (hends walk hwalk)
  · intro hacyclic later hlater
    by_contra hrepeats
    exact hacyclic ⟨later, isWalk_cons.mpr (.inr hlater), hrepeats⟩

/-- Where type names tell the entities apart, some entity that can be reached can reach itself. -/
theorem isCyclic_iff (htold : AreTold (e :: catalog)) : e.IsCyclic catalog ↔
    ∃ sub, ReflTransGen (Nests catalog) e sub ∧ TransGen (Nests catalog) sub sub := by
  constructor
  · rintro ⟨walk, hwalk, hrepeats⟩
    have hlater : (e :: walk).Pairwise (TransGen (Nests catalog)) :=
      List.isChain_iff_pairwise.mp (hwalk.imp fun _ _ => .single)
    have hmem : ∀ sub ∈ e :: walk, sub ∈ e :: catalog ∧ ReflTransGen (Nests catalog) e sub := by
      intro sub hsub
      obtain rfl | hsub := List.mem_cons.mp hsub
      · exact ⟨by simp, .refl⟩
      · have hreach := (List.pairwise_cons.mp hlater).1 sub hsub
        exact ⟨List.mem_cons_of_mem _ (mem_catalog hreach), hreach.to_reflTransGen⟩
    by_contra! hacyclic
    refine hrepeats (List.pairwise_map.mpr (hlater.imp_of_mem fun {a b} ha hb hab hname => ?_))
    have hsame : a = b := htold a (hmem a ha).1 b (hmem b hb).1 hname
    exact hacyclic a (hmem a ha).2 (hsame ▸ hab)
  · rintro ⟨sub, hreach, hcycle⟩
    obtain ⟨next, hnext, hback⟩ := TransGen.head'_iff.mp hcycle
    obtain ⟨there, hthere, hsub⟩ := List.exists_isChain_cons_of_relationReflTransGen hreach
    obtain ⟨round, hround, hagain⟩ := List.exists_isChain_cons_of_relationReflTransGen hback
    refine ⟨there ++ next :: round, ?_, fun hnodup => ?_⟩
    · refine List.IsChain.append hthere hround ?_
      rintro _ hlast _ ⟨⟩
      rw [List.getLast?_eq_some_getLast (List.cons_ne_nil _ _), hsub] at hlast
      cases hlast
      exact hnext
    · have hnames : (e :: there ++ next :: round).Nodup := List.Nodup.of_map _ hnodup
      have hfirst : sub ∈ e :: there := hsub ▸ List.getLast_mem _
      have hsecond : sub ∈ next :: round := hagain ▸ List.getLast_mem _
      exact (List.nodup_append.mp hnames).2.2 sub hfirst sub hsecond rfl

/-- An error that tells a walk from the entity back to a type name. -/
def TellsCycle (catalog : Catalog) (e : Entity) (err : Error) : Prop :=
  ∃ walk, IsWalk catalog (e :: walk) ∧ err = .cyclic (typeNames (e :: walk)) ∧
    ComesBack (typeNames (e :: walk))

theorem TellsCycle.isCyclic {err : Error} (h : e.TellsCycle catalog err) : e.IsCyclic catalog := by
  obtain ⟨walk, hwalk, -, hback⟩ := h
  exact ⟨walk, hwalk, hback.not_nodup⟩

theorem TellsCycle.of_fields {err : Error}
    (h : Memo.TellsCycle catalog [e.typeName] e.fields err) : e.TellsCycle catalog err := by
  obtain ⟨later, hlater, herr, hback⟩ := h
  exact ⟨later, isWalk_cons.mpr (.inr hlater), herr, hback⟩

/-- The logical names of an entity's columns can be told unless its nested fields lead to a cycle,
and then the cycle is told. -/
theorem ends_leaves (catalog : Catalog) (e : Entity) :
    Ends (fun _ => ¬ e.IsCyclic catalog) (e.TellsCycle catalog) (e.leaves catalog) := by
  have hwalk : [e.typeName].Nodup := by simp
  have hsettles : Resolving.Settles (fun _ => True)
      (Memo.resolveFields catalog .lowerCamel [e.typeName] e.fields) _ _ :=
    Memo.settles_resolveFields (fun _ => Step.ensures_any) .lowerCamel hwalk e.fields
  have hresult := (hsettles ⟨{ catalog }, []⟩ trivial).2
  rw [leaves]
  revert hresult
  generalize ((Memo.resolveFields catalog .lowerCamel [e.typeName] e.fields).run _).1 = result
  cases result with
  | ok entries => exact endsAll_iff.mp
  | error err => exact TellsCycle.of_fields

end Entity

/-- The columns of an entity are given unless its nested fields lead to a cycle. -/
theorem Memo.settles_columnsOf (htold : AreTold es) (he : e ∈ es) (casing : Casing) :
    Resolving.Settles (IsTrue catalog es) (columnsOf e casing) (fun _ => ¬ e.IsCyclic catalog)
      (e.TellsCycle catalog) := by
  refine (ensures_true_columnsOf htold he casing).mono fun result hresult => ?_
  have hleaves := e.ends_leaves catalog
  generalize e.leaves catalog = leaves at hresult hleaves
  cases hresult <;> exact hleaves

end Cql
