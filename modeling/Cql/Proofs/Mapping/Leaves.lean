import Cql.Proofs.Mapping.Paths
import Cql.Proofs.Mapping.Search

/-!
The columns of an entity, told by paths. There is one column for each path that stops at a field
that is not nested, and the columns stand in the order of the paths.
-/

namespace Cql

variable {catalog : Catalog} {e sub : Entity} {f : Field} {n : Nat}

/-- The table names of these entities are kept, but for a type name that some are kept of. -/
def Memo.Keeps (held : List Entity) (m m' : Memo) : Prop :=
  ∀ name, m'.tableNames.lookup name =
    (m.tableNames.lookup name).or ((held.find? (·.typeName = name)).map TableNames.ofEntity)

/-- The table names that are kept of an entity. -/
def Memo.HasTables (m : Memo) (e : Entity) (names : TableNames) : Prop :=
  m.tableNames.lookup e.typeName = some names

namespace Memo

variable {m m' m'' : Memo} {held held' : List Entity}

theorem Keeps.refl : Keeps [] m m := fun name => by simp

theorem Keeps.trans (h : Keeps held m m') (h' : Keeps held' m' m'') :
    Keeps (held ++ held') m m'' := by
  intro name
  rw [h', h, List.find?_append, Option.map_or, Option.or_assoc]

theorem Keeps.hasTables {names : TableNames} (h : Keeps held m m') (hm : m.HasTables e names) :
    m'.HasTables e names := by
  rw [HasTables, h, hm, Option.some_or]

theorem turns_tablesOf (sub : Entity) : Resolving.Turns (liftM (tablesOf sub)) fun m names m' =>
    Keeps [sub] m m' ∧ m'.HasTables sub names := by
  refine .step fun s => ?_
  rw [tablesOf, Step.current_bind]
  cases hlookup : s.state.tableNames.lookup sub.typeName with
  | some names =>
    refine ⟨fun name => ?_, hlookup⟩
    change s.state.tableNames.lookup name = _
    by_cases hname : sub.typeName = name
    · rw [← hname, hlookup, Option.some_or]
    · simp [hname]
  | none =>
    refine ⟨fun name => ?_, List.lookup_cons_self⟩
    change ((sub.typeName, TableNames.ofEntity sub) :: s.state.tableNames).lookup name = _
    by_cases hname : sub.typeName = name
    · subst hname
      simp [hlookup]
    · simp [List.lookup_cons, hname, beq_eq_false_iff_ne.mpr (Ne.symm hname)]

end Memo

/-- What the entry of a leaf says: its path, and its physical name behind the name of the table of
its entity. A leaf of the outermost entity or with a dot in its physical name has no table. -/
structure Stop.Maps (casing : Casing) (tables : Entity → TableNames → Prop) (leaf : Stop)
    (entry : String × String) : Prop where
  key : entry.1 = ".".intercalate leaf.names
  own : leaf.names.length = 1 → entry.2 = leaf.field.physical casing
  dotted : '.' ∈ (leaf.field.physical casing).toList → entry.2 = leaf.field.physical casing
  qualified : leaf.names.length ≠ 1 → '.' ∉ (leaf.field.physical casing).toList →
    ∃ names, tables leaf.owner names ∧
      entry.2 = names.get casing ++ "." ++ leaf.field.physical casing

namespace Stop.Maps

variable {casing : Casing} {tables tables' : Entity → TableNames → Prop} {leaf : Stop}
  {entry : String × String}

theorem mono (h : leaf.Maps casing tables entry)
    (himp : leaf.names.length ≠ 1 → ∀ names, tables leaf.owner names → tables' leaf.owner names) :
    leaf.Maps casing tables' entry where
  key := h.key
  own := h.own
  dotted := h.dotted
  qualified hlength hdot := by
    obtain ⟨names, hnames, hentry⟩ := h.qualified hlength hdot
    exact ⟨names, himp hlength names hnames, hentry⟩

theorem field (casing : Casing) (f : Field) :
    Stop.Maps casing tables ⟨[f.name], e, f⟩ (f.name, f.physical casing) where
  key := by simp
  own _ := rfl
  dotted _ := rfl
  qualified hlength := absurd rfl hlength

/-- Only the innermost table is put before the physical name. -/
theorem qualify {names : TableNames} (h : leaf.Maps casing tables entry) (name : String)
    (hnames : tables sub names) (hne : leaf.names ≠ [])
    (howner : leaf.names.length = 1 → leaf.owner = sub) :
    (leaf.under name).Maps casing tables (ColumnMap.qualify name (names.get casing) entry) where
  key := by
    rw [ColumnMap.qualify, h.key, Stop.under, String.intercalate_cons_of_ne_nil hne]
  own hlength := by simp [Stop.under, hne] at hlength
  dotted hdot := by
    change '.' ∈ (leaf.field.physical casing).toList at hdot
    rw [ColumnMap.qualify, h.dotted hdot, if_pos hdot]
    rfl
  qualified _ hdot := by
    change '.' ∉ (leaf.field.physical casing).toList at hdot
    by_cases hlength : leaf.names.length = 1
    · refine ⟨names, (howner hlength).symm ▸ hnames, ?_⟩
      rw [ColumnMap.qualify, h.own hlength, if_neg hdot]
      rfl
    · obtain ⟨inner, hinner, hentry⟩ := h.qualified hlength hdot
      refine ⟨inner, hinner, ?_⟩
      rw [ColumnMap.qualify, hentry, if_pos (by simp)]
      rfl

end Stop.Maps

namespace Memo

/-- The entries are those of the leaves among these stops, and the table names of the entities that
are held there are kept. -/
structure Toured (catalog : Catalog) (casing : Casing) (e : Entity) (begins : Nat → Prop) (m : Memo)
    (entries : List (String × String)) (m' : Memo) (tour : Tour) : Prop where
  isTour : IsTour catalog e begins tour
  keeps : m.Keeps (tour.held catalog) m'
  maps : List.Forall₂ (fun leaf => leaf.2.Maps casing m'.HasTables) tour.leaves entries

namespace Toured

variable {casing : Casing} {begins : Nat → Prop} {m m' m'' : Memo}
  {own others entries : List (String × String)} {tour tour' : Tour}

theorem nil (h : ∀ i path, begins i → e.stop? catalog (i :: path) = none) :
    Toured catalog casing e begins m [] m [] :=
  ⟨.nil h, .refl, .nil⟩

theorem append (hown : Toured catalog casing e (· = n) m own m' tour)
    (hothers : Toured catalog casing e (n + 1 ≤ ·) m' others m'' tour') :
    Toured catalog casing e (n ≤ ·) m (own ++ others) m'' (tour ++ tour') where
  isTour := hown.isTour.append hothers.isTour
  keeps := by
    rw [Tour.held_append]
    exact hown.keeps.trans hothers.keeps
  maps := by
    rw [Tour.leaves_append]
    refine List.rel_append (hown.maps.imp fun leaf entry h => ?_) hothers.maps
    exact h.mono fun _ names => hothers.keeps.hasTables

theorem leaf (hf : e.fields[n]? = some f) (hkept : f.isTransient = false)
    (hnested : f.nested = none) : Toured catalog casing e (· = n) m [(f.name, f.physical casing)] m
      [([n], ⟨[f.name], e, f⟩)] := by
  have hnone : f.nestedEntity? catalog = none := by simp [Field.nestedEntity?, hnested]
  refine ⟨.singleton hf hkept hnone, ?_, ?_⟩
  · rw [Tour.held_cons_of_none hnone]
    exact .refl
  · rw [Tour.leaves_cons_of_none hnested]
    exact .cons (.field casing f) .nil

theorem dangling (hf : e.fields[n]? = some f) (hkept : f.isTransient = false)
    (hnested : f.nested ≠ none) (hnone : f.nestedEntity? catalog = none) :
    Toured catalog casing e (· = n) m [] m [([n], ⟨[f.name], e, f⟩)] := by
  refine ⟨.singleton hf hkept hnone, ?_, ?_⟩
  · rw [Tour.held_cons_of_none hnone]
    exact .refl
  · rw [Tour.leaves_cons_of_ne_none hnested]
    exact .nil

theorem nested {names : TableNames} (hf : e.fields[n]? = some f) (hkept : f.isTransient = false)
    (hsub : f.nestedEntity? catalog = some sub) (htables : m.Keeps [sub] m')
    (hnames : m'.HasTables sub names)
    (h : Toured catalog casing sub (0 ≤ ·) m' entries m'' tour) :
    Toured catalog casing e (· = n) m
      (entries.map (ColumnMap.qualify f.name (names.get casing))) m''
      (([n], ⟨[f.name], e, f⟩) :: tour.under n f.name) where
  isTour := .nested hf hkept hsub h.isTour
  keeps := by
    rw [Tour.held_cons_of_some hsub, Tour.held_under]
    exact htables.trans h.keeps
  maps := by
    have hnested : f.nested ≠ none := fun hnone => by simp [Field.nestedEntity?, hnone] at hsub
    rw [Tour.leaves_cons_of_ne_none hnested, Tour.leaves_under, Tour.under,
      List.forall₂_map_left_iff, List.forall₂_map_right_iff]
    have hstops : ∀ leaf ∈ tour.leaves, ∃ path, sub.stop? catalog path = some leaf.2 :=
      fun leaf hleaf => ⟨leaf.1, h.isTour.mem_iff_stop?.mp (List.mem_filter.mp hleaf).1⟩
    refine ((List.forall₂_and_left _ _).mpr ⟨hstops, h.maps⟩).imp ?_
    rintro ⟨path, stop⟩ entry ⟨⟨path, hstop⟩, hmaps⟩
    obtain ⟨hne, howner, -⟩ := Entity.owner_of_stop? hstop
    exact hmaps.qualify f.name (h.keeps.hasTables hnames) hne howner

end Toured

theorem turns_resolveFields (catalog : Catalog) (casing : Casing) (walk : List String)
    (e : Entity) (n : Nat) (fields : List Field) (hfields : e.fields.drop n = fields) :
    Resolving.Turns (resolveFields catalog casing walk fields) fun m entries m' =>
      ∃ tour, Toured catalog casing e (n ≤ ·) m entries m' tour := by
  have hjoin : ∀ {own : List (String × String)} {others : Resolving (List (String × String))}
      {P : Memo → List (String × String) → Memo → Prop}, Resolving.Turns others P →
      Resolving.Turns (do let own ← pure own; let entries ← others; return own ++ entries)
        fun m entries m' => ∃ later, P m later m' ∧ entries = own ++ later := by
    intro own others P hothers
    rw [pure_bind]
    refine (hothers.bind fun later => .pure _).mono ?_
    rintro m entries m' ⟨later, _, hlater, rfl, rfl⟩
    exact ⟨later, hlater, rfl⟩
  -- The field at the position and those after it.
  have hcut : ∀ {e : Entity} {n : Nat} {f : Field} {fs : List Field}, e.fields.drop n = f :: fs →
      e.fields[n]? = some f ∧ e.fields.drop (n + 1) = fs := by
    intro e n f fs h
    refine ⟨?_, ?_⟩
    · have hhead := congrArg (·[0]?) h
      simpa using hhead
    · rw [← List.tail_drop, h, List.tail_cons]
  fun_induction resolveFields catalog casing walk fields generalizing e n with
  | case1 =>
    refine (Resolving.Turns.pure _).mono ?_
    rintro m _ m' ⟨rfl, rfl⟩
    refine ⟨[], .nil fun i path hi => Entity.stop?_of_length_le ?_⟩
    exact (List.drop_eq_nil_iff.mp hfields).trans hi
  | case2 walk f fs _ htransient ih =>
    obtain ⟨hf, hfs⟩ := hcut hfields
    refine (hjoin (ih _ _ hfs)).mono ?_
    rintro m _ m' ⟨later, ⟨tour, htour⟩, rfl⟩
    refine ⟨_, Toured.append (.nil ?_) htour⟩
    rintro i path rfl
    exact Entity.stop?_of_transient hf htransient
  | case3 walk f fs _ htransient hnested ih =>
    obtain ⟨hf, hfs⟩ := hcut hfields
    refine (hjoin (ih _ _ hfs)).mono ?_
    rintro m _ m' ⟨later, ⟨tour, htour⟩, rfl⟩
    exact ⟨_, .append (.leaf hf (by simpa using htransient) hnested) htour⟩
  | case4 walk f fs _ htransient i hnested hmissing ih =>
    obtain ⟨hf, hfs⟩ := hcut hfields
    refine (hjoin (ih _ _ hfs)).mono ?_
    rintro m _ m' ⟨later, ⟨tour, htour⟩, rfl⟩
    have hnone : f.nestedEntity? catalog = none := by simp [Field.nestedEntity?, hnested, hmissing]
    exact ⟨_, .append (.dangling hf (by simpa using htransient) (by simp [hnested]) hnone) htour⟩
  | case5 walk f fs _ htransient i hnested sub hsub ihothers ihsub =>
    obtain ⟨hf, hfs⟩ := hcut hfields
    have hheld : f.nestedEntity? catalog = some sub := by
      simp [Field.nestedEntity?, hnested, hsub]
    refine ((turns_tablesOf sub).bind (R := fun tables m b m'' => ∃ entries m',
      (∃ tour, Toured catalog casing sub (0 ≤ ·) m entries m' tour) ∧ ∃ later,
      (∃ tour, Toured catalog casing e (n + 1 ≤ ·) m' later m'' tour) ∧
      b = entries.map (ColumnMap.qualify f.name (tables.get casing)) ++ later)
      fun tables => ?_).mono ?_
    · split
      · exact .throw_bind
      · rename_i hwalk
        exact (ihsub hwalk sub 0 List.drop_zero).bind fun entries => hjoin (ihothers e (n + 1) hfs)
    · rintro m _ m'' ⟨tables, m₁, ⟨htables, hnames⟩, entries, m₂, ⟨tour, htour⟩, later,
        ⟨tour', htour'⟩, rfl⟩
      have hown := Toured.nested hf (by simpa using htransient) hheld htables hnames htour
      exact ⟨_, hown.append htour'⟩

/-- On a memo that keeps nothing, the columns of an entity whose nested fields lead to no cycle are
its leaves in the order of their paths. A physical name of a nested leaf has the table of the entity
that declares it, or of the first one that is held with the same type name. -/
theorem columnsOf_leaves (catalog : Catalog) (casing : Casing) (hacyclic : ¬ e.IsCyclic catalog) :
    ∃ kept t leaves, (columnsOf e casing).run ⟨{ catalog }, []⟩ = (.ok kept, t) ∧
      e.AreLeaves catalog leaves ∧
      List.Forall₂ (fun leaf => leaf.2.Maps casing fun owner names =>
        ∃ first, e.HoldsFirst catalog owner.typeName first ∧ names = .ofEntity first)
        leaves kept.value.entries ∧
      (AreTold catalog →
        List.Forall₂ (fun leaf => leaf.2.Maps casing fun owner names => names = .ofEntity owner)
          leaves kept.value.entries) := by
  have hmade := made_columnsOf catalog casing e
  have hturns := turns_resolveFields catalog casing [e.typeName] e 0 e.fields rfl ⟨{ catalog }, []⟩
  generalize (resolveFields catalog casing [e.typeName] e.fields).run ⟨{ catalog }, []⟩ =
    resolved at hmade hturns
  generalize (columnsOf e casing).run ⟨{ catalog }, []⟩ = made at hmade
  cases hmade with
  | error htells => exact absurd htells.isCyclic hacyclic
  | @ok entries t kept t' hkept =>
    obtain ⟨tour, htour⟩ := hturns entries t rfl
    have hleaves := htour.isTour.areLeaves
    have hmaps : List.Forall₂ (fun leaf => leaf.2.Maps casing t.state.HasTables) tour.leaves
        kept.value.entries := by
      rw [hkept]
      exact htour.maps
    have hfirst : ∀ owner names, t.state.HasTables owner names →
        ∃ first, e.HoldsFirst catalog owner.typeName first ∧ names = .ofEntity first := by
      intro owner names hnames
      rw [HasTables, htour.keeps, List.lookup_nil, Option.none_or] at hnames
      obtain ⟨first, hfound, rfl⟩ := Option.map_eq_some_iff.mp hnames
      exact ⟨first, htour.isTour.holdsFirst hfound, rfl⟩
    refine ⟨kept, t', tour.leaves, rfl, hleaves, hmaps.imp fun leaf entry h => ?_, fun htold => ?_⟩
    · exact h.mono fun _ => hfirst _
    · have hstops : ∀ leaf ∈ tour.leaves, e.stop? catalog leaf.1 = some leaf.2 :=
        fun leaf hleaf => ((hleaves.mem_iff _ _).mp hleaf).1
      refine ((List.forall₂_and_left _ _).mpr ⟨hstops, hmaps⟩).imp fun leaf entry h => ?_
      refine h.2.mono fun hlength names hnames => ?_
      obtain ⟨first, ⟨_, ⟨_, -, hheld⟩, hname, -⟩, rfl⟩ := hfirst _ _ hnames
      rw [htold first (Field.mem_of_nestedEntity? hheld) _
        ((Entity.owner_of_stop? h.1).2.2 hlength) hname]

/-- Holds a person, who holds addresses. -/
def parcel : Entity where
  typeName := "crm::Parcel"
  name := "Parcel"
  fields := [{ name := "label" }, { name := "sender", nested := some 1 }]

theorem columnsOf_leaves_parcel :
    let catalog := [address, person]
    ¬ parcel.IsCyclic catalog ∧
      ∃ kept t leaves, (columnsOf parcel .lowerUnderscore).run ⟨{ catalog }, []⟩ = (.ok kept, t) ∧
        parcel.AreLeaves catalog leaves ∧
        ([1, 0, 0], ⟨["sender", "home", "street"], address, { name := "street" }⟩) ∈ leaves ∧
        kept.value.entries = [("label", "label"), ("sender.home.street", "address.street"),
          ("sender.office.street", "address.street")] := by
  intro catalog
  have hcolumns : ((columnsOf parcel .lowerUnderscore).run ⟨{ catalog }, []⟩).1.map
      (·.value.entries) = .ok [("label", "label"), ("sender.home.street", "address.street"),
        ("sender.office.street", "address.street")] := by
    dsimp only [catalog]
    cbv
  have hacyclic := not_isCyclic_of_ok hcolumns
  obtain ⟨kept, t, leaves, hrun, hleaves, -, -⟩ :=
    columnsOf_leaves catalog .lowerUnderscore hacyclic
  rw [hrun] at hcolumns
  exact ⟨hacyclic, kept, t, leaves, hrun, hleaves, (hleaves.mem_iff _ _).mpr ⟨rfl, rfl⟩,
    Except.ok.inj hcolumns⟩

def depot : Entity where
  typeName := "crm::Place"
  name := "Depot"
  fields := [{ name := "street" }]

/-- Has the type name of a depot, but another table. -/
def shop : Entity where
  typeName := "crm::Place"
  name := "Shop"
  fields := [{ name := "street" }]

def firm : Entity where
  typeName := "crm::Firm"
  name := "Firm"
  fields := [{ name := "stock", nested := some 0 }, { name := "sales", nested := some 1 }]

/-- The columns of a shop get the table of the depot that stands before it. -/
theorem columnsOf_leaves_namesakes :
    let catalog := [depot, shop]
    ¬ firm.IsCyclic catalog ∧
      ¬ ∃ kept t leaves, (columnsOf firm .lowerUnderscore).run ⟨{ catalog }, []⟩ = (.ok kept, t) ∧
        firm.AreLeaves catalog leaves ∧
        List.Forall₂ (fun leaf => leaf.2.Maps .lowerUnderscore fun owner names =>
          names = .ofEntity owner) leaves kept.value.entries := by
  intro catalog
  have hcolumns : ((columnsOf firm .lowerUnderscore).run ⟨{ catalog }, []⟩).1.map
      (·.value.entries) =
        .ok [("stock.street", "depot.street"), ("sales.street", "depot.street")] := by
    dsimp only [catalog]
    cbv
  refine ⟨not_isCyclic_of_ok hcolumns, ?_⟩
  rintro ⟨kept, t, leaves, hrun, hleaves, hmaps⟩
  rw [hrun] at hcolumns
  rw [show kept.value.entries = _ from Except.ok.inj hcolumns] at hmaps
  have hsales : ([1, 0], ⟨["sales", "street"], shop, { name := "street" }⟩) ∈ leaves :=
    (hleaves.mem_iff _ _).mpr ⟨rfl, rfl⟩
  cases hmaps with
  | @cons first _ rest _ hfirst hrest =>
    cases hrest with
    | @cons second _ rest _ hsecond hrest =>
      cases hrest
      simp only [List.mem_cons, List.not_mem_nil, or_false] at hsales
      obtain rfl | rfl := hsales
      · have hkey := hfirst.key
        revert hkey
        decide
      · obtain ⟨names, rfl, hentry⟩ := hsecond.qualified (by decide) (by decide)
        revert hentry
        decide

end Memo

end Cql
