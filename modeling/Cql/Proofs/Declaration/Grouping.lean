import Cql.Proofs.Declaration.Marks

/-!
How the items of a field are grouped into attributes. The marks of a field depend on the items in
their order alone: the first item with something wrong decides how they fail, and without one they
are the flags among the items and the last column. So flags may stand in any order.
-/

namespace Cql.Declaration

namespace Item

def isFlag : Item → Bool
  | .word name => name ∈ ["id", "read_only", "non_updatable", "transient", "nested"]
  | .assign .. => false

/-- The column that an item names. -/
def column? : Item → Option String
  | .word _ => none
  | .assign _ .other => none
  | .assign key (.text s) => if key = "column" ∧ s ≠ "" then some s else none

/-- An item that says something of a field. -/
def IsMark (item : Item) : Prop := item.isFlag ∨ item.column?.isSome

/-- What is wrong with an item, whatever else is said of the field. -/
def fault? (item : Item) : Option Fault :=
  match ({} : Marks).add item with
  | .error fault => some fault
  | .ok _ => none

end Item

namespace Marks

/-- What items say together: the flags among them, and the last column. -/
def ofItems (items : List Item) : Marks where
  column := (items.filterMap Item.column?).getLast?
  isKey := items.contains (.word "id")
  isReadOnly := items.contains (.word "read_only")
  isFixed := items.contains (.word "non_updatable")
  isTransient := items.contains (.word "transient")
  isNested := items.contains (.word "nested")

variable {m m' : Marks} {items others : List Item} {item : Item} {fault : Fault} {name : String}

theorem merge_empty (m : Marks) : m.merge {} = m := by
  simp [merge]

theorem empty_merge (m : Marks) : ({} : Marks).merge m = m := by
  simp [merge]

theorem merge_assoc (m m' m'' : Marks) : (m.merge m').merge m'' = m.merge (m'.merge m'') := by
  simp [merge, Bool.or_assoc, Option.or_assoc]

theorem ofItems_append (items others : List Item) :
    ofItems (items ++ others) = (ofItems items).merge (ofItems others) := by
  simp [ofItems, merge]

/-- A flag is merged like the marks of an item of its own. -/
theorem flag?_eq (m : Marks) (name : String) : m.flag? name =
    if Item.isFlag (.word name) then some (m.merge (ofItems [.word name])) else none := by
  unfold flag?
  split
  case h_6 => simp_all [Item.isFlag]
  all_goals simp [Item.isFlag, merge, ofItems, Item.column?]

theorem isSome_flag? (m : Marks) (name : String) :
    (m.flag? name).isSome = Item.isFlag (.word name) := by
  rw [flag?_eq]
  split <;> simp_all

/-- One more item is merged like the marks of an attribute of its own, or fails as it does there. -/
theorem add_eq (m : Marks) (item : Item) : m.add item =
    match item.fault? with
    | some fault => .error fault
    | none => .ok (m.merge (ofItems [item])) := by
  rw [Item.fault?, add, add]
  split
  · rfl
  cases item with
  | word name =>
    simp only [addNamed, flag?_eq]
    by_cases hcolumn : name = "column"
    · simp [hcolumn]
    by_cases hflag : Item.isFlag (.word name) <;> simp [hcolumn, hflag]
  | assign key value =>
    simp only [addNamed, isSome_flag?]
    by_cases hcolumn : key = "column"
    · cases value with
      | other => simp [hcolumn]
      | text s => by_cases hs : s = "" <;> simp [hcolumn, hs, merge, ofItems, Item.column?]
    by_cases hflag : Item.isFlag (.word key) <;> simp [hcolumn, hflag]

theorem not_isKeyword_of_isFlag (h : Item.isFlag (.word name)) :
    Keyword.isKeyword name = false := by
  simp only [Item.isFlag, List.mem_cons, List.not_mem_nil, or_false, decide_eq_true_eq] at h
  obtain rfl | rfl | rfl | rfl | rfl := h <;> decide

theorem isOk_add (m : Marks) (item : Item) :
    (m.add item).isOk = (item.isFlag || item.column?.isSome) := by
  rw [add]
  cases item with
  | word name =>
    simp only [addNamed, flag?_eq, Item.name, Item.column?, Option.isSome_none, Bool.or_false]
    by_cases hflag : Item.isFlag (.word name)
    · have hne : name ≠ "column" := by rintro rfl; cases hflag
      simp [not_isKeyword_of_isFlag hflag, hne, hflag, Except.isOk, Except.toBool]
    · split
      · simp [hflag, Except.isOk, Except.toBool]
      · split <;> simp [hflag, Except.isOk, Except.toBool]
  | assign key value =>
    simp only [addNamed, isSome_flag?, Item.name, Item.isFlag, Bool.false_or]
    by_cases hcolumn : key = "column"
    · have hkeyword : Keyword.isKeyword "column" = false := by decide
      cases value with
      | other => simp [hcolumn, hkeyword, Item.column?, Except.isOk, Except.toBool]
      | text s =>
        by_cases hs : s = "" <;>
          simp [hcolumn, hkeyword, hs, Item.column?, Except.isOk, Except.toBool]
    · have hnone : (Item.assign key value).column? = none := by
        cases value <;> simp [Item.column?, hcolumn]
      rw [hnone, if_neg hcolumn]
      split
      · rfl
      · split <;> rfl

theorem fault?_eq_none_iff : item.fault? = none ↔ item.IsMark := by
  have hok := isOk_add {} item
  rw [Item.IsMark, ← Bool.or_eq_true, ← hok, Item.fault?]
  cases ({} : Marks).add item with
  | error fault => simp [Except.isOk, Except.toBool]
  | ok m => simp [Except.isOk, Except.toBool]

/-- The first item with something wrong decides how a list of items fails. -/
theorem foldlM_add (items : List Item) (m : Marks) : items.foldlM add m =
    match items.findSome? Item.fault? with
    | some fault => .error fault
    | none => .ok (m.merge (ofItems items)) := by
  induction items generalizing m with
  | nil => exact congrArg Except.ok (merge_empty m).symm
  | cons item items ih =>
    rw [List.foldlM_cons, add_eq, List.findSome?_cons]
    cases item.fault? with
    | some fault => rfl
    | none =>
      change items.foldlM add (m.merge (ofItems [item])) = _
      rw [ih, merge_assoc, ← ofItems_append, List.singleton_append]

theorem map_merge_ofAttribute (m : Marks) (a : Attribute) :
    (ofAttribute a).map m.merge = a.foldlM add m := by
  rw [ofAttribute, foldlM_add, foldlM_add, empty_merge]
  cases a.findSome? Item.fault? <;> rfl

/-- Attributes say what the items in them say one after the other. -/
theorem gather_eq (attributes : List Attribute) :
    gather attributes = attributes.flatten.foldlM add {} := by
  have hfrom : ∀ m : Marks, attributes.foldlM (fun m a => (ofAttribute a).map m.merge) m =
      attributes.flatten.foldlM add m := by
    induction attributes with
    | nil => exact fun _ => rfl
    | cons a attributes ih =>
      intro m
      rw [List.foldlM_cons, List.flatten_cons, List.foldlM_append, map_merge_ofAttribute]
      exact bind_congr ih
  exact hfrom {}

theorem ofAttributes_eq (attributes : List Attribute) : ofAttributes attributes =
    match attributes.flatten.findSome? Item.fault? with
    | some fault => .error fault
    | none => (ofItems attributes.flatten).check := by
  rw [ofAttributes, gather_eq, foldlM_add, empty_merge]
  cases attributes.flatten.findSome? Item.fault? <;> rfl

/-- The same items, but for the order of the flags. -/
structure SameButFlags (items others : List Item) : Prop where
  flags : (items.filter Item.isFlag).Perm (others.filter Item.isFlag)
  rest : items.filter (!·.isFlag) = others.filter (!·.isFlag)

theorem findSome?_fault?_filter (items : List Item) :
    (items.filter (!·.isFlag)).findSome? Item.fault? = items.findSome? Item.fault? := by
  induction items with
  | nil => rfl
  | cons item items ih =>
    rw [List.filter_cons, List.findSome?_cons]
    by_cases hflag : item.isFlag
    · rw [fault?_eq_none_iff.mpr (.inl hflag), if_neg (by simpa using hflag), ih]
    · rw [if_pos (by simpa using hflag), List.findSome?_cons, ih]

theorem filterMap_column?_filter (items : List Item) :
    (items.filter (!·.isFlag)).filterMap Item.column? = items.filterMap Item.column? := by
  rw [List.filterMap_filter]
  refine List.filterMap_congr fun item _ => ?_
  cases item with
  | word name => simp [Item.column?]
  | assign key value => rfl

namespace SameButFlags

theorem findSome?_eq (h : SameButFlags items others) :
    items.findSome? Item.fault? = others.findSome? Item.fault? := by
  rw [← findSome?_fault?_filter items, h.rest, findSome?_fault?_filter]

theorem contains_eq (h : SameButFlags items others) (hflag : item.isFlag) :
    items.contains item = others.contains item := by
  have hmem : item ∈ items.filter Item.isFlag ↔ item ∈ others.filter Item.isFlag :=
    h.flags.mem_iff
  simp only [List.mem_filter, hflag, and_true] at hmem
  simpa using hmem

theorem ofItems_eq (h : SameButFlags items others) : ofItems items = ofItems others := by
  have hcolumns : items.filterMap Item.column? = others.filterMap Item.column? := by
    rw [← filterMap_column?_filter items, h.rest, filterMap_column?_filter]
  rw [ofItems, ofItems, hcolumns]
  congr 1 <;> exact h.contains_eq rfl

end SameButFlags

/-- A flag or a column stands beside one that it must not stand beside. -/
def Contradicts (items : List Item) : Prop :=
  (.word "transient" ∈ items ∧
    (.word "id" ∈ items ∨ .word "nested" ∈ items ∨ ∃ value, .assign "column" value ∈ items)) ∨
  (.word "nested" ∈ items ∧ (.word "id" ∈ items ∨ ∃ value, .assign "column" value ∈ items))

theorem isConsistent_iff : m.IsConsistent ↔
    ¬(m.isTransient ∧ (m.isKey ∨ m.isNested ∨ m.column.isSome)) ∧
      ¬(m.isNested ∧ (m.isKey ∨ m.column.isSome)) := by
  constructor
  · intro h
    constructor
    · rintro ⟨htransient, hfield | hfield | hfield⟩
      · exact Bool.false_ne_true ((h.key hfield).1.symm.trans htransient)
      · exact Bool.false_ne_true ((h.nested hfield).symm.trans htransient)
      · exact Bool.false_ne_true ((h.column hfield).1.symm.trans htransient)
    · rintro ⟨hnested, hfield | hfield⟩
      · exact Bool.false_ne_true ((h.key hfield).2.symm.trans hnested)
      · exact Bool.false_ne_true ((h.column hfield).2.symm.trans hnested)
  · rintro ⟨htransient, hnested⟩
    constructor <;> grind

theorem check_eq_ok_iff : m.check = .ok m' ↔ m' = m ∧ m.IsConsistent := by
  refine ⟨check_eq_ok, ?_⟩
  rintro ⟨rfl, hconsistent⟩
  obtain ⟨htransient, hnested⟩ := isConsistent_iff.mp hconsistent
  rw [check, if_neg htransient, if_neg hnested]

theorem exists_assign_of_column? {s : String} (h : item.column? = some s) :
    ∃ value, item = .assign "column" value := by
  unfold Item.column? at h
  split at h
  · cases h
  · cases h
  · rename_i key value
    split at h
    · rename_i hcolumn
      exact ⟨.text value, by rw [hcolumn.1]⟩
    · cases h

theorem isSome_column_ofItems (h : ∀ item ∈ items, item.IsMark) :
    (ofItems items).column.isSome ↔ ∃ value, .assign "column" value ∈ items := by
  rw [ofItems, List.getLast?_isSome, ← List.isEmpty_eq_false_iff,
    List.isEmpty_eq_false_iff_exists_mem]
  constructor
  · rintro ⟨s, hs⟩
    obtain ⟨item, hitem, hcolumn⟩ := List.mem_filterMap.mp hs
    obtain ⟨value, rfl⟩ := exists_assign_of_column? hcolumn
    exact ⟨value, hitem⟩
  · rintro ⟨value, hitem⟩
    obtain hflag | hcolumn := h _ hitem
    · cases hflag
    · obtain ⟨s, hs⟩ := Option.isSome_iff_exists.mp hcolumn
      exact ⟨s, List.mem_filterMap.mpr ⟨_, hitem, hs⟩⟩

theorem isConsistent_ofItems_iff (h : ∀ item ∈ items, item.IsMark) :
    (ofItems items).IsConsistent ↔ ¬Contradicts items := by
  have hcontains : ∀ word, items.contains (.word word) = true ↔ .word word ∈ items :=
    fun word => List.contains_iff_mem
  rw [isConsistent_iff, Contradicts, not_or, ← isSome_column_ofItems h, ← hcontains, ← hcontains,
    ← hcontains]
  rfl

/-- How the items of a field are spread over its attributes does not count, nor does the order of
the flags among them, even if they fail. Contradictions are refused wherever they stand. A field is
accepted exactly if each item is a flag or names a column and none contradicts another, and its
marks are then the flags among the items and the last column. -/
theorem ofAttributes_regrouped (attributes : List Attribute) :
    let items := attributes.flatten
    ofAttributes attributes = ofAttributes [items] ∧
      (∀ others : List Attribute, SameButFlags items others.flatten →
        ofAttributes others = ofAttributes attributes) ∧
      (Contradicts items → ∃ fault, ofAttributes attributes = .error fault) ∧
      ∀ m, ofAttributes attributes = .ok m ↔
        (∀ item ∈ items, item.IsMark) ∧ ¬Contradicts items ∧ m = ofItems items := by
  intro items
  have haccepted : ∀ m, ofAttributes attributes = .ok m ↔
      (∀ item ∈ items, item.IsMark) ∧ ¬Contradicts items ∧ m = ofItems items := by
    intro m
    rw [ofAttributes_eq]
    cases hfault : attributes.flatten.findSome? Item.fault? with
    | some fault =>
      obtain ⟨item, hitem, hitemFault⟩ := List.exists_of_findSome?_eq_some hfault
      refine ⟨(nomatch ·), fun h => ?_⟩
      rw [fault?_eq_none_iff.mpr (h.1 item hitem)] at hitemFault
      cases hitemFault
    | none =>
      have hmarks : ∀ item ∈ items, item.IsMark := fun item hitem =>
        fault?_eq_none_iff.mp (List.findSome?_eq_none_iff.mp hfault item hitem)
      change (ofItems items).check = .ok m ↔ _
      rw [check_eq_ok_iff, isConsistent_ofItems_iff hmarks]
      exact ⟨fun h => ⟨hmarks, h.2, h.1⟩, fun h => ⟨h.2.2, h.2.1⟩⟩
  refine ⟨?_, fun others hothers => ?_, fun hcontradicts => ?_, haccepted⟩
  · rw [ofAttributes_eq, ofAttributes_eq, List.flatten_singleton]
  · rw [ofAttributes_eq, ofAttributes_eq, ← hothers.findSome?_eq, ← hothers.ofItems_eq]
  · cases hresult : ofAttributes attributes with
    | error fault => exact ⟨fault, rfl⟩
    | ok m => exact absurd hcontradicts ((haccepted m).mp hresult).2.1

/-- A key that is only read, with two columns in three attributes, one of them empty, and its items
again in two attributes. A key is not transient. -/
theorem ofAttributes_regrouped_account :
    let attributes : List Attribute :=
      [[.word "read_only", .assign "column" (.text "account")], [],
        [.assign "column" (.text "acct_id"), .word "id"]]
    let others : List Attribute :=
      [[.word "id", .assign "column" (.text "account"), .word "read_only"],
        [.assign "column" (.text "acct_id")]]
    SameButFlags attributes.flatten others.flatten ∧
      ofAttributes others = ofAttributes attributes ∧
      ofAttributes attributes = .ok { column := "acct_id", isKey := true, isReadOnly := true } ∧
      Contradicts ([[.word "transient"], attributes.flatten].flatten) ∧
      ∃ fault, ofAttributes [[.word "transient"], attributes.flatten] = .error fault := by
  intro attributes others
  have hsame : SameButFlags attributes.flatten others.flatten := ⟨by decide, by decide⟩
  have hcontradicts : Contradicts ([[.word "transient"], attributes.flatten].flatten) :=
    .inl ⟨by decide, .inl (by decide)⟩
  exact ⟨hsame, (ofAttributes_regrouped attributes).2.1 others hsame, rfl, hcontradicts,
    (ofAttributes_regrouped [[.word "transient"], attributes.flatten]).2.2.1 hcontradicts⟩

end Marks

end Cql.Declaration
