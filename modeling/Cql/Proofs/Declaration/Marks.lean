import Cql.Declaration.Marks
import Cql.Proofs.Step

/-!
The marks of a field, read off its attributes. A mark is set exactly if one of the attributes has
its word, and the marks of an accepted field do not contradict each other.
-/

namespace Cql.Declaration

/-- An attribute of the field has the word. -/
def Member.isMarked (m : Member) (word : String) : Bool :=
  m.attributes.any (·.contains (.word word))

namespace Marks

variable {m m' : Marks} {word : String}

/-- The mark for a word. -/
def isSet (m : Marks) : String → Bool
  | "id" => m.isKey
  | "read_only" => m.isReadOnly
  | "non_updatable" => m.isFixed
  | "transient" => m.isTransient
  | "nested" => m.isNested
  | _ => false

theorem isSet_flag? (h : m.flag? word = some m') (name : String) :
    m'.isSet name = (m.isSet name || word == name) := by
  unfold flag? at h
  split at h
  case h_6 => cases h
  all_goals
    cases h
    unfold isSet
    split <;> grind

theorem isSet_addNamed {item : Item} (h : m.addNamed item = .ok m') (name : String) :
    m'.isSet name = (m.isSet name || item == .word name) := by
  cases item with
  | word own =>
    have hword : (Item.word own == Item.word name) = (own == name) := by
      by_cases heq : own = name <;> simp [heq]
    simp only [addNamed] at h
    split at h
    · cases h
    split at h
    · rename_i hflag
      cases h
      rw [isSet_flag? hflag, hword]
    · cases h
  | assign key value =>
    have hword : (Item.assign key value == Item.word name) = false := rfl
    rw [hword, Bool.or_false]
    simp only [addNamed] at h
    split at h
    · split at h
      · cases h
      split at h
      · cases h
      · cases h
        rfl
    · split at h <;> cases h

theorem isSet_add {item : Item} (h : m.add item = .ok m') (name : String) :
    m'.isSet name = (m.isSet name || item == .word name) := by
  rw [add] at h
  split at h
  · cases h
  · exact isSet_addNamed h name

theorem isSet_merge (m later : Marks) (name : String) :
    (m.merge later).isSet name = (m.isSet name || later.isSet name) := by
  unfold isSet
  split <;> rfl

theorem isSet_empty (name : String) : ({} : Marks).isSet name = false := by
  unfold isSet
  split <;> rfl

/-- What is gathered from nothing has the marks that one of the sources sets. -/
theorem isSet_foldlM {α : Type} {f : Marks → α → Except Fault Marks} {sets : α → Bool}
    {name : String} (hf : ∀ m a, Yields (f m a) fun m' => m'.isSet name = (m.isSet name || sets a))
    (as : List α) : Yields (as.foldlM f {}) fun m => m.isSet name = as.any sets := by
  have hfrom : ∀ (as : List α) (m : Marks), Yields (as.foldlM f m) fun m' =>
      m'.isSet name = (m.isSet name || as.any sets) := by
    intro as
    induction as with
    | nil => exact fun m => .ok (by simp)
    | cons a as ih =>
      intro m
      rw [List.foldlM_cons]
      refine (hf m a).bind fun m' hm' => (ih m').mono fun m'' hm'' => ?_
      rw [hm'', hm', List.any_cons, Bool.or_assoc]
  refine (hfrom as {}).mono fun m hm => ?_
  rw [hm, isSet_empty, Bool.false_or]

theorem isSet_ofAttribute (a : Attribute) (name : String) :
    Yields (ofAttribute a) fun m => m.isSet name = a.contains (.word name) := by
  have hadd : ∀ (m : Marks) (item : Item), Yields (m.add item) fun m' =>
      m'.isSet name = (m.isSet name || Item.word name == item) := by
    intro m item m' h
    rw [isSet_add h name, BEq.comm]
  rw [List.contains_eq_any_beq]
  exact isSet_foldlM hadd a

theorem isSet_gather (attributes : List Attribute) (name : String) :
    Yields (gather attributes) fun m =>
      m.isSet name = attributes.any (·.contains (.word name)) := by
  refine isSet_foldlM (fun m a m' h => ?_) attributes
  cases hown : ofAttribute a with
  | error e =>
    rw [hown] at h
    cases h
  | ok own =>
    rw [hown] at h
    cases h
    rw [isSet_merge, isSet_ofAttribute a name own hown]

/-- A transient field is nothing else, and a nested one is no key and has no column. -/
structure IsConsistent (m : Marks) : Prop where
  key : m.isKey → m.isTransient = false ∧ m.isNested = false
  column : m.column.isSome → m.isTransient = false ∧ m.isNested = false
  nested : m.isNested → m.isTransient = false

theorem check_eq_ok (h : m.check = .ok m') : m' = m ∧ m.IsConsistent := by
  rw [check] at h
  split at h
  · cases h
  split at h
  · cases h
  · cases h
    refine ⟨rfl, ?_, ?_, ?_⟩ <;> grind

theorem ofAttributes_eq_ok (attributes : List Attribute) :
    Yields (ofAttributes attributes) fun m =>
      (∀ name, m.isSet name = attributes.any (·.contains (.word name))) ∧ m.IsConsistent := by
  refine yields_self.bind fun gathered hgathered => fun m hm => ?_
  obtain ⟨rfl, hconsistent⟩ := check_eq_ok hm
  exact ⟨fun name => isSet_gather attributes name m hgathered, hconsistent⟩

end Marks

end Cql.Declaration
