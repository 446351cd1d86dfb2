/-!
Named slots that may hold something.
-/

namespace Cql

abbrev Slots (α : Type) := List (String × α)

namespace Slots

variable {α : Type}

def get? (slots : Slots α) (slot : String) : Option α := slots.lookup slot

def erase (slots : Slots α) (slot : String) : Slots α := slots.filter (·.1 ≠ slot)

def put (slots : Slots α) (slot : String) (a : α) : Slots α := (slot, a) :: slots.erase slot

def names (slots : Slots α) : List String := slots.map Prod.fst

variable {slots : Slots α} {slot other : String} {a : α}

theorem get?_cons (entry : String × α) (slots : Slots α) (slot : String) :
    get? (entry :: slots) slot = if slot = entry.1 then some entry.2 else slots.get? slot := by
  obtain ⟨name, a⟩ := entry
  rw [get?, List.lookup_cons]
  by_cases h : slot = name
  · simp [h]
  · rw [beq_false_of_ne h, if_neg h, get?]

theorem get?_eq_none_iff : slots.get? slot = none ↔ slot ∉ slots.names := by
  rw [get?, List.lookup_eq_none_iff, names, List.mem_map]
  constructor
  · rintro hall ⟨entry, hentry, rfl⟩
    simpa using hall entry hentry
  · intro hnone entry hentry
    have hne : slot ≠ entry.1 := fun heq => hnone ⟨entry, hentry, heq.symm⟩
    simpa using hne

@[simp]
theorem get?_put_self : (slots.put slot a).get? slot = some a := by
  rw [put, get?_cons, if_pos rfl]

theorem get?_erase_of_ne (h : other ≠ slot) : (slots.erase other).get? slot = slots.get? slot := by
  induction slots with
  | nil => rfl
  | cons entry slots ih =>
    rw [erase, List.filter_cons]
    by_cases hentry : entry.1 = other
    · have hne : slot ≠ entry.1 := fun heq => h (hentry.symm.trans heq.symm)
      rw [if_neg (by simpa using hentry), get?_cons, if_neg hne]
      exact ih
    · rw [if_pos (by simpa using hentry), get?_cons, get?_cons]
      exact congrArg _ ih

theorem get?_put_of_ne (h : other ≠ slot) : (slots.put other a).get? slot = slots.get? slot := by
  rw [put, get?_cons, if_neg (Ne.symm h), get?_erase_of_ne h]

end Slots

end Cql
