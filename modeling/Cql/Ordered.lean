/-!
Entries that stand in the order of their keys.
-/

namespace Cql.Ordered

variable {κ α : Type} [DecidableEq κ] [LT κ] [DecidableLT κ]

/-- Puts an entry at its place in the order of the keys; an entry of that key is replaced. -/
def put (key : κ) (a : α) : List (κ × α) → List (κ × α)
  | [] => [(key, a)]
  | (k, b) :: rest =>
    if key = k then (key, a) :: rest
    else if key < k then (key, a) :: (k, b) :: rest
    else (k, b) :: put key a rest

/-- A key that is above all others comes last. -/
theorem put_of_lt [Std.Asymm (LT.lt : κ → κ → Prop)] {key : κ} {a : α} {entries : List (κ × α)}
    (h : ∀ entry ∈ entries, entry.1 < key) : put key a entries = entries ++ [(key, a)] := by
  induction entries with
  | nil => rfl
  | cons entry entries ih =>
    have hlt : entry.1 < key := h entry (by simp)
    have hge : ¬key < entry.1 := Std.Asymm.asymm _ _ hlt
    have hne : key ≠ entry.1 := fun heq => hge (heq ▸ hlt)
    rw [put, if_neg hne, if_neg hge, ih fun e he => h e (by simp [he])]
    rfl

end Cql.Ordered
