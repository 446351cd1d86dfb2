import Mathlib
import Cql.Row
import Cql.Slots

/-!
Rows as maps. A row has no name twice, and gives for each name what was put there last. It keeps all
of the entries that it is made of, in their order, exactly if their names are distinct.
-/

namespace Cql.Row

variable {row : Row} {entries : List (String × Value)} {name other : String} {value : Value}

theorem map_fst_putEntry (name : String) (value : Value) (entries : List (String × Value)) :
    (putEntry name value entries).map Prod.fst =
      if name ∈ entries.map Prod.fst then entries.map Prod.fst
      else entries.map Prod.fst ++ [name] := by
  induction entries with
  | nil => rfl
  | cons entry entries ih =>
    obtain ⟨first, v⟩ := entry
    rw [putEntry]
    by_cases h : first = name
    · simp [h]
    · have hne : name ≠ first := fun heq => h heq.symm
      rw [if_neg h, List.map_cons, ih]
      by_cases hmem : name ∈ entries.map Prod.fst <;> simp [hne, hmem]

theorem putEntry_of_notMem (h : name ∉ entries.map Prod.fst) (value : Value) :
    putEntry name value entries = entries ++ [(name, value)] := by
  induction entries with
  | nil => rfl
  | cons entry entries ih =>
    rw [List.map_cons, List.mem_cons, not_or] at h
    rw [putEntry, if_neg fun heq => h.1 heq.symm, ih h.2, List.cons_append]

theorem lookup_cons (entry : String × Value) (entries : List (String × Value)) (name : String) :
    (entry :: entries).lookup name = if name = entry.1 then some entry.2 else entries.lookup name :=
  Slots.get?_cons entry entries name

theorem lookup_putEntry (name other : String) (value : Value) (entries : List (String × Value)) :
    (putEntry name value entries).lookup other =
      if other = name then some value else entries.lookup other := by
  induction entries with
  | nil => rw [putEntry, lookup_cons]
  | cons entry entries ih =>
    obtain ⟨first, v⟩ := entry
    rw [putEntry, lookup_cons]
    by_cases h : first = name
    · rw [if_pos h, lookup_cons]
      by_cases hother : other = name <;> simp [hother, h]
    · rw [if_neg h, lookup_cons, ih]
      by_cases hother : other = first
      · simp [hother, h]
      · simp [hother]

/-- Without repeated names, a row gives the values of its entries. -/
theorem get?_of_mem (hnames : row.names.Nodup) {entry : String × Value} (h : entry ∈ row.entries) :
    row.get? entry.1 = some entry.2 := by
  obtain ⟨entries⟩ := row
  induction entries with
  | nil => cases h
  | cons first entries ih =>
    obtain ⟨hfirst, hothers⟩ := List.nodup_cons.mp hnames
    rw [get?, lookup_cons]
    obtain rfl | h := List.mem_cons.mp h
    · rw [if_pos rfl]
    · have hne : entry.1 ≠ first.1 := fun heq => hfirst (heq ▸ List.mem_map_of_mem h)
      rw [if_neg hne]
      exact ih hothers h

theorem names_put (row : Row) (name : String) (value : Value) :
    (row.put name value).names = if name ∈ row.names then row.names else row.names ++ [name] :=
  map_fst_putEntry name value row.entries

theorem get?_put (row : Row) (name other : String) (value : Value) :
    (row.put name value).get? other = if other = name then some value else row.get? other :=
  lookup_putEntry name other value row.entries

theorem nodup_names_put (h : row.names.Nodup) (name : String) (value : Value) :
    (row.put name value).names.Nodup := by
  rw [names_put]
  split
  · exact h
  · rename_i hnew
    rw [List.nodup_append_comm, List.singleton_append]
    exact List.nodup_cons.mpr ⟨hnew, h⟩

theorem ofList_concat (entries : List (String × Value)) (entry : String × Value) :
    ofList (entries ++ [entry]) = (ofList entries).put entry.1 entry.2 := by
  rw [ofList, ofList, List.foldl_append]
  rfl

theorem nodup_names_ofList (entries : List (String × Value)) : (ofList entries).names.Nodup := by
  induction entries using List.reverseRecOn with
  | nil => exact List.nodup_nil
  | append_singleton entries entry ih =>
    rw [ofList_concat]
    exact nodup_names_put ih entry.1 entry.2

/-- Of several values for a name the last one counts. -/
theorem get?_ofList (entries : List (String × Value)) (name : String) :
    (ofList entries).get? name = entries.reverse.lookup name := by
  induction entries using List.reverseRecOn with
  | nil => rfl
  | append_singleton entries entry ih =>
    rw [ofList_concat, get?_put, ih, List.reverse_concat, lookup_cons]

theorem get?_ofList_eq_none_iff :
    (ofList entries).get? name = none ↔ name ∉ entries.map Prod.fst := by
  rw [get?_ofList]
  exact Slots.get?_eq_none_iff.trans (by simp [Slots.names])

theorem entries_ofList (h : (entries.map Prod.fst).Nodup) : (ofList entries).entries = entries := by
  induction entries using List.reverseRecOn with
  | nil => rfl
  | append_singleton entries entry ih =>
    rw [List.map_append, List.map_singleton, List.nodup_append_comm, List.singleton_append,
      List.nodup_cons] at h
    have hentries := ih h.2
    rw [ofList_concat, put, hentries, putEntry_of_notMem h.1]

theorem entries_ofList_eq_self_iff :
    (ofList entries).entries = entries ↔ (entries.map Prod.fst).Nodup := by
  refine ⟨fun h => ?_, entries_ofList⟩
  have hnames := nodup_names_ofList entries
  rwa [names, h] at hnames

end Cql.Row
