import Cql.Proofs.Row

/-!
What a row remembers of the calls that made it. It has the names for which a value was put since
they were last removed, in the order in which that first happened, and gives for each the value that
was put last.
-/

namespace Cql.Row

/-- A value is put for a name, or all names go that are not kept. -/
inductive Change
  | put (name : String) (value : Value)
  | restrict (keep : String → Bool)

inductive Call
  | put (name : String) (value : Value)
  | restrict (keep : String → Bool)
  /-- A row of these entries takes the place of the row. -/
  | ofList (entries : List (String × Value))

def call (row : Row) : Call → Row
  | .put name value => row.put name value
  | .restrict keep => row.restrict keep
  | .ofList entries => ofList entries

/-- What calls make of an empty row. -/
def after (calls : List Call) : Row := calls.foldl call empty

/-- With a new row all names of the old one go, and the values of the new one are put in turn. -/
def Call.changes : Call → List Change
  | .put name value => [.put name value]
  | .restrict keep => [.restrict keep]
  | .ofList entries => .restrict (fun _ => false) :: entries.map fun e => .put e.1 e.2

/-- All changes that calls make, in order. -/
def changes (calls : List Call) : List Change := calls.flatMap Call.changes

/-- No change after the i-th one removes the name. -/
def KeptAfter (history : List Change) (name : String) (i : ℕ) : Prop :=
  ∀ j > i, ∀ keep : String → Bool, history[j]? = some (Change.restrict keep) → keep name

/-- When a value was put for a name since the name was last removed. -/
def standing (history : List Change) (name : String) : Set ℕ :=
  { i | (∃ value, history[i]? = some (Change.put name value)) ∧ KeptAfter history name i }

variable {row : Row} {history : List Change} {name other : String} {value : Value}
  {keep : String → Bool} {i : ℕ}

section Standing

theorem getElem?_concat_eq_some_iff {change change' : Change} :
    (history ++ [change])[i]? = some change' ↔
      history[i]? = some change' ∨ i = history.length ∧ change' = change := by
  rcases lt_trichotomy i history.length with hlt | rfl | hgt
  · simp [List.getElem?_append_left hlt, hlt.ne]
  · simp [eq_comm]
  · have hnone : (history ++ [change])[i]? = none := by simp; omega
    simp [hnone, hgt.le, hgt.ne']

theorem lt_of_mem_standing (h : i ∈ standing history name) : i < history.length := by
  obtain ⟨⟨value, hvalue⟩, -⟩ := h
  exact (List.getElem?_eq_some_iff.mp hvalue).1

theorem keptAfter_concat_put :
    KeptAfter (history ++ [.put name value]) other i ↔ KeptAfter history other i := by
  simp [KeptAfter, getElem?_concat_eq_some_iff]

theorem keptAfter_concat_restrict (hi : i < history.length) :
    KeptAfter (history ++ [.restrict keep]) name i ↔ KeptAfter history name i ∧ keep name := by
  constructor
  · refine fun h => ⟨fun j hj k hk => ?_, h history.length hi keep (by simp)⟩
    exact h j hj k (getElem?_concat_eq_some_iff.mpr (.inl hk))
  · rintro ⟨h, hkeep⟩ j hj k hk
    obtain hk | ⟨-, hk⟩ := getElem?_concat_eq_some_iff.mp hk
    · exact h j hj k hk
    · cases hk
      exact hkeep

theorem keptAfter_length : KeptAfter history name history.length := by
  intro j hj keep h
  rw [List.getElem?_eq_none hj.le] at h
  cases h

theorem standing_concat_put (history : List Change) (name : String) (value : Value)
    (other : String) : standing (history ++ [.put name value]) other =
      if other = name then insert history.length (standing history other)
      else standing history other := by
  ext i
  have hmem : i ∈ standing (history ++ [.put name value]) other ↔
      i ∈ standing history other ∨ i = history.length ∧ other = name := by
    simp only [standing, Set.mem_ofPred_eq, keptAfter_concat_put, getElem?_concat_eq_some_iff]
    constructor
    · rintro ⟨⟨v, hv | ⟨hi, hv⟩⟩, hkept⟩
      · exact .inl ⟨⟨v, hv⟩, hkept⟩
      · cases hv
        exact .inr ⟨hi, rfl⟩
    · rintro (⟨⟨v, hv⟩, hkept⟩ | ⟨rfl, rfl⟩)
      · exact ⟨⟨v, .inl hv⟩, hkept⟩
      · exact ⟨⟨value, .inr ⟨rfl, rfl⟩⟩, keptAfter_length⟩
  rw [hmem]
  split
  · simp [*, or_comm]
  · simp [*]

theorem standing_concat_restrict (history : List Change) (keep : String → Bool) (name : String) :
    standing (history ++ [.restrict keep]) name =
      if keep name then standing history name else ∅ := by
  ext i
  have hmem : i ∈ standing (history ++ [.restrict keep]) name ↔
      i ∈ standing history name ∧ keep name := by
    simp only [standing, Set.mem_ofPred_eq, getElem?_concat_eq_some_iff]
    constructor
    · rintro ⟨⟨v, hv | ⟨-, hv⟩⟩, hkept⟩
      · have hi : i < history.length := (List.getElem?_eq_some_iff.mp hv).1
        obtain ⟨hkept, hkeep⟩ := (keptAfter_concat_restrict hi).mp hkept
        exact ⟨⟨⟨v, hv⟩, hkept⟩, hkeep⟩
      · cases hv
    · rintro ⟨⟨⟨v, hv⟩, hkept⟩, hkeep⟩
      have hi : i < history.length := (List.getElem?_eq_some_iff.mp hv).1
      exact ⟨⟨v, .inl hv⟩, (keptAfter_concat_restrict hi).mpr ⟨hkept, hkeep⟩⟩
  rw [hmem]
  split
  · simp [*]
  · simp [*]

/-- A put adds a moment after all others. -/
theorem isLeast_concat_put (h : IsLeast (standing history other) i) (name : String)
    (value : Value) : IsLeast (standing (history ++ [.put name value]) other) i := by
  rw [standing_concat_put]
  split
  · refine ⟨.inr h.1, ?_⟩
    rintro j (rfl | hj)
    · exact (lt_of_mem_standing h.1).le
    · exact h.2 hj
  · exact h

theorem isGreatest_concat_put (history : List Change) (name : String) (value : Value) :
    IsGreatest (standing (history ++ [.put name value]) name) history.length := by
  rw [standing_concat_put, if_pos rfl]
  refine ⟨.inl rfl, ?_⟩
  rintro j (rfl | hj)
  · exact le_rfl
  · exact (lt_of_mem_standing hj).le

end Standing

/-- The row has the names that stand, in the order of their first values, with their last values. -/
structure Remembers (history : List Change) (row : Row) : Prop where
  nodup : row.names.Nodup
  mem_iff : ∀ name, name ∈ row.names ↔ (standing history name).Nonempty
  get?_iff : ∀ name value, row.get? name = some value ↔
    ∃ i, IsGreatest (standing history name) i ∧ history[i]? = some (.put name value)
  ordered : row.names.Pairwise fun first second => ∃ i j,
    IsLeast (standing history first) i ∧ IsLeast (standing history second) j ∧ i < j

theorem mem_names_put (row : Row) (name other : String) (value : Value) :
    other ∈ (row.put name value).names ↔ other ∈ row.names ∨ other = name := by
  rw [names_put]
  split
  · simp +contextual [*]
  · simp

theorem names_restrict (row : Row) (keep : String → Bool) :
    (row.restrict keep).names = row.names.filter keep := by
  simp [names, restrict, List.filter_map, Function.comp_def]

theorem get?_restrict (row : Row) (keep : String → Bool) (name : String) :
    (row.restrict keep).get? name = if keep name then row.get? name else none := by
  obtain ⟨entries⟩ := row
  change (entries.filter fun e => keep e.1).lookup name =
    if keep name then entries.lookup name else none
  induction entries with
  | nil => simp
  | cons entry entries ih =>
    by_cases hname : name = entry.1
    · subst hname
      rw [List.filter_cons, lookup_cons, if_pos rfl]
      split
      · rw [lookup_cons, if_pos rfl]
      · rw [ih, if_neg ‹_›]
    · rw [lookup_cons, if_neg hname, ← ih, List.filter_cons]
      split
      · rw [lookup_cons, if_neg hname]
      · rfl

theorem get?_eq_none_iff : row.get? name = none ↔ name ∉ row.names :=
  @Slots.get?_eq_none_iff _ row.entries name

theorem exists_isLeast_standing (h : (standing history name).Nonempty) :
    ∃ i, IsLeast (standing history name) i :=
  ⟨sInf (standing history name), Nat.sInf_mem h, fun _ hj => Nat.sInf_le hj⟩

namespace Remembers

theorem empty : Remembers [] Row.empty where
  nodup := List.nodup_nil
  mem_iff name := by simp [Row.empty, names, standing]
  get?_iff name value := by simp [Row.empty, get?]
  ordered := .nil

theorem put (h : Remembers history row) (name : String) (value : Value) :
    Remembers (history ++ [.put name value]) (row.put name value) where
  nodup := nodup_names_put h.nodup name value
  mem_iff other := by
    rw [mem_names_put, h.mem_iff, standing_concat_put]
    split
    · simp [*, Set.insert_nonempty]
    · simp [*]
  get?_iff other v := by
    rw [get?_put]
    by_cases hother : other = name
    · subst hother
      rw [if_pos rfl]
      have hlast := isGreatest_concat_put history other value
      constructor
      · rintro ⟨⟩
        exact ⟨history.length, hlast, by simp⟩
      · rintro ⟨i, hi, hv⟩
        obtain rfl := hi.unique hlast
        simpa using hv
    · rw [if_neg hother, h.get?_iff, standing_concat_put, if_neg hother]
      refine exists_congr fun i => and_congr_right fun hi => ?_
      rw [List.getElem?_append_left (lt_of_mem_standing hi.1)]
  ordered := by
    have hkept : row.names.Pairwise fun first second => ∃ i j,
        IsLeast (standing (history ++ [.put name value]) first) i ∧
          IsLeast (standing (history ++ [.put name value]) second) j ∧ i < j :=
      h.ordered.imp fun ⟨i, j, hi, hj, hlt⟩ =>
        ⟨i, j, isLeast_concat_put hi name value, isLeast_concat_put hj name value, hlt⟩
    rw [names_put]
    split
    · exact hkept
    · rename_i hnew
      refine List.pairwise_append.mpr ⟨hkept, List.pairwise_singleton _ _, ?_⟩
      intro first hfirst second hsecond
      obtain rfl := List.mem_singleton.mp hsecond
      obtain ⟨i, hi⟩ := exists_isLeast_standing ((h.mem_iff first).mp hfirst)
      have hempty : standing history second = ∅ :=
        Set.not_nonempty_iff_eq_empty.mp fun hstands => hnew ((h.mem_iff second).mpr hstands)
      refine ⟨i, history.length, isLeast_concat_put hi _ _, ?_, lt_of_mem_standing hi.1⟩
      rw [standing_concat_put, if_pos rfl, hempty]
      simp

theorem restrict (h : Remembers history row) (keep : String → Bool) :
    Remembers (history ++ [.restrict keep]) (row.restrict keep) where
  nodup := by
    rw [names_restrict]
    exact h.nodup.filter _
  mem_iff name := by
    rw [names_restrict, List.mem_filter, h.mem_iff, standing_concat_restrict]
    split <;> simp [*]
  get?_iff name value := by
    rw [get?_restrict, standing_concat_restrict]
    split
    · rw [h.get?_iff]
      refine exists_congr fun i => and_congr_right fun hi => ?_
      rw [List.getElem?_append_left (lt_of_mem_standing hi.1)]
    · simp [IsGreatest]
  ordered := by
    rw [names_restrict]
    refine (h.ordered.filter keep).imp_of_mem ?_
    rintro first second hfirst hsecond ⟨i, j, hi, hj, hlt⟩
    rw [standing_concat_restrict, standing_concat_restrict,
      if_pos (List.mem_filter.mp hfirst).2, if_pos (List.mem_filter.mp hsecond).2]
    exact ⟨i, j, hi, hj, hlt⟩

theorem puts (h : Remembers history row) (entries : List (String × Value)) :
    Remembers (history ++ entries.map fun e => .put e.1 e.2)
      (entries.foldl (fun row e => row.put e.1 e.2) row) := by
  induction entries generalizing history row with
  | nil => simpa using h
  | cons entry entries ih => simpa using ih (h.put entry.1 entry.2)

theorem call (h : Remembers history row) (x : Call) :
    Remembers (history ++ x.changes) (row.call x) := by
  cases x with
  | put name value => exact h.put name value
  | restrict keep => exact h.restrict keep
  | ofList entries =>
    have hnone : row.restrict (fun _ => false) = Row.empty := by
      simp [Row.restrict, Row.empty]
    have hcleared := (h.restrict fun _ => false).puts entries
    rw [hnone, List.append_assoc, List.singleton_append] at hcleared
    exact hcleared

end Remembers

theorem remembers_after (calls : List Call) : Remembers (changes calls) (after calls) := by
  induction calls using List.reverseRecOn with
  | nil => exact .empty
  | append_singleton calls x ih =>
    rw [changes, List.flatMap_append, List.flatMap_singleton, after, List.foldl_append]
    exact ih.call x

/-- The names of a row are distinct, and those for which a value was put since they were last
removed. They stand in the order in which that first happened, and each has the value that was put
last. So a value that is put for a name of the row moves no name and adds none, and the names that
are kept when others go stay in their order. -/
theorem after_remembers (calls : List Call) :
    let row := after calls
    let history := changes calls
    row.names.Nodup ∧
      (∀ name value, row.get? name = some value ↔
        ∃ i, IsGreatest (standing history name) i ∧ history[i]? = some (.put name value)) ∧
      (∀ name, row.get? name = none ↔ standing history name = ∅) ∧
      (∀ name, name ∈ row.names ↔ (standing history name).Nonempty) ∧
      (row.names.Pairwise fun first second => ∃ i j, IsLeast (standing history first) i ∧
        IsLeast (standing history second) j ∧ i < j) ∧
      (∀ name value, (row.put name value).names =
        if name ∈ row.names then row.names else row.names ++ [name]) ∧
      ∀ keep, (row.restrict keep).names = row.names.filter keep := by
  intro row history
  obtain ⟨hnodup, hmem, hget, hordered⟩ := remembers_after calls
  refine ⟨hnodup, hget, fun name => ?_, hmem, hordered, row.names_put, row.names_restrict⟩
  rw [get?_eq_none_iff, hmem, Set.not_nonempty_iff_eq_empty]

/-- A name that went and came back stands last, and one whose value was replaced in its place. -/
example : (after [.put "a" .null, .put "b" .null, .put "c" .null, .restrict (· ≠ "a"),
    .put "a" .null, .put "b" (.bool true)]).entries =
      [("b", .bool true), ("c", .null), ("a", .null)] := rfl

end Cql.Row
