import Cql.Proofs.Predicate.Settled
import Cql.Proofs.Token.Quoted

/-!
Aliases of a SELECT. An alias is put in quotes as it is, so it is read as one quoted name that
stands for it exactly if it holds no quote.
-/

namespace Cql

open Token (IsQuotation)

/-- Each text of a list has its place, before the next separator or what stands behind the list. -/
theorem exists_listed_eq (separator tail : List Char) {part : List Char} {parts : List (List Char)}
    (h : part ∈ parts) : ∃ before after, listed separator parts ++ tail = before ++ part ++ after ∧
      (separator <+: after ∨ after = tail) := by
  obtain ⟨front, others, rfl⟩ := List.append_of_mem h
  have hafter : ∃ after, others.flatMap (separator ++ ·) ++ tail = after ∧
      (separator <+: after ∨ after = tail) := by
    cases others with
    | nil => exact ⟨tail, rfl, .inr rfl⟩
    | cons next others =>
      refine ⟨_, rfl, .inl ?_⟩
      rw [List.flatMap_cons, List.append_assoc, List.append_assoc]
      exact List.prefix_append _ _
  obtain ⟨after, rfl, hstands⟩ := hafter
  cases front with
  | nil => exact ⟨[], _, by simp [listed], hstands⟩
  | cons first front =>
    exact ⟨first ++ front.flatMap (separator ++ ·) ++ separator, _, by simp [listed], hstands⟩

/-- Columns that are text which is already written out. -/
def Columns.fragment? : Columns → Option String
  | .names columns => Cql.fragment? columns
  | _ => none

/-- The name that a SELECT gives to a column whose physical name differs. -/
def Scope.label? (scope : Scope) (column : String) : Option String :=
  if !scope.casing.isLogical ∧ column ≠ "*" ∧ scope.resolve column ≠ column then some column
  else none

/-- A column of a SELECT, with an alias or without one. -/
structure Selected where
  column : String
  label : Option String := none

/-- The columns of a SELECT with their aliases: those that were given, or else the logical names
where physical names differ. -/
def Columns.selected (scope : Scope) : Columns → List Selected
  | .names columns => columns.map fun column => ⟨column, scope.label? column⟩
  | .aliased columns => columns.map fun (column, label) => ⟨column, some label⟩
  | .row _ | .rows _ => []

namespace Selected

variable {b : Binding} {scope : Scope} {x : Selected} {columns : Columns}

/-- An alias as it is written. -/
def aliasChars (label : String) : List Char := '"' :: (label.toList ++ ['"'])

def chars (scope : Scope) (x : Selected) : List Char :=
  (scope.resolve x.column).toList ++
    x.label.elim [] fun label => " AS ".toList ++ aliasChars label

def pieces (scope : Scope) (x : Selected) : List Piece :=
  scope.name x.column :: (x.label.map Statement.aliasPiece).toList

/-- The alias, if there is one, is read as one quoted name that stands for it. -/
def ReadsBack (x : Selected) : Prop :=
  ∀ label ∈ x.label, IsQuotation '"' .quotedName (aliasChars label) label.toList

theorem readsBack_iff : x.ReadsBack ↔ ∀ label ∈ x.label, '"' ∉ label.toList := by
  have hlabel : ∀ label : String, IsQuotation '"' .quotedName (aliasChars label) label.toList ↔
      '"' ∉ label.toList := fun label => Token.isQuotation_self_iff fun _ => rfl
  simp only [ReadsBack, hlabel]

theorem toList_textOf_pieces (b : Binding) (scope : Scope) (x : Selected) :
    (Piece.textOf b (x.pieces scope)).toList = x.chars scope := by
  obtain ⟨column, _ | label⟩ := x
  · simp [pieces, chars, Scope.name]
  · simp [pieces, chars, Scope.name, Statement.aliasPiece, aliasChars]

/-- Where no alias was given, an alias is the name of its column. -/
theorem label_eq {names : List String} (hx : x ∈ (Columns.names names).selected scope)
    {label : String} (hlabel : x.label = some label) : label = x.column ∧ x.column ∈ names := by
  obtain ⟨column, hcolumn, rfl⟩ := List.mem_map.mp hx
  refine ⟨?_, hcolumn⟩
  have hsome : scope.label? column = some label := hlabel
  rw [Scope.label?] at hsome
  split at hsome
  · exact (Option.some.inj hsome).symm
  · cases hsome

/-- The names of plain columns hold no quote. -/
theorem readsBack_of_isPath {names : List String} (hnames : ∀ name ∈ names, IsPath name)
    (hx : x ∈ (Columns.names names).selected scope) : x.ReadsBack := by
  rw [readsBack_iff]
  intro label hlabel hquote
  obtain ⟨rfl, hmem⟩ := label_eq hx hlabel
  cases (hnames _ hmem).isSpelled '"' hquote

end Selected

theorem Scope.casing_ofEntity? (casing : Casing) (e? : Option Entity) :
    Resolving.Returns (Scope.ofEntity? casing e?) fun scope => scope.casing = casing := by
  cases e? with
  | none => exact .pure rfl
  | some e => exact Resolving.returns_any.bind fun _ _ => .pure rfl

namespace Statement

variable {style : Style} {scope : Scope} {s : Statement} {columns : Columns}

theorem selectColumn_eq (scope : Scope) (column : String) :
    selectColumn scope column = Selected.pieces scope ⟨column, scope.label? column⟩ := by
  rw [selectColumn, Scope.label?]
  split
  · rfl
  · rfl

theorem selects_selectBody (hwritten : columns.fragment? = none) :
    Yields (selectBody scope columns) fun ps =>
      ps = Piece.separated ", " ((columns.selected scope).map (·.pieces scope)) := by
  cases columns with
  | names columns =>
    rw [selectBody]
    split
    · exact .error
    · have hnone : fragment? columns = none := hwritten
      rw [hnone]
      refine .ok (congrArg _ ?_)
      rw [Columns.selected, List.map_map]
      exact List.map_congr_left fun column _ => selectColumn_eq scope column
  | aliased columns =>
    rw [selectBody]
    split
    · exact .error
    · refine .ok (congrArg _ ?_)
      rw [Columns.selected, List.map_map]
      rfl
  | row | rows => exact .error

/-- A SELECT lists its columns with their aliases before its table. -/
theorem lists_selected (hselect : s.operation = .select) (hcolumns : s.columns = some columns)
    (hwritten : columns.fragment? = none) :
    Resolving.Returns (s.pieces style) fun ps => ∃ scope front table rest,
      scope.casing = style.casing ∧
      ps = front ++ Piece.separated ", " ((columns.selected scope).map (·.pieces scope)) ++
        .text (" FROM " ++ table) :: rest := by
  rw [pieces, hselect]
  refine (Scope.casing_ofEntity? style.casing s.entity).bind fun scope hscope => ?_
  change Resolving.Returns (s.selectPieces style scope) _
  rw [selectPieces, hcolumns]
  refine Resolving.returns_any.bind fun table _ => ?_
  refine (Resolving.Ensures.except (selects_selectBody hwritten)).bind fun body hbody => ?_
  refine Resolving.returns_any.bind fun filter _ => ?_
  refine Resolving.returns_any.bind fun order _ => .pure ?_
  have hgroup : ∀ (front body filter order limit filtering : List Piece) (p : Piece),
      front ++ body ++ p :: filter ++ order ++ limit ++ filtering =
        front ++ body ++ p :: (filter ++ order ++ limit ++ filtering) := by simp
  rw [hbody]
  exact ⟨scope, _, table, _, hscope, hgroup ..⟩

end Statement

end Cql
