import Cql.Proofs.Draft.Operands
import Cql.Proofs.Predicate.Settled
import Cql.Proofs.Program.Reading
import Cql.Proofs.Query.Binding
import Cql.Proofs.Statement.Items

/-!
The names of placeholders. A plain program without expressions has the names of its items, one item
after the other, and its caller can give every slot a value of its own exactly if no two items
clash.
-/

namespace Cql

section Values

variable {known : Entity → Prop} {admits : Value → Prop}

theorem Row.IsPlain.admits_valuesOf {row : Row} (h : row.IsPlain admits) (columns : List String) :
    ∀ v ∈ row.valuesOf columns, admits v := by
  intro v hv
  obtain ⟨c, -, hc⟩ := List.mem_filterMap.mp hv
  exact h.values (c, v) (mem_of_lookup hc)

theorem Columns.IsPlain.admits_values {columns : Columns} (h : columns.IsPlain admits) :
    ∀ v ∈ columns.values, admits v := by
  obtain names | aliased | row | rows := columns
  · simp [Columns.values]
  · simp [Columns.values]
  · exact Row.IsPlain.admits_valuesOf h row.names
  · obtain _ | ⟨first, others⟩ := rows
    · simp [Columns.values]
    · rw [Columns.values, List.forall_mem_flatMap]
      exact fun row hrow => (h row hrow).admits_valuesOf first.names

theorem Filter.IsPlain.admits_operands {filter : Filter} (h : filter.IsPlain known admits) :
    ∀ v ∈ filter.operands, admits v := by
  cases filter with
  | predicate p => exact Predicate.IsPlain.admits_operands h
  | raw text => exact h.elim

theorem Guard.IsPlain.admits_operands {guard : Guard} (h : guard.IsPlain known admits) :
    ∀ v ∈ guard.operands, admits v := by
  cases guard with
  | ifExists => simp [Guard.operands]
  | predicate p => exact Predicate.IsPlain.admits_operands h
  | raw text => exact h.elim

/-- The cells of a plain statement hold admitted values only. -/
theorem Statement.IsPlain.admits_values {s : Statement} (h : s.IsPlain known admits) :
    ∀ v ∈ Place.values s.cells, admits v := by
  have hinserted : ∀ v ∈ s.operands.inserted, admits v := by
    rw [Statement.operands, List.forall_mem_flatMap]
    exact fun columns hcolumns => (h.columns columns (by simpa using hcolumns)).admits_values
  have hassigned : ∀ v ∈ s.operands.assigned, admits v := by
    intro v hv
    obtain ⟨a, ha, hvalue⟩ := List.mem_filterMap.mp hv
    have hplain := h.assignments a ha
    cases a with
    | hole column => cases hvalue
    | value column own =>
      cases hvalue
      exact hplain.2
    | raw text => cases hvalue
  have hfiltered : ∀ v ∈ s.operands.filtered, admits v := by
    rw [Statement.operands, List.forall_mem_flatMap]
    exact fun filter hfilter => (h.filter filter (by simpa using hfilter)).admits_operands
  have hguarded : ∀ v ∈ s.operands.guarded, admits v := by
    rw [Statement.operands, List.forall_mem_flatMap]
    exact fun guard hguard => (h.guard guard (by simpa using hguard)).admits_operands
  rw [s.values_cells]
  cases s.operation with
  | insert => exact hinserted
  | select => exact hfiltered
  | update =>
    exact List.forall_mem_append.mpr
      ⟨List.forall_mem_append.mpr ⟨hassigned, hfiltered⟩, hguarded⟩
  | delete => exact List.forall_mem_append.mpr ⟨hfiltered, hguarded⟩

end Values

/-- Without expressions among its values, every cell of a statement is a place. -/
theorem Statement.places_eq_cells {s : Statement}
    (h : ∀ v ∈ Place.values s.cells, v.isExpr = false) : s.places = s.cells := by
  rw [← s.filter_cells, List.filter_eq_self]
  intro cell hcell
  cases hvalue : cell.value? with
  | none => simp [Place.isOpen, hvalue]
  | some v => simp [Place.isOpen, hvalue, h v (List.mem_filterMap.mpr ⟨cell, hcell, hvalue⟩)]

/-- Every place has a name in the text. -/
theorem Piece.count_bones_named (ps : List Piece) :
    (ps.flatMap (bones .named)).count none = (places ps).length := by
  induction ps with
  | nil => rfl
  | cons p ps ih =>
    rw [List.flatMap_cons, List.count_append, ih]
    cases p with
    | text s =>
      have hchars : (s.toList.map some).count none = 0 := by simp [List.count_eq_zero]
      rw [bones, hchars, Nat.zero_add]
      rfl
    | value name v => exact Nat.add_comm ..
    | hole name => exact Nat.add_comm ..

namespace Program

variable {known : Entity → Prop} {P : Program} {style : Style} {w : Workshop} {r : Rendered}

theorem not_repeatsNames_statement {ps : List Piece} (hb : style.binding = .named)
    (h : P.outcome style w = .ok ps) : ¬ (P.statement style w).RepeatsNames := by
  obtain ⟨casing, binding⟩ := style
  obtain rfl : binding = .named := hb
  exact outcome_returns (Statement.not_repeatsNames_of_named casing _) ps h

/-- The caller of a plain program without expressions reads the names of its items, and can give
every slot a value of its own exactly if no two items clash. -/
theorem names_apart (hb : style.binding = .named) (hP : P.IsPlain known fun v => v.isExpr = false)
    (hw : w.IsPlain known) (h : P.result style w = .ok r) :
    ∃ q, Query.read r.text = .ok q ∧ q.parameterCount = q.names.length ∧
      q.names = (P.statement style w).items.flatMap Item.names ∧
      (q.names.Nodup ↔ Item.AreApart (P.statement style w).items) ∧
      (q.BindsEach ↔ Item.AreApart (P.statement style w).items) := by
  obtain ⟨ps, houtcome, rfl⟩ := result_eq_ok hP hw h
  have hfits : style.binding.Fits fun v => v.isExpr = false := fits_of_not_isExpr (by simp [hb])
  obtain ⟨hlegible, hverb⟩ := outcome_legible hfits hP hw ps houtcome
  have hstatement := (P.ensures_draft style hP ⟨w, []⟩ hw).2.statement
  have hplaces : Piece.places ps = (P.statement style w).cells :=
    (outcome_places ps houtcome).trans (Statement.places_eq_cells hstatement.admits_values)
  rw [hb] at hlegible hverb
  have htext : (Rendered.ofPieces style.binding "" ps).text = Piece.textOf .named ps := by
    rw [hb]
    exact String.empty_append
  have hread := (congrArg Query.read htext).trans (hlegible.read_eq hverb)
  have hnames : (ps.flatMap (Piece.names .named)).map String.ofList =
      (P.statement style w).items.flatMap Item.names := by
    rw [Piece.names_eq, hplaces]
    exact Statement.names_cells (not_repeatsNames_statement hb houtcome)
  have hcount : (ps.flatMap (Piece.bones .named)).count none =
      ((ps.flatMap (Piece.names .named)).map String.ofList).length := by
    rw [Piece.count_bones_named, Piece.names_eq, List.length_map]
  have hapart : ((ps.flatMap (Piece.names .named)).map String.ofList).Nodup ↔
      Item.AreApart (P.statement style w).items := by
    rw [hnames]
    exact Item.nodup_flatMap_names _
  exact ⟨_, hread, hcount, hnames, hapart, (Query.bindsEach_iff hcount).trans hapart⟩

theorem names_apart_reassigning : ∃ r q,
    (reassigning.inStyle ⟨.lowerUnderscore, .named⟩).result ⟨.lowerUnderscore, .named⟩ {} = .ok r ∧
    Query.read r.text = .ok q ∧ q.BindsEach ∧
    q.names = ["nickName", "visits", "minCreatedAt", "maxCreatedAt", "id1", "id2", "level"] := by
  obtain ⟨r, hr⟩ : ∃ r, (reassigning.inStyle ⟨.lowerUnderscore, .named⟩).result
      ⟨.lowerUnderscore, .named⟩ {} = .ok r := ⟨_, rfl⟩
  obtain ⟨q, hread, -, hnames, hnodup, hbinds⟩ :=
    names_apart (P := reassigning.inStyle ⟨.lowerUnderscore, .named⟩) rfl (by decide)
      (Workshop.isPlain_of_catalog (Catalog.covers_of_forall (by simp)) {}) hr
  have heq : q.names =
      ["nickName", "visits", "minCreatedAt", "maxCreatedAt", "id1", "id2", "level"] :=
    hnames.trans (by cbv)
  exact ⟨r, q, hr, hread, hbinds.mpr (hnodup.mp (by rw [heq]; decide)), heq⟩

/-- Moves everybody from one town to another, with a qualifier before the name of each. -/
def moving : Program where
  origin := .update "people"
  clauses := [.setValue "home.town" (.text "Ur"), .filter (.compare "work.town" "=" (.text "Uruk"))]

/-- Two columns with equal last segments have placeholders of one name. -/
theorem names_collide : ¬ ∀ (P : Program) (style : Style) (w : Workshop) (r : Rendered) (q : Query),
    style.binding = .named → P.IsPlain (fun _ => False) (fun v => v.isExpr = false) →
    P.result style w = .ok r → ((P.statement style w).items.map Item.column).Nodup →
    Query.read r.text = .ok q → q.names.Nodup := by
  intro hall
  have hnodup := hall moving ⟨.lowerUnderscore, .named⟩ {} _ {
      source := "UPDATE people SET home.town = :town WHERE work.town = :town"
      canonical := "UPDATE people SET home.town = ? WHERE work.town = ?"
      names := ["town", "town"]
      parameterCount := 2 } rfl (by decide) rfl (by decide +kernel) (by decide +kernel)
  revert hnodup
  decide

end Program

end Cql
