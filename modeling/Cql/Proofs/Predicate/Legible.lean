import Cql.Proofs.Statement.Spelling

/-!
Plain predicates are rendered to closed pieces, whatever their depth, with the subqueries in them:
after a predicate a text can go on with a blank, a comma or a closing parenthesis.
-/

namespace Cql

open Piece

/-- The admitted values stand in a text for themselves, or a placeholder stands for them. -/
def Binding.Fits (b : Binding) (admits : Value → Prop) : Prop :=
  ∀ v, admits v → v.isExpr = false ∧ (b = .literal → v.hasExpr = false)

variable {known : Entity → Prop} {admits : Value → Prop} {b : Binding} {style : Style}
  {scope : Scope} {column : String}

theorem closed_admitted (hfits : b.Fits admits) {name : String} {v : Value}
    (hname : Token.IsName name.toList) (hv : admits v) : Closed b [.ofValue name v] :=
  closed_ofValue hname (hfits v hv).1 (hfits v hv).2

namespace Scope

def IsPlain (scope : Scope) : Prop := ∀ m ∈ scope.columns, m.IsPlain

theorem isPlain_of_none (casing : Casing) : IsPlain { casing } := fun _ h => by cases h

theorem IsPlain.inert_resolve (h : scope.IsPlain) (hcolumn : IsColumn column) :
    Inert (scope.resolve column) := by
  have hphysical := scope.casing.inert_physical hcolumn.inert
  cases hmap : scope.columns with
  | none => simpa [resolve, hmap] using hphysical
  | some m =>
    cases hname : m.get? column with
    | none => simpa [resolve, hmap, hname] using hphysical
    | some name => simpa [resolve, hmap, hname] using ColumnMap.inert_of_get? (h m hmap) hname

theorem IsPlain.sealed_name (h : scope.IsPlain) (hcolumn : IsColumn column) :
    Sealed b [scope.name column] :=
  sealed_text (h.inert_resolve hcolumn).isSolid

theorem IsPlain.sealed_names (h : scope.IsPlain) {columns : List String}
    (hcolumns : ∀ c ∈ columns, IsColumn c) : Sealed b (scope.names columns) := by
  refine Sealed.separated (Inert.isSolid (by decide)) fun item hitem => ?_
  obtain ⟨c, hc, rfl⟩ := List.mem_map.mp hitem
  exact h.sealed_name (hcolumns c hc)

theorem ensures_ofEntity? {casing : Casing} {e? : Option Entity} (h : ∀ e ∈ e?, known e) :
    Resolving.Ensures (Memo.IsPlain known) (ofEntity? casing e?) IsPlain := by
  cases e? with
  | none => exact .pure (isPlain_of_none casing)
  | some e =>
    refine (Memo.ensures_columnsOf (h e rfl) casing).bind fun columns hcolumns => .pure ?_
    rintro m ⟨⟩
    exact hcolumns

end Scope

theorem Target.ensures_tableName {target : Target} (h : target.IsPlain known) (casing : Casing) :
    Step.Ensures (Memo.IsPlain known) (target.tableName casing) Inert := by
  cases target with
  | table name => exact .pure (IsPath.inert h)
  | entity e => exact (Memo.ensures_tablesOf h).bind fun _ htables => .pure (htables casing)

theorem Selection.ensures_opening {selection : Selection} (h : selection.IsPlain known) :
    Resolving.Ensures (Memo.IsPlain known) (selection.opening style) fun opened =>
      opened.1.IsPlain ∧ Closed style.binding opened.2 := by
  rw [opening]
  dsimp only
  split
  · exact .throw_bind
  cases htarget : selection.target with
  | none => exact .throw
  | some target =>
    have hplain := h.target target htarget
    refine (Scope.ensures_ofEntity? ?_).bind fun scope hscope => ?_
    · cases target with
      | table name => simp
      | entity e => simpa [Target.IsPlain] using hplain
    split
    · exact .throw_bind
    refine (Resolving.Ensures.step (Target.ensures_tableName hplain style.casing)).bind
      fun table htable => .pure ⟨hscope, ?_⟩
    have hfrom : Trails style.binding [.text " FROM ", .text table] :=
      (closed_text htable.isSolid).trails_text (Inert.isSolid (by decide)) rfl (.inl rfl)
    have hnames := (hscope.sealed_names (b := style.binding) h.columns).closed
    rw [fragment?_eq_none h.columns]
    exact (hnames.text_cons (Inert.isSolid (by decide))).append hfrom

namespace Predicate

theorem isSolid_operator {operator after : String} (h : operator ∈ standardOperators)
    (hafter : Inert after) : IsSolid (" " ++ operator ++ after) :=
  ((Inert.append (by decide) (inert_of_mem_standardOperators h)).append hafter).isSolid

theorem closed_memberPieces (hscope : scope.IsPlain) (hcolumn : IsColumn column) {operator : String}
    (hoperator : operator ∈ standardOperators) {inside : List Piece} (h : Closed b inside) :
    Closed b (memberPieces scope column operator inside) := by
  have hopen : IsSolid (" " ++ operator ++ " (") := isSolid_operator hoperator (by decide)
  have hinside := h.text_cons hopen
  exact (hscope.sealed_name hcolumn).append_closed (hinside.append trails_close)

theorem closed_valuePieces (hfits : b.Fits admits) (hcolumn : IsColumn column) {values : List Value}
    (h : ∀ v ∈ values, admits v) : Closed b (valuePieces column values) := by
  refine Closed.separated (Inert.isSolid (by decide)) rfl (.inr (.inl rfl)) fun item hitem => ?_
  obtain ⟨⟨v, i⟩, hv, rfl⟩ := List.mem_map.mp hitem
  have hmem : v ∈ values := (List.mem_zipIdx' hv).2 ▸ List.getElem_mem _
  exact closed_admitted hfits (isName_append_toString (isName_placeholderName hcolumn) _) (h v hmem)

theorem closed_junctionPieces (connective : Connective) {parts : List (List Piece)}
    (h : ∀ part ∈ parts, Closed b part) : Closed b (junctionPieces connective parts) := by
  have hword : Inert (" " ++ connective.word ++ " ") := by cases connective <;> decide
  simp only [junctionPieces]
  split
  · exact h _ (by simp)
  · refine Closed.separated (c := ' ') hword.isSolid (by simp) (.inl rfl) fun item hitem => ?_
    obtain ⟨part, hpart, rfl⟩ := List.mem_map.mp hitem
    exact ((h part hpart).text_cons (Inert.isSolid (by decide))).append trails_close

mutual

theorem ensures_pieces (hfits : style.binding.Fits admits) :
    ∀ {p : Predicate} {scope : Scope}, scope.IsPlain → p.IsPlain known admits →
      Resolving.Ensures (Memo.IsPlain known) (p.pieces style scope) (Closed style.binding)
  | .compare column operator v, scope, hscope, ⟨hcolumn, hoperator, hv⟩ => by
    have hvalue := closed_admitted hfits (isName_placeholderName hcolumn) hv
    have hsolid : IsSolid (" " ++ operator ++ " ") := isSolid_operator hoperator (by decide)
    exact .pure ((hscope.sealed_name hcolumn).append_closed (hvalue.text_cons hsolid))
  | .between column operator low high, scope, hscope, ⟨hcolumn, hoperator, hlow, hhigh⟩ => by
    have hname := isName_placeholderName hcolumn
    have hlowest : Token.IsName (camelAfter "min" (placeholderName column)).toList :=
      isName_camelAfter ⟨rfl, List.all_eq_true.mp rfl⟩ hname.2
    have hhighest : Token.IsName (camelAfter "max" (placeholderName column)).toList :=
      isName_camelAfter ⟨rfl, List.all_eq_true.mp rfl⟩ hname.2
    have hmin := closed_admitted hfits hlowest hlow
    have hmax := closed_admitted hfits hhighest hhigh
    have hand := hmax.trails_text (Inert.isSolid (s := " AND ") (by decide)) rfl (.inl rfl)
    exact .pure ((hscope.sealed_name hcolumn).append_closed
      ((hmin.append hand).text_cons (isSolid_operator hoperator (by decide))))
  | .among column operator values, scope, hscope, ⟨hcolumn, hoperator, hvalues⟩ => by
    have hinside := closed_valuePieces hfits hcolumn hvalues
    exact .pure (closed_memberPieces hscope hcolumn hoperator hinside)
  | .negate inner, scope, hscope, h => by
    refine (ensures_pieces hfits (p := inner) hscope h).bind fun inside hinside => .pure ?_
    exact (hinside.text_cons (Inert.isSolid (by decide))).append trails_close
  | .junction connective [], scope, hscope, h => .throw
  | .junction connective (p :: ps), scope, hscope, h => by
    have hplain : ArePlain known admits (p :: ps) := h
    refine (ensures_partPieces hfits hscope hplain).bind fun parts hparts => .pure ?_
    exact closed_junctionPieces connective hparts
  | .amongSelect column operator selection filter, scope, hscope,
      ⟨hcolumn, hoperator, hselection, hfilter⟩ => by
    refine (Selection.ensures_opening hselection).bind fun opened hopened => ?_
    refine (ensures_filterPieces hfits hopened.1 hfilter).bind fun closing hclosing => .pure ?_
    exact closed_memberPieces hscope hcolumn hoperator (hopened.2.append hclosing)

theorem ensures_partPieces (hfits : style.binding.Fits admits) :
    ∀ {ps : List Predicate} {scope : Scope}, scope.IsPlain → ArePlain known admits ps →
      Resolving.Ensures (Memo.IsPlain known) (partPieces style scope ps) fun parts =>
        ∀ part ∈ parts, Closed style.binding part
  | [], scope, hscope, h => .pure (by simp)
  | p :: ps, scope, hscope, ⟨hp, hps⟩ => by
    refine (ensures_pieces hfits hscope hp).bind fun first hfirst => ?_
    refine (ensures_partPieces hfits hscope hps).bind fun others hothers => .pure ?_
    simpa using ⟨hfirst, hothers⟩

theorem ensures_filterPieces (hfits : style.binding.Fits admits) :
    ∀ {filter : Option Predicate} {scope : Scope}, scope.IsPlain →
      IsPlainFilter known admits filter →
      Resolving.Ensures (Memo.IsPlain known) (filterPieces style scope filter)
        (Trails style.binding)
  | none, scope, hscope, h => .pure trails_nil
  | some p, scope, hscope, h => by
    refine (ensures_pieces hfits (p := p) hscope h).bind fun inside hinside => .pure ?_
    exact hinside.trails_text (Inert.isSolid (by decide)) rfl (.inl rfl)

end

end Predicate

end Cql
