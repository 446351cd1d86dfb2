import Cql.Proofs.Predicate.Legible

/-!
Plain statements are rendered to legible text. Every part of a rendered statement is closed, and
each part but the first begins with a blank, so the parts are legible in a row; the first word says
that the statement reads or writes data.
-/

namespace Cql

open Piece

variable {known : Entity → Prop} {admits : Value → Prop} {b : Binding} {style : Style}
  {scope : Scope}

namespace Statement

variable {s : Statement} {columns : List String}

theorem ensures_tableName (h : s.IsPlain known admits) :
    Resolving.Ensures (Memo.IsPlain known) (s.tableName style) Inert := by
  rw [tableName]
  split
  · rename_i target htarget
    exact .step (Target.ensures_tableName (h.target target htarget) style.casing)
  · rename_i e _ hentity
    refine (Resolving.Ensures.step (Memo.ensures_tablesOf (h.entity e hentity))).bind ?_
    exact fun tables htables => .pure (htables style.casing)
  · exact .throw

theorem ensures_filterPieces (hfits : style.binding.Fits admits) (hscope : scope.IsPlain)
    (h : s.IsPlain known admits) :
    Resolving.Ensures (Memo.IsPlain known) (s.filterPieces style scope) (Trails style.binding) := by
  rw [filterPieces]
  split
  · exact .pure trails_nil
  · rename_i p hfilter
    have hp : p.IsPlain known admits := h.filter _ hfilter
    refine (Predicate.ensures_pieces hfits hscope hp).bind fun inside hinside => .pure ?_
    exact hinside.trails_text (Inert.isSolid (by decide)) rfl (.inl rfl)
  · rename_i text hfilter
    exact absurd (h.filter _ hfilter) id

theorem ensures_guardPieces (hfits : style.binding.Fits admits) (hscope : scope.IsPlain)
    (h : s.IsPlain known admits) :
    Resolving.Ensures (Memo.IsPlain known) (s.guardPieces style scope) (Trails style.binding) := by
  rw [guardPieces]
  split
  · exact .pure trails_nil
  · exact .pure (trails_blank (Inert.isSolid (by decide)) rfl)
  · rename_i p hguard
    have hp : p.IsPlain known admits := h.guard _ hguard
    refine (Predicate.ensures_pieces hfits hscope hp).bind fun inside hinside => .pure ?_
    exact hinside.trails_text (Inert.isSolid (by decide)) rfl (.inl rfl)
  · rename_i text hguard
    exact absurd (h.guard _ hguard) id

theorem isSolid_usingText (lifetime : Option Nat) (writeTime : Option Int) :
    IsSolid (usingText lifetime writeTime) := by
  have hlifetime : ∀ n : Nat, IsSolid (" USING TTL " ++ toString n) :=
    fun n => (Inert.append (by decide) (inert_toString_nat n)).isSolid
  have htime : ∀ {before : String} (i : Int), IsSolid before → IsSolid (before ++ toString i) :=
    fun i hbefore => hbefore.append (isSolid_toString_int i)
  cases lifetime with
  | none =>
    cases writeTime with
    | none => exact Inert.isSolid (by decide)
    | some i => exact htime i (Inert.isSolid (by decide))
  | some n =>
    cases writeTime with
    | none => exact hlifetime n
    | some i => exact htime i ((hlifetime n).append (Inert.isSolid (by decide)))

theorem head?_append_of_blank {s t : String} (h : s.toList.head? = some ' ') :
    (s ++ t).toList.head? = some ' ' := by
  rw [String.toList_append, List.head?_append, h]
  rfl

theorem head?_usingText (lifetime : Option Nat) (writeTime : Option Int) :
    usingText lifetime writeTime = "" ∨ (usingText lifetime writeTime).toList.head? = some ' ' := by
  cases lifetime with
  | none =>
    cases writeTime with
    | none => exact .inl rfl
    | some i => exact .inr (head?_append_of_blank rfl)
  | some n =>
    have hlifetime : (" USING TTL " ++ toString n).toList.head? = some ' ' :=
      head?_append_of_blank rfl
    cases writeTime with
    | none => exact .inr hlifetime
    | some i => exact .inr (head?_append_of_blank (head?_append_of_blank hlifetime))

theorem trails_usingText (lifetime : Option Nat) (writeTime : Option Int) :
    Trails b [.text (usingText lifetime writeTime)] := by
  have hsolid := isSolid_usingText lifetime writeTime
  obtain hempty | hblank := head?_usingText lifetime writeTime
  · refine ⟨closed_text hsolid, fun rest hrest => ?_⟩
    simpa [Delimits, hempty, written] using hrest
  · exact trails_blank hsolid hblank

theorem closed_holes (h : ∀ c ∈ columns, IsColumn c) :
    Closed b (Piece.separated "," (columns.map fun c => [.hole (placeholderName c)])) := by
  refine Closed.separated (Inert.isSolid (by decide)) rfl (.inr (.inl rfl)) fun item hitem => ?_
  obtain ⟨c, hc, rfl⟩ := List.mem_map.mp hitem
  exact closed_hole (isName_placeholderName (h c hc))

theorem closed_rowPieces (hfits : b.Fits admits) {row : Row} (hrow : row.IsPlain admits)
    {index : Nat} (h : ∀ c ∈ columns, IsColumn c) :
    Yields (rowPieces row index columns) (Closed b) := by
  refine (yields_mapM_of_forall (R := Closed b) fun c hc => ?_).bind fun values hvalues => .ok ?_
  · split
    · rename_i v hv
      have hadmits : admits v := hrow.values _ (mem_of_lookup hv)
      exact .ok (closed_admitted hfits (isName_placeholderName (h c hc)) hadmits)
    · exact .error
  · have hcells : Closed b (Piece.separated "," values) :=
      .separated (Inert.isSolid (by decide)) rfl (.inr (.inl rfl)) hvalues
    exact (hcells.text_cons (Inert.isSolid (by decide))).append trails_close

theorem closed_rowsPieces (hfits : b.Fits admits) (h : ∀ c ∈ columns, IsColumn c) {index : Nat}
    {rows : List Row} (hrows : ∀ row ∈ rows, row.IsPlain admits) :
    Yields (rowsPieces columns index rows) fun groups => ∀ group ∈ groups, Closed b group := by
  induction rows generalizing index with
  | nil => exact .ok (by simp)
  | cons row rows ih =>
    refine (closed_rowPieces hfits (hrows row (by simp)) h).bind fun first hfirst => ?_
    refine (ih fun r hr => hrows r (by simp [hr])).bind fun others hothers => .ok ?_
    simpa using ⟨hfirst, hothers⟩

theorem isColumn_of_mem_names {row : Row} (h : row.IsPlain admits) {c : String}
    (hc : c ∈ row.names) : IsColumn c := by
  obtain ⟨entry, hentry, rfl⟩ := List.mem_map.mp hc
  exact h.names entry hentry

theorem closed_insertBody (hfits : style.binding.Fits admits) (hscope : scope.IsPlain)
    {columns : Columns} (h : columns.IsPlain admits) :
    Yields (insertBody style scope columns) (Closed style.binding) := by
  simp only [insertBody]
  split
  · rename_i names
    split
    · exact .error
    have hholes := (closed_holes (b := style.binding) h).trails_text (s := ") VALUES (")
      (Inert.isSolid (by decide)) rfl (.inr (.inr rfl))
    exact .ok (((hscope.sealed_names h).closed.append hholes).append trails_close)
  · rename_i row
    split
    · exact .error
    have hnames : ∀ c ∈ row.names, IsColumn c := fun c => isColumn_of_mem_names h
    refine (closed_rowPieces hfits h hnames).bind fun values hvalues => .ok ?_
    exact (hscope.sealed_names hnames).closed.append
      (hvalues.trails_text (s := ") VALUES ") (Inert.isSolid (by decide)) rfl (.inr (.inr rfl)))
  · exact .error
  · rename_i first others
    split
    · exact .error
    split
    · exact .error
    have hnames : ∀ c ∈ first.names, IsColumn c :=
      fun c => isColumn_of_mem_names (h first (by simp))
    refine (closed_rowsPieces hfits hnames h).bind fun groups hgroups => .ok ?_
    have hall : Closed style.binding (Piece.separated ", " groups) :=
      .separated (Inert.isSolid (by decide)) rfl (.inr (.inl rfl)) hgroups
    exact (hscope.sealed_names hnames).closed.append
      (hall.trails_text (s := ") VALUES ") (Inert.isSolid (by decide)) rfl (.inr (.inr rfl)))
  · exact .error

theorem closed_selectColumn (hscope : scope.IsPlain) {c : String} (h : IsColumn c) :
    Closed b (selectColumn scope c) := by
  rw [selectColumn]
  split
  · exact (hscope.sealed_name h).append_closed (trails_alias h.inert).closed
  · exact (hscope.sealed_name h).closed

theorem closed_selectBody (hscope : scope.IsPlain) {columns : Columns}
    (h : columns.IsPlain admits) :
    Yields (selectBody scope columns) (Closed b) := by
  simp only [selectBody]
  split
  · rename_i names
    have hnames : ∀ c ∈ names, IsColumn c := h
    split
    · exact .error
    rw [fragment?_eq_none hnames]
    refine .ok (.separated (Inert.isSolid (by decide)) rfl (.inr (.inl rfl)) fun item hitem => ?_)
    obtain ⟨c, hc, rfl⟩ := List.mem_map.mp hitem
    exact closed_selectColumn hscope (hnames c hc)
  · rename_i aliased
    have haliased : ∀ c ∈ aliased, IsColumn c.1 ∧ IsPath c.2 := h
    split
    · exact .error
    refine .ok (.separated (Inert.isSolid (by decide)) rfl (.inr (.inl rfl)) fun item hitem => ?_)
    obtain ⟨c, hc, rfl⟩ := List.mem_map.mp hitem
    have halias := trails_alias (b := b) (haliased c hc).2.inert
    exact (hscope.sealed_name (haliased c hc).1).append_closed halias.closed
  · exact .error
  · exact .error

theorem closed_orderItem (hscope : scope.IsPlain) {item : OrderItem} (h : item.IsPlain) :
    Yields (orderItem scope item) (Closed b) := by
  cases item with
  | column c direction =>
    have hname : Sealed b [scope.name c] := hscope.sealed_name h
    cases direction with
    | none => exact .ok hname.closed
    | some direction =>
      have hword : Inert (" " ++ direction.word) := by cases direction <;> decide
      exact .ok (hname.append_closed (closed_text hword.isSolid))
  | raw text => exact absurd h id

theorem trails_orderPieces (hscope : scope.IsPlain) (h : s.IsPlain known admits) :
    Yields (s.orderPieces scope) (Trails b) := by
  rw [orderPieces]
  split
  · exact .ok trails_nil
  have hitems := fun item hitem => closed_orderItem (b := b) hscope (h.order item hitem)
  refine (yields_mapM_of_forall hitems).bind fun items hall => .ok ?_
  have hclosed : Closed b (Piece.separated ", " items) :=
    .separated (Inert.isSolid (by decide)) rfl (.inr (.inl rfl)) hall
  exact hclosed.trails_text (Inert.isSolid (by decide)) rfl (.inl rfl)

theorem closed_assignmentPieces (hfits : b.Fits admits) (hscope : scope.IsPlain) {a : Assignment}
    (h : a.IsPlain admits) : Yields (assignmentPieces scope a) (Closed b) := by
  have hequals : IsSolid " = " := Inert.isSolid (by decide)
  cases a with
  | hole c =>
    have hhole := closed_hole (b := b) (isName_placeholderName h)
    exact .ok ((hscope.sealed_name h).append_closed (hhole.text_cons hequals))
  | value c v =>
    have hvalue := closed_admitted hfits (isName_placeholderName h.1) h.2
    exact .ok ((hscope.sealed_name h.1).append_closed (hvalue.text_cons hequals))
  | raw text => exact absurd h id

theorem sealed_deleteBody (hscope : scope.IsPlain) (h : s.IsPlain known admits) :
    Yields (deleteBody scope s.columns) (Sealed b) := by
  have hcolumns := h.columns
  have hnil : Sealed b [] := fun _ hrest => hrest
  simp only [deleteBody]
  split
  · exact .ok hnil
  · rename_i names hnames
    have hplain : ∀ c ∈ names, IsColumn c := hcolumns _ hnames
    split
    · exact .ok hnil
    rw [fragment?_eq_none hplain]
    exact .ok (hscope.sealed_names hplain).closed.sealed_blank
  · exact .error

/-- Words that stand at the end of a statement or not at all. -/
theorem trails_word {text : String} {present : Bool} (hsolid : IsSolid text)
    (hblank : text.toList.head? = some ' ') : Trails b (if present then [.text text] else []) := by
  split
  · exact trails_blank hsolid hblank
  · exact trails_nil

/-- The pieces are legible up to a delimiter and begin with the word of an operation. -/
def Opens (operation : Operation) (b : Binding) (ps : List Piece) : Prop :=
  Closed b ps ∧ ∃ rest, (textOf b ps).toList = operation.word.toList ++ ' ' :: rest

theorem ensures_insertPieces (hfits : style.binding.Fits admits) (hscope : scope.IsPlain)
    (h : s.IsPlain known admits) :
    Resolving.Ensures (Memo.IsPlain known) (s.insertPieces style scope)
      (Opens .insert style.binding) := by
  rw [insertPieces]
  split
  · exact .throw
  rename_i columns hcolumns
  refine (ensures_tableName h).bind fun table htable => ?_
  refine (Resolving.Ensures.except (closed_insertBody hfits hscope (h.columns _ hcolumns))).bind
    fun body hbody => .pure ⟨?_, by simp [written, Operation.word]⟩
  have hopen : Inert ("INSERT INTO " ++ table ++ " (") :=
    (Inert.append (by decide) htable).append (by decide)
  have hcondition : Trails style.binding
      (if s.ifNotExists then [.text " IF NOT EXISTS"] else []) :=
    trails_word (Inert.isSolid (by decide)) rfl
  exact ((hbody.text_cons hopen.isSolid).append hcondition).append (trails_usingText _ _)

theorem trails_limit (n : Nat) : Trails b [.text (" LIMIT " ++ toString n)] := by
  have hinert : Inert (" LIMIT " ++ toString n) := Inert.append (by decide) (inert_toString_nat n)
  exact trails_blank hinert.isSolid (head?_append_of_blank rfl)

theorem ensures_selectPieces (hfits : style.binding.Fits admits) (hscope : scope.IsPlain)
    (h : s.IsPlain known admits) :
    Resolving.Ensures (Memo.IsPlain known) (s.selectPieces style scope)
      (Opens .select style.binding) := by
  rw [selectPieces]
  split
  · exact .throw
  rename_i columns hcolumns
  refine (ensures_tableName h).bind fun table htable => ?_
  have hbody := closed_selectBody (b := style.binding) hscope (h.columns _ hcolumns)
  refine (Resolving.Ensures.except hbody).bind fun body hbody => ?_
  refine (ensures_filterPieces hfits hscope h).bind fun filter hfilter => ?_
  have horder := trails_orderPieces (b := style.binding) hscope h
  refine (Resolving.Ensures.except horder).bind fun order horder =>
    .pure ⟨?_, by simp [written, Operation.word]⟩
  have hfrom : Inert (" FROM " ++ table) := Inert.append (by decide) htable
  have hfiltering : Trails style.binding
      (if s.allowFiltering then [.text " ALLOW FILTERING"] else []) :=
    trails_word (Inert.isSolid (by decide)) rfl
  have hselect : Sealed style.binding [.text "SELECT "] :=
    sealed_text (Inert.isSolid (by decide))
  have htail := hfilter.closed.trails_text hfrom.isSolid (head?_append_of_blank rfl) (.inl rfl)
  refine (((((hselect.append ?_).append_closed hbody).append htail).append horder).append ?_).append
    hfiltering
  · split
    · exact fun _ hrest => hrest
    · rename_i words hwords
      exact sealed_text ((h.modifier words hwords).inert.append (by decide)).isSolid
  · split
    · exact trails_nil
    · exact trails_limit _

theorem ensures_updatePieces (hfits : style.binding.Fits admits) (hscope : scope.IsPlain)
    (h : s.IsPlain known admits) :
    Resolving.Ensures (Memo.IsPlain known) (s.updatePieces style scope)
      (Opens .update style.binding) := by
  rw [updatePieces]
  dsimp only
  split
  · exact .throw_bind
  refine (ensures_tableName h).bind fun table htable => ?_
  rw [Resolving.mapM_liftM]
  have hassignment := fun a ha =>
    closed_assignmentPieces (b := style.binding) hfits hscope (h.assignments a ha)
  refine (Resolving.Ensures.except (yields_mapM_of_forall hassignment)).bind
    fun assignments hassignments => ?_
  refine (ensures_filterPieces hfits hscope h).bind fun filter hfilter => ?_
  refine (ensures_guardPieces hfits hscope h).bind fun guard hguard =>
    .pure ⟨?_, by simp [written, Operation.word]⟩
  have hopen : IsSolid ("UPDATE " ++ table ++ usingText s.lifetime s.writeTime ++ " SET ") :=
    ((Inert.append (by decide) htable).isSolid.append (isSolid_usingText _ _)).append
      (Inert.isSolid (by decide))
  have hset : Closed style.binding (Piece.separated ", " assignments) :=
    .separated (Inert.isSolid (by decide)) rfl (.inr (.inl rfl)) hassignments
  exact ((hset.text_cons hopen).append hfilter).append hguard

theorem ensures_deletePieces (hfits : style.binding.Fits admits) (hscope : scope.IsPlain)
    (h : s.IsPlain known admits) :
    Resolving.Ensures (Memo.IsPlain known) (s.deletePieces style scope)
      (Opens .delete style.binding) := by
  rw [deletePieces]
  refine (ensures_tableName h).bind fun table htable => ?_
  have hbody := sealed_deleteBody (b := style.binding) hscope h
  refine (Resolving.Ensures.except hbody).bind fun body hbody => ?_
  refine (ensures_filterPieces hfits hscope h).bind fun filter hfilter => ?_
  refine (ensures_guardPieces hfits hscope h).bind fun guard hguard =>
    .pure ⟨?_, by simp [written, Operation.word]⟩
  have hfrom : IsSolid ("FROM " ++ table ++ usingText none s.writeTime) :=
    (Inert.append (by decide) htable).isSolid.append (isSolid_usingText _ _)
  have hdelete := (sealed_text (Inert.isSolid (s := "DELETE ") (by decide))).append hbody
  exact (hdelete.append_closed (hfilter.closed.text_cons hfrom)).append hguard

theorem ensures_pieces_opens (hfits : style.binding.Fits admits) (h : s.IsPlain known admits) :
    Resolving.Ensures (Memo.IsPlain known) (s.pieces style) (Opens s.operation style.binding) := by
  rw [pieces]
  refine (Scope.ensures_ofEntity? h.entity).bind fun scope hscope => ?_
  cases s.operation with
  | insert => exact ensures_insertPieces hfits hscope h
  | select => exact ensures_selectPieces hfits hscope h
  | update => exact ensures_updatePieces hfits hscope h
  | delete => exact ensures_deletePieces hfits hscope h

/-- A text that begins with the word of an operation reads or writes data. -/
theorem isManipulation_of_word (operation : Operation) (rest : List Char) :
    Token.isManipulation (operation.word.toList ++ ' ' :: rest) := by
  unfold Token.isManipulation Token.verb?
  cases operation <;> rw [Token.skipLeading] <;> rfl

/-- A plain statement is rendered to legible text that reads or writes data. -/
theorem ensures_legible (hfits : style.binding.Fits admits) (h : s.IsPlain known admits) :
    Resolving.Ensures (Memo.IsPlain known) (s.pieces style) fun ps => IsLegible style.binding ps ∧
      Token.isManipulation (textOf style.binding ps).toList := by
  refine (ensures_pieces_opens hfits h).mono fun ps hps => ⟨hps.1.isLegible, ?_⟩
  obtain ⟨rest, hrest⟩ := hps.2
  rw [hrest]
  exact isManipulation_of_word _ rest

end Statement

end Cql
