import Cql.Proofs.Draft.Alike
import Cql.Proofs.Draft.Operands
import Cql.Proofs.Program.Outcome

/-!
The parameters of a program. Wherever values are bound at all, they are the values of the calls in
the order of the text, without the expressions, which stand in the text as they are; and a program
makes the same mistake in every such style.
-/

namespace Cql

theorem Draft.outcome_of_within (d : Draft) (style : Style) (buffer : String) (s : Logged Memo) :
    (d.within style buffer).outcome s =
      match d.fault with
      | some e => .error e
      | none => ((d.statement.pieces style).run s).1 := by
  have hfault : (d.within style buffer).fault = d.fault := rfl
  have hbuffer : (d.within style buffer).buffer = some buffer := rfl
  rw [outcome, hfault, hbuffer]
  cases d.fault <;> rfl

theorem Draft.outcome_within (d : Draft) (style : Style) (buffer : String) (s : Logged Memo) :
    ((d.within style buffer).recast (.toStyle style)).outcome s =
      match d.fault with
      | some e => .error e
      | none => (((d.statement.recast (.toStyle style)).pieces style).run s).1 :=
  (d.recast (.toStyle style)).outcome_of_within style buffer s

theorem Draft.ensures_true_render {catalog : Catalog} {es : List Entity} (d : Draft)
    (h : d.fault = none → Step.Ensures (Memo.IsTrue catalog es) (d.statement.pieces d.style).run
      fun _ => True) : Step.Ensures (Workshop.IsTrue catalog es) d.render fun _ => True := by
  have hwrite : ∀ buffer, d.fault = none → Step.Ensures (Memo.IsTrue catalog es)
      (write d.style d.statement buffer) fun _ => True := by
    intro buffer hfault
    refine (h hfault).bind fun result _ => ?_
    cases result with
    | error e => exact .pure trivial
    | ok ps => exact Step.Ensures.note.bind fun _ _ => .pure trivial
  unfold render
  cases d.buffer with
  | none => exact .pure trivial
  | some buffer =>
    have hrelease : Step.Ensures (Workshop.IsTrue catalog es)
        (Workshop.onPool (TextPool.release buffer)) fun _ => True :=
      Workshop.ensures_true_onPool _
    cases hfault : d.fault with
    | some e =>
      exact (Step.Ensures.pure (Q := fun _ => True) trivial).bind fun _ _ =>
        hrelease.bind fun _ _ => .pure trivial
    | none =>
      exact (Workshop.ensures_true_onMemo (hwrite buffer hfault)).bind fun _ _ =>
        hrelease.bind fun _ _ => .pure trivial

/-- The values are bound in their order, except for expressions, whose texts stand in the text. -/
structure Rendered.Carries (r : Rendered) (vs : List Value) : Prop where
  parameters : r.parameters = vs.filter (!·.isExpr)
  expressions : Text.InOrder (vs.filterMap Value.expression?) r.text.toList

namespace Program

variable {P : Program} {catalog : Catalog} {es : List Entity} {style style' : Style}
  {w w' : Workshop}

/-- The entities that a program works with. -/
def entities (P : Program) : List Entity := P.origin.entities ++ P.clauses.flatMap Clause.entities

/-- The values of a program in the order of the text, where the properties of entities are known:
the rows of an INSERT one after the other; the assignments of an UPDATE in the order of the calls,
then its WHERE and its IF; the WHERE of a SELECT; the WHERE of a DELETE and its IF. -/
def operands (P : Program) (eligibleOf : Entity → Eligible) : List Value :=
  (P.origin.operands eligibleOf ++ Operands.join (P.clauses.map (Clause.operands eligibleOf))).of
    P.origin.operation

/-- The draft of a program by the properties and the names of its entities. -/
def draftedBy (P : Program) (eligibleOf : Entity → Eligible)
    (leavesOf : Entity → Except Error (List String)) : Draft :=
  P.clauses.foldl (Draft.take eligibleOf) (P.origin.opened eligibleOf leavesOf)

/-- The draft of a program by the descriptions of its entities alone. -/
def drafted (P : Program) (catalog : Catalog) : Draft :=
  P.draftedBy Eligible.ofEntity (Entity.leaves catalog)

section Drafted

variable {eligibleOf : Entity → Eligible} {leavesOf : Entity → Except Error (List String)}

theorem begins_drafted (h : (P.draftedBy eligibleOf leavesOf).fault = none) :
    Place.values (P.draftedBy eligibleOf leavesOf).statement.cells = P.operands eligibleOf ∧
      (P.draftedBy eligibleOf leavesOf).statement.entities ⊆ P.entities ∧
      ((P.draftedBy eligibleOf leavesOf).statement.RepeatsNames → P.origin.SeveralRows) := by
  rw [draftedBy] at h ⊢
  obtain ⟨hopened, hgains⟩ := Draft.gains_takes h
  have hbegins := P.origin.begins_opened hopened
  refine ⟨?_, ?_, ?_⟩
  · rw [Statement.values_cells, hgains.operation, hgains.operands]
    rw [hbegins.operands, hbegins.operation, operands]
  · have hs := hgains.entities
    have hs' := hbegins.entities
    grind [entities]
  · rintro ⟨hoperation, hcolumns⟩
    rw [hgains.columns] at hcolumns
    exact hbegins.severalRows ⟨hgains.operation.symm.trans hoperation, hcolumns⟩

end Drafted

theorem ensures_drafted (htold : AreTold es) (h : P.entities ⊆ es) (style : Style) :
    Step.Ensures (Workshop.IsTrue catalog es) (P.draft style) fun d =>
      ∃ buffer, d = (P.drafted catalog).within style buffer := by
  have hclauses : ∀ (clauses : List Clause) (d : Draft) (buffer : String),
      clauses.flatMap Clause.entities ⊆ es →
      Step.Ensures (Workshop.IsTrue catalog es)
        (clauses.foldlM (fun d clause => Workshop.onMemo (d.apply clause)) (d.within style buffer))
        fun d' => d' = (clauses.foldl (Draft.take Eligible.ofEntity) d).within style buffer := by
    intro clauses
    induction clauses with
    | nil => exact fun d buffer _ => .pure rfl
    | cons clause clauses ih =>
      intro d buffer hentities
      obtain ⟨hclause, hothers⟩ := List.append_subset.mp hentities
      have htake : Step.Ensures (Memo.IsTrue catalog es) ((d.within style buffer).apply clause)
          (· = (d.within style buffer).take Eligible.ofEntity clause) :=
        Draft.ensures_take (fun _ he => Memo.ensures_true_eligibleOf htold he) rfl hclause
      rw [List.foldlM_cons, List.foldl_cons]
      refine (Workshop.ensures_true_onMemo htake).bind fun d' hd' => ?_
      rw [hd', Draft.within_take]
      exact ih _ buffer hothers
  obtain ⟨horigin, hothers⟩ := List.append_subset.mp h
  have hdescribes : Workshop.Describes catalog es _ _ _ := Workshop.describes_isTrue htold
  refine (P.origin.ensures_opened hdescribes style horigin).bind fun d ⟨buffer, _, hd⟩ => ?_
  rw [hd]
  exact (hclauses P.clauses _ buffer hothers).mono fun d' hd' => ⟨buffer, hd'⟩

/-- The properties that the memo gives for entities once the calls are made. -/
def properties (P : Program) (style : Style) (w : Workshop) : Entity → Eligible :=
  (P.draft style ⟨w, []⟩).2.state.memo.propertiesOf

/-- The calls draft the same in both styles. -/
theorem agree_draft (h : P.entities ⊆ es) :
    Step.Agree (Workshop.Alike es style.casing style'.casing) (P.draft style) (P.draft style')
      (Draft.InStyles style style') := by
  obtain ⟨horigin, hothers⟩ := List.append_subset.mp h
  refine (Origin.agree_begin horigin).bind fun d d' hd => Step.Agree.foldlM hd ?_
  intro d d' hd clause hclause
  have hentities : clause.entities ⊆ es := fun e he =>
    hothers (List.mem_flatMap.mpr ⟨clause, hclause, he⟩)
  exact Workshop.agree_onMemo (Draft.agree_apply hd hentities)

/-- They draft by the properties that the memo gives in the end. -/
theorem recalls_drafted (last : Memo) (style : Style) :
    Step.Recalls (fun w : Workshop => w.memo.Precedes last) (P.draft style) fun d =>
      ∃ leavesOf buffer, d = (P.draftedBy last.propertiesOf leavesOf).within style buffer := by
  have hclauses : ∀ (clauses : List Clause) (d : Draft),
      Step.Recalls (fun w : Workshop => w.memo.Precedes last)
        (clauses.foldlM (fun d clause => Workshop.onMemo (d.apply clause)) d) fun d' =>
          ∀ (drawn : Draft) (buffer : String), d = drawn.within style buffer →
            d' = (clauses.foldl (Draft.take last.propertiesOf) drawn).within style buffer := by
    intro clauses
    induction clauses with
    | nil => exact fun d => .pure fun _ _ hd => hd
    | cons clause clauses ih =>
      intro d
      rw [List.foldlM_cons]
      refine (Workshop.recalls_onMemo (d.recalls_take last clause)).bind fun d' => ?_
      refine (ih d').mono fun d'' hothers htake drawn buffer hd => hothers _ buffer ?_
      rw [htake (by rw [hd]; rfl), hd, Draft.within_take]
  refine (P.origin.recalls_opened last style).bind fun d => ?_
  refine (hclauses P.clauses d).mono fun d' hothers ⟨leavesOf, buffer, hd⟩ => ?_
  exact ⟨leavesOf, buffer, hothers _ buffer hd⟩

/-- A program that is drafted without a mistake comes to the pieces of its statement. The catalog is
the same as at the beginning. -/
theorem exists_outcome_eq (h : ((P.draft style).run w).1.fault = none) :
    ∃ s : Logged Memo, s.state.catalog = w.memo.catalog ∧
      P.outcome style w = (((P.statement style w).pieces style).run s).1 := by
  obtain ⟨hprecedes, leavesOf, buffer, hdrafted⟩ :=
    P.recalls_drafted _ style ⟨w, []⟩ (Memo.Precedes.refl _)
  change (P.draft style ⟨w, []⟩).1.fault = none at h
  refine ⟨⟨_, (P.draft style ⟨w, []⟩).2.log⟩, hprecedes.catalog.symm, ?_⟩
  change _ = (((P.draft style ⟨w, []⟩).1.statement.pieces style).run _).1
  rw [outcome_eq, Draft.outcome, h, hdrafted]
  rfl

/-- Whatever the style, the outcome bears the values of the program, or it is the same mistake. -/
theorem matches_outcome
    (hrows : P.origin.SeveralRows → (style.binding = .named ↔ style'.binding = .named))
    (halike : w.Alike P.entities style.casing style'.casing w') :
    Matches (fun ps ps' => ∃ cells, Place.values cells = P.operands (P.properties style w) ∧
        Piece.Bears ps cells ∧ Piece.Bears ps' cells)
      ((P.inStyle style).outcome style w) ((P.inStyle style').outcome style' w') := by
  have houtcome : ∀ style w, (P.inStyle style).outcome style w =
      ((P.draft style ⟨w, []⟩).1.recast (.toStyle style)).outcome
        ⟨(P.draft style ⟨w, []⟩).2.state.memo, (P.draft style ⟨w, []⟩).2.log⟩ :=
    fun style w => P.outcome_recast style w (.toStyle style) rfl
  obtain ⟨hmemo, drawn, buffer, buffer', hdraft, hdraft'⟩ :=
    agree_draft (List.Subset.refl P.entities) ⟨w, []⟩ ⟨w', []⟩ halike
  obtain ⟨-, leavesOf, buffer'', hdrafted⟩ :=
    P.recalls_drafted _ style ⟨w, []⟩ (Memo.Precedes.refl _)
  rw [houtcome, houtcome, properties]
  generalize P.draft style ⟨w, []⟩ = run at hmemo hdraft hdrafted ⊢
  generalize P.draft style' ⟨w', []⟩ = run' at hmemo hdraft' ⊢
  rw [hdraft, hdraft', Draft.outcome_within, Draft.outcome_within]
  obtain ⟨hstatement, hfault⟩ :
      drawn.statement = (P.draftedBy run.2.state.memo.propertiesOf leavesOf).statement ∧
        drawn.fault = (P.draftedBy run.2.state.memo.propertiesOf leavesOf).fault := by
    have hsame := hdraft.symm.trans hdrafted
    simp only [Draft.within, Draft.mk.injEq] at hsame
    exact ⟨hsame.2.1, hsame.2.2.2⟩
  cases hnone : drawn.fault with
  | some e => exact .error e
  | none =>
    obtain ⟨hvalues, hentities, hseveral⟩ := begins_drafted (hfault.symm.trans hnone)
    rw [← hstatement] at hvalues hentities hseveral
    have hagree : AgreeOnMistake (Memo.Alike P.entities style.casing style'.casing)
        ((drawn.statement.recast (.toStyle style)).pieces style)
        ((drawn.statement.recast (.toStyle style')).pieces style') :=
      Statement.agree_pieces Memo.lookUpsAgree_alike hentities fun hrepeat =>
        hrows (hseveral hrepeat)
    have hbears : ∀ (style : Style) (s : Logged Memo),
        Yields (((drawn.statement.recast (.toStyle style)).pieces style).run s).1
          fun ps => Piece.Bears ps drawn.statement.cells := by
      intro style s
      rw [← drawn.statement.cells_toStyle style]
      exact (Statement.bears_of_pieces _ s trivial).2
    have hmatches := (hagree ⟨run.2.state.memo, run.2.log⟩ ⟨run'.2.state.memo, run'.2.log⟩
      hmemo).2
    exact (hmatches.both (hbears style _) (hbears style' _)).mono
      fun ps ps' ⟨_, hps, hps'⟩ => ⟨_, hvalues, hps, hps'⟩

theorem operands_congr {eligibleOf eligibleOf' : Entity → Eligible}
    (h : ∀ e ∈ P.entities, eligibleOf e = eligibleOf' e) :
    P.operands eligibleOf = P.operands eligibleOf' := by
  have horigin : P.origin.operands eligibleOf = P.origin.operands eligibleOf' :=
    Origin.operands_congr fun e he => h e (List.mem_append_left _ he)
  have hclauses : P.clauses.map (Clause.operands eligibleOf) =
      P.clauses.map (Clause.operands eligibleOf') :=
    List.map_congr_left fun clause hclause => Clause.operands_congr fun e he =>
      h e (List.mem_append_right _ (List.mem_flatMap.mpr ⟨clause, hclause, he⟩))
  rw [operands, operands, horigin, hclauses]

/-- A program gives the same values in any two styles that bind them, with subqueries in the style
of the statement, or it makes the same mistake in both, where the memos answer alike for its
entities. Several rows are refused where placeholders have names. The values are those of the calls,
with the properties of entities that the memo gives; where type names tell the entities apart and
the memo is true to them, these are the properties of the entities themselves. -/
theorem matches_result (hb : style.binding ≠ .literal) (hb' : style'.binding ≠ .literal)
    (hrows : P.origin.SeveralRows → (style.binding = .named ↔ style'.binding = .named))
    (halike : w.Alike P.entities style.casing style'.casing w') :
    let values := P.operands (P.properties style w)
    Matches (fun r r' => r.Carries values ∧ r'.Carries values)
        ((P.inStyle style).result style w) ((P.inStyle style').result style' w') ∧
      ∀ catalog, AreTold P.entities → w.IsTrue catalog P.entities →
        values = P.operands Eligible.ofEntity := by
  intro values
  have hcarries : ∀ {b : Binding} {ps : List Piece} {cells : List Place} (buffer : String),
      b ≠ .literal → Place.values cells = values → Piece.Bears ps cells →
      (Rendered.ofPieces b buffer ps).Carries values := by
    intro b ps cells buffer hb hcells hbears
    refine ⟨?_, ?_⟩
    · rw [← hcells]
      exact hbears.parametersOf_eq hb
    · rw [← hcells, Rendered.ofPieces, String.toList_append]
      exact (hbears.inOrder b).append_left _
  refine ⟨?_, fun catalog htold hw => operands_congr fun e he => ?_⟩
  · rw [result_eq, result_eq]
    refine (matches_outcome hrows halike).map fun ps ps' ⟨cells, hcells, hps, hps'⟩ => ?_
    exact ⟨hcarries _ hb hcells hps, hcarries _ hb' hcells hps'⟩
  · have hmemo : (P.draft style ⟨w, []⟩).2.state.memo.IsTrue catalog P.entities :=
      (ensures_drafted htold (List.Subset.refl P.entities) style ⟨w, []⟩ hw).1
    exact hmemo.propertiesOf_eq he

/-- A program leaves a true memo true. -/
theorem ensures_true_pair (htold : AreTold es) (h : P.entities ⊆ es) (style : Style) :
    Step.Ensures (Workshop.IsTrue catalog es) ((P.inStyle style).pair style) fun _ => True := by
  have hdraft : (P.inStyle style).draft style = Draft.recast (.toStyle style) <$> P.draft style :=
    P.draft_recast style (.toStyle style) rfl
  rw [pair, hdraft, bind_map_left]
  refine (ensures_drafted htold h style).bind fun d hdrafted => ?_
  obtain ⟨buffer, hd⟩ := hdrafted
  refine (Draft.ensures_true_render _ fun hfault => ?_).bind fun _ _ => .pure trivial
  rw [hd] at hfault ⊢
  have hentities := List.Subset.trans (begins_drafted hfault).2.1 h
  have hagree : AgreeOnMistake (fun m m' => m.IsTrue catalog es ∧ m'.IsTrue catalog es)
      (((P.drafted catalog).statement.recast (.toStyle style)).pieces style)
      (((P.drafted catalog).statement.recast (.toStyle style)).pieces style) :=
    Statement.agree_pieces (Memo.lookUpsAgree_isTrue htold) hentities fun _ => Iff.rfl
  exact fun s hs => ⟨(hagree s s ⟨hs, hs⟩).1.1, trivial⟩

/-- Accounts with an owner, and a memo that keeps their columns. -/
def account : Entity where
  typeName := "Account"
  name := "Account"
  fields := [{ name := "accountId", isKey := true }, { name := "ownerName" }, { name := "visits" }]

def remembering (casing : Casing) : Workshop where
  memo :=
    { columnMaps := [((account.typeName, casing),
        ⟨0, ⟨account.fields.map fun f => (f.name, f.physical casing)⟩⟩)] }

theorem leaves_account : account.leaves [] = .ok ["accountId", "ownerName", "visits"] := by
  rw [Entity.leaves, account]
  simp only [Memo.resolveFields]
  rfl

theorem isTrue_remembering (casing : Casing) : (remembering casing).IsTrue [] [account] := by
  refine ⟨rfl, fun e he casing' kept hkept => ?_, by simp [remembering]⟩
  obtain rfl := List.mem_singleton.mp he
  obtain ⟨-, rfl⟩ | hold := mem_lookup_cons hkept
  · exact leaves_account
  · cases hold

/-- Gives an account another owner if its group had members in some year. -/
def reowning : Program where
  origin := .updateType account
  clauses := [
    .setValue "ownerName" (.text "ann"), .setValue "visits" (.expr "visits + 1"),
    .guard (.compare "ownerName" "!=" .null),
    .filter (.junction .and [.compare "accountId" "=" (.int 7), .amongSelect "groupId" "IN"
      { style := {}, columns := ["groupId"], target := some (.table "members") }
      (some (.between "joinedAt" "BETWEEN" (.int 1) (.expr "now()")))])]

theorem matches_result_reowning : ∃ r r',
    (reowning.inStyle ⟨.lowerUnderscore, .positional⟩).result ⟨.lowerUnderscore, .positional⟩
      (remembering .lowerUnderscore) = .ok r ∧
    (reowning.inStyle ⟨.lowerCamel, .named⟩).result ⟨.lowerCamel, .named⟩
      (remembering .lowerCamel) = .ok r' ∧
    r.Carries [.text "ann", .expr "visits + 1", .int 7, .int 1, .expr "now()", .null] ∧
    r'.Carries [.text "ann", .expr "visits + 1", .int 7, .int 1, .expr "now()", .null] := by
  have hok : ((reowning.inStyle ⟨.lowerUnderscore, .positional⟩).result
      ⟨.lowerUnderscore, .positional⟩ (remembering .lowerUnderscore)).isOk := by decide +kernel
  have halike : (remembering .lowerUnderscore).Alike reowning.entities .lowerUnderscore .lowerCamel
      (remembering .lowerCamel) :=
    (isTrue_remembering .lowerUnderscore).alike (isTrue_remembering .lowerCamel) _ _
  have hmatches := (matches_result
    (by decide : (⟨.lowerUnderscore, .positional⟩ : Style).binding ≠ .literal)
    (by decide : (⟨.lowerCamel, .named⟩ : Style).binding ≠ .literal) False.elim halike).1
  revert hok hmatches
  generalize (reowning.inStyle ⟨.lowerUnderscore, .positional⟩).result _ _ = result
  generalize (reowning.inStyle ⟨.lowerCamel, .named⟩).result _ _ = result'
  intro hok hmatches
  cases hmatches with
  | ok h => exact ⟨_, _, rfl, rfl, h⟩
  | error e => cases hok

end Program

end Cql
