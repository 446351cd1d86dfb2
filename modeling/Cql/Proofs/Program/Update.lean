import Cql.Proofs.Mapping.Cycle
import Cql.Proofs.Program.Parameters

/-!
Updates of an entity from its snapshot. If the snapshot has a value for each key, then the keys are
matched, and the update fails only where its nested fields lead to a cycle or where nothing is left
to set.
-/

namespace Cql

variable {catalog : Catalog} {es : List Entity} {e : Entity} {style : Style} {w : Workshop}

open Resolving (Settles)

/-- A computation that does not fail. -/
abbrev Resolving.Succeeds {α : Type} (I : Memo → Prop) (x : Resolving α) : Prop :=
  Settles I x (fun _ => True) fun _ => False

theorem Resolving.Succeeds.bind {α β : Type} {I : Memo → Prop} {x : Resolving α}
    {next : α → Resolving β} {R : β → Prop} {E : Error → Prop} (h : Succeeds I x)
    (hnext : ∀ a, Settles I (next a) R E) : Settles I (x >>= next) R E :=
  Settles.bind (h.mono (fun _ _ => trivial) fun _ => False.elim) fun a _ => hnext a

open Resolving (Succeeds)

/-- The values that a row has for some names, with these names. -/
def Row.entriesOf (row : Row) (names : List String) : List (String × Value) :=
  names.filterMap fun name => (row.get? name).map (name, ·)

def Scope.equation (scope : Scope) (entry : String × Value) : List Piece :=
  [scope.name entry.1, .text " = ", .ofValue (placeholderName entry.1) entry.2]

namespace Predicate

def equals (entry : String × Value) : Predicate := .equal entry.1 entry.2

/-- All of some columns have the values next to them. -/
def matching : List (String × Value) → Predicate
  | [only] => equals only
  | several => .junction .and (several.map equals)

theorem partPieces_equals (scope : Scope) (entries : List (String × Value)) :
    partPieces style scope (entries.map equals) = pure (entries.map scope.equation) := by
  induction entries with
  | nil => rfl
  | cons entry entries ih =>
    rw [List.map_cons, partPieces, ih]
    rfl

theorem pieces_matching (scope : Scope) {entries : List (String × Value)} (hne : entries ≠ []) :
    (matching entries).pieces style scope =
      pure (junctionPieces .and (entries.map scope.equation)) := by
  obtain _ | ⟨first, _ | ⟨second, others⟩⟩ := entries
  · exact absurd rfl hne
  · rfl
  · change (do
      let parts ← partPieces style scope ((first :: second :: others).map equals)
      return junctionPieces .and parts) = _
    rw [partPieces_equals, pure_bind]

end Predicate

theorem Origin.keyValues_eq_ok {snapshot : Row}
    (h : ∀ key ∈ e.keys, (snapshot.get? key.name).isSome) :
    ∃ values, keyValues e snapshot = .ok values ∧ values.length = e.keys.length := by
  refine mapM_eq_ok fun key hkey => ?_
  obtain ⟨v, hv⟩ := Option.isSome_iff_exists.mp (h key hkey)
  exact ⟨v, by rw [hv]⟩

theorem Row.zipWith_equal {row : Row} {keys : List Field}
    (h : ∀ key ∈ keys, (row.get? key.name).isSome) :
    keys.zipWith (fun key value => Predicate.equal key.name value)
        (row.valuesOf (keys.map (·.name))) =
      (row.entriesOf (keys.map (·.name))).map Predicate.equals := by
  induction keys with
  | nil => rfl
  | cons key keys ih =>
    obtain ⟨v, hv⟩ := Option.isSome_iff_exists.mp (h key (by simp))
    have hothers := ih fun k hk => h k (by simp [hk])
    rw [valuesOf, entriesOf] at hothers ⊢
    simpa [List.filterMap_cons, hv, Predicate.equals] using hothers

/-- If the snapshot has a value for each key, then the keys are matched with these values. -/
theorem Entity.matchKeys_eq {snapshot : Row} (hkeys : e.keys ≠ [])
    (hvalues : ∀ key ∈ e.keys, (snapshot.get? key.name).isSome) :
    Origin.keyValues e snapshot >>= e.matchKeys =
      .ok (.matching (snapshot.entriesOf (e.keys.map (·.name)))) := by
  have hcount : 0 < e.keys.length := List.length_pos_of_ne_nil hkeys
  obtain ⟨values, hkeyValues, hlength⟩ := Origin.keyValues_eq_ok hvalues
  have hzip := Row.zipWith_equal hvalues
  rw [← Origin.yields_keyValues e snapshot values hkeyValues] at hzip
  rw [hkeyValues]
  change e.matchKeys values = _
  rw [matchKeys]
  split
  · contradiction
  rw [if_neg (by omega), hzip]
  generalize snapshot.entriesOf (e.keys.map (·.name)) = entries
  obtain _ | ⟨first, _ | ⟨second, others⟩⟩ := entries <;> rfl

theorem Row.entriesOf_ne_nil {row : Row} {names : List String} (hne : names ≠ [])
    (h : ∀ name ∈ names, (row.get? name).isSome) : row.entriesOf names ≠ [] := by
  obtain ⟨name, others, rfl⟩ := List.exists_cons_of_ne_nil hne
  obtain ⟨v, hv⟩ := Option.isSome_iff_exists.mp (h name (by simp))
  rw [entriesOf, List.filterMap_cons_some (by rw [hv]; rfl)]
  exact List.cons_ne_nil _ _

theorem Scope.settles_ofEntity (htold : AreTold es) (he : e ∈ es) (casing : Casing) :
    Settles (Memo.IsTrue catalog es) (ofEntity? casing (some e)) (fun _ => ¬ e.IsCyclic catalog)
      (e.TellsCycle catalog) :=
  (Memo.settles_columnsOf htold he casing).bind fun _ hacyclic => .pure hacyclic

theorem Target.succeeds_tableName (target : Target) (casing : Casing) :
    Succeeds (Memo.IsTrue catalog es) (liftM (target.tableName casing)) := by
  cases target with
  | table name => exact .step (.pure trivial)
  | entity e => exact .step ((Memo.ensures_true_tablesOf e).bind fun _ _ => .pure trivial)

/-- The names that an update of an entity sets. -/
def Entity.settable (e : Entity) (excluded : List String) : List String :=
  (Eligible.without excluded (Eligible.ofEntity e).update).filter fun name =>
    !(e.field? name).any (·.isKey)

namespace Statement

theorem succeeds_tableName {s : Statement} (h : s.target.isSome ∨ s.entity.isSome) :
    Succeeds (Memo.IsTrue catalog es) (s.tableName style) := by
  rw [tableName]
  cases htarget : s.target with
  | some target => exact target.succeeds_tableName style.casing
  | none =>
    cases hentity : s.entity with
    | some e => exact Succeeds.bind (.step (Memo.ensures_true_tablesOf e)) fun _ => .pure trivial
    | none => simp [htarget, hentity] at h

/-- Sets properties of an entity to values where a predicate holds. -/
def settingEntity (e : Entity) (assignments : List Assignment) (p : Predicate) : Statement where
  operation := .update
  target := some (.entity e)
  entity := some e
  assignments := assignments
  filter := some (.predicate p)

def assigning (entry : String × Value) : Assignment := .value entry.1 entry.2

theorem assignmentPieces_assigning (scope : Scope) (entries : List (String × Value)) :
    (entries.map assigning).mapM (assignmentPieces scope) = .ok (entries.map scope.equation) := by
  induction entries with
  | nil => rfl
  | cons entry entries ih =>
    rw [List.map_cons, List.mapM_cons, ih]
    rfl

/-- An UPDATE of some columns where others have given values. -/
def update (scope : Scope) (table : String) (changes keyed : List (String × Value)) : List Piece :=
  .text ("UPDATE " ++ table ++ usingText none none ++ " SET ") ::
    Piece.separated ", " (changes.map scope.equation) ++
    .text " WHERE " :: Predicate.junctionPieces .and (keyed.map scope.equation)

theorem settles_settingEntity (htold : AreTold es) (he : e ∈ es) (changes : List (String × Value))
    {keyed : List (String × Value)} (hkeyed : keyed ≠ []) :
    Settles (Memo.IsTrue catalog es)
      ((settingEntity e (changes.map assigning) (.matching keyed)).pieces style)
      (fun ps => ¬ e.IsCyclic catalog ∧ changes ≠ [] ∧ ∃ scope table,
        ps = update scope table changes keyed)
      fun err => e.TellsCycle catalog err ∨
        ¬ e.IsCyclic catalog ∧ changes = [] ∧ err = .lacking .assignments := by
  refine ((Scope.settles_ofEntity htold he style.casing).mono (fun _ h => h) fun _ => .inl).bind
    fun scope hacyclic => ?_
  change Settles _ (updatePieces style scope _) _ _
  rw [updatePieces]
  simp only [Resolving.mapM_liftM]
  cases changes with
  | nil => exact .throw_bind (.inr ⟨hacyclic, rfl, rfl⟩)
  | cons first others =>
    refine (succeeds_tableName (.inl rfl)).bind fun table => ?_
    have hfilter : (settingEntity e ((first :: others).map assigning)
        (.matching keyed)).filterPieces style scope = pure (.text " WHERE " ::
          Predicate.junctionPieces .and (keyed.map scope.equation)) := by
      change (do
        let inside ← (Predicate.matching keyed).pieces style scope
        return Piece.text " WHERE " :: inside : Resolving (List Piece)) = _
      rw [Predicate.pieces_matching scope hkeyed, pure_bind]
    have hassigned : (settingEntity e ((first :: others).map assigning)
        (.matching keyed)).assignments.mapM (assignmentPieces scope) =
          .ok ((first :: others).map scope.equation) := assignmentPieces_assigning scope _
    rw [hassigned, hfilter]
    exact .pure ⟨hacyclic, List.cons_ne_nil _ _, scope, table, List.append_nil _⟩

theorem entityAssignments_eq (snapshot : Row) (excluded : List String) :
    entityAssignments e (.ofEntity e) snapshot excluded =
      (snapshot.entriesOf (e.settable excluded)).map assigning := by
  rw [entityAssignments, ← Entity.settable, Row.entriesOf, List.map_filterMap]
  refine List.filterMap_congr fun name _ => ?_
  rw [Option.map_map]
  rfl

end Statement

namespace Program

variable {P : Program}

/-- The statement of a program, by the descriptions of its entities. -/
theorem statement_eq (htold : AreTold P.entities) (hw : w.IsTrue catalog P.entities) :
    P.statement style w = (P.drafted catalog).statement := by
  obtain ⟨-, buffer, hdraft⟩ :=
    ensures_drafted htold (List.Subset.refl P.entities) style ⟨w, []⟩ hw
  change (P.draft style ⟨w, []⟩).1.statement = _
  rw [hdraft]
  rfl

/-- The outcome of a program is settled by its first mistake, or else by its statement. -/
theorem ends_outcome {Q : List Piece → Prop} {E : Error → Prop} (htold : AreTold P.entities)
    (hw : w.IsTrue catalog P.entities) (hfault : ∀ err ∈ (P.drafted catalog).fault, E err)
    (hpieces : (P.drafted catalog).fault = none → Settles (Memo.IsTrue catalog P.entities)
      ((P.drafted catalog).statement.pieces style) Q E) : Ends Q E (P.outcome style w) := by
  obtain ⟨hmemo, buffer, hdraft⟩ := ensures_drafted htold (List.Subset.refl _) style ⟨w, []⟩ hw
  rw [outcome_eq]
  generalize P.draft style ⟨w, []⟩ = run at hmemo hdraft ⊢
  rw [hdraft, Draft.outcome_of_within]
  cases h : (P.drafted catalog).fault with
  | some err => exact hfault err h
  | none => exact (hpieces h ⟨run.2.state.memo, run.2.log⟩ hmemo).2

theorem ends_result {Q : Prop} {E : Error → Prop} (htold : AreTold P.entities)
    (hw : w.IsTrue catalog P.entities) (hfault : ∀ err ∈ (P.drafted catalog).fault, E err)
    (hpieces : (P.drafted catalog).fault = none → Settles (Memo.IsTrue catalog P.entities)
      ((P.drafted catalog).statement.pieces style) (fun _ => Q) E) :
    Ends (fun _ => Q) E (P.result style w) := by
  rw [result_eq]
  exact (ends_outcome htold hw hfault hpieces).map fun _ => id

variable {snapshot : Row} {excluded : List String}

/-- Updates an entity from its snapshot, and no more. -/
def updating (e : Entity) (snapshot : Row) (excluded : List String) : Program where
  origin := .updateEntity e snapshot excluded
  clauses := []

theorem fault_updating {err : Error}
    (h : Origin.keyValues e snapshot >>= e.matchKeys = .error err) :
    ((updating e snapshot excluded).drafted catalog).fault = some err := by
  rw [drafted, draftedBy, updating, List.foldl_nil, Origin.opened, h]
  rfl

theorem drafted_updating {p : Predicate}
    (h : Origin.keyValues e snapshot >>= e.matchKeys = .ok p) :
    (updating e snapshot excluded).drafted catalog = .blank (.settingEntity e
      (Statement.entityAssignments e (.ofEntity e) snapshot excluded) p) := by
  rw [drafted, draftedBy, updating, List.foldl_nil, Origin.opened, h]
  rfl

theorem result_updating_of_error {err : Error} (hw : w.IsTrue catalog [e])
    (h : Origin.keyValues e snapshot >>= e.matchKeys = .error err) :
    (updating e snapshot excluded).result style w = .error err := by
  have hends : Ends (fun _ => False) (· = err)
      ((updating e snapshot excluded).result style w) := by
    refine ends_result (areTold_singleton e) hw ?_ ?_
    all_goals rw [fault_updating h]
    · exact fun err herr => (Option.some.inj herr).symm
    · exact fun hnone => by cases hnone
  revert hends
  cases (updating e snapshot excluded).result style w with
  | ok r => exact False.elim
  | error err => exact congrArg Except.error

/-- An entity without keys cannot be matched. -/
theorem result_updating_of_keys_eq_nil (hw : w.IsTrue catalog [e]) (h : e.keys = []) :
    (updating e snapshot excluded).result style w = .error (.misuse (.noKeys e.typeName)) := by
  refine result_updating_of_error hw ?_
  rw [Origin.keyValues, h, List.mapM_nil, pure_bind, Entity.matchKeys, h]

/-- With a value for each key, an update is rendered unless there is a cycle of nested fields, or
nothing is left to set. -/
theorem outcome_updating (hw : w.IsTrue catalog [e]) (hkeys : e.keys ≠ [])
    (hvalues : ∀ key ∈ e.keys, (snapshot.get? key.name).isSome) :
    let changes := snapshot.entriesOf (e.settable excluded)
    let keyed := snapshot.entriesOf (e.keys.map (·.name))
    Ends
      (fun ps => ¬ e.IsCyclic catalog ∧ changes ≠ [] ∧ ∃ scope table,
        ps = Statement.update scope table changes keyed)
      (fun err => e.TellsCycle catalog err ∨
        ¬ e.IsCyclic catalog ∧ changes = [] ∧ err = .lacking .assignments)
      ((updating e snapshot excluded).outcome style w) := by
  intro changes keyed
  have hdrafted : (updating e snapshot excluded).drafted catalog =
      .blank (.settingEntity e (changes.map Statement.assigning) (.matching keyed)) := by
    rw [drafted_updating (Entity.matchKeys_eq hkeys hvalues), Statement.entityAssignments_eq]
  have hkeyed : keyed ≠ [] := by
    refine Row.entriesOf_ne_nil (by simpa using hkeys) fun name hname => ?_
    obtain ⟨key, hkey, rfl⟩ := List.mem_map.mp hname
    exact hvalues key hkey
  refine ends_outcome (areTold_singleton e) hw ?_ ?_
  all_goals rw [hdrafted]
  · exact fun err herr => by cases herr
  · exact fun _ =>
      Statement.settles_settingEntity (areTold_singleton e) List.mem_cons_self changes hkeyed

/-- With a value for each key, an update fails only for a cycle of nested fields, or else if it has
nothing to set. -/
theorem ends_updating (hw : w.IsTrue catalog [e]) (hkeys : e.keys ≠ [])
    (hvalues : ∀ key ∈ e.keys, (snapshot.get? key.name).isSome) :
    let assignments := Statement.entityAssignments e (.ofEntity e) snapshot excluded
    Ends (fun _ => ¬ e.IsCyclic catalog ∧ assignments ≠ [])
      (fun err => e.TellsCycle catalog err ∨
        ¬ e.IsCyclic catalog ∧ assignments = [] ∧ err = .lacking .assignments)
      ((updating e snapshot excluded).result style w) := by
  intro assignments
  have hassignments : assignments =
      (snapshot.entriesOf (e.settable excluded)).map Statement.assigning :=
    Statement.entityAssignments_eq snapshot excluded
  have hnil : assignments = [] ↔ snapshot.entriesOf (e.settable excluded) = [] := by
    rw [hassignments, List.map_eq_nil_iff]
  rw [result_eq, ne_eq, hnil]
  exact (outcome_updating hw hkeys hvalues).map fun ps hps => ⟨hps.1, hps.2.1⟩

end Program

end Cql
