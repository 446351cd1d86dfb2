import Cql.Proofs.Program.Rows
import Cql.Proofs.Program.Update

/-!
What is written of an entity. An INSERT writes the entries of the snapshot that belong to insertable
fields, in the order of the snapshot. An update sets the updatable fields and matches all keys, both
in the order of declaration, and misses a value only where a key has none.
-/

namespace Cql

variable {catalog : Catalog} {es : List Entity} {e : Entity} {style : Style} {w : Workshop}
  {snapshot : Row} {excluded : List String}

open Resolving (Settles Succeeds)

namespace Field

/-- An INSERT of the entity writes the field. -/
def isInsertable (f : Field) : Bool := !f.isTransient && f.nested.isNone && !f.isReadOnly

/-- An update of the entity sets the field. -/
def isUpdatable (f : Field) : Bool := f.isInsertable && !f.isFixed && !f.isKey

end Field

namespace Entity

/-- The entries of a snapshot for insertable fields that are not excluded, in their order. -/
def insertions (e : Entity) (excluded : List String) (snapshot : Row) : List (String × Value) :=
  snapshot.entries.filter fun entry =>
    entry.1 ∉ excluded ∧ ∃ f ∈ e.fields, f.name = entry.1 ∧ f.isInsertable

/-- The updatable fields that are not excluded, in their order, with the values that a snapshot has
for them. -/
def changes (e : Entity) (excluded : List String) (snapshot : Row) : List (String × Value) :=
  (e.fields.filter fun f => f.isUpdatable ∧ f.name ∉ excluded).filterMap fun f =>
    (snapshot.get? f.name).map (f.name, ·)

/-- The keys, in their order, with the values that a snapshot has for them. -/
def keyed (e : Entity) (snapshot : Row) : List (String × Value) :=
  e.keys.filterMap fun key => (snapshot.get? key.name).map (key.name, ·)

theorem field?_eq_some (hnames : (e.fields.map (·.name)).Nodup) {f : Field} (hf : f ∈ e.fields) :
    e.field? f.name = some f := by
  obtain ⟨found, hfound⟩ : ∃ found, e.field? f.name = some found := by
    rw [← Option.isSome_iff_exists, field?, List.find?_isSome]
    exact ⟨f, hf, by simp⟩
  have hname : found.name = f.name := by simpa using List.find?_some hfound
  have hmem : found ∈ e.fields := List.mem_of_find?_eq_some hfound
  rw [hfound, List.inj_on_of_nodup_map hnames hmem hf hname]

/-- With distinct names, an update sets the updatable fields. -/
theorem settable_eq (hnames : (e.fields.map (·.name)).Nodup) (excluded : List String) :
    e.settable excluded =
      (e.fields.filter fun f => f.isUpdatable ∧ f.name ∉ excluded).map (·.name) := by
  rw [settable, Eligible.without, Eligible.ofEntity, List.filter_map, List.filter_map,
    List.filter_filter, List.filter_filter]
  congr 1
  refine List.filter_congr fun f hf => ?_
  rw [Bool.eq_iff_iff]
  simp only [Function.comp_apply, e.field?_eq_some hnames hf, Option.any_some, Field.isUpdatable,
    Field.isInsertable, Field.isColumn, Bool.and_eq_true, decide_eq_true_eq]
  tauto

theorem entriesOf_settable (hnames : (e.fields.map (·.name)).Nodup) :
    snapshot.entriesOf (e.settable excluded) = e.changes excluded snapshot := by
  rw [settable_eq hnames, Row.entriesOf, List.filterMap_map]
  rfl

theorem entriesOf_keys : snapshot.entriesOf (e.keys.map (·.name)) = e.keyed snapshot := by
  rw [Row.entriesOf, List.filterMap_map]
  rfl

end Entity

theorem Origin.inserted_eq :
    inserted Eligible.ofEntity e excluded snapshot = ⟨e.insertions excluded snapshot⟩ := by
  rw [inserted, Row.restrict, Entity.insertions]
  congr 1
  refine List.filter_congr fun entry _ => ?_
  refine decide_eq_decide.mpr ?_
  simp only [Eligible.without, Eligible.ofEntity, List.mem_filter, List.mem_map, decide_eq_true_eq]
  constructor
  · rintro ⟨⟨f, ⟨hf, hinsertable⟩, hname⟩, hkept⟩
    exact ⟨hkept, f, hf, hname, hinsertable⟩
  · rintro ⟨hkept, f, hf, hname, hinsertable⟩
    exact ⟨⟨f, ⟨hf, hinsertable⟩, hname⟩, hkept⟩

namespace Program

/-- Inserts an entity from its snapshot, and no more. -/
def inserting (e : Entity) (snapshot : Row) (excluded : List String) : Program where
  origin := .insertEntity e snapshot excluded
  clauses := []

theorem drafted_inserting : (inserting e snapshot excluded).drafted catalog = .blank
    { operation := .insert, entity := some e,
      columns := some (.row ⟨e.insertions excluded snapshot⟩) } := by
  rw [drafted, draftedBy, inserting, List.foldl_nil, Origin.opened, Origin.inserted_eq]

/-- An INSERT of an entity is rendered unless there is a cycle of nested fields, or nothing is left
to write. -/
theorem outcome_inserting (hsnapshot : snapshot.names.Nodup) (hw : w.IsTrue catalog [e]) :
    let inserted := e.insertions excluded snapshot
    Ends
      (fun ps => ¬ e.IsCyclic catalog ∧ inserted ≠ [] ∧ ∃ scope table,
        ps = Statement.insertion { operation := .insert } scope table (inserted.map Prod.fst)
          (.text "(" :: Piece.separated "," (inserted.map fun entry =>
            [.ofValue (placeholderName entry.1) entry.2]) ++ [.text ")"]))
      (fun err => e.TellsCycle catalog err ∨
        ¬ e.IsCyclic catalog ∧ inserted = [] ∧ err = .lacking .insertColumns)
      ((inserting e snapshot excluded).outcome style w) := by
  intro inserted
  have hnames : (⟨inserted⟩ : Row).names.Nodup :=
    hsnapshot.sublist (List.filter_sublist.map Prod.fst)
  refine ends_outcome (areTold_singleton e) hw ?_ ?_
  all_goals rw [drafted_inserting]
  · exact fun err herr => by cases herr
  intro _
  refine ((Scope.settles_ofEntity (areTold_singleton e) List.mem_cons_self style.casing).mono
    (fun _ h => h) fun _ => .inl).bind fun scope hacyclic => ?_
  change Settles _ (Statement.insertPieces style scope _) _ _
  refine (Statement.succeeds_tableName (.inr rfl)).bind fun table => ?_
  by_cases hnil : inserted = []
  · have hbody : Statement.insertBody style scope (.row ⟨inserted⟩) =
        .error (.lacking .insertColumns) := by
      rw [hnil]
      rfl
    rw [hbody]
    exact .throw_bind (.inr ⟨hacyclic, hnil, rfl⟩)
  · have hbody : Statement.insertBody style scope (.row ⟨inserted⟩) =
        .ok (scope.names (inserted.map Prod.fst) ++ .text ") VALUES " ::
          (⟨inserted⟩ : Row).group (inserted.map Prod.fst)) := by
      rw [Statement.insertBody, if_neg (by simpa [Row.isEmpty] using hnil),
        Statement.rowPieces_of_fills (Row.fills_names hnames)]
      rfl
    rw [hbody, ← Row.group_names hnames]
    exact .pure ⟨hacyclic, hnil, scope, table, rfl⟩

theorem result_updating_of_missing {key : Field} (hw : w.IsTrue catalog [e])
    (hkey : e.keys.find? (fun key => (snapshot.get? key.name).isNone) = some key) :
    (updating e snapshot excluded).result style w =
      .error (.misuse (.keyMissing e.typeName key.name)) := by
  obtain ⟨hmissing, front, rest, hkeys, hfront⟩ := List.find?_eq_some_iff_append.mp hkey
  have hnone : snapshot.get? key.name = none := by simpa using hmissing
  refine result_updating_of_error hw ?_
  rw [Origin.keyValues, hkeys, mapM_eq_error (e := .misuse (.keyMissing e.typeName key.name))]
  · rfl
  · intro k hk
    obtain ⟨v, hv⟩ := Option.isSome_iff_exists.mp (by simpa using hfront k hk)
    exact ⟨v, by rw [hv]⟩
  · rw [hnone]

/-- An update is misused exactly if it cannot be matched by all keys. -/
theorem result_updating_eq_misuse_iff (hw : w.IsTrue catalog [e]) :
    (∃ cause, (updating e snapshot excluded).result style w = .error (.misuse cause)) ↔
      e.keys = [] ∨ ∃ key ∈ e.keys, snapshot.get? key.name = none := by
  constructor
  · rintro ⟨cause, hresult⟩
    by_contra hall
    obtain ⟨hkeys, hvalues⟩ := not_or.mp hall
    have hsome : ∀ key ∈ e.keys, (snapshot.get? key.name).isSome := fun key hkey =>
      Option.isSome_iff_ne_none.mpr fun hnone => hvalues ⟨key, hkey, hnone⟩
    have hends : Ends _ _ ((updating e snapshot excluded).result style w) :=
      ends_updating hw hkeys hsome
    rw [hresult] at hends
    obtain ⟨_, -, htells, -⟩ | ⟨-, -, hlacking⟩ := hends
    · cases htells
    · cases hlacking
  · rintro (hkeys | ⟨missing, hmissing, hnone⟩)
    · exact ⟨_, result_updating_of_keys_eq_nil hw hkeys⟩
    · obtain ⟨key, hkey⟩ : ∃ key,
          e.keys.find? (fun key => (snapshot.get? key.name).isNone) = some key := by
        rw [← Option.isSome_iff_exists, List.find?_isSome]
        exact ⟨missing, hmissing, by simp [hnone]⟩
      exact ⟨_, result_updating_of_missing hw hkey⟩

/-- An INSERT of an entity writes the entries of its snapshot for insertable fields and no others.
An update sets the updatable fields and matches all keys; it is misused exactly if there is no key
or the snapshot misses one, and then the first such key is named. -/
theorem writes_entity (hnames : (e.fields.map (·.name)).Nodup) (hsnapshot : snapshot.names.Nodup)
    (hw : w.IsTrue catalog [e]) :
    let inserted := e.insertions excluded snapshot
    let changed := e.changes excluded snapshot
    let keyed := e.keyed snapshot
    let insert := inserting e snapshot excluded
    let update := updating e snapshot excluded
    insert.statement style w =
      { operation := .insert, entity := some e, columns := some (.row ⟨inserted⟩) } ∧
    Ends
      (fun ps => ¬ e.IsCyclic catalog ∧ inserted ≠ [] ∧ ∃ scope table,
        ps = Statement.insertion { operation := .insert } scope table (inserted.map Prod.fst)
          (.text "(" :: Piece.separated "," (inserted.map fun entry =>
            [.ofValue (placeholderName entry.1) entry.2]) ++ [.text ")"]))
      (fun err => e.TellsCycle catalog err ∨
        ¬ e.IsCyclic catalog ∧ inserted = [] ∧ err = .lacking .insertColumns)
      (insert.outcome style w) ∧
    (e.keys ≠ [] → (∀ key ∈ e.keys, (snapshot.get? key.name).isSome) →
      update.statement style w =
        .settingEntity e (changed.map Statement.assigning) (.matching keyed) ∧
      Ends
        (fun ps => ¬ e.IsCyclic catalog ∧ changed ≠ [] ∧ ∃ scope table,
          ps = Statement.update scope table changed keyed)
        (fun err => e.TellsCycle catalog err ∨
          ¬ e.IsCyclic catalog ∧ changed = [] ∧ err = .lacking .assignments)
        (update.outcome style w)) ∧
    ((∃ cause, update.result style w = .error (.misuse cause)) ↔
      e.keys = [] ∨ ∃ key ∈ e.keys, snapshot.get? key.name = none) ∧
    (e.keys = [] → update.result style w = .error (.misuse (.noKeys e.typeName))) ∧
    ∀ key, e.keys.find? (fun key => (snapshot.get? key.name).isNone) = some key →
      update.result style w = .error (.misuse (.keyMissing e.typeName key.name)) := by
  intro inserted changed keyed insert update
  have hchanged : snapshot.entriesOf (e.settable excluded) = changed :=
    Entity.entriesOf_settable hnames
  have hkeyed : snapshot.entriesOf (e.keys.map (·.name)) = keyed := Entity.entriesOf_keys
  refine ⟨?_, outcome_inserting hsnapshot hw, fun hkeys hvalues => ⟨?_, ?_⟩,
    result_updating_eq_misuse_iff hw, result_updating_of_keys_eq_nil hw,
    fun key => result_updating_of_missing hw⟩
  · refine (statement_eq (P := insert) (areTold_singleton e) hw).trans ?_
    rw [drafted_inserting]
    rfl
  · refine (statement_eq (P := update) (areTold_singleton e) hw).trans ?_
    rw [drafted_updating (Entity.matchKeys_eq hkeys hvalues), Statement.entityAssignments_eq,
      hchanged, hkeyed]
    rfl
  · rw [← hchanged, ← hkeyed]
    exact outcome_updating hw hkeys hvalues

/-- Tickets with a key of two columns. -/
def ticket : Entity where
  typeName := "desk::Ticket"
  name := "Ticket"
  fields := [{ name := "queue", isKey := true }, { name := "number", isKey := true },
    { name := "title" }, { name := "openedAt", isFixed := true },
    { name := "score", isReadOnly := true }, { name := "draft", isTransient := true },
    { name := "owner", nested := some 0 }]

theorem writes_entity_ticket :
    let snapshot : Row := ⟨[("title", .text "Lost"), ("number", .int 4), ("queue", .text "keys"),
      ("openedAt", .int 9), ("score", .int 1)]⟩
    let insert := inserting ticket snapshot ["openedAt"]
    let update := updating ticket snapshot ["openedAt"]
    (insert.statement {} {}).columns =
        some (.row ⟨[("title", .text "Lost"), ("number", .int 4), ("queue", .text "keys")]⟩) ∧
      update.statement {} {} = .settingEntity ticket [.value "title" (.text "Lost")]
        (.junction .and [.equal "queue" (.text "keys"), .equal "number" (.int 4)]) ∧
      (updating ticket ⟨[("queue", .text "keys")]⟩ []).result {} {} =
        .error (.misuse (.keyMissing "desk::Ticket" "number")) := by
  intro snapshot insert update
  have hw : Workshop.IsTrue [] [ticket] {} := Memo.isTrue_ofCatalog
  obtain ⟨hinsert, -, hupdate, -⟩ : insert.statement {} {} = _ ∧ _ ∧
      (_ → _ → update.statement {} {} = _ ∧ _) ∧ _ :=
    writes_entity (by decide) (by decide) hw
  obtain ⟨-, -, -, -, -, hmissing⟩ : _ ∧ _ ∧ _ ∧ _ ∧ _ ∧ ∀ key, _ = some key →
      (updating ticket ⟨[("queue", .text "keys")]⟩ []).result {} {} = _ :=
    writes_entity (by decide) (by decide) hw
  refine ⟨?_, (hupdate (by decide) (by decide)).1, hmissing _ rfl⟩
  rw [hinsert]
  rfl

end Program

end Cql
