import Cql.Proofs.Mapping.Search
import Cql.Proofs.Predicate.Flaw

/-!
Flaws and rendering. A predicate is rendered exactly if it has no flaw, and else the first flaw is
its error. So the subqueries of a statement that is rendered all have the style of the statement.
-/

namespace Cql

variable {style : Style} {scope : Scope} {p : Predicate}

/-- All subqueries were made for this style. -/
def Predicate.IsOfStyle (style : Style) (p : Predicate) : Prop :=
  ∀ column operator selection filter, .amongSelect column operator selection filter ∈ p.nodes →
    selection.style = style

def Filter.predicate? : Filter → Option Predicate
  | .predicate p => some p
  | .raw _ => none

def Guard.predicate? : Guard → Option Predicate
  | .predicate p => some p
  | .ifExists | .raw _ => none

/-- The predicates in the clauses that the operation has. -/
def Statement.predicates (s : Statement) : List Predicate :=
  let filter := (s.filter.bind Filter.predicate?).toList
  let guard := (s.guard.bind Guard.predicate?).toList
  match s.operation with
  | .insert => []
  | .select => filter
  | .update | .delete => filter ++ guard

namespace Predicate

theorem Flawless.isOfStyle {catalog : Catalog} {known : List Predicate → String → Prop}
    (h : Flawless catalog style known p.nodes) : p.IsOfStyle style := by
  intro column operator selection filter hmem
  obtain ⟨before, after, hnodes⟩ := List.append_of_mem hmem
  by_contra hstyle
  exact h before _ after hnodes _ (.subquery (.foreign hstyle))

/-- How rendering ends, told by the flaws. -/
theorem ends_pieces (style : Style) (scope : Scope) (p : Predicate) (s : Logged Memo) :
    Ends
      (fun _ => Flawless s.state.catalog style (s.state.Known style.casing) p.nodes)
      (FailsFirst s.state.catalog style (s.state.Known style.casing) p.nodes)
      ((p.pieces style scope).run s).1 := by
  have hruns := searches_pieces s.state.catalog style p scope s.state rfl s rfl
  revert hruns
  rcases (p.pieces style scope).run s with ⟨err | ps, t⟩
  · exact id
  · exact fun h => h.2.1

theorem ensures_isOfStyle (style : Style) (scope : Scope) (p : Predicate) :
    Resolving.Ensures (fun _ => True) (p.pieces style scope) fun _ => p.IsOfStyle style := by
  refine fun s _ => ⟨trivial, fun ps hps => ?_⟩
  have hends := ends_pieces style scope p s
  rw [hps] at hends
  exact hends.isOfStyle

end Predicate

namespace Statement

open Resolving (Ensures)

variable {s : Statement}

theorem ensures_isOfStyle_filter (style : Style) (scope : Scope) (s : Statement) :
    Ensures (fun _ => True) (s.filterPieces style scope) fun _ =>
      ∀ p ∈ s.filter.bind Filter.predicate?, p.IsOfStyle style := by
  rw [filterPieces]
  cases s.filter with
  | none => exact .pure (by simp)
  | some filter =>
    cases filter with
    | predicate p =>
      refine (p.ensures_isOfStyle style scope).bind fun _ h => .pure ?_
      rintro _ ⟨⟩
      exact h
    | raw text => exact (Ensures.any _).bind fun _ _ => .pure (by simp [Filter.predicate?])

theorem ensures_isOfStyle_guard (style : Style) (scope : Scope) (s : Statement) :
    Ensures (fun _ => True) (s.guardPieces style scope) fun _ =>
      ∀ p ∈ s.guard.bind Guard.predicate?, p.IsOfStyle style := by
  rw [guardPieces]
  cases s.guard with
  | none => exact .pure (by simp)
  | some guard =>
    cases guard with
    | ifExists => exact .pure (by simp [Guard.predicate?])
    | predicate p =>
      refine (p.ensures_isOfStyle style scope).bind fun _ h => .pure ?_
      rintro _ ⟨⟩
      exact h
    | raw text => exact (Ensures.any _).bind fun _ _ => .pure (by simp [Guard.predicate?])

/-- A statement that is rendered has no subquery of another style. -/
theorem ensures_isOfStyle (style : Style) (s : Statement) :
    Ensures (fun _ => True) (s.pieces style) fun _ => ∀ p ∈ s.predicates, p.IsOfStyle style := by
  rw [pieces, predicates]
  refine (Ensures.any _).bind fun scope _ => ?_
  cases s.operation with
  | insert => exact (Ensures.any _).mono fun _ _ => by simp
  | select =>
    simp only [selectPieces, Option.mem_toList]
    cases s.columns with
    | none => exact .throw
    | some columns =>
      refine (Ensures.any _).bind fun _ _ => (Ensures.any _).bind fun _ _ => ?_
      refine (ensures_isOfStyle_filter style scope s).bind fun _ hfilter => ?_
      exact (Ensures.any _).bind fun _ _ => .pure hfilter
  | update =>
    simp only [updatePieces, List.mem_append, Option.mem_toList]
    split
    · exact .throw_bind
    refine (Ensures.any _).bind fun _ _ => (Ensures.any _).bind fun _ _ => ?_
    refine (ensures_isOfStyle_filter style scope s).bind fun _ hfilter => ?_
    refine (ensures_isOfStyle_guard style scope s).bind fun _ hguard => .pure ?_
    exact fun p hp => hp.elim (hfilter p) (hguard p)
  | delete =>
    simp only [deletePieces, List.mem_append, Option.mem_toList]
    refine (Ensures.any _).bind fun _ _ => (Ensures.any _).bind fun _ _ => ?_
    refine (ensures_isOfStyle_filter style scope s).bind fun _ hfilter => ?_
    refine (ensures_isOfStyle_guard style scope s).bind fun _ hguard => .pure ?_
    exact fun p hp => hp.elim (hfilter p) (hguard p)

end Statement

namespace Predicate

/-- A predicate is rendered exactly if no node is flawed, and fails with the flaw of the first node
that is; of a type whose column map is known, no cycle is told. Where type names tell the entities
apart, every cycle is told. A statement that is rendered has no subquery of another style. -/
theorem pieces_firstFlaw (style : Style) (scope : Scope) (p : Predicate) (s : Logged Memo) :
    let catalog := s.state.catalog
    let known := s.state.Known style.casing
    let result := ((p.pieces style scope).run s).1
    ((∃ ps, result = .ok ps) ↔ Flawless catalog style known p.nodes) ∧
      (∀ err, result = .error err → FailsFirst catalog style known p.nodes err) ∧
      (∀ es, AreTold es → p.entities ⊆ es → s.state.IsTrue catalog es →
        ((∃ ps, result = .ok ps) ↔ Flawless catalog style (fun _ _ => False) p.nodes) ∧
          ∀ err, result = .error err → FailsFirst catalog style (fun _ _ => False) p.nodes err) ∧
      ∀ (st : Statement) ps, ((st.pieces style).run s).1 = .ok ps → p ∈ st.predicates →
        p.IsOfStyle style := by
  intro catalog known result
  have hends : Ends (fun _ => Flawless catalog style known p.nodes)
      (FailsFirst catalog style known p.nodes) result := ends_pieces style scope p s
  have hok : (∃ ps, result = .ok ps) ↔ Flawless catalog style known p.nodes := by
    generalize result = r at hends
    cases r with
    | ok ps => exact iff_of_true ⟨ps, rfl⟩ hends
    | error err => exact iff_of_false nofun hends.not_flawless
  have herror : ∀ err, result = .error err → FailsFirst catalog style known p.nodes err := by
    intro err herr
    rwa [herr] at hends
  refine ⟨hok, herror, fun es htold hentities hm => ?_, fun st ps hps hp => ?_⟩
  · have hsources : p.nodes.filterMap source? ⊆ es := by rwa [p.filterMap_nodes]
    refine ⟨hok.trans (flawless_iff_of_told htold hm hsources), fun err herr => ?_⟩
    exact (herror err herr).of_told htold hm hsources
  · exact (st.ensures_isOfStyle style s trivial).2 ps hps p hp

/-- A subquery on this entity in the WHERE of one on persons, after a text. -/
def amongPersons (e : Entity) : Predicate :=
  .junction .or [.raw "x = 1", .amongSelect "id" "IN" ⟨{}, ["id"], some (.entity Memo.person)⟩
    (some (.amongSelect "home.street" "IN" ⟨{}, ["street"], some (.entity e)⟩ none))]

/-- The cycle is met after the checks of the subquery around it. -/
theorem pieces_firstFlaw_nested :
    let catalog := [Memo.address, Memo.person, Memo.team, Memo.member]
    let err : Error := .cyclic ["crm::Team", "crm::Member", "crm::Team"]
    let nothing : List Predicate → String → Prop := fun _ _ => False
    (((amongPersons Memo.team).pieces {} ⟨.lowerUnderscore, none⟩).run ⟨{ catalog }, []⟩).1 =
        .error err ∧
      FailsFirst catalog {} nothing (amongPersons Memo.team).nodes err ∧
      Flawless catalog {} nothing (amongPersons Memo.address).nodes ∧
      (amongPersons Memo.address).IsOfStyle {} := by
  intro catalog err nothing
  have htold : AreTold catalog := by decide
  have hentities : ∀ e ∈ catalog, (amongPersons e).entities ⊆ catalog := by
    intro e he
    simpa [amongPersons, entities, partEntities, filterEntities, Selection.entities,
      Target.entities, catalog] using he
  have hfails : (((amongPersons Memo.team).pieces {} ⟨.lowerUnderscore, none⟩).run
      ⟨{ catalog }, []⟩).1 = .error err := by
    dsimp only [catalog, err]
    cbv
  obtain ⟨-, -, htells, -⟩ := pieces_firstFlaw {} ⟨.lowerUnderscore, none⟩ (amongPersons Memo.team)
    ⟨{ catalog }, []⟩
  obtain ⟨-, -, hrenders, hstyle⟩ := pieces_firstFlaw {} ⟨.lowerUnderscore, none⟩
    (amongPersons Memo.address) ⟨{ catalog }, []⟩
  refine ⟨hfails, ?_, ?_, ?_⟩
  · exact (htells catalog htold (hentities _ (by simp [catalog])) Memo.isTrue_ofCatalog).2 err hfails
  · refine (hrenders catalog htold (hentities _ (by simp [catalog])) Memo.isTrue_ofCatalog).1.mp ?_
    dsimp only [catalog]
    exact ⟨_, by cbv⟩
  · let selected : Statement := {
      operation := .select
      target := some (.table "t")
      columns := some (.names ["id"])
      filter := some (.predicate (amongPersons Memo.address)) }
    obtain ⟨ps, hps⟩ : ∃ ps, ((selected.pieces {}).run ⟨{ catalog }, []⟩).1 = .ok ps := by
      dsimp only [catalog, selected]
      exact ⟨_, by cbv⟩
    exact hstyle selected ps hps (List.mem_singleton_self _)

def yard : Entity where
  typeName := "crm::Place"
  name := "Depot"
  fields := [{ name := "street" }]

/-- Has the type name of a yard, and is held by itself. -/
def outlet : Entity where
  typeName := "crm::Place"
  name := "Shop"
  fields := [{ name := "owner", nested := some 1 }]

/-- The columns of the yard are kept under the type name of the outlet, whose cycle is not met. -/
theorem pieces_knows_namesake :
    let catalog := [yard, outlet]
    let p : Predicate := .junction .and
      [.amongSelect "a" "IN" ⟨{}, ["street"], some (.entity yard)⟩ none,
        .amongSelect "b" "IN" ⟨{}, ["owner"], some (.entity outlet)⟩ none]
    (∃ ps, ((p.pieces {} ⟨.lowerUnderscore, none⟩).run ⟨{ catalog }, []⟩).1 = .ok ps) ∧
      ¬ Flawless catalog {} (fun _ _ => False) p.nodes := by
  intro catalog p
  constructor
  · dsimp only [catalog, p]
    exact ⟨_, by cbv⟩
  · intro h
    have hnests : outlet.Nests catalog outlet := ⟨_, List.mem_singleton_self _, rfl, rfl⟩
    have hcycle : outlet.TellsCycle catalog (.cyclic ["crm::Place", "crm::Place"]) :=
      ⟨[outlet], .cons_cons hnests (.singleton _), rfl, ["crm::Place"], "crm::Place", rfl, by simp,
        by simp⟩
    have hflaw : Selection.IsFlawed catalog {} (fun _ => False)
        ⟨{}, ["owner"], some (.entity outlet)⟩ (.cyclic ["crm::Place", "crm::Place"]) :=
      .cyclic rfl rfl rfl not_false hcycle
    exact h (p.nodes.take 2) _ [] rfl _ (.subquery hflaw)

end Predicate

end Cql
