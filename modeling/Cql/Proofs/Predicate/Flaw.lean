import Mathlib.Data.List.Induction
import Cql.Proofs.Mapping.Lookup
import Cql.Proofs.Statement.Mistakes

/-!
What is wrong with a predicate. Its nodes are searched from left to right, each before the nodes
inside it; the first one with a flaw decides the error, and a predicate without flaws is rendered. A
subquery on an entity of a type whose column map is kept never meets a cycle, so what is kept before
each node is a part of the search.
-/

namespace Cql

open Resolving (Leads)

namespace Predicate

mutual

/-- The nodes of a predicate and of its subqueries, each before the nodes inside it. -/
def nodes : Predicate → List Predicate
  | .negate inner => .negate inner :: nodes inner
  | .junction connective parts => .junction connective parts :: partNodes parts
  | .amongSelect column operator selection filter =>
    .amongSelect column operator selection filter :: filterNodes filter
  | .compare column operator value => [.compare column operator value]
  | .between column operator low high => [.between column operator low high]
  | .among column operator values => [.among column operator values]
  | .amongText column operator text => [.amongText column operator text]
  | .raw text => [.raw text]

def partNodes : List Predicate → List Predicate
  | [] => []
  | p :: ps => nodes p ++ partNodes ps

def filterNodes : Option Predicate → List Predicate
  | none => []
  | some p => nodes p

end

end Predicate

def Target.entity? : Target → Option Entity
  | .table _ => none
  | .entity e => some e

/-- The entity that the subquery at a node reads. -/
def Predicate.source? : Predicate → Option Entity
  | .amongSelect _ _ selection _ => selection.target.bind Target.entity?
  | _ => none

/-- What is wrong with a subquery, where column maps of some types are kept. -/
inductive Selection.IsFlawed (catalog : Catalog) (style : Style) (known : String → Prop)
    (selection : Selection) : Error → Prop
  | foreign (hstyle : selection.style ≠ style) :
    IsFlawed catalog style known selection (.unsupported (.foreignSubquery selection.style style))
  | noTarget (hstyle : selection.style = style) (htarget : selection.target = none) :
    IsFlawed catalog style known selection (.lacking .subqueryTarget)
  | cyclic {target : Target} {e : Entity} {err : Error} (hstyle : selection.style = style)
    (htarget : selection.target = some target) (he : e ∈ target.entity?)
    (hnew : ¬ known e.typeName) (hcycle : e.TellsCycle catalog err) :
    IsFlawed catalog style known selection err
  | noColumns {target : Target} (hstyle : selection.style = style)
    (htarget : selection.target = some target)
    (hacyclic : ∀ e ∈ target.entity?, known e.typeName ∨ ¬ e.IsCyclic catalog)
    (hcolumns : selection.columns = []) :
    IsFlawed catalog style known selection (.lacking .subqueryColumns)

namespace Predicate

/-- What is wrong with a node. -/
inductive IsFlawed (catalog : Catalog) (style : Style) (known : String → Prop) :
    Predicate → Error → Prop
  | empty (connective : Connective) :
    IsFlawed catalog style known (.junction connective []) (.emptyJunction connective)
  | subquery {column operator : String} {selection : Selection} {filter : Option Predicate}
    {err : Error} (h : selection.IsFlawed catalog style known err) :
    IsFlawed catalog style known (.amongSelect column operator selection filter) err

/-- No node is flawed, given the types that are known after the nodes before it. -/
def Flawless (catalog : Catalog) (style : Style) (known : List Predicate → String → Prop)
    (nodes : List Predicate) : Prop :=
  ∀ before node after, nodes = before ++ node :: after →
    ∀ err, ¬ node.IsFlawed catalog style (known before) err

/-- The first node that is flawed has this flaw. -/
def FailsFirst (catalog : Catalog) (style : Style) (known : List Predicate → String → Prop)
    (nodes : List Predicate) (err : Error) : Prop :=
  ∃ before node after, nodes = before ++ node :: after ∧ Flawless catalog style known before ∧
    node.IsFlawed catalog style (known before) err

variable {catalog : Catalog} {style : Style} {known : List Predicate → String → Prop}
  {node : Predicate} {xs ys : List Predicate} {err : Error}

theorem Flawless.nil : Flawless catalog style known [] := by
  intro before node after h
  simp at h

theorem flawless_append : Flawless catalog style known (xs ++ ys) ↔
    Flawless catalog style known xs ∧
      Flawless catalog style (fun before => known (xs ++ before)) ys := by
  constructor
  · intro h
    constructor
    · rintro before node after rfl
      exact h before node (after ++ ys) (by simp)
    · rintro before node after rfl
      exact h (xs ++ before) node after (by simp)
  · rintro ⟨hxs, hys⟩ before node after h
    obtain ⟨later, rfl, hlater⟩ | ⟨early, rfl, hearly⟩ := List.append_eq_append_iff.mp h
    · exact hys later node after hlater
    · cases early with
      | nil => simpa using hys [] node after hearly.symm
      | cons x early =>
        obtain ⟨rfl, -⟩ := List.cons.inj hearly
        exact hxs before node early rfl

theorem flawless_concat : Flawless catalog style known (xs ++ [node]) ↔
    Flawless catalog style known xs ∧ ∀ err, ¬ node.IsFlawed catalog style (known xs) err := by
  rw [flawless_append]
  refine and_congr_right fun _ => ⟨fun h => by simpa using h [] node [] rfl, ?_⟩
  rintro h (_ | ⟨first, before⟩) other after hnode
  · obtain ⟨rfl, -⟩ := List.cons.inj hnode
    simpa using h
  · simp at hnode

namespace FailsFirst

theorem append_left (h : FailsFirst catalog style known xs err) (ys : List Predicate) :
    FailsFirst catalog style known (xs ++ ys) err := by
  obtain ⟨before, node, after, rfl, hbefore, hnode⟩ := h
  exact ⟨before, node, after ++ ys, by simp, hbefore, hnode⟩

theorem append_right (hxs : Flawless catalog style known xs)
    (h : FailsFirst catalog style (fun before => known (xs ++ before)) ys err) :
    FailsFirst catalog style known (xs ++ ys) err := by
  obtain ⟨before, node, after, rfl, hbefore, hnode⟩ := h
  exact ⟨xs ++ before, node, after, by simp, flawless_append.mpr ⟨hxs, hbefore⟩, hnode⟩

theorem not_flawless (h : FailsFirst catalog style known xs err) :
    ¬ Flawless catalog style known xs := by
  obtain ⟨before, node, after, rfl, -, hnode⟩ := h
  exact fun hall => hall before node after rfl err hnode

end FailsFirst

end Predicate

/-- A column map of the type is kept, or was looked up for one of the nodes. -/
def Memo.Known (m : Memo) (casing : Casing) (before : List Predicate) (name : String) : Prop :=
  m.Has casing name ∨ name ∈ typeNames (before.filterMap Predicate.source?)

theorem Memo.known_concat_iff {m : Memo} {casing : Casing} {before : List Predicate}
    {node : Predicate} {name : String} : m.Known casing (before ++ [node]) name ↔
      m.Known casing before name ∨ ∃ e ∈ node.source?, e.typeName = name := by
  cases hread : node.source? <;> simp [Known, typeNames, hread, or_assoc, eq_comm]

theorem Memo.known_nil_iff {m : Memo} {casing : Casing} {name : String} :
    m.Known casing [] name ↔ m.Has casing name := by
  simp [Known, typeNames]

theorem Scope.leads_ofEntity? (e? : Option Entity) (casing : Casing) (m : Memo) :
    Leads (· = m) (ofEntity? casing e?) (fun _ => Memo.LookedUp e? casing m)
      (Memo.MeetsCycle e? casing m) := by
  cases e? with
  | none =>
    refine .pure ?_
    rintro _ rfl
    exact ⟨rfl, nofun, by simp [typeNames]⟩
  | some e => exact (Memo.leads_columnsOf e casing m).bind fun _ => .pure fun _ h => h

theorem Target.leads_scope (target : Target) (casing : Casing) (m : Memo) :
    Leads (· = m)
      (Scope.ofEntity? casing <| match target with
        | .table _ => none
        | .entity e => some e)
      (fun _ => Memo.LookedUp target.entity? casing m)
      (Memo.MeetsCycle target.entity? casing m) := by
  cases target <;> exact Scope.leads_ofEntity? _ casing m

theorem Target.addsTables_tableName (target : Target) (casing : Casing) (s : Logged Memo) :
    Memo.AddsTables s.state (target.tableName casing s).2.state := by
  cases target with
  | table name => exact .refl
  | entity e => exact (Memo.addsTables_tablesOf e s).1

namespace Resolving

open Predicate

variable {α β : Type} {catalog : Catalog} {style : Style} {node : Predicate}
  {xs ys : List Predicate} {err : Error}

/-- A run tells the first flaw among these nodes, and keeps the column maps that they look up. -/
def Searches (catalog : Catalog) (style : Style) (nodes : List Predicate) (x : Resolving α) :
    Prop :=
  ∀ m : Memo, m.catalog = catalog → Leads (· = m) x
    (fun _ m' => m'.catalog = catalog ∧ Flawless catalog style (m.Known style.casing) nodes ∧
      m'.Known style.casing = fun before => m.Known style.casing (nodes ++ before))
    (FailsFirst catalog style (m.Known style.casing) nodes)

namespace Searches

variable {x : Resolving α}

theorem pure (a : α) : Searches catalog style [] (pure a) := by
  intro m hm
  refine .pure ?_
  rintro _ rfl
  exact ⟨hm, .nil, rfl⟩

theorem bind {next : α → Resolving β} (h : Searches catalog style xs x)
    (hnext : ∀ a, Searches catalog style ys (next a)) :
    Searches catalog style (xs ++ ys) (x >>= next) := by
  intro m hm
  refine Leads.bind ((h m hm).mono (fun _ h => h) (fun _ _ h => h) fun err herr =>
    herr.append_left ys) fun a => .given fun m' hm' => ?_
  obtain ⟨hcatalog, hflawless, hknown⟩ := hm'
  refine (hnext a m' hcatalog).mono (fun _ h => h) (fun _ m'' h => ?_) fun err herr => ?_
  · obtain ⟨hcatalog, hlater, hlearned⟩ := h
    rw [hknown] at hlater hlearned
    refine ⟨hcatalog, flawless_append.mpr ⟨hflawless, hlater⟩, ?_⟩
    rw [hlearned]
    funext before
    rw [List.append_assoc]
  · rw [hknown] at herr
    exact .append_right hflawless herr

theorem map {f : α → β} (h : Searches catalog style xs x) :
    Searches catalog style xs (x >>= fun a => Pure.pure (f a)) := by
  have hmap := h.bind fun a => pure (f a)
  rwa [List.append_nil] at hmap

/-- A node that cannot be flawed and reads nothing. -/
theorem cons (hsound : ∀ known err, ¬ node.IsFlawed catalog style known err)
    (hsource : node.source? = none) (h : Searches catalog style xs x) :
    Searches catalog style (node :: xs) x := by
  have hnode : Searches catalog style [node] (Pure.pure ()) := by
    intro m hm
    refine .pure ?_
    rintro _ rfl
    refine ⟨hm, ?_, ?_⟩
    · exact flawless_concat.mpr ⟨.nil, hsound _⟩
    · funext before name
      simp [Memo.Known, hsource]
  exact hnode.bind fun _ => h

theorem throw (h : ∀ known, node.IsFlawed catalog style known err) :
    Searches catalog style (node :: xs) (throw err : Resolving α) := by
  intro m _
  exact .throw fun _ _ => ⟨[], node, xs, rfl, .nil, h _⟩

/-- A subquery is checked for its style, its target, the columns of its entity and its own columns,
in this order. -/
theorem opening (column operator : String) (selection : Selection) (filter : Option Predicate) :
    Searches catalog style [.amongSelect column operator selection filter]
      (selection.opening style) := by
  rintro m rfl
  have hfails : ∀ {err}, selection.IsFlawed m.catalog style (m.Known style.casing []) err →
      FailsFirst m.catalog style (m.Known style.casing)
        [.amongSelect column operator selection filter] err :=
    fun h => ⟨[], _, [], rfl, .nil, .subquery h⟩
  obtain ⟨made, columns, target⟩ := selection
  rw [Selection.opening]
  by_cases hstyle : made = style
  · subst hstyle
    simp only [ne_eq, not_true_eq_false, if_false]
    cases target with
    | none => exact .throw fun _ _ => hfails (.noTarget rfl rfl)
    | some target =>
      refine .bind ((target.leads_scope made.casing m).mono (fun _ h => h) (fun _ _ h => h) ?_)
        fun scope => .given fun m' hm' => ?_
      · rintro err ⟨e, he, hnew, hcycle⟩
        exact hfails (.cyclic rfl rfl he (mt Memo.known_nil_iff.mp hnew) hcycle)
      have hacyclic : ∀ e ∈ target.entity?,
          m.Known made.casing [] e.typeName ∨ ¬ e.IsCyclic m.catalog :=
        fun e he => (hm'.acyclic e he).imp_left Memo.known_nil_iff.mpr
      split
      · rename_i hcolumns
        exact .throw_bind fun _ _ =>
          hfails (.noColumns rfl rfl hacyclic (List.isEmpty_iff.mp hcolumns))
      · rename_i hcolumns
        refine .bind (.step (Q := fun _ => Memo.LookedUp target.entity? made.casing m) ?_)
          fun table => .pure fun m'' hm'' => ⟨hm''.catalog, flawless_concat.mpr ⟨.nil, ?_⟩, ?_⟩
        · rintro s rfl
          exact hm'.addsTables (target.addsTables_tableName made.casing s)
        · rintro err (_ | ⟨hflaw⟩)
          cases hflaw with
          | foreign hstyle => exact hstyle rfl
          | noTarget _ htarget => cases htarget
          | cyclic _ htarget he hnew hcycle =>
            cases htarget
            exact (hacyclic _ he).elim hnew (absurd hcycle.isCyclic)
          | noColumns _ _ _ hnil => exact hcolumns (List.isEmpty_iff.mpr hnil)
        · funext before name
          cases hread : target.entity? <;>
            simp [Memo.Known, hm''.has_iff, hread, typeNames, source?, or_assoc]
  · simp only [ne_eq, hstyle, not_false_eq_true, if_true]
    exact .throw_bind fun _ _ => hfails (.foreign hstyle)

end Searches

end Resolving

namespace Predicate

open Resolving (Searches)

variable {catalog : Catalog} {style : Style}

mutual

theorem searches_pieces (catalog : Catalog) (style : Style) : ∀ (p : Predicate) (scope : Scope),
    Searches catalog style p.nodes (p.pieces style scope)
  | .compare .., _ => .cons nofun rfl (.pure _)
  | .between .., _ => .cons nofun rfl (.pure _)
  | .among .., _ => .cons nofun rfl (.pure _)
  | .negate inner, scope => .cons nofun rfl (searches_pieces catalog style inner scope).map
  | .junction _ [], _ => .throw fun _ => .empty _
  | .junction _ (p :: ps), scope =>
    .cons nofun rfl (searches_partPieces catalog style (p :: ps) scope).map
  | .amongText .., _ => .cons nofun rfl (.pure _)
  | .amongSelect column operator selection filter, _ =>
    (Searches.opening column operator selection filter).bind fun opened =>
      (searches_filterPieces catalog style filter opened.1).map
  | .raw _, _ => .cons nofun rfl (.pure _)

theorem searches_partPieces (catalog : Catalog) (style : Style) :
    ∀ (ps : List Predicate) (scope : Scope),
      Searches catalog style (partNodes ps) (partPieces style scope ps)
  | [], _ => .pure _
  | p :: ps, scope => (searches_pieces catalog style p scope).bind fun _ =>
    (searches_partPieces catalog style ps scope).map

theorem searches_filterPieces (catalog : Catalog) (style : Style) :
    ∀ (filter : Option Predicate) (scope : Scope),
      Searches catalog style (filterNodes filter) (filterPieces style scope filter)
  | none, _ => .pure _
  | some p, scope => (searches_pieces catalog style p scope).map

end

mutual

theorem filterMap_nodes : ∀ p : Predicate, p.nodes.filterMap source? = p.entities
  | .compare .. | .between .. | .among .. | .amongText .. | .raw _ => rfl
  | .negate inner => filterMap_nodes inner
  | .junction _ parts => filterMap_partNodes parts
  | .amongSelect _ _ ⟨_, _, none⟩ filter => filterMap_filterNodes filter
  | .amongSelect _ _ ⟨_, _, some (.table _)⟩ filter => filterMap_filterNodes filter
  | .amongSelect _ _ ⟨_, _, some (.entity e)⟩ filter =>
    congrArg (e :: ·) (filterMap_filterNodes filter)

theorem filterMap_partNodes :
    ∀ ps : List Predicate, (partNodes ps).filterMap source? = partEntities ps
  | [] => rfl
  | p :: ps => by
    rw [partNodes, List.filterMap_append, filterMap_nodes p, filterMap_partNodes ps, partEntities]

theorem filterMap_filterNodes :
    ∀ filter : Option Predicate, (filterNodes filter).filterMap source? = filterEntities filter
  | none => rfl
  | some p => filterMap_nodes p

end

theorem mem_source?_iff {node : Predicate} {e : Entity} : e ∈ node.source? ↔
    ∃ column operator selection filter target, node = .amongSelect column operator selection filter ∧
      selection.target = some target ∧ e ∈ target.entity? := by
  constructor
  · intro h
    cases node with
    | amongSelect column operator selection filter =>
      obtain ⟨target, htarget, he⟩ := Option.bind_eq_some_iff.mp h
      exact ⟨column, operator, selection, filter, target, rfl, htarget, he⟩
    | _ => cases h
  · rintro ⟨_, _, selection, _, target, rfl, htarget, he⟩
    rw [source?, htarget]
    exact he

/-- What is kept of types without cycles changes nothing. -/
theorem isFlawed_iff_of_acyclic {catalog : Catalog} {known : String → Prop} {node : Predicate}
    {err : Error} (h : ∀ e ∈ node.source?, known e.typeName → ¬ e.IsCyclic catalog) :
    node.IsFlawed catalog style known err ↔ node.IsFlawed catalog style (fun _ => False) err := by
  constructor
  · rintro (⟨connective⟩ | ⟨hflaw⟩)
    · exact .empty connective
    refine .subquery ?_
    cases hflaw with
    | foreign hstyle => exact .foreign hstyle
    | noTarget hstyle htarget => exact .noTarget hstyle htarget
    | cyclic hstyle htarget he _ hcycle => exact .cyclic hstyle htarget he not_false hcycle
    | noColumns hstyle htarget hacyclic hcolumns =>
      refine .noColumns hstyle htarget (fun e he => .inr ?_) hcolumns
      exact (hacyclic e he).elim (h e (mem_source?_iff.mpr ⟨_, _, _, _, _, rfl, htarget, he⟩)) id
  · rintro (⟨connective⟩ | ⟨hflaw⟩)
    · exact .empty connective
    refine .subquery ?_
    cases hflaw with
    | foreign hstyle => exact .foreign hstyle
    | noTarget hstyle htarget => exact .noTarget hstyle htarget
    | cyclic hstyle htarget he _ hcycle =>
      refine .cyclic hstyle htarget he (fun hknown => ?_) hcycle
      exact h _ (mem_source?_iff.mpr ⟨_, _, _, _, _, rfl, htarget, he⟩) hknown hcycle.isCyclic
    | noColumns hstyle htarget hacyclic hcolumns =>
      exact .noColumns hstyle htarget (fun e he => .inr ((hacyclic e he).resolve_left id)) hcolumns

end Predicate

/-- Each cycle is told by some error. -/
theorem Entity.IsCyclic.exists_tellsCycle {catalog : Catalog} {e : Entity}
    (h : e.IsCyclic catalog) : ∃ err, e.TellsCycle catalog err := by
  have hends := e.ends_leaves catalog
  cases hleaves : e.leaves catalog with
  | ok names =>
    rw [hleaves] at hends
    exact absurd h hends
  | error err =>
    rw [hleaves] at hends
    exact ⟨err, hends⟩

theorem Memo.IsTrue.not_isCyclic {catalog : Catalog} {es : List Entity} {m : Memo}
    (h : m.IsTrue catalog es) {e : Entity} (he : e ∈ es) {casing : Casing}
    (hhas : m.Has casing e.typeName) : ¬ e.IsCyclic catalog := by
  obtain ⟨kept, hkept⟩ := Option.isSome_iff_exists.mp hhas
  have hends := e.ends_leaves catalog
  rwa [h.columnMaps e he casing kept hkept] at hends

namespace Predicate

section Told

variable {catalog : Catalog} {es : List Entity} {style : Style} {m : Memo} {xs : List Predicate}
  {err : Error}

/-- Where type names tell the entities apart, only such without cycles are known after nodes
without flaws. -/
theorem not_isCyclic_of_known (htold : AreTold es) (hm : m.IsTrue catalog es)
    (hxs : xs.filterMap source? ⊆ es) (h : Flawless catalog style (m.Known style.casing) xs)
    {e : Entity} (he : e ∈ es) (hknown : m.Known style.casing xs e.typeName) :
    ¬ e.IsCyclic catalog := by
  induction xs using List.reverseRecOn generalizing e with
  | nil => exact hm.not_isCyclic he (Memo.known_nil_iff.mp hknown)
  | append_singleton xs node ih =>
    obtain ⟨hbefore, hnode⟩ := flawless_concat.mp h
    rw [List.filterMap_append] at hxs
    have hearlier : ∀ {e}, e ∈ es → m.Known style.casing xs e.typeName → ¬ e.IsCyclic catalog :=
      ih (List.append_subset.mp hxs).1 hbefore
    by_contra hcyclic
    have hnew : ¬ m.Known style.casing xs e.typeName := fun hold => hearlier he hold hcyclic
    obtain ⟨other, hother, hname⟩ := (Memo.known_concat_iff.mp hknown).resolve_left hnew
    have hmem : other ∈ es := (List.append_subset.mp hxs).2 (by simp [Option.mem_def.mp hother])
    obtain rfl : other = e := htold other hmem e he hname
    obtain ⟨_, _, selection, _, target, rfl, htarget, htells⟩ := mem_source?_iff.mp hother
    obtain ⟨err, hcycle⟩ := hcyclic.exists_tellsCycle
    by_cases hstyle : selection.style = style
    · exact hnode err (.subquery (.cyclic hstyle htarget htells hnew hcycle))
    · exact hnode _ (.subquery (.foreign hstyle))

/-- The next node is flawed as if nothing was known. -/
theorem isFlawed_iff_of_told (htold : AreTold es) (hm : m.IsTrue catalog es) {node : Predicate}
    (hxs : (xs ++ [node]).filterMap source? ⊆ es)
    (h : Flawless catalog style (m.Known style.casing) xs) :
    node.IsFlawed catalog style (m.Known style.casing xs) err ↔
      node.IsFlawed catalog style (fun _ => False) err := by
  rw [List.filterMap_append, List.append_subset] at hxs
  refine isFlawed_iff_of_acyclic fun e he hknown => ?_
  have hmem : e ∈ es := hxs.2 (by simp [Option.mem_def.mp he])
  exact not_isCyclic_of_known htold hm hxs.1 h hmem hknown

theorem flawless_iff_of_told (htold : AreTold es) (hm : m.IsTrue catalog es)
    (hxs : xs.filterMap source? ⊆ es) : Flawless catalog style (m.Known style.casing) xs ↔
      Flawless catalog style (fun _ _ => False) xs := by
  induction xs using List.reverseRecOn with
  | nil => exact iff_of_true .nil .nil
  | append_singleton xs node ih =>
    have hbefore : xs.filterMap source? ⊆ es := by
      rw [List.filterMap_append, List.append_subset] at hxs
      exact hxs.1
    rw [flawless_concat, flawless_concat, ← ih hbefore]
    refine and_congr_right fun h => forall_congr' fun err => not_congr ?_
    exact isFlawed_iff_of_told htold hm hxs h

theorem FailsFirst.of_told (htold : AreTold es) (hm : m.IsTrue catalog es)
    (hxs : xs.filterMap source? ⊆ es)
    (h : FailsFirst catalog style (m.Known style.casing) xs err) :
    FailsFirst catalog style (fun _ _ => False) xs err := by
  obtain ⟨before, node, after, rfl, hbefore, hnode⟩ := h
  have hsplit : before ++ node :: after = (before ++ [node]) ++ after := by simp
  rw [hsplit, List.filterMap_append, List.append_subset] at hxs
  have hnodes : before.filterMap source? ⊆ es := by
    rw [List.filterMap_append, List.append_subset] at hxs
    exact hxs.1.1
  refine ⟨before, node, after, rfl, (flawless_iff_of_told htold hm hnodes).mp hbefore, ?_⟩
  exact (isFlawed_iff_of_told htold hm hxs.1 hbefore).mp hnode

end Told

end Predicate

end Cql
