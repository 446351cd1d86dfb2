import Mathlib
import Cql.Mapping.Search
import Cql.Proofs.Mapping.Cycle

/-!
Searching for columns with a stack. Whatever fields hold, the search ends, leaves the stack as it
was, and gives what resolving the fields gives. So columns are given unless nested fields lead to a
cycle, then the cycle is told, and no columns are kept.
-/

namespace Cql.Memo

variable {α β : Type} {stack : List String} {catalog : Catalog} {e : Entity} {depth : Nat}

/-- From this stack a search ends as a computation without one does, and leaves the stack as it
was. -/
def EndsAs (stack : List String) (x : Searching α) (y : Resolving α) : Prop :=
  x.run stack = ExceptT.mk fun s => some ((y.run s).1.map (·, stack), (y.run s).2)

namespace EndsAs

theorem run_eq {x : Searching α} {y : Resolving α} (h : EndsAs stack x y) (s : Logged Memo) :
    (x.run stack).run s = some ((y.run s).1.map (·, stack), (y.run s).2) := congrFun h s

theorem pure {a : α} : EndsAs stack (pure a) (pure a) := rfl

theorem step {step : Step Memo α} : EndsAs stack (Searching.step step) (liftM step) := rfl

theorem bind {x : Searching α} {y : Resolving α} {next : α → Searching β} {next' : α → Resolving β}
    (h : EndsAs stack x y) (hnext : ∀ a, EndsAs stack (next a) (next' a)) :
    EndsAs stack (x >>= next) (y >>= next') := by
  rw [EndsAs, StateT.run_bind, h, ExceptT.run_bind]
  funext s
  simp only [Bind.bind, ExceptT.bind, ExceptT.mk, StateT.bind]
  rcases y.run s with ⟨result, t⟩
  cases result with
  | ok a => exact congrFun (hnext a) t
  | error err => rfl

theorem throw_bind {x : Searching α} {err : Error} {next : α → Searching β}
    {next' : α → Resolving β} (h : EndsAs stack x (MonadExcept.throw err)) :
    EndsAs stack (x >>= next) (MonadExcept.throw err >>= next') := by
  rw [EndsAs, StateT.run_bind, h]
  rfl

end EndsAs

theorem search_of_mem (casing : Casing) (h : e.typeName ∈ stack) :
    (search catalog casing (depth + 1) e).run stack = throw (.cyclic (stack ++ [e.typeName])) := by
  rw [search]
  change (if e.typeName ∈ stack then _ else _ : Searching _) stack = _
  rw [if_pos h]
  rfl

/-- What a call pushes it pops again. -/
theorem endsAs_search {casing : Casing} {y : Resolving (List (String × String))}
    (h : e.typeName ∉ stack)
    (hloop : EndsAs (stack ++ [e.typeName])
      ((e.fields.filter (!·.isTransient)).foldlM
        (extend catalog casing (search catalog casing depth)) []) (([] ++ ·) <$> y)) :
    EndsAs stack (search catalog casing (depth + 1) e) y := by
  simp only [List.nil_append, id_map'] at hloop
  rw [EndsAs, search]
  change (if e.typeName ∈ stack then _ else _ : Searching _) stack = _
  rw [if_neg h]
  have hpop : StateT.run ((e.fields.filter (!·.isTransient)).foldlM
      (extend catalog casing (search catalog casing depth)) [] >>=
      fun entries => do modify List.dropLast; return entries) (stack ++ [e.typeName]) =
      (do let (entries, pushed) ← ExceptT.mk fun s =>
            some ((y.run s).1.map (·, stack ++ [e.typeName]), (y.run s).2)
          return (entries, pushed.dropLast)) := by
    rw [StateT.run_bind, hloop]
    rfl
  refine Eq.trans hpop (funext fun s => ?_)
  simp only [Bind.bind, ExceptT.bind, ExceptT.mk, StateT.bind]
  rcases y.run s with ⟨result, t⟩
  cases result with
  | ok entries =>
    change some (Except.ok (entries, (stack ++ [e.typeName]).dropLast), t) = _
    rw [List.dropLast_concat]
    rfl
  | error err => rfl

/-- A call goes no deeper than there are entities that the walk has not come by. -/
theorem endsAs_foldlM (casing : Casing) (walk : List String) (fields : List Field)
    (own : List (String × String)) (depth : Nat) (hdepth : unvisited catalog walk < depth) :
    EndsAs walk
      ((fields.filter (!·.isTransient)).foldlM
        (extend catalog casing (search catalog casing depth)) own)
      ((own ++ ·) <$> resolveFields catalog casing walk fields) := by
  -- The fields after the first one add their entries behind its own.
  have hjoin : ∀ (own first : List (String × String)) (others : Resolving (List (String × String))),
      (own ++ ·) <$> (do let first ← pure first; let entries ← others; return first ++ entries) =
        (own ++ first ++ ·) <$> others := by
    intro own first others
    simp
  fun_induction resolveFields catalog casing walk fields generalizing own depth with
  | case1 =>
    rw [map_pure, List.append_nil]
    exact .pure
  | case2 walk f fs _ htransient ih =>
    rw [List.filter_cons_of_neg (by simp [htransient]), hjoin, List.append_nil]
    exact ih own depth hdepth
  | case3 walk f fs _ htransient hnested ih =>
    rw [List.filter_cons_of_pos (by simpa using htransient), List.foldlM_cons, hjoin, extend,
      hnested, pure_bind]
    exact ih (own ++ [(f.name, f.physical casing)]) depth hdepth
  | case4 walk f fs _ htransient i hnested hmissing ih =>
    rw [List.filter_cons_of_pos (by simpa using htransient), List.foldlM_cons, hjoin, extend,
      hnested]
    simp only [hmissing, pure_bind, List.append_nil]
    exact ih own depth hdepth
  | case5 walk f fs _ htransient i hnested sub hsub ihothers ihsub =>
    rw [List.filter_cons_of_pos (by simpa using htransient), List.foldlM_cons, extend, hnested]
    simp only [hsub, bind_assoc, map_bind]
    refine EndsAs.step.bind fun tables => ?_
    obtain ⟨deeper, rfl⟩ := Nat.exists_eq_succ_of_ne_zero (Nat.ne_zero_of_lt hdepth)
    split
    · rename_i hback
      rw [map_bind]
      exact EndsAs.throw_bind (search_of_mem casing hback)
    · rename_i hnew
      rw [map_bind]
      have hfewer := unvisited_concat_lt (List.mem_of_getElem? hsub) hnew
      have hcall := endsAs_search hnew (ihsub hnew [] deeper (by omega))
      refine hcall.bind fun entries => ?_
      have hothers := ihothers (own ++ entries.map (ColumnMap.qualify f.name (tables.get casing)))
        (deeper + 1) hdepth
      rw [← hjoin] at hothers
      rw [pure_bind]
      exact hothers

/-- From an empty stack a search ends as resolving the fields does, with an empty stack. Besides the
first call and one that comes back, there is one for each entity of the catalog at most. -/
theorem endsAs_search_nil (casing : Casing) (e : Entity) (hdepth : catalog.length + 1 < depth) :
    EndsAs [] (search catalog casing depth e)
      (resolveFields catalog casing [e.typeName] e.fields) := by
  obtain ⟨deeper, rfl⟩ := Nat.exists_eq_succ_of_ne_zero (Nat.ne_zero_of_lt hdepth)
  have hunvisited : unvisited catalog [e.typeName] ≤ catalog.length := List.countP_le_length
  exact endsAs_search List.not_mem_nil
    (endsAs_foldlM casing [e.typeName] e.fields [] deeper (by omega))

section Columns

variable {casing : Casing}

theorem ensures_columnMaps_tablesOf (maps : List ((String × Casing) × Stamped ColumnMap))
    (sub : Entity) : Step.Ensures (·.columnMaps = maps) (tablesOf sub) fun _ => True := by
  refine Step.Ensures.current.bind fun m hm => ?_
  split
  · exact .pure trivial
  · refine (Step.Ensures.put ?_).bind fun _ _ => .pure trivial
    exact hm

/-- The columns that are made on a memo that keeps nothing, or the cycle that they fail on. -/
inductive Made (catalog : Catalog) (casing : Casing) (e : Entity) :
    Except Error (List (String × String)) × Logged Memo →
    Except Error (Stamped ColumnMap) × Logged Memo → Prop
  | ok {entries : List (String × String)} {t : Logged Memo} {kept : Stamped ColumnMap}
    {t' : Logged Memo} : kept.value = { entries } → ¬ e.IsCyclic catalog →
    Made catalog casing e (.ok entries, t) (.ok kept, t')
  | error {err : Error} {t : Logged Memo} : e.TellsCycle catalog err → t.state.columnMaps = [] →
    Made catalog casing e (.error err, t) (.error err, t)

theorem made_columnsOf (catalog : Catalog) (casing : Casing) (e : Entity) :
    Made catalog casing e
      ((resolveFields catalog casing [e.typeName] e.fields).run ⟨{ catalog }, []⟩)
      ((columnsOf e casing).run ⟨{ catalog }, []⟩) := by
  have hwalk : [e.typeName].Nodup := by simp
  have hsettles : Resolving.Settles (·.columnMaps = [])
      (resolveFields catalog casing [e.typeName] e.fields) _ _ :=
    settles_resolveFields (ensures_columnMaps_tablesOf []) casing hwalk e.fields
  have hresult := hsettles ⟨{ catalog }, []⟩ rfl
  change Made catalog casing e _
    ((resolveFields catalog casing [e.typeName] e.fields >>= _ : Resolving _).run ⟨{ catalog }, []⟩)
  rw [ExceptT.run_bind]
  simp only [Bind.bind, StateT.bind]
  revert hresult
  rcases (resolveFields catalog casing [e.typeName] e.fields).run ⟨{ catalog }, []⟩ with ⟨result, t⟩
  rintro ⟨hmaps, hends⟩
  cases result with
  | ok entries => exact .ok rfl (Entity.endsAll_iff.mp hends)
  | error err => exact .error (.of_fields hends) hmaps

/-- Columns are only made of an entity whose nested fields lead to no cycle. -/
theorem not_isCyclic_of_ok {γ : Type} {f : Stamped ColumnMap → γ} {c : γ}
    (h : ((columnsOf e casing).run ⟨{ catalog }, []⟩).1.map f = .ok c) : ¬ e.IsCyclic catalog := by
  have hmade := made_columnsOf catalog casing e
  generalize (resolveFields catalog casing [e.typeName] e.fields).run ⟨{ catalog }, []⟩ =
    resolved at hmade
  generalize (columnsOf e casing).run ⟨{ catalog }, []⟩ = made at h hmade
  cases hmade with
  | ok _ hacyclic => exact hacyclic
  | error => cases h

end Columns

open Relation (ReflTransGen TransGen)

/-- On a memo that keeps nothing, the search with a stack ends once its calls may stand in one
another as often as there are entities and twice more, and it ends as the columns are given or not.
They are not given exactly if some walk from the entity comes by a type name twice. The error then
tells such a walk, up to the first name that it comes back to, and no columns are kept. So where
type names tell the entities apart, the columns are given if no entity that can be reached can
reach itself, however many fields lead to it. -/
theorem columnsOf_ends (catalog : Catalog) (e : Entity) (casing : Casing) :
    let made := (columnsOf e casing).run ⟨{ catalog }, []⟩
    (∃ t, ∀ depth > catalog.length + 1, ((search catalog casing depth e).run []).run
      ⟨{ catalog }, []⟩ = some (made.1.map fun kept => (kept.value.entries, []), t)) ∧
    ((∃ err, made.1 = .error err) ↔ e.IsCyclic catalog) ∧
    (∀ err, made.1 = .error err → e.TellsCycle catalog err ∧ made.2.state.columnMaps = []) ∧
    (AreTold (e :: catalog) →
      (∀ sub, ReflTransGen (Entity.Nests catalog) e sub →
        ¬ TransGen (Entity.Nests catalog) sub sub) →
      ∃ kept, made.1 = .ok kept) := by
  intro made
  have hsearch := fun depth (hdepth : depth > catalog.length + 1) =>
    (endsAs_search_nil casing e hdepth).run_eq ⟨{ catalog }, []⟩
  have hmade := made_columnsOf catalog casing e
  change Made catalog casing e _ made at hmade
  clear_value made
  generalize (resolveFields catalog casing [e.typeName] e.fields).run ⟨{ catalog }, []⟩ =
    resolved at hsearch hmade
  cases hmade with
  | @ok entries t kept t' hkept hacyclic =>
    refine ⟨⟨t, fun depth hdepth => ?_⟩, ⟨nofun, fun hcyclic => absurd hcyclic hacyclic⟩, nofun,
      fun _ _ => ⟨kept, rfl⟩⟩
    rw [hsearch depth hdepth]
    change some (Except.ok (entries, []), t) = some (Except.ok (kept.value.entries, []), t)
    rw [hkept]
  | @error err t htells hmaps =>
    refine ⟨⟨t, hsearch⟩, iff_of_true ⟨err, rfl⟩ htells.isCyclic, ?_, fun htold hacyclic => ?_⟩
    · rintro _ ⟨⟩
      exact ⟨htells, hmaps⟩
    · obtain ⟨sub, hreach, hcycle⟩ := (Entity.isCyclic_iff htold).mp htells.isCyclic
      exact absurd hcycle (hacyclic sub hreach)

def address : Entity where
  typeName := "crm::Address"
  name := "Address"
  fields := [{ name := "street" }]

/-- Lives and works at addresses. -/
def person : Entity where
  typeName := "crm::Person"
  name := "Person"
  fields := [{ name := "home", nested := some 0 }, { name := "office", nested := some 0 }]

def team : Entity where
  typeName := "crm::Team"
  name := "Team"
  fields := [{ name := "lead", nested := some 3 }]

/-- Belongs to a team, whose lead is a member. -/
def member : Entity where
  typeName := "crm::Member"
  name := "Member"
  fields := [{ name := "home", nested := some 0 }, { name := "team", nested := some 2 }]

/-- Two ways to an address are no cycle, a team whose lead is a member is one. -/
theorem columnsOf_ends_diamond :
    let catalog := [address, person, team, member]
    let columns (e : Entity) := (columnsOf e .lowerUnderscore).run ⟨{ catalog }, []⟩
    (columns person).1.map (·.value.logicalNames) = .ok ["home.street", "office.street"] ∧
      ¬ person.IsCyclic catalog ∧
      (columns member).1 = .error (.cyclic ["crm::Member", "crm::Team", "crm::Member"]) ∧
      member.IsCyclic catalog ∧ (columns member).2.state.columnMaps = [] := by
  intro catalog columns
  have hperson : (columns person).1.map (·.value.logicalNames) =
      .ok ["home.street", "office.street"] := by
    dsimp only [columns, catalog]
    cbv
  have hmember : (columns member).1 =
      .error (.cyclic ["crm::Member", "crm::Team", "crm::Member"]) := by
    dsimp only [columns, catalog]
    cbv
  obtain ⟨-, hfails, -⟩ := columnsOf_ends catalog person .lowerUnderscore
  obtain ⟨-, hfails', htells, -⟩ := columnsOf_ends catalog member .lowerUnderscore
  refine ⟨hperson, fun hcyclic => ?_, hmember, hfails'.mp ⟨_, hmember⟩, (htells _ hmember).2⟩
  obtain ⟨err, herr⟩ := hfails.mpr hcyclic
  rw [show (columns person).1 = .error err from herr] at hperson
  cases hperson

end Cql.Memo
