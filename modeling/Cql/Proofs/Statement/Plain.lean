import Cql.Origin
import Cql.Predicate.Operator
import Cql.Proofs.Casing.Path

/-!
Plain statements. Their tables, columns, aliases and modifiers are paths of plain identifiers, also
those that come from entities; their operators are the standard ones; and they hold nothing as text
that is already written out. The entities that they may name and the values that they may hold are
parameters here.
-/

namespace Cql

theorem mem_of_lookup {α β : Type} [BEq α] [LawfulBEq α] {entries : List (α × β)} {a : α} {b : β}
    (h : entries.lookup a = some b) : (a, b) ∈ entries := by
  obtain ⟨before, after, rfl, -⟩ := List.lookup_eq_some_iff.mp h
  simp

/-- What `Operator.predicate` and the subqueries write between a column and its operands. -/
def standardOperators : List String :=
  ["=", "!=", ">", ">=", "<", "<=", "LIKE", "CONTAINS", "CONTAINS KEY", "IN", "NOT IN", "BETWEEN",
    "NOT BETWEEN"]

theorem inert_of_mem_standardOperators {operator : String} (h : operator ∈ standardOperators) :
    Inert operator := by
  have hall : ∀ o ∈ standardOperators, Inert o := by decide
  exact hall operator h

/-- A column that is plain is no text that is already written out. -/
theorem fragment?_eq_none {columns : List String} (h : ∀ c ∈ columns, IsPath c ∨ c = "*") :
    fragment? columns = none := by
  have hword : ∀ c ∈ columns, ' ' ∉ c.toList ∧ ',' ∉ c.toList := by
    intro c hc
    obtain hpath | rfl := h c hc
    · constructor
      · intro hmem
        exact absurd (hpath.isNameChar_of_mem hmem (by decide)) (by decide)
      · intro hmem
        exact absurd (hpath.isNameChar_of_mem hmem (by decide)) (by decide)
    · decide
  obtain _ | ⟨c, _ | _⟩ := columns
  · rfl
  · simp [fragment?, hword c (by simp)]
  · rfl

structure Field.IsPlain (f : Field) : Prop where
  name : IsPath f.name
  column : ∀ c ∈ f.column, IsPath c

structure Entity.IsPlain (e : Entity) : Prop where
  table : IsPath (e.table.getD e.name)
  fields : ∀ f ∈ e.fields, f.IsPlain

variable (known : Entity → Prop) (admits : Value → Prop)

def Target.IsPlain : Target → Prop
  | .table name => IsPath name
  | .entity e => known e

structure Selection.IsPlain (s : Selection) : Prop where
  columns : ∀ c ∈ s.columns, IsColumn c
  target : ∀ t ∈ s.target, t.IsPlain known

structure Row.IsPlain (row : Row) : Prop where
  names : ∀ entry ∈ row.entries, IsColumn entry.1
  values : ∀ entry ∈ row.entries, admits entry.2

namespace Predicate

mutual

def IsPlain : Predicate → Prop
  | .compare column operator value =>
    IsColumn column ∧ operator ∈ standardOperators ∧ admits value
  | .between column operator low high =>
    IsColumn column ∧ operator ∈ standardOperators ∧ admits low ∧ admits high
  | .among column operator values =>
    IsColumn column ∧ operator ∈ standardOperators ∧ ∀ v ∈ values, admits v
  | .negate inner => IsPlain inner
  | .junction _ parts => ArePlain parts
  | .amongText .. => False
  | .amongSelect column operator selection filter =>
    IsColumn column ∧ operator ∈ standardOperators ∧ selection.IsPlain known ∧
      IsPlainFilter filter
  | .raw _ => False

def ArePlain : List Predicate → Prop
  | [] => True
  | p :: ps => IsPlain p ∧ ArePlain ps

def IsPlainFilter : Option Predicate → Prop
  | none => True
  | some p => IsPlain p

end

end Predicate

def Columns.IsPlain : Columns → Prop
  | .names columns => ∀ c ∈ columns, IsColumn c
  | .aliased columns => ∀ c ∈ columns, IsColumn c.1 ∧ IsPath c.2
  | .row values => values.IsPlain admits
  | .rows list => ∀ r ∈ list, r.IsPlain admits

def Assignment.IsPlain : Assignment → Prop
  | .hole column => IsColumn column
  | .value column v => IsColumn column ∧ admits v
  | .raw _ => False

def Filter.IsPlain : Filter → Prop
  | .predicate p => p.IsPlain known admits
  | .raw _ => False

def Guard.IsPlain : Guard → Prop
  | .ifExists => True
  | .predicate p => p.IsPlain known admits
  | .raw _ => False

def OrderItem.IsPlain : OrderItem → Prop
  | .column name _ => IsColumn name
  | .raw _ => False

structure Statement.IsPlain (s : Statement) : Prop where
  target : ∀ t ∈ s.target, t.IsPlain known
  entity : ∀ e ∈ s.entity, known e
  columns : ∀ c ∈ s.columns, c.IsPlain admits
  modifier : ∀ words ∈ s.modifier, IsPath words
  assignments : ∀ a ∈ s.assignments, a.IsPlain admits
  filter : ∀ f ∈ s.filter, f.IsPlain known admits
  guard : ∀ g ∈ s.guard, g.IsPlain known admits
  order : ∀ o ∈ s.order, o.IsPlain

def Clause.IsPlain : Clause → Prop
  | .into target | .source target => target.IsPlain known
  | .setHoles columns => ∀ c ∈ columns, IsColumn c
  | .setValue column v => IsColumn column ∧ admits v
  | .setRow row => row.IsPlain admits
  | .setEntity e snapshot _ => known e ∧ ∀ entry ∈ snapshot.entries, admits entry.2
  | .filter p | .guard p => p.IsPlain known admits
  | .filterKeys values => ∀ v ∈ values, admits v
  | .order columns => ∀ c ∈ columns, IsColumn c.1
  | .setRaw _ | .filterRaw _ | .orderRaw _ | .guardRaw _ => False
  | .limit _ | .allowFiltering | .lifetime _ | .writeTime _ | .ifExists | .ifNotExists => True

def Origin.IsPlain : Origin → Prop
  | .insert columns | .select columns | .delete columns => ∀ c ∈ columns, IsColumn c
  | .insertRow row => row.IsPlain admits
  | .insertRows rows => ∀ row ∈ rows, row.IsPlain admits
  | .insertEntity e snapshot _ | .updateEntity e snapshot _ =>
    known e ∧ ∀ entry ∈ snapshot.entries, admits entry.2
  | .insertEntities e snapshots _ =>
    known e ∧ ∀ snapshot ∈ snapshots, ∀ entry ∈ snapshot.entries, admits entry.2
  | .selectAliased columns => ∀ c ∈ columns, IsColumn c.1 ∧ IsPath c.2
  | .selectWith modifier columns => IsPath modifier ∧ ∀ c ∈ columns, IsColumn c
  | .selectEntity e _ | .selectNested e _ | .updateType e | .deleteEntity e => known e
  | .update table | .deleteFrom table => IsPath table

section Decidable

variable {known : Entity → Prop} {admits : Value → Prop} [DecidablePred known]
  [DecidablePred admits]

instance : DecidablePred Field.IsPlain := fun f =>
  decidable_of_iff (IsPath f.name ∧ ∀ c ∈ f.column, IsPath c)
    ⟨fun h => ⟨h.1, h.2⟩, fun h => ⟨h.name, h.column⟩⟩

instance : DecidablePred Entity.IsPlain := fun e =>
  decidable_of_iff (IsPath (e.table.getD e.name) ∧ ∀ f ∈ e.fields, f.IsPlain)
    ⟨fun h => ⟨h.1, h.2⟩, fun h => ⟨h.table, h.fields⟩⟩

instance : DecidablePred (Target.IsPlain known)
  | .table name => inferInstanceAs (Decidable (IsPath name))
  | .entity e => inferInstanceAs (Decidable (known e))

instance : DecidablePred (Selection.IsPlain known) := fun s =>
  decidable_of_iff ((∀ c ∈ s.columns, IsColumn c) ∧ ∀ t ∈ s.target, t.IsPlain known)
    ⟨fun h => ⟨h.1, h.2⟩, fun h => ⟨h.columns, h.target⟩⟩

instance : DecidablePred (Row.IsPlain admits) := fun row =>
  decidable_of_iff
    ((∀ entry ∈ row.entries, IsColumn entry.1) ∧ ∀ entry ∈ row.entries, admits entry.2)
    ⟨fun h => ⟨h.1, h.2⟩, fun h => ⟨h.names, h.values⟩⟩

namespace Predicate

mutual

def decideIsPlain : ∀ p : Predicate, Decidable (p.IsPlain known admits)
  | .compare .. | .between .. | .among .. => inferInstanceAs (Decidable (_ ∧ _))
  | .negate inner => decideIsPlain inner
  | .junction _ parts => decideArePlain parts
  | .amongSelect _ _ _ filter =>
    have := decideIsPlainFilter filter
    inferInstanceAs (Decidable (_ ∧ _))
  | .amongText .. | .raw _ => instDecidableFalse

def decideArePlain : ∀ ps : List Predicate, Decidable (ArePlain known admits ps)
  | [] => instDecidableTrue
  | p :: ps =>
    have := decideIsPlain p
    have := decideArePlain ps
    inferInstanceAs (Decidable (_ ∧ _))

def decideIsPlainFilter : ∀ filter : Option Predicate, Decidable (IsPlainFilter known admits filter)
  | none => instDecidableTrue
  | some p => decideIsPlain p

end

instance : DecidablePred (IsPlain known admits) := decideIsPlain

end Predicate

instance : DecidablePred (Clause.IsPlain known admits)
  | .into target | .source target => inferInstanceAs (Decidable (target.IsPlain known))
  | .setHoles columns => inferInstanceAs (Decidable (∀ c ∈ columns, IsColumn c))
  | .setValue .. | .setEntity .. => inferInstanceAs (Decidable (_ ∧ _))
  | .setRow row => inferInstanceAs (Decidable (row.IsPlain admits))
  | .filter p | .guard p => inferInstanceAs (Decidable (p.IsPlain known admits))
  | .filterKeys values => inferInstanceAs (Decidable (∀ v ∈ values, admits v))
  | .order columns => inferInstanceAs (Decidable (∀ c ∈ columns, IsColumn c.1))
  | .setRaw _ | .filterRaw _ | .orderRaw _ | .guardRaw _ => instDecidableFalse
  | .limit _ | .allowFiltering | .lifetime _ | .writeTime _ | .ifExists | .ifNotExists =>
    instDecidableTrue

instance : DecidablePred (Origin.IsPlain known admits)
  | .insert columns | .select columns | .delete columns =>
    inferInstanceAs (Decidable (∀ c ∈ columns, IsColumn c))
  | .insertRow row => inferInstanceAs (Decidable (row.IsPlain admits))
  | .insertRows rows => inferInstanceAs (Decidable (∀ row ∈ rows, row.IsPlain admits))
  | .insertEntity .. | .updateEntity .. | .insertEntities .. | .selectWith .. =>
    inferInstanceAs (Decidable (_ ∧ _))
  | .selectAliased columns =>
    inferInstanceAs (Decidable (∀ c ∈ columns, IsColumn c.1 ∧ IsPath c.2))
  | .selectEntity e _ | .selectNested e _ | .updateType e | .deleteEntity e =>
    inferInstanceAs (Decidable (known e))
  | .update table | .deleteFrom table => inferInstanceAs (Decidable (IsPath table))

end Decidable

/-- The operators that an operator with its operands stands for are standard. -/
theorem Operator.isPlain_predicate {column : String} (h : IsColumn column) (o : Operator) :
    (o.predicate column).IsPlain known fun _ => True := by
  cases o <;> simp [Operator.predicate, Predicate.IsPlain, standardOperators, h]

end Cql
