import Cql.Proofs.Statement.Cells
import Cql.Proofs.Statement.Plain

/-!
Settled predicates: the names in them are physical, and every junction has several parts. A plain
predicate over tables is rendered as its settled form says, which is a text with a question mark for
each value.
-/

namespace Cql

/-- Texts with a separator between them. -/
def listed (separator : List Char) : List (List Char) → List Char
  | [] => []
  | first :: others => first ++ others.flatMap (separator ++ ·)

theorem Piece.toList_separated (b : Binding) (separator : String) (items : List (List Piece)) :
    (textOf b (separated separator items)).toList =
      listed separator.toList (items.map fun item => (textOf b item).toList) := by
  fun_induction separated separator items with
  | case1 => rfl
  | case2 item => simp [listed]
  | case3 item next items ih => simp [ih, listed]

/-- The characters that names consist of. -/
def isPathChar (c : Char) : Bool := Token.isNameChar c || c == '.' || c == '*'

/-- A name as it stands in a text. -/
def IsSpelled (name : String) : Prop := ∀ c ∈ name.toList, isPathChar c

theorem IsPath.isSpelled {s : String} (h : IsPath s) : IsSpelled s := by
  intro c hc
  by_cases hdot : c = '.'
  · rw [hdot]
    rfl
  · simp [isPathChar, h.isNameChar_of_mem hc hdot]

theorem IsColumn.isSpelled {s : String} (h : IsColumn s) : IsSpelled s := by
  obtain h | rfl := h
  · exact h.isSpelled
  · intro c hc
    obtain rfl : c = '*' := by simpa using hc
    rfl

theorem Casing.isSpelled_physical (casing : Casing) {logical : String} (h : IsSpelled logical) :
    IsSpelled (casing.physical logical) := by
  intro c hc
  obtain rfl | hname | hmem := casing.mem_physical hc
  · rfl
  · simp [isPathChar, hname]
  · exact h c hmem

namespace Predicate

/-- A junction of these parts; a single part stands for itself. -/
def junctionOf (connective : Connective) : List Predicate → Predicate
  | [only] => only
  | parts => .junction connective parts

mutual

/-- The predicate with physical names and without junctions of a single part. -/
def settled (casing : Casing) : Predicate → Predicate
  | .compare column operator v => .compare (casing.physical column) operator v
  | .between column operator low high => .between (casing.physical column) operator low high
  | .among column operator values => .among (casing.physical column) operator values
  | .negate inner => .negate (settled casing inner)
  | .junction connective parts => junctionOf connective (settledParts casing parts)
  | .amongText column operator text => .amongText (casing.physical column) operator text
  | .amongSelect column operator selection filter =>
    .amongSelect (casing.physical column) operator
      { selection with columns := selection.columns.map casing.physical }
      (settledFilter casing filter)
  | .raw text => .raw text

def settledParts (casing : Casing) : List Predicate → List Predicate
  | [] => []
  | p :: ps => settled casing p :: settledParts casing ps

def settledFilter (casing : Casing) : Option Predicate → Option Predicate
  | none => none
  | some p => some (settled casing p)

end

/-- The column and the operator that a predicate starts with. -/
def stem? : Predicate → Option (String × String)
  | .compare column operator _ | .between column operator _ _ | .among column operator _
  | .amongText column operator _ | .amongSelect column operator _ _ => some (column, operator)
  | .negate _ | .junction .. | .raw _ => none

def stemChars (p : Predicate) : List Char :=
  match p.stem? with
  | none => []
  | some (column, operator) => column.toList ++ ' ' :: (operator.toList ++ [' '])

def tableChars : Option Target → List Char
  | some (.table name) => name.toList
  | _ => []

def selectionChars (selection : Selection) : List Char :=
  ['S', 'E', 'L', 'E', 'C', 'T', ' '] ++
    listed [',', ' '] (selection.columns.map String.toList) ++
      ([' ', 'F', 'R', 'O', 'M', ' '] ++ tableChars selection.target)

mutual

/-- What follows the column and the operator in the text of a settled predicate. -/
def body : Predicate → List Char
  | .compare .. => ['?']
  | .between .. => ['?', ' ', 'A', 'N', 'D', ' ', '?']
  | .among _ _ values => '(' :: listed [','] (values.map fun _ => ['?']) ++ [')']
  | .negate inner => ['N', 'O', 'T', ' ', '('] ++ (inner.stemChars ++ body inner) ++ [')']
  | .junction connective parts =>
    listed (' ' :: connective.word.toList ++ [' ']) (partChars parts)
  | .amongText _ _ text => '(' :: text.toList ++ [')']
  | .amongSelect _ _ selection filter =>
    '(' :: selectionChars selection ++ filterChars filter ++ [')']
  | .raw text => text.toList

def partChars : List Predicate → List (List Char)
  | [] => []
  | p :: ps => ('(' :: (p.stemChars ++ body p) ++ [')']) :: partChars ps

def filterChars : Option Predicate → List Char
  | none => []
  | some p => [' ', 'W', 'H', 'E', 'R', 'E', ' '] ++ (p.stemChars ++ body p)

end

/-- The text of a settled predicate. -/
def chars (p : Predicate) : List Char := p.stemChars ++ p.body

mutual

/-- The names are physical, the operators are standard, subqueries are complete, and every junction
has several parts. -/
def IsSettled (style : Style) : Predicate → Prop
  | .compare column operator _ | .between column operator _ _ | .among column operator _ =>
    IsSpelled column ∧ operator ∈ standardOperators
  | .negate inner => IsSettled style inner
  | .junction _ parts => 2 ≤ parts.length ∧ AreSettled style parts
  | .amongText .. => False
  | .amongSelect column operator selection filter =>
    IsSpelled column ∧ operator ∈ standardOperators ∧
      (∃ first others name, IsSpelled name ∧ (∀ c ∈ first :: others, IsSpelled c) ∧
        selection = ⟨style, first :: others, some (.table name)⟩) ∧
      IsSettledFilter style filter
  | .raw _ => False

def AreSettled (style : Style) : List Predicate → Prop
  | [] => True
  | p :: ps => IsSettled style p ∧ AreSettled style ps

def IsSettledFilter (style : Style) : Option Predicate → Prop
  | none => True
  | some p => IsSettled style p

end

/-- Settling a predicate keeps its values in order. -/
theorem operands_junctionOf (connective : Connective) (parts : List Predicate) :
    (junctionOf connective parts).operands = parts.flatMap operands := by
  unfold junctionOf
  split
  · simp
  · exact operands_junction connective _

mutual

theorem operands_settled (casing : Casing) : ∀ p : Predicate,
    (p.settled casing).operands = p.operands
  | .compare column operator v => by rw [settled, operands_compare, operands_compare]
  | .between column operator low high => by rw [settled, operands_between, operands_between]
  | .amongText .. | .raw _ => rfl
  | .among column operator values => by
    rw [settled, operands_among, operands_among]
  | .negate inner => by
    rw [settled, operands_negate, operands_negate, operands_settled casing inner]
  | .junction connective parts => by
    rw [settled, operands_junctionOf, operands_junction, operands_settledParts]
  | .amongSelect column operator selection filter => by
    rw [settled, operands_amongSelect, operands_amongSelect, operands_settledFilter]

theorem operands_settledParts (casing : Casing) : ∀ ps : List Predicate,
    (settledParts casing ps).flatMap operands = ps.flatMap operands
  | [] => rfl
  | p :: ps => by
    rw [settledParts, List.flatMap_cons, List.flatMap_cons, operands_settled casing p,
      operands_settledParts casing ps]

theorem operands_settledFilter (casing : Casing) : ∀ filter : Option Predicate,
    ((settledFilter casing filter).map operands).getD [] = (filter.map operands).getD []
  | none => rfl
  | some p => operands_settled casing p

end

section Plain

variable {known : Entity → Prop} {admits : Value → Prop}

mutual

theorem IsPlain.admits_operands : ∀ {p : Predicate}, p.IsPlain known admits →
    ∀ v ∈ p.operands, admits v
  | .compare .., h => by
    rw [operands_compare, List.forall_mem_singleton]
    exact h.2.2
  | .between .., h => by
    rw [operands_between, List.forall_mem_cons, List.forall_mem_singleton]
    exact h.2.2
  | .among .., h => by
    rw [operands_among]
    exact h.2.2
  | .negate inner, h => IsPlain.admits_operands (p := inner) h
  | .junction _ _, h => by
    rw [operands_junction, List.forall_mem_flatMap]
    exact ArePlain.admits_operands h
  | .amongSelect _ _ _ filter, h => by
    rw [operands_amongSelect]
    exact IsPlainFilter.admits_operands h.2.2.2

theorem ArePlain.admits_operands : ∀ {ps : List Predicate}, ArePlain known admits ps →
    ∀ p ∈ ps, ∀ v ∈ p.operands, admits v
  | [], _ => fun _ hp => by cases hp
  | _ :: _, h =>
    List.forall_mem_cons.mpr ⟨IsPlain.admits_operands h.1, ArePlain.admits_operands h.2⟩

theorem IsPlainFilter.admits_operands : ∀ {filter : Option Predicate},
    IsPlainFilter known admits filter → ∀ v ∈ (filter.map operands).getD [], admits v
  | none, _ => fun _ hv => by cases hv
  | some p, h => IsPlain.admits_operands (p := p) h

end

end Plain

/-- The predicate is about tables only and compares with values only. -/
abbrev IsTabular (p : Predicate) : Prop := p.IsPlain (fun _ => False) fun v => v.isExpr = false

end Predicate

open Resolving (Returns)

theorem Piece.written_ofValue {name : String} {v : Value} (h : v.isExpr = false) :
    written .positional (.ofValue name v) = "?" := by
  cases v with
  | expr text => simp [Value.isExpr] at h
  | _ => rfl

theorem Scope.written_name (b : Binding) (casing : Casing) (logical : String) :
    Piece.written b (name { casing } logical) = casing.physical logical := rfl

theorem Scope.toList_names (b : Binding) (casing : Casing) (columns : List String) :
    (Piece.textOf b (names { casing } columns)).toList =
      listed [',', ' '] ((columns.map casing.physical).map String.toList) := by
  rw [names, Piece.toList_separated, List.map_map, List.map_map]
  have hitem : ((fun item => (Piece.textOf b item).toList) ∘ fun column =>
      [name { casing } column]) = String.toList ∘ casing.physical := by
    funext column
    simp [written_name]
  rw [hitem]
  rfl

/-- The head of a subquery on a table. -/
theorem Selection.returns_opening {selection : Selection} (style : Style)
    (h : selection.IsPlain fun _ => False) : Returns (selection.opening style) fun opened =>
      opened.1 = { casing := style.casing } ∧
      ∃ first others name, IsPath name ∧
        selection = ⟨style, first :: others, some (.table name)⟩ ∧
        (Piece.textOf style.binding opened.2).toList = Predicate.selectionChars
          { selection with columns := selection.columns.map style.casing.physical } := by
  obtain ⟨own, columns, target⟩ := selection
  rw [opening]
  dsimp only
  by_cases hstyle : own = style
  · subst hstyle
    rw [if_neg (not_not_intro rfl)]
    cases target with
    | none => exact .throw
    | some target =>
      cases target with
      | entity e => exact (h.target _ rfl).elim
      | table name =>
        have hpath : IsPath name := h.target _ rfl
        cases columns with
        | nil => exact .throw
        | cons first others =>
          refine .pure ⟨rfl, first, others, name, hpath, rfl, ?_⟩
          rw [fragment?_eq_none h.columns]
          simp [Scope.toList_names, Predicate.selectionChars, Predicate.tableChars]
  · rw [if_pos hstyle]
    exact .throw_bind

namespace Predicate

theorem toList_memberPieces (b : Binding) (casing : Casing) (column operator : String)
    (inside : List Piece) :
    (Piece.textOf b (memberPieces { casing } column operator inside)).toList =
      (casing.physical column).toList ++ ' ' :: (operator.toList ++ [' ']) ++
        ('(' :: (Piece.textOf b inside).toList ++ [')']) := by
  simp [memberPieces, Scope.written_name]

theorem toList_valuePieces (column : String) {values : List Value}
    (h : ∀ v ∈ values, v.isExpr = false) :
    (Piece.textOf .positional (valuePieces column values)).toList =
      listed [','] (values.map fun _ => ['?']) := by
  rw [valuePieces, Piece.toList_separated, List.map_map]
  refine (congrArg (listed [',']) (List.map_congr_left (g := fun _ => ['?']) ?_)).trans ?_
  · rintro ⟨v, i⟩ hitem
    have hmem : v ∈ values := (List.mem_zipIdx' hitem).2 ▸ List.getElem_mem _
    simp [Piece.written_ofValue (h v hmem)]
  · rw [List.map_const', List.map_const', List.length_zipIdx]

theorem toList_parts {parts : List (List Piece)} {ns : List Predicate}
    (h : List.Forall₂ (fun part n => (Piece.textOf .positional part).toList = chars n) parts ns) :
    (parts.map fun part => (Piece.textOf .positional (.text "(" :: part ++ [.text ")"])).toList) =
      partChars ns := by
  induction h with
  | nil => rfl
  | @cons part n parts ns hpart _ ih =>
    rw [List.map_cons, partChars, ih]
    simp [hpart, chars]

/-- A junction is rendered in parentheses around each of its parts, if there are several. -/
theorem settled_junctionOf {style : Style} (connective : Connective) {parts : List (List Piece)}
    {ns : List Predicate}
    (hitems : List.Forall₂ (fun part n => (Piece.textOf .positional part).toList = chars n) parts ns)
    (hsettled : AreSettled style ns) (hne : ns ≠ []) :
    (Piece.textOf .positional (junctionPieces connective parts)).toList =
        (junctionOf connective ns).chars ∧ (junctionOf connective ns).IsSettled style := by
  have hchars := toList_parts hitems
  match hitems with
  | .nil => exact absurd rfl hne
  | .cons hpart .nil => exact ⟨hpart, hsettled.1⟩
  | .cons _ (.cons _ _) =>
    have hword : (" " ++ connective.word ++ " ").toList =
        ' ' :: connective.word.toList ++ [' '] := by simp
    refine ⟨?_, by simp, hsettled⟩
    simp only [junctionPieces]
    rw [Piece.toList_separated, List.map_map, hword]
    exact congrArg (listed _) hchars

mutual

theorem returns_settled (casing : Casing) : ∀ {p : Predicate}, p.IsTabular →
    Returns (p.pieces ⟨casing, .positional⟩ { casing }) fun ps =>
      (Piece.textOf .positional ps).toList = (p.settled casing).chars ∧
        (p.settled casing).IsSettled ⟨casing, .positional⟩
  | .compare column operator v, ⟨hcolumn, hoperator, hv⟩ => by
    have hname := casing.isSpelled_physical hcolumn.isSpelled
    refine .pure ⟨?_, hname, hoperator⟩
    simp [Piece.written_ofValue hv, Scope.written_name, settled, chars, stemChars, stem?, body]
  | .between column operator low high, ⟨hcolumn, hoperator, hlow, hhigh⟩ => by
    have hname := casing.isSpelled_physical hcolumn.isSpelled
    refine .pure ⟨?_, hname, hoperator⟩
    simp [Piece.written_ofValue hlow, Piece.written_ofValue hhigh, Scope.written_name, settled,
      chars, stemChars, stem?, body]
  | .among column operator values, ⟨hcolumn, hoperator, hvalues⟩ => by
    have hname := casing.isSpelled_physical hcolumn.isSpelled
    refine .pure ⟨?_, hname, hoperator⟩
    rw [toList_memberPieces, toList_valuePieces column hvalues]
    rfl
  | .negate inner, h => by
    refine (returns_settled casing (p := inner) h).bind fun inside hinside => .pure ⟨?_, hinside.2⟩
    simp [hinside.1, settled, chars, stemChars, stem?, body]
  | .junction connective [], h => .throw
  | .junction connective (_ :: _), h => by
    refine (returns_settledParts casing h).bind fun parts ⟨hitems, hsettled⟩ => .pure ?_
    rw [settled]
    exact settled_junctionOf connective hitems hsettled (by simp [settledParts])
  | .amongSelect column operator selection filter, ⟨hcolumn, hoperator, hselection, hfilter⟩ => by
    have hname := casing.isSpelled_physical hcolumn.isSpelled
    refine (selection.returns_opening _ hselection).bind fun (inner, head) hopened => ?_
    obtain ⟨rfl, first, others, name, hpath, rfl, htext⟩ := hopened
    refine (returns_settledFilter casing hfilter).bind fun closing hclosing => .pure ?_
    have hfirst : ∀ c ∈ (first :: others).map casing.physical, IsSpelled c := by
      intro c hc
      obtain ⟨d, hd, rfl⟩ := List.mem_map.mp hc
      exact casing.isSpelled_physical (hselection.columns d hd).isSpelled
    refine ⟨?_, hname, hoperator, ⟨_, _, name, hpath.isSpelled, hfirst, rfl⟩, hclosing.2⟩
    rw [toList_memberPieces, Piece.textOf_append, String.toList_append, htext, hclosing.1]
    rfl

theorem returns_settledParts (casing : Casing) : ∀ {ps : List Predicate},
    ArePlain (fun _ => False) (fun v => v.isExpr = false) ps →
    Returns (partPieces ⟨casing, .positional⟩ { casing } ps) fun parts =>
      List.Forall₂ (fun part n => (Piece.textOf .positional part).toList = chars n) parts
        (settledParts casing ps) ∧ AreSettled ⟨casing, .positional⟩ (settledParts casing ps)
  | [], _ => .pure ⟨.nil, trivial⟩
  | _ :: _, ⟨hp, hps⟩ =>
    (returns_settled casing hp).bind fun _ hfirst =>
      (returns_settledParts casing hps).bind fun _ hothers =>
        .pure ⟨.cons hfirst.1 hothers.1, hfirst.2, hothers.2⟩

theorem returns_settledFilter (casing : Casing) : ∀ {filter : Option Predicate},
    IsPlainFilter (fun _ => False) (fun v => v.isExpr = false) filter →
    Returns (filterPieces ⟨casing, .positional⟩ { casing } filter) fun ps =>
      (Piece.textOf .positional ps).toList = filterChars (settledFilter casing filter) ∧
        IsSettledFilter ⟨casing, .positional⟩ (settledFilter casing filter)
  | none, _ => by
    refine .pure ?_
    rw [settledFilter, IsSettledFilter]
    exact ⟨rfl, trivial⟩
  | some p, h => by
    rw [filterPieces, settledFilter, IsSettledFilter]
    have hp : p.IsTabular := h
    refine (returns_settled casing hp).bind fun inside hinside => .pure ⟨?_, hinside.2⟩
    simp [hinside.1, filterChars, chars]

end

end Predicate

end Cql
