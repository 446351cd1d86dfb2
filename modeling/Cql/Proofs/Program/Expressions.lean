import Cql.Proofs.Program.Reading

/-!
Expressions among the values of a program. An expression stands in the text in every style and is
never a parameter. A list is bound as one value, with the expressions in it.
-/

namespace Cql

namespace Program

variable {P : Program} {style : Style} {w : Workshop} {r : Rendered}

/-- The values of the statement that a program drafts, in the order of the text. -/
def given (P : Program) (style : Style) (w : Workshop) : List Value :=
  Place.values (P.statement style w).cells

/-- What is rendered is made of pieces that bear the cells of the statement. -/
theorem exists_bears (h : P.result style w = .ok r) :
    ∃ buffer ps, r = .ofPieces style.binding buffer ps ∧ P.outcome style w = .ok ps ∧
      Piece.Bears ps (P.statement style w).cells := by
  obtain ⟨ps, buffer, houtcome, hr⟩ := exists_outcome h
  exact ⟨buffer, ps, hr, houtcome, outcome_bears ps houtcome⟩

/-- Where values are bound, the parameters are the given values that are no expressions. -/
theorem parameters_eq_given (h : P.result style w = .ok r) :
    r.parameters =
      if style.binding = .literal then [] else (P.given style w).filter (!·.isExpr) := by
  obtain ⟨buffer, ps, rfl, -, hbears⟩ := exists_bears h
  split
  · rename_i hliteral
    rw [Rendered.ofPieces, hliteral]
    exact Piece.parametersOf_literal ps
  · rename_i hbinding
    exact hbears.parametersOf_eq hbinding

/-- Expressions stand in the text, in every style, and no parameter is one. Parameters hold no
expression at any depth unless a list that holds one is given and bound. -/
theorem expressions_inlined (h : P.result style w = .ok r) :
    Text.InOrder ((P.given style w).filterMap Value.expression?) r.text.toList ∧
    (∀ v ∈ r.parameters, v.isExpr = false) ∧
    ((∀ v ∈ r.parameters, v.hasExpr = false) ↔
      style.binding = .literal ∨ ∀ v ∈ P.given style w, v.hasExpr → v.isExpr) := by
  refine ⟨?_, ?_⟩
  · obtain ⟨buffer, ps, rfl, -, hbears⟩ := exists_bears h
    rw [Rendered.ofPieces, String.toList_append]
    exact (hbears.inOrder style.binding).append_left _
  rw [parameters_eq_given h]
  by_cases hliteral : style.binding = .literal
  · simp [hliteral]
  rw [if_neg hliteral]
  refine ⟨fun v hv => by simpa using (List.mem_filter.mp hv).2, ?_⟩
  constructor
  · intro hfree
    refine .inr fun v hv hexpr => ?_
    by_contra hbound
    rw [hfree v (List.mem_filter.mpr ⟨hv, by simpa using hbound⟩)] at hexpr
    cases hexpr
  · intro hgiven v hv
    obtain ⟨hmem, hbound⟩ := List.mem_filter.mp hv
    by_contra hexpr
    have hinlined := hgiven.resolve_left hliteral v hmem (by simpa using hexpr)
    simp [hinlined] at hbound

/-- Counts a visit and sets the tags of an account. -/
def tagging (tags : Value) : Program where
  origin := .update "accounts"
  clauses := [.setValue "visits" (.expr "visits + 1"), .setValue "tags" tags,
    .filter (.compare "id" "=" (.int 7))]

theorem expressions_inlined_tagging : ∃ r,
    (tagging (.list [.text "a", .list []])).result ⟨.lowerUnderscore, .named⟩ {} = .ok r ∧
    Text.InOrder ["visits + 1"] r.text.toList ∧ ∀ v ∈ r.parameters, v.hasExpr = false := by
  obtain ⟨htext, -, hfree⟩ := expressions_inlined
    (rfl : (tagging (.list [.text "a", .list []])).result ⟨.lowerUnderscore, .named⟩ {} = .ok _)
  exact ⟨_, rfl, htext, hfree.mpr (.inr (by decide))⟩

/-- A list is bound with the expression in it. -/
theorem expression_bound_in_list : ¬ ∀ (P : Program) (style : Style) (w : Workshop) (r : Rendered),
    P.result style w = .ok r → ∀ v ∈ r.parameters, v.hasExpr = false := by
  intro hall
  have hfree := hall (tagging (.list [.expr "now()"])) ⟨.lowerUnderscore, .positional⟩ {} _ rfl
    (.list [.expr "now()"]) List.mem_cons_self
  cases hfree

end Program

end Cql
