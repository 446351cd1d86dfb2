import Cql.Proofs.Program.Outcome

/-!
Values and the text. Unless literals are written, no value but an expression has a part in the text
that a program gives, in the number of its parameters or in its mistakes.
-/

namespace Cql

/-- Every value but an expression is blotted out. -/
def Value.masked : Value → Value
  | .expr s => .expr s
  | _ => .null

theorem Value.keepsExpressions_masked : KeepsExpressions masked where
  expr _ := rfl
  other v hv := by
    cases v with
    | expr text => simp [isExpr] at hv
    | null | bool | int | float | text | uuid | timestamp | blob | list => rfl

def Rendered.mapValues (f : Value → Value) (r : Rendered) : Rendered :=
  { r with parameters := r.parameters.map f }

namespace Piece

variable {b : Binding} {f : Value → Value}

theorem textOf_mapValue (hb : b ≠ .literal) (ps : List Piece) :
    textOf b (ps.map (mapValue f)) = textOf b ps := by
  have hwritten : ∀ p : Piece, written b (p.mapValue f) = written b p := by
    intro p
    cases p <;> cases b <;> first | rfl | exact absurd rfl hb
  simp [textOf, Function.comp_def, hwritten]

theorem parametersOf_mapValue (ps : List Piece) :
    parametersOf b (ps.map (mapValue f)) = (parametersOf b ps).map f := by
  have hparameter : ∀ p : Piece, parameter? b (p.mapValue f) = (parameter? b p).map f := by
    intro p
    cases p <;> cases b <;> rfl
  simp [parametersOf, List.filterMap_map, List.map_filterMap, hparameter]

end Piece

namespace Program

variable {P Q : Program} {style : Style} {w : Workshop} {f : Value → Value}

/-- The same calls with every value but the expressions blotted out. -/
def masked (P : Program) : Program := P.recast (.ofValues Value.masked)

/-- Other values make other parameters, and no other difference. -/
theorem result_ofValues (hbinding : style.binding ≠ .literal) (hf : KeepsExpressions f) :
    (P.recast (.ofValues f)).result style w = (P.result style w).map (Rendered.mapValues f) := by
  have hdraft : (P.recast (.ofValues f)).draft style =
      Draft.recast (.ofValues f) <$> P.draft style :=
    P.draft_recast style (.ofValues f) rfl
  have hbuffer : (((P.recast (.ofValues f)).draft style).run w).1.buffer =
      ((P.draft style).run w).1.buffer := by
    rw [hdraft]
    rfl
  rw [result_eq, result_eq, outcome_ofValues P style w hf, hbuffer]
  cases P.outcome style w with
  | error e => rfl
  | ok ps =>
    simp [Except.map, Rendered.ofPieces, Rendered.mapValues, Piece.textOf_mapValue hbinding,
      Piece.parametersOf_mapValue]

/-- Programs that differ in nothing but such values give the same text with as many parameters, or
they make the same mistake. -/
theorem result_of_masked_eq (hbinding : style.binding ≠ .literal) (h : P.masked = Q.masked) :
    (∃ e, P.result style w = .error e ∧ Q.result style w = .error e) ∨
    ∃ r r', P.result style w = .ok r ∧ Q.result style w = .ok r' ∧ r.text = r'.text ∧
      r.parameters.length = r'.parameters.length := by
  have hP := result_ofValues (P := P) (w := w) hbinding Value.keepsExpressions_masked
  have hQ := result_ofValues (P := Q) (w := w) hbinding Value.keepsExpressions_masked
  rw [masked, masked] at h
  rw [h, hQ] at hP
  cases hresultP : P.result style w with
  | error e =>
    cases hresultQ : Q.result style w with
    | error e' =>
      rw [hresultP, hresultQ] at hP
      obtain rfl : e' = e := by simpa [Except.map] using hP
      exact .inl ⟨e', rfl, rfl⟩
    | ok r' => simp [hresultP, hresultQ, Except.map] at hP
  | ok r =>
    cases hresultQ : Q.result style w with
    | error e' => simp [hresultP, hresultQ, Except.map] at hP
    | ok r' =>
      rw [hresultP, hresultQ] at hP
      have heq : r'.mapValues Value.masked = r.mapValues Value.masked := by
        simpa [Except.map] using hP
      have hlength := congrArg (fun r : Rendered => r.parameters.length) heq
      refine .inr ⟨r, r', rfl, rfl, (congrArg Rendered.text heq).symm, ?_⟩
      simpa [Rendered.mapValues] using hlength.symm

/-- Looks for users with a name and a mail address. -/
def looking (name mail : Value) : Program where
  origin := .select ["userId"]
  clauses := [.source (.table "users"), .filter (.junction .or
    [.compare "name" "=" name, .among "mail" "IN" [mail, .expr "current_mail()"]])]

theorem result_of_masked_eq_looking : ∃ r r',
    (looking (.text "ann") .null).result ⟨.lowerUnderscore, .named⟩ {} = .ok r ∧
    (looking (.text "'; DROP") (.int 0)).result ⟨.lowerUnderscore, .named⟩ {} = .ok r' ∧
    r.text = r'.text ∧ r.parameters.length = r'.parameters.length := by
  have hleft : (looking (.text "ann") .null).result ⟨.lowerUnderscore, .named⟩ {} = .ok _ := rfl
  rcases result_of_masked_eq (P := looking (.text "ann") .null)
    (Q := looking (.text "'; DROP") (.int 0)) (w := {})
    (by decide : (⟨.lowerUnderscore, .named⟩ : Style).binding ≠ .literal) rfl with ⟨e, he, -⟩ | h
  · rw [hleft] at he
    cases he
  · exact h

end Program

end Cql
