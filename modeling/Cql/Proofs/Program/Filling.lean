import Cql.Proofs.Program.Reading

/-!
Literals in place of question marks. A plain program that leaves no column without a value gives the
same text with literals as it gives with question marks, once each question mark is replaced by the
literal of its parameter.
-/

namespace Cql

namespace Token

/-- The text of tokens, with literals in place of the question marks as long as there are some. -/
def fill : List Token → List (List Char) → List Char
  | [], _ => []
  | t :: ts, [] => t.chars ++ fill ts []
  | t :: ts, literal :: literals =>
    if t.kind = .positional then literal ++ fill ts literals
    else t.chars ++ fill ts (literal :: literals)

/-- As `fill`, in the gaps of a skeleton. -/
def Skeleton.fill : Skeleton → List (List Char) → List Char
  | [], _ => []
  | some c :: sk, literals => c :: fill sk literals
  | none :: sk, [] => '?' :: fill sk []
  | none :: sk, literal :: literals => literal ++ fill sk literals

theorem Skeleton.fill_append (cs : List Char) (sk : Skeleton) (literals : List (List Char)) :
    fill (cs.map some ++ sk) literals = cs ++ fill sk literals := by
  induction cs with
  | nil => rfl
  | cons c cs ih => simp [fill, ih]

variable {ts : List Token}

theorem countP_positional (hkind : ∀ t ∈ ts, t.isPlaceholder → t.kind = .positional) :
    ts.countP (·.kind = .positional) = (skeleton ts).count none := by
  rw [← countP_isPlaceholder]
  refine List.countP_congr fun t ht => ?_
  rw [decide_eq_true_iff]
  exact ⟨fun h => by simp [isPlaceholder, h], hkind t ht⟩

theorem isPositional_of_dialect {t : Token} (hplace : t.isPlaceholder)
    (h : ∀ d ∈ Query.dialect? t, d = .mark) : t.kind = .positional := by
  obtain ⟨kind, chars⟩ := t
  cases kind <;> simp_all [isPlaceholder, Query.dialect?]

/-- With as many literals as gaps, tokens are filled as their skeleton is. -/
theorem fill_eq (hkind : ∀ t ∈ ts, t.isPlaceholder → t.kind = .positional)
    {literals : List (List Char)} (hlength : (skeleton ts).count none = literals.length) :
    fill ts literals = (skeleton ts).fill literals := by
  induction ts generalizing literals with
  | nil => rfl
  | cons t ts ih =>
    have hkinds : ∀ u ∈ ts, u.isPlaceholder → u.kind = .positional :=
      fun u hu => hkind u (by simp [hu])
    rw [skeleton_cons, List.count_append, count_bones] at hlength
    cases hplace : t.isPlaceholder with
    | true =>
      have hpositional := hkind t (by simp) hplace
      rw [hplace, if_pos rfl] at hlength
      cases literals with
      | nil => simp at hlength
      | cons literal literals =>
        have hcount : (skeleton ts).count none = literals.length := by
          rw [List.length_cons] at hlength
          omega
        simp [fill, hpositional, bones, hplace, Skeleton.fill, ih hkinds hcount]
    | false =>
      have hother : t.kind ≠ .positional := by
        intro hkind
        simp [isPlaceholder, hkind] at hplace
      rw [hplace, if_neg (by decide), Nat.zero_add] at hlength
      rw [skeleton_cons, bones_eq hplace, Skeleton.fill_append, ← ih hkinds hlength]
      cases literals <;> simp [fill, hother]

end Token

namespace Piece

/-- The gaps of pieces without unbound places are filled by the literals of the parameters. -/
theorem fill_bones {ps : List Piece} (h : (places ps).countP Place.isUnbound = 0) :
    Token.Skeleton.fill (ps.flatMap (bones .positional))
      ((parametersOf .positional ps).map Value.literalChars) = (textOf .literal ps).toList := by
  induction ps with
  | nil => rfl
  | cons p ps ih =>
    rw [places_cons, List.countP_append] at h
    have hrest := ih (by omega)
    cases p with
    | text s =>
      rw [textOf_cons, String.toList_append, ← hrest]
      exact Token.Skeleton.fill_append _ _ _
    | value name v =>
      rw [textOf_cons, String.toList_append, ← hrest]
      simp [bones, parametersOf, parameter?, Token.Skeleton.fill, written, Value.literal]
    | hole name => simp [places, place?, Place.isUnbound] at h

end Piece

namespace Program

variable {P : Program} {w : Workshop}

theorem unbound_recast (P : Program) (r : Recast) : (P.recast r).unbound = P.unbound := by
  have horigin : (P.origin.recast r).unbound = P.origin.unbound := by cases P.origin <;> rfl
  have hclause : ∀ clause : Clause, (clause.recast r).unbound = clause.unbound := by
    intro clause
    cases clause <;> rfl
  simp [unbound, recast, horigin, hclause, List.foldl_map]

/-- With literals a plain program gives the text that it gives with question marks, each filled by
the literal of its parameter, or it makes the same mistake. -/
theorem literal_eq_fill (casing : Casing) (hP : P.IsPlain known fun v => v.isExpr = false)
    (hw : w.IsPlain known) (hunbound : P.unbound = 0) :
    (∃ e, (P.inStyle ⟨casing, .positional⟩).result ⟨casing, .positional⟩ w = .error e ∧
      (P.inStyle ⟨casing, .literal⟩).result ⟨casing, .literal⟩ w = .error e) ∨
    ∃ r l ts, (P.inStyle ⟨casing, .positional⟩).result ⟨casing, .positional⟩ w = .ok r ∧
      (P.inStyle ⟨casing, .literal⟩).result ⟨casing, .literal⟩ w = .ok l ∧
      Token.readAll r.text.toList = .ok ts ∧
      ts.countP (·.kind = .positional) = r.parameters.length ∧
      l.text = String.ofList (Token.fill ts (r.parameters.map Value.literalChars)) ∧
      l.parameters = [] := by
  have hsame : (P.inStyle ⟨casing, .literal⟩).outcome ⟨casing, .literal⟩ w =
      (P.inStyle ⟨casing, .positional⟩).outcome ⟨casing, .positional⟩ w :=
    P.outcome_inStyle w casing (by decide) (by decide)
  rw [result_eq_of_isPlain (hP.inStyle _) hw, result_eq_of_isPlain (hP.inStyle _) hw, hsame]
  cases houtcome : (P.inStyle ⟨casing, .positional⟩).outcome ⟨casing, .positional⟩ w with
  | error e => exact .inl ⟨e, rfl, rfl⟩
  | ok ps =>
    have hplaces : (Piece.places ps).countP Place.isUnbound = 0 := by
      rw [outcome_unbound ps houtcome, inStyle, unbound_recast, hunbound]
    have hcount := Piece.count_bones .positional ps
    rw [hplaces, Nat.add_zero] at hcount
    have hfits : Binding.positional.Fits fun v => v.isExpr = false := fits_of_not_isExpr (by decide)
    obtain ⟨hlegible, -⟩ := outcome_legible hfits (hP.inStyle _) hw ps houtcome
    obtain ⟨ts, hscan, hskeleton, -, hdialect⟩ := Token.Legible.scan_eq hlegible
    have hkind : ∀ t ∈ ts, t.isPlaceholder → t.kind = .positional := fun t ht hplace =>
      Token.isPositional_of_dialect hplace fun d hd =>
        hdialect d (List.mem_filterMap.mpr ⟨t, ht, hd⟩)
    have hlength : (Token.skeleton ts).count none = (Piece.parametersOf .positional ps).length := by
      rw [hskeleton, hcount]
    have htext : ∀ b, (Rendered.ofPieces b "" ps).text = Piece.textOf b ps :=
      fun b => String.empty_append
    refine .inr ⟨_, _, ts, rfl, rfl, ?_, (Token.countP_positional hkind).trans hlength, ?_,
      Piece.parametersOf_literal ps⟩
    · rw [htext, Token.readAll, hscan]
    · have hliterals : (Token.skeleton ts).count none =
          ((Piece.parametersOf .positional ps).map Value.literalChars).length := by
        rw [List.length_map, hlength]
      apply String.toList_injective
      rw [htext, String.toList_ofList, ← Piece.fill_bones hplaces, ← hskeleton]
      exact (Token.fill_eq hkind hliterals).symm

/-- Closes the accounts of a region whose names are not among some texts. -/
def closing : Program where
  origin := .update "accounts"
  clauses := [.setValue "isOpen" (.bool false), .filter (.junction .and
    [.compare "regionId" "=" (.int 4), .negate (.among "name" "IN" [.text "a?", .text "it's"])])]

theorem literal_eq_fill_closing : ∃ r l ts,
    (closing.inStyle ⟨.lowerUnderscore, .positional⟩).result ⟨.lowerUnderscore, .positional⟩ {} =
      .ok r ∧
    (closing.inStyle ⟨.lowerUnderscore, .literal⟩).result ⟨.lowerUnderscore, .literal⟩ {} = .ok l ∧
    Token.readAll r.text.toList = .ok ts ∧ ts.countP (·.kind = .positional) = 4 ∧
    l.text = String.ofList (Token.fill ts (r.parameters.map Value.literalChars)) ∧
    l.text = "UPDATE accounts SET is_open = false WHERE (region_id = 4) AND " ++
      "(NOT (name IN ('a?','it''s')))" ∧ l.parameters = [] := by
  have hpositional : (closing.inStyle ⟨.lowerUnderscore, .positional⟩).result
      ⟨.lowerUnderscore, .positional⟩ {} = .ok _ := rfl
  have hliteral : (closing.inStyle ⟨.lowerUnderscore, .literal⟩).result
      ⟨.lowerUnderscore, .literal⟩ {} = .ok _ := rfl
  rcases literal_eq_fill (P := closing) (w := {}) .lowerUnderscore (by decide)
    (Workshop.isPlain_of_catalog (Catalog.covers_of_forall (by simp)) {}) rfl with
    ⟨e, he, -⟩ | ⟨r, l, ts, hr, hl, hread, hcount, hfill, hnone⟩
  · rw [hpositional] at he
    cases he
  · have hparameters : r.parameters.length = 4 := by
      rw [hpositional] at hr
      cases hr
      rfl
    have htext : l.text = "UPDATE accounts SET is_open = false WHERE (region_id = 4) AND " ++
        "(NOT (name IN ('a?','it''s')))" := by
      rw [hliteral] at hl
      cases hl
      rfl
    exact ⟨r, l, ts, hr, hl, hread, hcount.trans hparameters, hfill, htext, hnone⟩

end Program

end Cql
