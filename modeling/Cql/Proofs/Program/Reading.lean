import Cql.Proofs.Program.Outcome

/-!
Reading what a plain program gives. Every placeholder of the text has one parameter or is left to
the caller, and nothing else in the text is read as a placeholder. With named placeholders the
canonical text is the text that question marks give, and the names are those of the places.
-/

namespace Cql

namespace Piece

variable {b : Binding}

theorem marked_bones (hb : b ≠ .literal) (ps : List Piece) :
    Token.Skeleton.marked (ps.flatMap (bones b)) = (textOf .positional ps).toList := by
  have hhead : ∀ p : Piece,
      Token.Skeleton.marked (bones b p) = (written .positional p).toList := by
    intro p
    cases p with
    | text s => simp [Token.Skeleton.marked, bones, written, Function.comp_def]
    | value name v | hole name => simp [Token.Skeleton.marked, bones, written, placeholder, hb]
  induction ps with
  | nil => rfl
  | cons p ps ih =>
    rw [Token.Skeleton.marked] at ih ⊢
    rw [List.flatMap_cons, List.map_append, ih, ← Token.Skeleton.marked, hhead, textOf_cons,
      String.toList_append]

theorem names_eq (ps : List Piece) :
    (ps.flatMap (names .named)).map String.ofList = (places ps).map Place.name := by
  induction ps with
  | nil => rfl
  | cons p ps ih =>
    rw [List.flatMap_cons, List.map_append, ih]
    cases p <;> simp [names, places, place?, List.filterMap_cons]

theorem parametersOf_cons (p : Piece) (ps : List Piece) :
    parametersOf b (p :: ps) = parametersOf b [p] ++ parametersOf b ps :=
  List.filterMap_append (l := [p])

theorem places_cons (p : Piece) (ps : List Piece) : places (p :: ps) = places [p] ++ places ps :=
  List.filterMap_append (l := [p])

/-- Every gap takes a parameter or is left to the caller. -/
theorem count_bones (b : Binding) (ps : List Piece) :
    (ps.flatMap (bones b)).count none =
      (parametersOf b ps).length + (places ps).countP Place.isUnbound := by
  have hchars : ∀ cs : List Char, (cs.map some).count none = 0 := fun cs => by
    simp [List.count_eq_zero]
  have hhead : ∀ p : Piece, (bones b p).count none =
      (parametersOf b [p]).length + (places [p]).countP Place.isUnbound := by
    intro p
    cases p with
    | text s => exact hchars s.toList
    | value name v =>
      by_cases hb : b = .literal
      · simp [bones, parametersOf, parameter?, places, place?, Place.isUnbound, hb, hchars]
      · simp [bones, parametersOf, parameter?, places, place?, Place.isUnbound, hb]
    | hole name => rfl
  induction ps with
  | nil => rfl
  | cons p ps ih =>
    rw [List.flatMap_cons, List.count_append, hhead, ih, parametersOf_cons p ps, places_cons p ps,
      List.length_append, List.countP_append]
    omega

theorem parametersOf_literal (ps : List Piece) : parametersOf .literal ps = [] := by
  rw [parametersOf, List.filterMap_eq_nil_iff]
  rintro (s | ⟨name, v⟩ | name) _ <;> rfl

theorem parametersOf_named (ps : List Piece) :
    parametersOf .named ps = parametersOf .positional ps := by
  refine List.filterMap_congr fun p _ => ?_
  cases p <;> rfl

end Piece

namespace Program

variable {known : Entity → Prop} {admits : Value → Prop} {P : Program} {w : Workshop}
  {style : Style} {casing : Casing} {r : Rendered}

theorem fits_of_not_isExpr {b : Binding} (hb : b ≠ .literal) :
    b.Fits fun v => v.isExpr = false :=
  fun _ hv => ⟨hv, fun h => absurd h hb⟩

theorem fits_of_not_hasExpr (b : Binding) : b.Fits fun v => v.hasExpr = false := by
  intro v hv
  refine ⟨?_, fun _ => hv⟩
  cases v with
  | expr text => simp [Value.hasExpr] at hv
  | null | bool | int | float | text | uuid | timestamp | blob | list => rfl

theorem result_eq_ok (hP : P.IsPlain known admits) (hw : w.IsPlain known)
    (h : P.result style w = .ok r) :
    ∃ ps, P.outcome style w = .ok ps ∧ r = .ofPieces style.binding "" ps := by
  rw [result_eq_of_isPlain hP hw] at h
  exact exists_of_map_eq_ok h

/-- A plain program gives text that reads well, with a placeholder for each parameter and for each
column without a value. -/
theorem read_result (hP : P.IsPlain known fun v => v.hasExpr = false) (hw : w.IsPlain known)
    (h : P.result style w = .ok r) :
    (∃ q, Query.read r.text = .ok q ∧ q.parameterCount = r.parameters.length + P.unbound) ∧
      (style.binding = .literal → r.parameters = []) := by
  obtain ⟨ps, houtcome, rfl⟩ := result_eq_ok hP hw h
  obtain ⟨hlegible, hverb⟩ := outcome_legible (fits_of_not_hasExpr _) hP hw ps houtcome
  have hcount := Piece.count_bones style.binding ps
  rw [outcome_unbound ps houtcome] at hcount
  have htext : (Rendered.ofPieces style.binding "" ps).text = Piece.textOf style.binding ps :=
    String.empty_append
  have hread := (congrArg Query.read htext).trans (hlegible.read_eq hverb)
  refine ⟨⟨_, hread, hcount⟩, fun hliteral => ?_⟩
  rw [hliteral]
  exact Piece.parametersOf_literal ps

/-- Adds a note whose text looks like placeholders. -/
def noting : Program where
  origin := .insertRow ⟨[("noteId", .int 7), ("body", .text "it's :x or ?")]⟩
  clauses := [.into (.table "notes"), .lifetime 60]

theorem read_result_noting : ∃ r q, noting.result ⟨.lowerUnderscore, .literal⟩ {} = .ok r ∧
    r.text = "INSERT INTO notes (note_id, body) VALUES (7,'it''s :x or ?') USING TTL 60" ∧
    Query.read r.text = .ok q ∧ q.parameterCount = 0 ∧ r.parameters = [] := by
  obtain ⟨⟨q, hread, hcount⟩, hparameters⟩ := read_result (P := noting) (by decide)
    (Workshop.isPlain_of_catalog (Catalog.covers_of_forall (by simp)) {})
    (rfl : noting.result ⟨.lowerUnderscore, .literal⟩ {} = .ok _)
  exact ⟨_, q, rfl, by rfl, hread, hcount, hparameters rfl⟩

/-- With named placeholders the text of a plain program reads as the text with question marks, with
the same parameters and with the names of the places in their order. -/
theorem read_named (hP : P.IsPlain known fun v => v.isExpr = false) (hw : w.IsPlain known)
    (h : (P.inStyle ⟨casing, .named⟩).result ⟨casing, .named⟩ w = .ok r) :
    ∃ r' q, (P.inStyle ⟨casing, .positional⟩).result ⟨casing, .positional⟩ w = .ok r' ∧
      Query.read r.text = .ok q ∧ q.canonical = r'.text ∧ r.parameters = r'.parameters ∧
      q.names = ((P.inStyle ⟨casing, .named⟩).statement ⟨casing, .named⟩ w).places.map
        Place.name := by
  obtain ⟨ps, houtcome, rfl⟩ := result_eq_ok (hP.inStyle _) hw h
  have hpositional := P.outcome_named w casing ps houtcome
  have hfits : Binding.named.Fits fun v => v.isExpr = false := fits_of_not_isExpr (by decide)
  obtain ⟨hlegible, hverb⟩ := outcome_legible hfits (hP.inStyle _) hw ps houtcome
  have hplaces := outcome_places ps houtcome
  have htext : ∀ b, (Rendered.ofPieces b "" ps).text = Piece.textOf b ps :=
    fun b => String.empty_append
  have hread := (congrArg Query.read (htext .named)).trans (hlegible.read_eq hverb)
  refine ⟨.ofPieces .positional "" ps, _, ?_, hread, ?_, Piece.parametersOf_named ps, ?_⟩
  · rw [result_eq_of_isPlain (hP.inStyle _) hw, hpositional]
    rfl
  · rw [htext, Piece.marked_bones (b := .named) (by decide), String.ofList_toList]
  · rw [← hplaces]
    exact Piece.names_eq ps

/-- Changes an account under conditions on it and on a role. -/
def reassigning : Program where
  origin := .update "accounts"
  clauses := [.setHoles ["nickName"], .setValue "visits" (.int 3),
    .filter (.junction .and [.between "createdAt" "BETWEEN" (.int 1) (.int 9),
      .among "id" "IN" [.text "a?", .text "b"]]),
    .guard (.amongSelect "role" "IN"
      { style := {}, columns := ["roleName"], target := some (.table "roles") }
      (some (.compare "level" ">" (.int 2))))]

theorem read_named_reassigning : ∃ r r' q,
    (reassigning.inStyle ⟨.lowerUnderscore, .named⟩).result ⟨.lowerUnderscore, .named⟩ {} = .ok r ∧
    (reassigning.inStyle ⟨.lowerUnderscore, .positional⟩).result
      ⟨.lowerUnderscore, .positional⟩ {} = .ok r' ∧
    Query.read r.text = .ok q ∧ q.canonical = r'.text ∧ r.parameters = r'.parameters ∧
    q.names = ["nickName", "visits", "minCreatedAt", "maxCreatedAt", "id1", "id2", "level"] := by
  obtain ⟨r, hr⟩ : ∃ r, (reassigning.inStyle ⟨.lowerUnderscore, .named⟩).result
      ⟨.lowerUnderscore, .named⟩ {} = .ok r := ⟨_, rfl⟩
  obtain ⟨r', q, hpositional, hread, hcanonical, hparameters, hnames⟩ :=
    read_named (P := reassigning) (by decide)
      (Workshop.isPlain_of_catalog (Catalog.covers_of_forall (by simp)) {}) hr
  exact ⟨r, r', q, hr, hpositional, hread, hcanonical, hparameters,
    hnames.trans (by cbv)⟩

end Program

end Cql
