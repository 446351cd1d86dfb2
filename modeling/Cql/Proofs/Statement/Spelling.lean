import Cql.Proofs.Mapping.Plain
import Cql.Proofs.Token.Quoted
import Cql.Proofs.Value.Literal
import Cql.Statement.Render

/-!
How the scanner reads pieces. Pieces that can stand before every text are sealed, and pieces that
can stand before a blank, a comma or a closing parenthesis are closed. All that a plain statement is
rendered to is closed, so the rendered text is legible: its placeholders are those of the pieces.
-/

namespace Cql

open Token (Legible Skeleton IsName isInert)

/-- A text that is legible before every legible text. -/
def IsSolid (s : String) : Prop :=
  ∀ ⦃dialect : Query.Dialect⦄ ⦃cs : List Char⦄ ⦃sk : Skeleton⦄ ⦃ns : List (List Char)⦄,
    Legible dialect cs sk ns → Legible dialect (s.toList ++ cs) (s.toList.map some ++ sk) ns

theorem Inert.isSolid {s : String} (h : Inert s) : IsSolid s :=
  fun _ _ _ _ hrest => hrest.append_inert h

theorem IsSolid.append {s t : String} (hs : IsSolid s) (ht : IsSolid t) : IsSolid (s ++ t) := by
  intro dialect cs sk ns h
  simpa using hs (ht h)

theorem inert_toString_nat (n : Nat) : Inert (toString n) := by
  intro c hc
  rw [Nat.toString_eq_repr, Nat.toList_repr] at hc
  exact Decimal.isInert_of_mem_digits hc

theorem isSolid_toString_int (i : Int) : IsSolid (toString i) := by
  intro dialect cs sk ns h
  have hdigits : ∀ n : Nat, (Nat.repr n).toList = Decimal.digits n := fun _ => Nat.toList_repr
  rw [Int.toString_eq_repr, Int.repr_eq_if]
  split
  · rw [hdigits]
    exact h.append_inert fun _ => Decimal.isInert_of_mem_digits
  · rw [String.toList_append, hdigits]
    exact h.minus_append Nat.toDigits_ne_nil fun _ => Decimal.isInert_of_mem_digits

def Binding.dialect : Binding → Query.Dialect
  | .named => .colon
  | _ => .mark

namespace Piece

/-- The part of the skeleton that a piece accounts for. -/
def bones (b : Binding) : Piece → Skeleton
  | .text s => s.toList.map some
  | .value _ v => if b = .literal then v.literalChars.map some else [none]
  | .hole _ => [none]

/-- The name that a piece gives to its placeholder. -/
def names (b : Binding) : Piece → List (List Char)
  | .text _ => []
  | .value name _ | .hole name => if b = .named then [name.toList] else []

def IsLegible (b : Binding) (ps : List Piece) : Prop :=
  Legible b.dialect (textOf b ps).toList (ps.flatMap (bones b)) (ps.flatMap (names b))

/-- The text of the pieces is empty or goes on with a blank, a comma or a closing parenthesis. -/
def Delimits (b : Binding) (ps : List Piece) : Prop :=
  ∀ c ∈ (textOf b ps).toList.head?, c = ' ' ∨ c = ',' ∨ c = ')'

def Sealed (b : Binding) (ps : List Piece) : Prop :=
  ∀ rest, IsLegible b rest → IsLegible b (ps ++ rest)

def Closed (b : Binding) (ps : List Piece) : Prop :=
  ∀ rest, IsLegible b rest → Delimits b rest → IsLegible b (ps ++ rest)

variable {b : Binding} {ps qs rest : List Piece} {s : String}

theorem isLegible_nil : IsLegible b [] := .nil

theorem delimits_nil : Delimits b [] := by simp [Delimits]

theorem Closed.isLegible (h : Closed b ps) : IsLegible b ps := by
  simpa using h [] isLegible_nil delimits_nil

theorem Sealed.closed (h : Sealed b ps) : Closed b ps := fun rest hrest _ => h rest hrest

theorem isLegible_text_cons (hs : IsSolid s) (hrest : IsLegible b rest) :
    IsLegible b (.text s :: rest) := by
  simpa [IsLegible, bones, names, written] using hs hrest

theorem isLegible_hole_cons {name : String} (hname : IsName name.toList)
    (hrest : IsLegible b rest) (hdelim : Delimits b rest) : IsLegible b (.hole name :: rest) := by
  cases b with
  | literal | positional =>
    simpa [IsLegible, bones, names, written, placeholder, Binding.dialect] using
      Legible.mark rfl hrest
  | named =>
    have hstop : ¬ (textOf .named rest).toList.head?.any Token.isNameChar := by
      cases hhead : (textOf .named rest).toList.head? with
      | none => simp
      | some c => rcases hdelim c hhead with rfl | rfl | rfl <;> decide
    simpa [IsLegible, bones, names, written, placeholder, Binding.dialect] using
      Legible.colon rfl hname hstop hrest

theorem isLegible_value_cons {name : String} {v : Value} (hname : IsName name.toList)
    (hv : b = .literal → v.hasExpr = false) (hrest : IsLegible b rest) (hdelim : Delimits b rest) :
    IsLegible b (.value name v :: rest) := by
  cases b with
  | literal =>
    have hstop : (textOf .literal rest).toList.head? ≠ some '\'' := by
      intro hhead
      rcases hdelim _ hhead with h | h | h <;> cases h
    simpa [IsLegible, bones, names, written, Value.literal] using
      Value.legible_literal (hv rfl) hstop hrest
  | positional =>
    simpa [IsLegible, bones, names, written] using isLegible_hole_cons hname hrest hdelim
  | named =>
    simpa [IsLegible, bones, names, written] using isLegible_hole_cons hname hrest hdelim

theorem closed_nil : Closed b [] := fun _ hrest _ => hrest

theorem Closed.text_cons (h : Closed b ps) (hs : IsSolid s) : Closed b (.text s :: ps) :=
  fun rest hrest hdelim => isLegible_text_cons hs (h rest hrest hdelim)

theorem sealed_text (hs : IsSolid s) : Sealed b [.text s] := fun _ => isLegible_text_cons hs

theorem closed_text (hs : IsSolid s) : Closed b [.text s] := (sealed_text hs).closed

theorem Sealed.append (h : Sealed b ps) (hqs : Sealed b qs) : Sealed b (ps ++ qs) := by
  intro rest hrest
  rw [List.append_assoc]
  exact h _ (hqs rest hrest)

theorem Sealed.append_closed (h : Sealed b ps) (hqs : Closed b qs) : Closed b (ps ++ qs) := by
  intro rest hrest hdelim
  rw [List.append_assoc]
  exact h _ (hqs rest hrest hdelim)

/-- The pieces go on as what follows them does, or with a delimiter of their own. -/
def Follows (b : Binding) (ps : List Piece) : Prop :=
  ∀ rest, Delimits b rest → Delimits b (ps ++ rest)

/-- What can stand behind closed pieces. -/
structure Trails (b : Binding) (ps : List Piece) : Prop where
  closed : Closed b ps
  follows : Follows b ps

theorem delimits_text {c : Char} (hs : s.toList.head? = some c) (hc : c = ' ' ∨ c = ',' ∨ c = ')')
    (ps : List Piece) : Delimits b (.text s :: ps) := by
  intro d hd
  obtain rfl : c = d := by simpa [written, List.head?_append, hs] using hd
  exact hc

theorem trails_nil : Trails b [] := ⟨closed_nil, fun _ h => h⟩

theorem Closed.trails_text {c : Char} (h : Closed b ps) (hsolid : IsSolid s)
    (hs : s.toList.head? = some c) (hc : c = ' ' ∨ c = ',' ∨ c = ')') : Trails b (.text s :: ps) :=
  ⟨h.text_cons hsolid, fun rest _ => delimits_text hs hc (ps ++ rest)⟩

theorem trails_blank (hsolid : IsSolid s) (hs : s.toList.head? = some ' ') : Trails b [.text s] :=
  closed_nil.trails_text hsolid hs (.inl rfl)

theorem trails_close : Trails b [.text ")"] :=
  closed_nil.trails_text (Inert.isSolid (by decide)) rfl (.inr (.inr rfl))

theorem Closed.append (h : Closed b ps) (hqs : Trails b qs) : Closed b (ps ++ qs) := by
  intro rest hrest hdelim
  rw [List.append_assoc]
  exact h _ (hqs.closed rest hrest hdelim) (hqs.follows rest hdelim)

/-- A blank stands before every text. -/
theorem Closed.sealed_blank (h : Closed b ps) : Sealed b (ps ++ [.text " "]) := by
  intro rest hrest
  have hblank : IsLegible b (.text " " :: rest) :=
    isLegible_text_cons (Inert.isSolid (by decide)) hrest
  simpa using h _ hblank (delimits_text (c := ' ') rfl (.inl rfl) rest)

theorem Closed.separated {separator : String} {c : Char} (hsolid : IsSolid separator)
    (hsep : separator.toList.head? = some c) (hc : c = ' ' ∨ c = ',' ∨ c = ')')
    {items : List (List Piece)} (h : ∀ item ∈ items, Closed b item) :
    Closed b (Piece.separated separator items) := by
  fun_induction Piece.separated separator items with
  | case1 => exact closed_nil
  | case2 item => exact h item (by simp)
  | case3 item next items ih =>
    have hrest : Closed b (Piece.separated separator (next :: items)) :=
      ih fun i hi => h i (by simp [hi])
    exact (h item (by simp)).append (hrest.trails_text hsolid hsep hc)

theorem Sealed.separated {separator : String} (hsolid : IsSolid separator)
    {items : List (List Piece)} (h : ∀ item ∈ items, Sealed b item) :
    Sealed b (Piece.separated separator items) := by
  fun_induction Piece.separated separator items with
  | case1 => exact fun _ hrest => hrest
  | case2 item => exact h item (by simp)
  | case3 item next items ih =>
    have hrest : Sealed b (Piece.separated separator (next :: items)) :=
      ih fun i hi => h i (by simp [hi])
    exact (h item (by simp)).append ((sealed_text hsolid).append hrest)

/-- A value that is no expression stands in the text for itself or as a placeholder. -/
theorem closed_ofValue {name : String} {v : Value} (hname : IsName name.toList)
    (hexpr : v.isExpr = false) (hv : b = .literal → v.hasExpr = false) :
    Closed b [.ofValue name v] := by
  intro rest hrest hdelim
  cases v with
  | expr text => simp [Value.isExpr] at hexpr
  | null | bool | int | float | text | uuid | timestamp | blob | list =>
    exact isLegible_value_cons hname hv hrest hdelim

/-- An alias is quoted text, and holds no quote. -/
theorem trails_alias {name : String} (h : Inert name) :
    Trails b [.text (" AS \"" ++ name ++ "\"")] := by
  refine ⟨fun rest hrest hdelim => ?_, fun rest _ =>
    delimits_text (c := ' ') (by rw [String.append_assoc]; simp) (.inl rfl) rest⟩
  have hquote : '"' ∉ name.toList := fun hmem => absurd (h '"' hmem) (by decide)
  have hstop : (textOf b rest).toList.head? ≠ some '"' := by
    intro hhead
    rcases hdelim _ hhead with h | h | h <;> cases h
  have hquoted := Legible.quoted name.toList (.inr rfl) hstop hrest
  rw [Text.Quoted.escape_eq_self hquote] at hquoted
  have hblank : Inert " AS " := by decide
  simpa [IsLegible, bones, names, written, List.append_assoc] using hquoted.append_inert hblank

theorem closed_hole {name : String} (hname : IsName name.toList) : Closed b [.hole name] :=
  fun _ => isLegible_hole_cons hname

end Piece

end Cql
