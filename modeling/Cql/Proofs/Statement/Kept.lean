import Cql.Proofs.Statement.Raw
import Cql.Proofs.Token.Closed

/-!
Raw text that is kept as it is. Where nothing is called, that is told by the words of the text
alone, and a text that is kept is kept between other texts, if none of its tokens goes on with
theirs.
-/

namespace Cql

open Token (readAll scan flatten)

/-- The word is the same in raw text without an entity. -/
def Casing.Keeps (casing : Casing) (word : List Char) : Prop :=
  Reserved.isReserved word ∨ casing.writePath word = word

instance (casing : Casing) (word : List Char) : Decidable (casing.Keeps word) :=
  inferInstanceAs (Decidable (_ ∨ _))

/-- Put together, the three texts have their own tokens. -/
def KeepApart (before text after : String) : Prop :=
  ∃ us ts vs, readAll before.toList = .ok us ∧ readAll text.toList = .ok ts ∧
    readAll after.toList = .ok vs ∧ readAll (before ++ text ++ after).toList = .ok (us ++ ts ++ vs)

instance (before text after : String) : Decidable (KeepApart before text after) :=
  decidable_of_iff (∃ us ∈ (readAll before.toList).toOption, ∃ ts ∈ (readAll text.toList).toOption,
      ∃ vs ∈ (readAll after.toList).toOption,
        readAll (before ++ text ++ after).toList = .ok (us ++ ts ++ vs)) <| by
    have hmem : ∀ (cs : List Char) (ts : List Token),
        ts ∈ (readAll cs).toOption ↔ readAll cs = .ok ts := by
      intro cs ts
      cases readAll cs <;> simp [Except.toOption]
    simp only [hmem, KeepApart]
    tauto

namespace Scope

variable {casing : Casing} {cs : List Char} {t : Token} {ts us vs : List Token}

theorem isFunctionName_eq_false (h : ∀ u ∈ ts, u.isOpenParen = false) :
    t.isFunctionName ts = false := by
  have hnone : (ts.find? (·.kind ≠ .blank)).any Token.isOpenParen = false := by
    cases hfind : ts.find? (·.kind ≠ .blank) with
    | none => rfl
    | some u => exact h u (List.mem_of_find?_eq_some hfind)
  rw [Token.isFunctionName, hnone]
  simp

/-- Only a parenthesis makes a function of a word before it. -/
theorem isFunctionName_append (hblank : t.kind ≠ .blank) (hparen : t.isOpenParen = false)
    (u : Token) (us ts : List Token) : u.isFunctionName (us ++ t :: ts) = u.isFunctionName us := by
  have hfind : ((us ++ t :: ts).find? (·.kind ≠ .blank)).any Token.isOpenParen =
      (us.find? (·.kind ≠ .blank)).any Token.isOpenParen := by
    rw [List.find?_append, List.find?_cons_of_pos (by simpa using hblank)]
    cases us.find? (·.kind ≠ .blank) with
    | none => exact hparen
    | some u => rfl
  rw [Token.isFunctionName, Token.isFunctionName, hfind]

theorem tokens_append (scope : Scope) (hblank : t.kind ≠ .blank) (hparen : t.isOpenParen = false)
    (us ts : List Token) :
    scope.tokens (us ++ t :: ts) = scope.tokens us ++ scope.tokens (t :: ts) := by
  induction us with
  | nil => rfl
  | cons u us ih =>
    have htext : scope.tokenText u (us ++ t :: ts) = scope.tokenText u us := by
      rw [tokenText, tokenText, isFunctionName_append hblank hparen]
    rw [List.cons_append, tokens, tokens, ih, htext, List.cons_append]

theorem tokenText_of_keeps (h : t.kind = .word → casing.Keeps t.chars) (following : List Token) :
    ((bare casing).tokenText t following).toList = t.chars := by
  by_cases hname : IsName t following
  · rw [tokenText_of_isName casing hname]
    exact (h hname.1).resolve_left hname.2.1
  · exact tokenText_of_not_isName _ hname

/-- Tokens whose words are kept are kept before all others. -/
theorem tokens_append_of_keeps (h : ∀ word ∈ Token.words ts, casing.Keeps word) (us : List Token) :
    (bare casing).tokens (ts ++ us) = ts ++ (bare casing).tokens us := by
  rw [Token.forall_mem_words] at h
  induction ts with
  | nil => rfl
  | cons t ts ih =>
    have hothers := ih fun u hu => h u (List.mem_cons_of_mem t hu)
    rw [List.cons_append, tokens, tokenText_of_keeps (h t List.mem_cons_self), hothers,
      List.cons_append]

/-- Where nothing is called, the tokens are kept exactly if the words among them are. -/
theorem tokens_eq_self_iff (h : ∀ t ∈ ts, t.isOpenParen = false) :
    (bare casing).tokens ts = ts ↔ ∀ word ∈ Token.words ts, casing.Keeps word := by
  refine ⟨fun hsame => Token.forall_mem_words.mpr fun t ht hword => ?_, fun hkeeps => ?_⟩
  · induction ts with
    | nil => cases ht
    | cons u ts ih =>
      rw [List.forall_mem_cons] at h
      rw [tokens] at hsame
      obtain ⟨hfirst, hothers⟩ := List.cons.inj hsame
      obtain rfl | ht := List.mem_cons.mp ht
      · by_cases hreserved : Reserved.isReserved t.chars
        · exact .inl hreserved
        · have hname : IsName t ts := ⟨hword, hreserved, by simp [isFunctionName_eq_false h.2]⟩
          have hchars := congrArg Token.chars hfirst
          exact .inr ((tokenText_of_isName casing hname).symm.trans hchars)
      · exact ih h.2 hothers ht
  · have happ := tokens_append_of_keeps hkeeps []
    rwa [List.append_nil, tokens, List.append_nil] at happ

/-- A text is kept exactly if its tokens are. -/
theorem flatten_tokens_eq_iff (hscan : scan cs = (ts, none)) (hletters : HasLetters ts) :
    flatten ((bare casing).tokens ts) = cs ↔ (bare casing).tokens ts = ts := by
  constructor
  · intro hflat
    -- The resolved text is scanned into the resolved tokens, and the same text has the same tokens.
    have hsame := (scan_tokens casing hscan hletters).1
    rw [hflat, hscan] at hsame
    exact (Prod.mk.inj hsame).1.symm
  · intro hsame
    rw [hsame, Token.flatten_scan hscan]

theorem writesRaw_of_readAll (style : Style) {text : String} (h : readAll text.toList = .ok ts) :
    WritesRaw style text ((bare style.casing).rawTokens ts) :=
  writesRaw style (by rw [raw, h])

theorem WritesRaw.unique {style : Style} {text : String} {ps qs : List Piece}
    (hps : WritesRaw style text ps) (hqs : WritesRaw style text qs) : ps = qs :=
  Except.ok.inj (hps.assignment.symm.trans hqs.assignment)

/-- What a text is written as, before and after text that is kept, is what it is written as
alone. -/
theorem writesRaw_of_keepApart (style : Style) {before text after : String}
    (hapart : KeepApart before text after) (hread : readAll text.toList = .ok (t :: ts))
    (hblank : t.kind ≠ .blank) (hparen : t.isOpenParen = false)
    (hkeeps : ∀ word ∈ Token.words (t :: ts), style.casing.Keeps word) :
    ∃ ps qs rs, WritesRaw style before ps ∧ WritesRaw style after qs ∧
      WritesRaw style (before ++ text ++ after) rs ∧
      Piece.textOf style.binding rs =
        Piece.textOf style.binding ps ++ text ++ Piece.textOf style.binding qs := by
  obtain ⟨us, _, vs, hbefore, hsame, hafter, htogether⟩ := hapart
  obtain rfl := Except.ok.inj (hsame.symm.trans hread)
  refine ⟨_, _, _, writesRaw_of_readAll style hbefore, writesRaw_of_readAll style hafter,
    writesRaw_of_readAll style htogether, ?_⟩
  have htokens : (bare style.casing).tokens (us ++ t :: ts ++ vs) =
      (bare style.casing).tokens us ++ (t :: ts ++ (bare style.casing).tokens vs) := by
    rw [List.append_assoc, List.cons_append, tokens_append _ hblank hparen, ← List.cons_append,
      tokens_append_of_keeps hkeeps]
  have htext : flatten (t :: ts) = text.toList :=
    Token.flatten_scan (Token.readAll_eq_ok_iff.mp hread)
  rw [← String.toList_inj, String.toList_append, String.toList_append, ← flatten_tokens,
    ← flatten_tokens, ← flatten_tokens, htokens, Token.flatten_append, Token.flatten_append, htext,
    List.append_assoc]

end Scope

end Cql
