import Cql.Proofs.Token.Closed
import Cql.Proofs.Value.Literal

/-!
Literals as closed text. A literal without expressions has the same tokens wherever it stands and
none of them is a comment or a placeholder. The literal of a text is one token that reads back as
the text, and the brackets of a list are closed outside quotes.
-/

namespace Cql.Value

open Token

/-- The words for a number that has no digits. -/
def floatWords : Decimal.Binary → List (List Char)
  | .nan => ["NaN".toList]
  | .infinite _ => ["Infinity".toList]
  | .finite .. => []

mutual

/-- The words that stand in the literal of a value outside quotes. -/
def words : Value → List (List Char)
  | .null => ["null".toList]
  | .bool true => ["true".toList]
  | .bool false => ["false".toList]
  | .float x => floatWords (Decimal.Binary.ofFloat x)
  | .uuid u => u.groups.filter (·.head?.any Char.isAlpha)
  | .list items => itemWords items
  | _ => []

def itemWords : List Value → List (List Char)
  | [] => []
  | v :: vs => words v ++ itemWords vs

end

variable {cs : List Char} {ts : List Token} {v : Value}

theorem closed_signed (negative : Bool) (hhead : cs.head?.any Char.isAlphanum)
    (h : IsClosed cs ts) :
    ∃ us, IsClosed (Decimal.signed negative cs) us ∧ Token.words us = Token.words ts := by
  cases negative with
  | false => exact ⟨ts, h, rfl⟩
  | true => exact ⟨_, h.minus hhead, rfl⟩

theorem closed_signed_alphanum (negative : Bool) (hne : cs ≠ []) (hall : ∀ c ∈ cs, c.isAlphanum) :
    ∃ ts, IsClosed (Decimal.signed negative cs) ts ∧
      Token.words ts = [cs].filter (·.head?.any Char.isAlpha) := by
  have hhead : cs.head?.any Char.isAlphanum := by
    cases cs with
    | nil => exact absurd rfl hne
    | cons c cs => exact hall c List.mem_cons_self
  obtain ⟨ts, hclosed, hwords⟩ := closed_signed negative hhead (IsClosed.alphanum hne hall)
  exact ⟨ts, hclosed, hwords.trans (words_ofAlphanum cs)⟩

theorem closed_int (i : Int) : ∃ ts, IsClosed (intText i) ts ∧ Token.words ts = [] := by
  obtain ⟨c, cs, hdigits, hc⟩ := Decimal.exists_digits_cons i.natAbs
  have hnumber : ∀ d ∈ cs, isNumberChar d := fun d hd =>
    Decimal.isNumberChar_of_mem_digits (n := i.natAbs) (by simp [hdigits, hd])
  rw [intText, hdigits]
  exact closed_signed _ (by simp [Char.isAlphanum, hc]) (IsClosed.number hc hnumber)

theorem closed_positional (negative : Bool) (d : Decimal.Scaled) :
    ∃ ts, IsClosed (Decimal.signed negative d.positional) ts ∧ Token.words ts = [] := by
  obtain ⟨c, cs, hcons, hc⟩ := Decimal.exists_positional_cons d
  have hcs : ∀ e ∈ cs, isNumberChar e := fun e he =>
    Decimal.isNumberChar_of_mem_positional (d := d) (by simp [hcons, he])
  rw [hcons]
  exact closed_signed negative (by simp [Char.isAlphanum, hc]) (IsClosed.number hc hcs)

theorem closed_float (x : Float) : ∃ ts, IsClosed (Decimal.plain "Infinity" x).toList ts ∧
    Token.words ts = floatWords (Decimal.Binary.ofFloat x) := by
  simp only [Decimal.plain, String.toList_ofList]
  generalize Decimal.Binary.ofFloat x = b
  split
  · exact closed_signed_alphanum false (by decide) (List.all_eq_true.mp rfl)
  · exact closed_signed_alphanum _ (by decide) (List.all_eq_true.mp rfl)
  · exact closed_signed_alphanum _ (by decide) (List.all_eq_true.mp rfl)
  · exact closed_positional _ _

theorem closed_blob (bytes : List UInt8) :
    ∃ ts, IsClosed ('0' :: 'x' :: Text.Hex.ofBytes bytes) ts ∧ Token.words ts = [] := by
  refine closed_signed_alphanum false (List.cons_ne_nil _ _) fun c hc => ?_
  obtain rfl | hc := List.mem_cons.mp hc
  · rfl
  obtain rfl | hc := List.mem_cons.mp hc
  · rfl
  · exact Text.Hex.isAlphanum_of_mem_ofBytes hc

/-- Letters and digits with hyphens between them. -/
theorem closed_join {groups : List (List Char)} (hne : groups ≠ [])
    (hgroups : ∀ g ∈ groups, g ≠ [] ∧ ∀ c ∈ g, c.isAlphanum) :
    ∃ ts, IsClosed (Text.Split.join '-' groups) ts ∧
      Token.words ts = groups.filter (·.head?.any Char.isAlpha) := by
  induction groups with
  | nil => exact absurd rfl hne
  | cons g gs ih =>
    obtain ⟨hg, hall⟩ := hgroups g (by simp)
    have hfirst := IsClosed.alphanum hg hall
    cases gs with
    | nil => exact ⟨_, by simpa [Text.Split.join] using hfirst, words_ofAlphanum g⟩
    | cons g' gs =>
      obtain ⟨ts, hothers, hwords⟩ :=
        ih (List.cons_ne_nil _ _) fun h hh => hgroups h (by simp [hh])
      obtain ⟨hg', hall'⟩ := hgroups g' (by simp)
      have hhead : (Text.Split.join '-' (g' :: gs)).head?.any Char.isAlphanum := by
        rw [Text.Split.join_cons]
        cases g' with
        | nil => exact absurd rfl hg'
        | cons c cs => exact hall' c List.mem_cons_self
      rw [Text.Split.join_cons_cons]
      refine ⟨_, hfirst.append rfl (hothers.minus hhead), ?_⟩
      have hminus : Token.words (⟨.punctuation, ['-']⟩ :: ts) = Token.words ts := rfl
      rw [words_append, words_ofAlphanum, hminus, hwords, ← List.filter_append]
      rfl

theorem closed_uuid (u : Uuid) : ∃ ts, IsClosed u.text ts ∧
    Token.words ts = u.groups.filter (·.head?.any Char.isAlpha) := by
  rw [u.text_eq_join]
  exact closed_join (List.cons_ne_nil _ _) u.alphanum_groups

mutual

/-- A literal has the same tokens before whatever stands apart from it, and its words are among
them. -/
theorem closed_literal_words : ∀ {v : Value}, v.hasExpr = false →
    ∃ ts, IsClosed v.literalChars ts ∧ Token.words ts = v.words
  | .null, _ => closed_signed_alphanum false (by decide) (List.all_eq_true.mp rfl)
  | .bool true, _ => closed_signed_alphanum false (by decide) (List.all_eq_true.mp rfl)
  | .bool false, _ => closed_signed_alphanum false (by decide) (List.all_eq_true.mp rfl)
  | .int i, _ => closed_int i
  | .float x, _ => closed_float x
  | .text s, _ => ⟨_, IsClosed.quoted s.toList, rfl⟩
  | .uuid u, _ => closed_uuid u
  | .timestamp t, _ => ⟨_, IsClosed.quoted (t.text 3), rfl⟩
  | .blob bytes, _ => closed_blob bytes
  | .list items, hexpr => by
    by_cases hne : items = []
    · subst hne
      exact ⟨_, IsClosed.emptyBrackets, rfl⟩
    · obtain ⟨ts, hitems, hwords⟩ := closed_items_words hne (by simpa [hasExpr] using hexpr)
      refine ⟨_, hitems.brackets, ?_⟩
      rw [words, ← hwords, ← List.append_nil (Token.words ts)]
      exact words_append ts [⟨.punctuation, [']']⟩]

theorem closed_items_words : ∀ {items : List Value}, items ≠ [] → itemsHaveExpr items = false →
    ∃ ts, IsClosed (itemChars items) ts ∧ Token.words ts = itemWords items
  | [], hne, _ => absurd rfl hne
  | [v], _, hexpr => by
    rw [itemWords, itemWords, List.append_nil]
    exact closed_literal_words (by simpa [itemsHaveExpr] using hexpr)
  | v :: w :: vs, _, hexpr => by
    rw [itemsHaveExpr, Bool.or_eq_false_iff] at hexpr
    obtain ⟨ts, hfirst, hwords⟩ := closed_literal_words hexpr.1
    obtain ⟨us, hothers, hlater⟩ := closed_items_words (List.cons_ne_nil w vs) hexpr.2
    refine ⟨_, hfirst.append rfl hothers.comma, ?_⟩
    rw [words_append, itemWords, ← hwords, ← hlater]
    rfl

end

/-- A literal has the same tokens before whatever stands apart from it. -/
theorem closed_literal (hexpr : v.hasExpr = false) : ∃ ts, IsClosed v.literalChars ts :=
  (closed_literal_words hexpr).imp fun _ => And.left

/-- The scanner reads every literal without expressions, and finds neither a placeholder nor a
comment in it. Brackets are balanced outside quotes, and a text is one token, in which the text
stands with its quotes doubled. -/
theorem exists_tokens_literal (hexpr : v.hasExpr = false) :
    ∃ ts, readAll v.literal.toList = .ok ts ∧
      (∀ t ∈ ts, t.isPlaceholder = false ∧ t.kind ≠ .comment) ∧
      depthAfter 0 (outside ts) = some 0 ∧
      ∀ s, v = .text s → ∃ inner, ts = [⟨.string, '\'' :: (inner ++ ['\''])⟩] ∧
        Text.Quoted.unescape '\'' inner = s.toList := by
  obtain ⟨ts, hclosed⟩ := closed_literal hexpr
  have hscan : scan v.literalChars = (ts, none) := by
    have halone := hclosed.scan_append [] rfl
    rwa [List.append_nil, scan, List.append_nil] at halone
  have hread : readAll v.literal.toList = .ok ts := by
    rw [literal, String.toList_ofList]
    exact readAll_eq_ok_iff.mpr hscan
  refine ⟨ts, hread, hclosed.kinds, hclosed.depth 0, ?_⟩
  rintro s rfl
  have hquotation : IsQuotation '\'' .string (quoted s.toList) s.toList :=
    isQuotation_encode (fun _ => rfl) s.toList
  have hone := readAll_eq_ok_iff.mp hquotation.readAll_eq
  obtain ⟨inner, hinner, hcontent, -⟩ := hquotation
  have hliteral : (Value.text s).literalChars = '\'' :: (inner ++ ['\'']) := hinner
  rw [hliteral] at hscan
  rw [hinner, hscan] at hone
  exact ⟨inner, (Prod.mk.inj hone).1, hcontent⟩

/-- What looks like a comment, a placeholder, a bracket or an end of the text stands in quotes. -/
theorem exists_tokens_literal_nested :
    (Value.list [.text "it's ] -- :x", .list [], .int (-5)]).literal = "['it''s ] -- :x', [], -5]" ∧
      ∃ ts, readAll "['it''s ] -- :x', [], -5]".toList = .ok ts ∧
        (∀ t ∈ ts, t.isPlaceholder = false ∧ t.kind ≠ .comment) ∧
        depthAfter 0 (outside ts) = some 0 := by
  have hliteral : (Value.list [.text "it's ] -- :x", .list [], .int (-5)]).literal =
      "['it''s ] -- :x', [], -5]" := by decide +kernel
  obtain ⟨ts, hread, hkinds, hdepth, -⟩ := exists_tokens_literal
    (v := .list [.text "it's ] -- :x", .list [], .int (-5)]) rfl
  rw [hliteral] at hread
  exact ⟨hliteral, ts, hread, hkinds, hdepth⟩

end Cql.Value
