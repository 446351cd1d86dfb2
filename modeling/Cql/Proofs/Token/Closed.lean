import Cql.Proofs.Casing.Path
import Cql.Proofs.Token.Quoted
import Cql.Proofs.Token.Word

/-!
Closed text. Its tokens are the same before whatever stands apart from it, none of them is a comment
or a placeholder or makes a call, and outside quotes every bracket that it opens is closed again. A
closed text can be put into another one, and nothing that stands in its quotes has an effect there.
-/

namespace Cql.Token

/-- How many brackets are open after a text, if none was closed that was not open. -/
def depthAfter : Nat → List Char → Option Nat
  | depth, [] => some depth
  | depth, '[' :: cs => depthAfter (depth + 1) cs
  | 0, ']' :: _ => none
  | depth + 1, ']' :: cs => depthAfter depth cs
  | depth, _ :: cs => depthAfter depth cs

/-- The text that stands outside single quotes. -/
def outside (ts : List Token) : List Char := flatten (ts.filter (·.kind ≠ .string))

/-- The words among tokens. -/
def words (ts : List Token) : List (List Char) := (ts.filter (·.kind = .word)).map chars

/-- Letters and digits as a token: a word if they begin with a letter, and else a number. -/
def ofAlphanum (cs : List Char) : Token :=
  ⟨if cs.head?.any Char.isAlpha then .word else .number, cs⟩

/-- Such a character goes on neither with a word or a number nor with a quoted text. -/
def standsApart (c : Char) : Bool := !(isWordChar c || c == '.' || c == '\'')

structure IsClosed (cs : List Char) (ts : List Token) : Prop where
  scan_append : ∀ rest : List Char, rest.head?.all standsApart →
    scan (cs ++ rest) = (ts ++ (scan rest).1, (scan rest).2)
  head : cs.head?.any fun c => !Text.Blank.isAscii c
  kinds : ∀ t ∈ ts, t.isPlaceholder = false ∧ t.kind ≠ .comment
  parens : ∀ t ∈ ts, t.isOpenParen = false
  depth : ∀ depth, depthAfter depth (outside ts) = some depth

variable {c d : Char} {cs ds rest : List Char} {ts us : List Token} {kind : Kind}

theorem depthAfter_append (depth : Nat) (cs ds : List Char) :
    depthAfter depth (cs ++ ds) = (depthAfter depth cs).bind (depthAfter · ds) := by
  fun_induction depthAfter depth cs with
  | case1 => rfl
  | case2 depth cs ih => exact ih
  | case3 => rfl
  | case4 depth cs ih => exact ih
  | case5 depth c cs hopen hclose hzero ih =>
    rw [List.cons_append, depthAfter]
    · exact ih
    · exact hopen
    · exact hclose
    · exact hzero

theorem depthAfter_of_all (h : ∀ c ∈ cs, c ≠ '[' ∧ c ≠ ']') (depth : Nat) :
    depthAfter depth cs = some depth := by
  induction cs with
  | nil => rfl
  | cons c cs ih =>
    obtain ⟨hopen, hclose⟩ := h c (by simp)
    rw [depthAfter]
    · exact ih fun d hd => h d (by simp [hd])
    all_goals simp_all

theorem standsApart_iff : standsApart c ↔ isWordChar c = false ∧ c ≠ '.' ∧ c ≠ '\'' := by
  simp [standsApart, and_assoc]

theorem not_isNumberChar_of_standsApart (h : standsApart c) : isNumberChar c = false := by
  obtain ⟨hword, hdot, -⟩ := standsApart_iff.mp h
  simp only [isWordChar, isNameChar, Bool.or_eq_false_iff] at hword
  simp [isNumberChar, hdot, hword.2.2]

theorem not_extendsWord_of_standsApart (h : rest.head?.all standsApart) : ¬ExtendsWord rest := by
  cases rest with
  | nil => exact id
  | cons c cs =>
    obtain ⟨hword, hdot, -⟩ := standsApart_iff.mp h
    rintro (hc | ⟨hc, -⟩)
    · rw [hword] at hc
      cases hc
    · exact hdot hc

theorem not_any_isNumberChar_of_standsApart (h : rest.head?.all standsApart) :
    ¬rest.head?.any isNumberChar := by
  cases rest with
  | nil => exact Bool.false_ne_true
  | cons c cs =>
    rw [List.head?_cons, Option.any_some, not_isNumberChar_of_standsApart h]
    exact Bool.false_ne_true

theorem head?_ne_quote_of_standsApart (h : rest.head?.all standsApart) :
    rest.head? ≠ some '\'' := by
  intro hquote
  rw [hquote] at h
  cases h

theorem form_of_isDigit (h : c.isDigit) (after : Option Char) : form c after = .number := by
  have hne : ∀ d : Char, d.isDigit = false → c ≠ d := by
    rintro d hd rfl
    rw [h] at hd
    cases hd
  have hblank : Text.Blank.isAscii c = false := by simp [Text.Blank.isAscii, hne]
  have hletter : c.isAlpha = false := Casing.isAlpha_eq_false_of_isDigit h
  simp [form, hblank, hne, isNameStart, hletter, h]

theorem next_of_isDigit (hc : c.isDigit) (hcs : ∀ d ∈ cs, isNumberChar d)
    (hrest : rest.head?.all standsApart) : next c (cs ++ rest) = .ok (.number, cs, rest) := by
  have hcut := cutWhile_append_of_all hcs (not_any_isNumberChar_of_standsApart hrest)
  rw [next_eq, form_of_isDigit hc, Form.cut, hcut]
  rfl

theorem next_of_isAlphanum (hc : c.isAlpha) (hcs : ∀ d ∈ cs, d.isAlphanum)
    (hrest : rest.head?.all standsApart) : next c (cs ++ rest) = .ok (.word, cs, rest) := by
  have hword : ∀ d ∈ cs, isWordChar d := fun d hd => by simp [isWordChar, isNameChar, hcs d hd]
  have hcut := cutWord_append_of_all hword rest
  rw [cutWord_of_not_extendsWord (not_extendsWord_of_standsApart hrest), List.append_nil] at hcut
  rw [next_eq, form_of_isAlpha hc, Form.cut, hcut]
  rfl

theorem ne_of_isNumberChar (hc : isNumberChar c) (hd : isNumberChar d = false) : c ≠ d := by
  rintro rfl
  rw [hc] at hd
  cases hd

/-- The signs of a list are tokens of their own. -/
theorem next_of_mem_signs (h : c ∈ ['[', ']', ',']) (cs : List Char) :
    next c cs = .ok (.punctuation, [], cs) := by
  have hoperator : cutOperator c cs = ([], cs) := by
    cases cs with
    | nil => rfl
    | cons d cs => fin_cases h <;> simp [cutOperator]
  have hform : form c cs.head? = .operator := by
    fin_cases h <;> simp [form, isNameStart, Text.Blank.isAscii]
  rw [next_eq, hform, Form.cut, hoperator]
  rfl

theorem next_blank (h : ¬cs.head?.any Text.Blank.isAscii) : next ' ' cs = .ok (.blank, [], cs) := by
  have hcut : cutWhile Text.Blank.isAscii cs = ([], cs) :=
    cutWhile_append_of_all (fun d hd => absurd hd List.not_mem_nil) h
  rw [next, if_pos (by decide), hcut]

theorem isAscii_of_next_blank {taken : List Char} (h : next c cs = .ok (.blank, taken, rest)) :
    Text.Blank.isAscii c := by
  obtain ⟨hkind, -⟩ := next_eq_ok_iff.mp h
  have hopens := opens_form c cs.head?
  generalize form c cs.head? = f at hkind hopens
  cases f with
  | blank => exact hopens
  | _ => cases hkind

theorem outside_append (ts us : List Token) : outside (ts ++ us) = outside ts ++ outside us := by
  rw [outside, List.filter_append, flatten_append]
  rfl

theorem words_append (ts us : List Token) : words (ts ++ us) = words ts ++ words us := by
  rw [words, List.filter_append, List.map_append]
  rfl

theorem forall_mem_words {P : List Char → Prop} :
    (∀ word ∈ words ts, P word) ↔ ∀ t ∈ ts, t.kind = .word → P t.chars := by
  rw [words, List.forall_mem_map]
  simp [and_imp]

theorem words_ofAlphanum (cs : List Char) :
    words [ofAlphanum cs] = [cs].filter (·.head?.any Char.isAlpha) := by
  cases hhead : cs.head?.any Char.isAlpha <;> simp [words, ofAlphanum, hhead]

namespace IsClosed

theorem scan_eq (h : IsClosed cs ts) : scan cs = (ts, none) := by
  have halone := h.scan_append [] rfl
  rwa [List.append_nil, scan, List.append_nil] at halone

/-- Closed text begins with a token that neither is blank nor opens a parenthesis. -/
theorem exists_cons (h : IsClosed cs ts) :
    ∃ t us, ts = t :: us ∧ t.kind ≠ .blank ∧ t.isOpenParen = false := by
  have hhead := h.head
  cases ts with
  | nil =>
    rw [eq_nil_of_scan h.scan_eq] at hhead
    cases hhead
  | cons t us =>
    obtain ⟨c, ds, taken, rest, rfl, -, hnext, -⟩ := scan_cons h.scan_eq
    refine ⟨t, us, rfl, fun hblank => ?_, h.parens t List.mem_cons_self⟩
    rw [hblank] at hnext
    simp [isAscii_of_next_blank hnext] at hhead

/-- Text that is one token before whatever stands apart from it. -/
theorem of_next (hkind : Token.isPlaceholder ⟨kind, c :: cs⟩ = false ∧ kind ≠ .comment)
    (hall : ∀ d ∈ c :: cs, isNumberChar d)
    (hnext : ∀ rest : List Char, rest.head?.all standsApart →
      next c (cs ++ rest) = .ok (kind, cs, rest)) :
    IsClosed (c :: cs) [⟨kind, c :: cs⟩] where
  scan_append rest hrest := scan_of_next (hnext rest hrest)
  head := by
    have hc : ∀ d, isNumberChar d = false → c ≠ d :=
      fun d => ne_of_isNumberChar (hall c List.mem_cons_self)
    simp [Text.Blank.isAscii, hc ' ' rfl, hc '\t' rfl, hc '\n' rfl, hc '\x0c' rfl, hc '\r' rfl]
  kinds := by
    rw [List.forall_mem_singleton]
    exact hkind
  parens := by
    have hc : c ≠ '(' := ne_of_isNumberChar (hall c List.mem_cons_self) rfl
    simp [isOpenParen, hc]
  depth depth := by
    refine depthAfter_of_all (fun d hd => ?_) depth
    have hmem : d ∈ c :: cs := by
      obtain ⟨t, ht, hdt⟩ := List.mem_flatMap.mp hd
      obtain rfl := List.mem_singleton.mp (List.mem_of_mem_filter ht)
      exact hdt
    exact ⟨ne_of_isNumberChar (hall d hmem) rfl, ne_of_isNumberChar (hall d hmem) rfl⟩

theorem number (hc : c.isDigit) (hcs : ∀ d ∈ cs, isNumberChar d) :
    IsClosed (c :: cs) [⟨.number, c :: cs⟩] := by
  refine of_next ⟨rfl, Kind.noConfusion⟩ (fun d hd => ?_) fun rest => next_of_isDigit hc hcs
  obtain rfl | hd := List.mem_cons.mp hd
  · exact isNumberChar_of_isAlphanum (by simp [Char.isAlphanum, hc])
  · exact hcs d hd

/-- Letters and digits are a word or a number. -/
theorem alphanum (hne : cs ≠ []) (hall : ∀ c ∈ cs, c.isAlphanum) :
    IsClosed cs [ofAlphanum cs] := by
  obtain ⟨c, cs, rfl⟩ := List.exists_cons_of_ne_nil hne
  have hnumber : ∀ d ∈ c :: cs, isNumberChar d := fun d hd => isNumberChar_of_isAlphanum (hall d hd)
  have hcs : ∀ d ∈ cs, d.isAlphanum := fun d hd => hall d (by simp [hd])
  have hc : c.isAlpha ∨ c.isDigit := by simpa [Char.isAlphanum] using hall c List.mem_cons_self
  rw [ofAlphanum, List.head?_cons, Option.any_some]
  by_cases hletter : c.isAlpha
  · have hnext : ∀ rest : List Char, rest.head?.all standsApart →
        next c (cs ++ rest) = .ok (.word, cs, rest) := fun _ => next_of_isAlphanum hletter hcs
    rw [if_pos hletter]
    exact of_next ⟨rfl, Kind.noConfusion⟩ hnumber hnext
  · rw [if_neg hletter]
    exact number (hc.resolve_left hletter) fun d hd => hnumber d (by simp [hd])

theorem minus (hhead : cs.head?.any Char.isAlphanum) (h : IsClosed cs ts) :
    IsClosed ('-' :: cs) (⟨.punctuation, ['-']⟩ :: ts) where
  scan_append rest hrest := by
    have hnext : next '-' (cs ++ rest) = .ok (.punctuation, [], cs ++ rest) := by
      refine next_minus ?_
      cases cs with
      | nil => cases hhead
      | cons c cs =>
        rintro ⟨⟩
        cases hhead
    rw [List.cons_append, scan_of_next hnext, h.scan_append rest hrest]
    rfl
  head := rfl
  kinds := by
    rw [List.forall_mem_cons]
    exact ⟨⟨rfl, Kind.noConfusion⟩, h.kinds⟩
  parens := by
    rw [List.forall_mem_cons]
    exact ⟨rfl, h.parens⟩
  depth := h.depth

/-- Text that stands apart may follow. -/
theorem append (h : IsClosed cs ts) (hd : standsApart d) (hds : IsClosed (d :: ds) us) :
    IsClosed (cs ++ d :: ds) (ts ++ us) where
  scan_append rest hrest := by
    rw [List.append_assoc, h.scan_append _ (by simpa using hd), hds.scan_append rest hrest,
      List.append_assoc]
  head := by
    have hhead := h.head
    cases cs with
    | nil => cases hhead
    | cons c cs => exact hhead
  kinds := by
    rw [List.forall_mem_append]
    exact ⟨h.kinds, hds.kinds⟩
  parens := by
    rw [List.forall_mem_append]
    exact ⟨h.parens, hds.parens⟩
  depth depth := by
    rw [outside_append, depthAfter_append, h.depth]
    exact hds.depth depth

theorem comma (h : IsClosed cs ts) :
    IsClosed (',' :: ' ' :: cs) (⟨.punctuation, [',']⟩ :: ⟨.blank, [' ']⟩ :: ts) where
  scan_append rest hrest := by
    have hhead : ¬(cs ++ rest).head?.any Text.Blank.isAscii := by
      have hhead := h.head
      cases cs with
      | nil => cases hhead
      | cons c cs => simpa using hhead
    have hblank := next_blank hhead
    rw [List.cons_append, scan_of_next (next_of_mem_signs (by simp) _), List.cons_append,
      scan_of_next hblank, h.scan_append rest hrest]
    rfl
  head := rfl
  kinds := by
    rw [List.forall_mem_cons, List.forall_mem_cons]
    exact ⟨⟨rfl, Kind.noConfusion⟩, ⟨rfl, Kind.noConfusion⟩, h.kinds⟩
  parens := by
    rw [List.forall_mem_cons, List.forall_mem_cons]
    exact ⟨rfl, rfl, h.parens⟩
  depth := h.depth

/-- Brackets around nothing. -/
theorem emptyBrackets :
    IsClosed ['[', ']'] [⟨.punctuation, ['[']⟩, ⟨.punctuation, [']']⟩] where
  scan_append rest _ := by
    rw [List.cons_append, scan_of_next (next_of_mem_signs (by simp) _), List.singleton_append,
      scan_of_next (next_of_mem_signs (by simp) _)]
    rfl
  head := rfl
  kinds := by
    rw [List.forall_mem_cons, List.forall_mem_singleton]
    exact ⟨⟨rfl, Kind.noConfusion⟩, rfl, Kind.noConfusion⟩
  parens := by
    rw [List.forall_mem_cons, List.forall_mem_singleton]
    exact ⟨rfl, rfl⟩
  depth _ := rfl

theorem brackets (h : IsClosed cs ts) :
    IsClosed ('[' :: (cs ++ [']'])) (⟨.punctuation, ['[']⟩ :: (ts ++ [⟨.punctuation, [']']⟩])) where
  scan_append rest hrest := by
    have hclose : (']' :: rest).head?.all standsApart := rfl
    rw [List.cons_append, scan_of_next (next_of_mem_signs (by simp) _), List.append_assoc,
      List.singleton_append, h.scan_append _ hclose, scan_of_next (next_of_mem_signs (by simp) _)]
    simp
  head := rfl
  kinds := by
    rw [List.forall_mem_cons, List.forall_mem_append, List.forall_mem_singleton]
    exact ⟨⟨rfl, Kind.noConfusion⟩, h.kinds, rfl, Kind.noConfusion⟩
  parens := by
    rw [List.forall_mem_cons, List.forall_mem_append, List.forall_mem_singleton]
    exact ⟨rfl, h.parens, rfl⟩
  depth depth := by
    change depthAfter (depth + 1) (outside (ts ++ [⟨.punctuation, [']']⟩])) = some depth
    rw [outside_append, depthAfter_append, h.depth]
    rfl

/-- Text in single quotes. -/
theorem quoted (content : List Char) :
    IsClosed (Text.Quoted.encode '\'' content) [⟨.string, Text.Quoted.encode '\'' content⟩] where
  scan_append rest hrest := by
    have hquotation : IsQuotation '\'' .string (Text.Quoted.encode '\'' content) content :=
      isQuotation_encode (fun _ => rfl) content
    obtain ⟨inner, -, -, hscan⟩ := hquotation
    exact hscan rest (head?_ne_quote_of_standsApart hrest)
  head := rfl
  kinds := by
    rw [List.forall_mem_singleton]
    exact ⟨rfl, Kind.noConfusion⟩
  parens := by
    rw [List.forall_mem_singleton]
    rfl
  depth _ := rfl

end IsClosed

end Cql.Token
