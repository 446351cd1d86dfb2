import Cql.Query
import Cql.Text.Quoted

/-!
Texts that the scanner reads as they were written. Such a text is made of characters that have no
meaning of their own, of quoted text, and of placeholders of one dialect. Its skeleton is what is
left when a gap stands for each placeholder; the main statement is that the tokens of the text have
the skeleton of the text, and carry the names of its placeholders.
-/

namespace Cql.Token

open Query (Dialect)

/-- Outside quotes such a character neither starts a comment, a quoted text or a placeholder, nor
does it belong to one. -/
def isInert (c : Char) : Bool :=
  isWordChar c || c == '.' || Text.Blank.isAscii c || c == ',' || c == '(' || c == ')' ||
    c == '[' || c == ']' || c == '=' || c == '<' || c == '>' || c == '!' || c == '*'

/-- The characters of a text, with a gap for each placeholder. -/
abbrev Skeleton := List (Option Char)

def bones (t : Token) : Skeleton := if t.isPlaceholder then [none] else t.chars.map some

def skeleton (ts : List Token) : Skeleton := ts.flatMap bones

/-- A letter or an underscore, and then letters, digits and underscores. -/
def IsName (name : List Char) : Prop := name.head?.any isNameStart ∧ ∀ c ∈ name, isNameChar c

/-- A text with its skeleton and the names of its placeholders. -/
inductive Legible (dialect : Dialect) : List Char → Skeleton → List (List Char) → Prop
  | nil : Legible dialect [] [] []
  | inert {c cs sk ns} : isInert c → Legible dialect cs sk ns →
      Legible dialect (c :: cs) (some c :: sk) ns
  | minus {cs sk ns} : cs.head? ≠ some '-' → Legible dialect cs sk ns →
      Legible dialect ('-' :: cs) (some '-' :: sk) ns
  | quoted {q cs sk ns} (body : List Char) : q = '\'' ∨ q = '"' → cs.head? ≠ some q →
      Legible dialect cs sk ns →
      Legible dialect (q :: (Text.Quoted.escape q body ++ q :: cs))
        (some q :: ((Text.Quoted.escape q body).map some ++ some q :: sk)) ns
  | mark {cs sk ns} : dialect = .mark → Legible dialect cs sk ns →
      Legible dialect ('?' :: cs) (none :: sk) ns
  | colon {name cs sk ns} : dialect = .colon → IsName name → ¬ cs.head?.any isNameChar →
      Legible dialect cs sk ns → Legible dialect (':' :: (name ++ cs)) (none :: sk) (name :: ns)

variable {c : Char} {cs taken rest : List Char} {kind : Kind} {dialect : Dialect} {sk : Skeleton}
  {ns : List (List Char)}

@[simp]
theorem skeleton_cons (t : Token) (ts : List Token) : skeleton (t :: ts) = bones t ++ skeleton ts :=
  rfl

theorem bones_eq {t : Token} (h : t.isPlaceholder = false) : bones t = t.chars.map some := by
  simp [bones, h]

theorem name?_eq_none {t : Token} (h : t.isPlaceholder = false) : t.name? = none := by
  obtain ⟨kind, chars⟩ := t
  cases kind <;> simp_all [isPlaceholder, name?]

theorem dialect?_eq_none {t : Token} (h : t.isPlaceholder = false) : Query.dialect? t = none := by
  obtain ⟨kind, chars⟩ := t
  cases kind <;> simp_all [isPlaceholder, Query.dialect?]

theorem ne_of_isInert {d : Char} (hc : isInert c) (hd : isInert d = false) : c ≠ d := by
  rintro rfl
  simp [hd] at hc

theorem isNameChar_of_isNameStart (h : isNameStart c) : isNameChar c := by
  simp only [isNameStart, Bool.or_eq_true] at h
  rcases h with h | h <;> simp [isNameChar, Char.isAlphanum, h]

theorem isInert_of_isWordChar (h : isWordChar c) : isInert c := by
  simp [isInert, h]

theorem isNumberChar_of_isAlphanum (h : c.isAlphanum) : isNumberChar c := by
  simp [isNumberChar, h]

theorem isInert_of_isNumberChar (h : isNumberChar c) : isInert c := by
  simp only [isNumberChar, Bool.or_eq_true, beq_iff_eq] at h
  obtain rfl | h := h
  · rfl
  · exact isInert_of_isWordChar (by simp [isWordChar, isNameChar, h])

theorem isInert_of_mem_cutWord {d : Char} (h : d ∈ (cutWord cs).1) : isInert d := by
  fun_induction cutWord cs with
  | case1 => simp at h
  | case2 c cs hc ih =>
    obtain rfl | h := List.mem_cons.mp h
    · obtain hw | ⟨rfl, -⟩ := hc
      · exact isInert_of_isWordChar hw
      · rfl
    · exact ih h
  | case3 => simp at h

theorem isInert_of_mem_cutOperator {d : Char} (hc : isInert c) (h : d ∈ (cutOperator c cs).1) :
    isInert d := by
  cases cs with
  | nil => simp [cutOperator] at h
  | cons e cs =>
    have hbar : c ≠ '|' := ne_of_isInert hc rfl
    simp only [cutOperator] at h
    split at h
    · rename_i hmem
      have hd : d = e := by simpa using h
      subst hd
      simp only [List.contains_iff_mem, List.mem_cons, Prod.mk.injEq, hbar, false_and,
        List.not_mem_nil, or_false] at hmem
      rcases hmem with ⟨-, rfl⟩ | ⟨-, rfl⟩ | ⟨-, rfl⟩ | ⟨-, rfl⟩ <;> rfl
    · simp at h

/-- A token that starts with such a character is no placeholder and holds only such characters. -/
theorem next_of_isInert (cs : List Char) (hc : isInert c) :
    ∃ kind taken rest, next c cs = .ok (kind, taken, rest) ∧ (∀ d ∈ taken, isInert d) ∧
      isPlaceholder ⟨kind, c :: taken⟩ = false := by
  have hd : ∀ d, isInert d = false → c ≠ d := fun d => ne_of_isInert hc
  simp only [next, hd '-' rfl, hd '/' rfl, hd '\'' rfl, hd '"' rfl, hd '?' rfl, hd ':' rfl,
    hd '#' rfl, false_and, or_self, if_false]
  split
  · refine ⟨_, _, _, rfl, fun d h => ?_, rfl⟩
    have hblank : Text.Blank.isAscii d := List.all_eq_true.mp List.all_takeWhile d h
    simp [isInert, hblank]
  split
  · exact ⟨_, _, _, rfl, fun d h => isInert_of_mem_cutWord h, rfl⟩
  split
  · refine ⟨_, _, _, rfl, fun d h => isInert_of_isNumberChar ?_, rfl⟩
    exact List.all_eq_true.mp List.all_takeWhile d h
  · exact ⟨_, _, _, rfl, fun d h => isInert_of_mem_cutOperator hc h, rfl⟩

theorem next_minus (h : cs.head? ≠ some '-') :
    next '-' cs = .ok (.punctuation, [], cs) := by
  have hop : cutOperator '-' cs = ([], cs) := by cases cs <;> simp [cutOperator]
  simp [next, h, hop, Text.Blank.isAscii, isNameStart]

theorem cutQuoted_cons {q a : Char} (h : a ≠ q) (cs : List Char) :
    cutQuoted q (a :: cs) = (cutQuoted q cs).cons a := by
  cases cs with
  | nil => rfl
  | cons d cs => simp [cutQuoted, h]

theorem cutQuoted_escape {q : Char} (body : List Char) (h : cs.head? ≠ some q) :
    cutQuoted q (Text.Quoted.escape q body ++ q :: cs) =
      (Text.Quoted.escape q body ++ [q], cs) := by
  induction body with
  | nil =>
    cases cs with
    | nil => rfl
    | cons d cs =>
      have hd : d ≠ q := by simpa using h
      simp [Text.Quoted.escape, cutQuoted, hd]
  | cons a body ih =>
    by_cases ha : a = q
    · simp [Text.Quoted.escape, cutQuoted, ha, ih, Cut.cons]
    · simp [Text.Quoted.escape, cutQuoted_cons, ha, ih, Cut.cons]

theorem next_quote {q : Char} (hq : q = '\'' ∨ q = '"') (cs : List Char) :
    ∃ kind, next q cs = .ok (kind, cutQuoted q cs) ∧
      ∀ chars, isPlaceholder ⟨kind, chars⟩ = false := by
  obtain rfl | rfl := hq
  · exact ⟨.string, rfl, fun _ => rfl⟩
  · exact ⟨.quotedName, rfl, fun _ => rfl⟩

theorem cutWhile_append_of_all {p : Char → Bool} (hall : ∀ d ∈ taken, p d)
    (hrest : ¬ rest.head?.any p) : cutWhile p (taken ++ rest) = (taken, rest) := by
  have hstop : rest.takeWhile p = [] ∧ rest.dropWhile p = rest := by
    cases rest with
    | nil => simp
    | cons d ds => simp_all
  rw [cutWhile, List.takeWhile_append_of_pos hall, List.dropWhile_append_of_pos hall, hstop.1,
    hstop.2, List.append_nil]

theorem next_colon {name : List Char} (hname : IsName name) (hrest : ¬ cs.head?.any isNameChar) :
    next ':' (name ++ cs) = .ok (.colonNamed, name, cs) := by
  obtain ⟨hstart, hall⟩ := hname
  have hhead : (name ++ cs).head?.any isNameStart := by
    cases name with
    | nil => simp at hstart
    | cons d name => simpa using hstart
  simp only [next, hhead]
  simp [Text.Blank.isAscii, cutWhile_append_of_all hall hrest]

namespace Legible

theorem of_inert (hc : isInert c) (h : Legible dialect (c :: cs) sk ns) :
    ∃ sk', sk = some c :: sk' ∧ Legible dialect cs sk' ns := by
  cases h with
  | inert _ h => exact ⟨_, rfl, h⟩
  | minus | mark | colon => simp_all [isInert, isWordChar, isNameChar, Text.Blank.isAscii]
  | quoted body hq =>
    rcases hq with rfl | rfl <;> simp [isInert, isWordChar, isNameChar, Text.Blank.isAscii] at hc

theorem append_inert (htaken : ∀ d ∈ taken, isInert d) (h : Legible dialect rest sk ns) :
    Legible dialect (taken ++ rest) (taken.map some ++ sk) ns := by
  induction taken with
  | nil => exact h
  | cons d taken ih =>
    exact .inert (htaken d (by simp)) (ih fun e he => htaken e (by simp [he]))

/-- A minus before a character without meaning starts no comment. -/
theorem minus_append (hne : taken ≠ []) (htaken : ∀ d ∈ taken, isInert d)
    (h : Legible dialect rest sk ns) :
    Legible dialect ('-' :: (taken ++ rest)) (some '-' :: (taken.map some ++ sk)) ns := by
  refine .minus ?_ (append_inert htaken h)
  cases taken with
  | nil => exact absurd rfl hne
  | cons d taken =>
    have hd : d ≠ '-' := ne_of_isInert (htaken d (by simp)) rfl
    simpa using hd

theorem drop_inert (htaken : ∀ d ∈ taken, isInert d)
    (h : Legible dialect (taken ++ rest) sk ns) :
    ∃ sk', sk = taken.map some ++ sk' ∧ Legible dialect rest sk' ns := by
  induction taken generalizing sk with
  | nil => exact ⟨sk, rfl, h⟩
  | cons d taken ih =>
    obtain ⟨sk₁, rfl, h₁⟩ := of_inert (htaken d (by simp)) h
    obtain ⟨sk₂, rfl, h₂⟩ := ih (fun e he => htaken e (by simp [he])) h₁
    exact ⟨sk₂, rfl, h₂⟩

/-- The first token of such a text accounts for a part of its skeleton and its names, and what it
leaves is such a text again. -/
theorem next_ok (h : Legible dialect (c :: cs) sk ns) :
    ∃ kind taken rest sk' ns', next c cs = .ok (kind, taken, rest) ∧
      sk = bones ⟨kind, c :: taken⟩ ++ sk' ∧ ns = (name? ⟨kind, c :: taken⟩).toList ++ ns' ∧
      (∀ d ∈ Query.dialect? ⟨kind, c :: taken⟩, d = dialect) ∧ Legible dialect rest sk' ns' := by
  cases h with
  | inert hc h =>
    obtain ⟨kind, taken, rest, hnext, htaken, hplace⟩ := next_of_isInert cs hc
    have happ : taken ++ rest = cs := next_append hnext
    rw [← happ] at h
    obtain ⟨sk', rfl, hrest⟩ := drop_inert htaken h
    exact ⟨kind, taken, rest, sk', ns, hnext, by rw [bones_eq hplace]; rfl,
      by rw [name?_eq_none hplace]; rfl, by simp [dialect?_eq_none hplace], hrest⟩
  | minus hhead h =>
    exact ⟨_, _, _, _, _, next_minus hhead, rfl, rfl, by simp [Query.dialect?], h⟩
  | @quoted _ cs' sk' _ body hq hhead h =>
    obtain ⟨kind, hnext, hplace⟩ := next_quote hq (Text.Quoted.escape c body ++ c :: cs')
    rw [cutQuoted_escape body hhead] at hnext
    exact ⟨kind, Text.Quoted.escape c body ++ [c], cs', sk', ns, hnext,
      by simp [bones_eq (hplace _)], by rw [name?_eq_none (hplace _)]; rfl,
      by simp [dialect?_eq_none (hplace _)], h⟩
  | mark hd h =>
    exact ⟨.positional, [], _, _, _, rfl, rfl, rfl, by simp [Query.dialect?, hd], h⟩
  | colon hd hname hrest h =>
    exact ⟨.colonNamed, _, _, _, _, next_colon hname hrest, rfl, rfl,
      by simp [Query.dialect?, hd], h⟩

/-- The tokens of such a text have its skeleton and its names, and its placeholders are of one
dialect. -/
theorem scan_eq (h : Legible dialect cs sk ns) :
    ∃ ts, scan cs = (ts, none) ∧ skeleton ts = sk ∧ ts.filterMap name? = ns ∧
      ∀ d ∈ ts.filterMap Query.dialect?, d = dialect := by
  fun_induction scan cs generalizing sk ns with
  | case1 =>
    cases h
    exact ⟨[], rfl, rfl, rfl, by simp⟩
  | case2 c cs fault hnext =>
    obtain ⟨_, _, _, _, _, hok, -⟩ := next_ok h
    rw [hnext] at hok
    cases hok
  | case3 c cs kind taken rest hnext later =>
    rename_i ih
    obtain ⟨_, _, _, sk', ns', hok, rfl, rfl, hdialect, hrest⟩ := next_ok h
    rw [hnext] at hok
    cases hok
    obtain ⟨ts, hscan, rfl, rfl, hall⟩ := ih hrest
    refine ⟨⟨kind, c :: taken⟩ :: ts, by simp only [later, hscan], rfl, ?_, ?_⟩
    · cases hname : name? ⟨kind, c :: taken⟩ <;> simp [hname]
    · intro d hd
      obtain ⟨t, ht, htd⟩ := List.mem_filterMap.mp hd
      obtain rfl | ht := List.mem_cons.mp ht
      · exact hdialect d htd
      · exact hall d (List.mem_filterMap.mpr ⟨t, ht, htd⟩)

end Legible

/-- The text of a skeleton with a question mark in each gap. -/
def Skeleton.marked (sk : Skeleton) : List Char := sk.map (·.getD '?')

theorem canonicalChars_eq (t : Token) : Query.canonicalChars t = Skeleton.marked (bones t) := by
  cases h : t.isPlaceholder
  · simp [Query.canonicalChars, Skeleton.marked, bones, h, Function.comp_def]
  · simp [Query.canonicalChars, Query.canonicalMark, Skeleton.marked, bones, h]

theorem flatMap_canonicalChars (ts : List Token) :
    ts.flatMap Query.canonicalChars = Skeleton.marked (skeleton ts) := by
  induction ts with
  | nil => rfl
  | cons t ts ih =>
    simp only [List.flatMap_cons, skeleton_cons, canonicalChars_eq, ih, Skeleton.marked,
      List.map_append]

theorem count_bones (t : Token) : (bones t).count none = if t.isPlaceholder then 1 else 0 := by
  cases h : t.isPlaceholder
  · simp [bones, h, List.count_eq_zero]
  · simp [bones, h]

theorem countP_isPlaceholder (ts : List Token) :
    ts.countP isPlaceholder = (skeleton ts).count none := by
  induction ts with
  | nil => rfl
  | cons t ts ih =>
    rw [List.countP_cons, skeleton_cons, List.count_append, count_bones, ih, Nat.add_comm]

theorem mixture?_eq_none {ds : List Dialect} (h : ∀ d ∈ ds, d = dialect) :
    Query.mixture? ds = none := by
  cases ds with
  | nil => rfl
  | cons d ds =>
    have hd : d = dialect := h d (by simp)
    have hfind : ds.find? (· ≠ d) = none := by
      rw [List.find?_eq_none]
      intro e he
      simp [hd, h e (by simp [he])]
    rw [Query.mixture?, hfind]
    rfl

/-- Reading a legible statement puts a question mark in each gap and keeps the names. -/
theorem Legible.read_eq {s : String} (h : Legible dialect s.toList sk ns)
    (hverb : isManipulation s.toList) :
    Query.read s = .ok {
      source := s
      canonical := String.ofList sk.marked
      names := ns.map String.ofList
      parameterCount := sk.count none } := by
  obtain ⟨ts, hscan, rfl, rfl, hall⟩ := h.scan_eq
  simp only [Query.read, hverb, if_true, readAll, hscan, Query.ofTokens, mixture?_eq_none hall,
    flatMap_canonicalChars, countP_isPlaceholder]

end Cql.Token
