import Cql.Proofs.Predicate.Settled

/-!
Reading settled predicates back. The text of a settled predicate tells where the predicate ends
before a closing parenthesis or at the end of the text, and the text and the values tell which
predicate it is. So a rendered predicate cannot be taken for another one.
-/

namespace Cql

/-- Two ways to take characters off a text that stop at the same kind of character are one. -/
theorem append_unique {p : Char → Bool} {xs xs' rest rest' : List Char}
    (h : xs ++ rest = xs' ++ rest') (hxs : ∀ c ∈ xs, p c) (hxs' : ∀ c ∈ xs', p c)
    (hrest : ¬ rest.head?.any p) (hrest' : ¬ rest'.head?.any p) : xs = xs' ∧ rest = rest' := by
  have hcut := Token.cutWhile_append_of_all hxs hrest
  rw [h, Token.cutWhile_append_of_all hxs' hrest'] at hcut
  exact ⟨(Prod.mk.inj hcut).1.symm, (Prod.mk.inj hcut).2.symm⟩

/-- What follows the first of the listed texts, and then the rest. -/
theorem listed_append (separator : List Char) (first : List Char) (others : List (List Char))
    (rest : List Char) : listed separator (first :: others) ++ rest =
      first ++ (others.flatMap (separator ++ ·) ++ rest) := by
  rw [listed, List.append_assoc]

/-- Behind a listed text stands a separator or the rest. -/
theorem not_head?_separated {p : Char → Bool} {c : Char} {separator rest : List Char}
    (hseparator : p c = false) (hrest : ¬ rest.head?.any p) (xs : List (List Char)) :
    ¬ (xs.flatMap ((c :: separator) ++ ·) ++ rest).head?.any p := by
  cases xs with
  | nil => exact hrest
  | cons x xs => simp [hseparator]

theorem listed_unique {p : Char → Bool} {c : Char} {separator rest rest' : List Char}
    (hseparator : p c = false) (hrest : ¬ rest.head?.any p) (hrest' : ¬ rest'.head?.any p)
    (hend : rest.head? ≠ some c) (hend' : rest'.head? ≠ some c)
    {x x' : List Char} {xs xs' : List (List Char)} (hall : ∀ y ∈ x :: xs, ∀ d ∈ y, p d)
    (hall' : ∀ y ∈ x' :: xs', ∀ d ∈ y, p d)
    (h : listed (c :: separator) (x :: xs) ++ rest = listed (c :: separator) (x' :: xs') ++ rest') :
    x :: xs = x' :: xs' ∧ rest = rest' := by
  induction xs generalizing x x' xs' with
  | nil =>
    rw [listed_append, listed_append] at h
    obtain ⟨rfl, htail⟩ := append_unique h (hall x (by simp)) (hall' x' (by simp))
      (not_head?_separated hseparator hrest _) (not_head?_separated hseparator hrest' _)
    cases xs' with
    | nil => exact ⟨rfl, htail⟩
    | cons y' xs' =>
      have hrest : rest = c :: (separator ++ y' ++ xs'.flatMap ((c :: separator) ++ ·) ++ rest') := by
        simpa using htail
      rw [hrest] at hend
      exact absurd rfl hend
  | cons y xs ih =>
    rw [listed_append, listed_append] at h
    obtain ⟨rfl, htail⟩ := append_unique h (hall x (by simp)) (hall' x' (by simp))
      (not_head?_separated hseparator hrest _) (not_head?_separated hseparator hrest' _)
    cases xs' with
    | nil =>
      have hrest' : c :: (separator ++ y ++ xs.flatMap ((c :: separator) ++ ·) ++ rest) = rest' := by
        simpa using htail
      rw [← hrest'] at hend'
      exact absurd rfl hend'
    | cons y' xs' =>
      have hnext : listed (c :: separator) (y :: xs) ++ rest =
          listed (c :: separator) (y' :: xs') ++ rest' := by
        simpa [listed] using htail
      obtain ⟨hys, hrest⟩ := ih (fun z hz => hall z (by simp [List.mem_cons.mp hz]))
        (fun z hz => hall' z (by simp [List.mem_cons.mp hz])) hnext
      exact ⟨by rw [hys], hrest⟩

namespace Predicate

/-- Nothing follows, or a closing parenthesis. -/
def Stops (rest : List Char) : Prop := rest = [] ∨ rest.head? = some ')'

theorem marks_unique {values values' : List Value} {rest rest' : List Char}
    (h : listed [','] (values.map fun _ => ['?']) ++ ')' :: rest =
      listed [','] (values'.map fun _ => ['?']) ++ ')' :: rest') :
    values.length = values'.length ∧ rest = rest' := by
  cases values with
  | nil =>
    cases values' with
    | nil => exact ⟨rfl, by simpa [listed] using h⟩
    | cons => simp [listed] at h
  | cons v values =>
    cases values' with
    | nil => simp [listed] at h
    | cons v' values' =>
      have hmarks : ∀ (values : List Value), ∀ y ∈ ['?'] :: values.map fun _ => ['?'], ∀ d ∈ y,
          (d == '?') = true := by
        simp
      obtain ⟨hlist, hrest⟩ := listed_unique (p := (· == '?')) (by decide) (by simp) (by simp)
        (by simp) (by simp) (hmarks values) (hmarks values') h
      refine ⟨?_, by simpa using hrest⟩
      simpa using congrArg List.length hlist

theorem selectionChars_unique {style : Style} {first first' name name' : String}
    {others others' : List String} {rest rest' : List Char}
    (hcolumns : ∀ c ∈ first :: others, IsSpelled c) (hname : IsSpelled name)
    (hcolumns' : ∀ c ∈ first' :: others', IsSpelled c) (hname' : IsSpelled name')
    (hrest : ¬ rest.head?.any isPathChar) (hrest' : ¬ rest'.head?.any isPathChar)
    (h : selectionChars ⟨style, first :: others, some (.table name)⟩ ++ rest =
      selectionChars ⟨style, first' :: others', some (.table name')⟩ ++ rest') :
    first :: others = first' :: others' ∧ name = name' ∧ rest = rest' := by
  have hspelled : ∀ {columns : List String}, (∀ c ∈ columns, IsSpelled c) →
      ∀ y ∈ columns.map String.toList, ∀ d ∈ y, isPathChar d := by
    intro columns hall y hy
    obtain ⟨c, hc, rfl⟩ := List.mem_map.mp hy
    exact hall c hc
  simp only [selectionChars, tableChars, List.append_assoc, List.append_cancel_left_eq] at h
  obtain ⟨hlist, htable⟩ := listed_unique (p := isPathChar) (by decide) (by simp; decide)
    (by simp; decide) (by simp) (by simp) (hspelled hcolumns) (hspelled hcolumns') h
  rw [List.append_cancel_left_eq] at htable
  obtain ⟨hchars, hrests⟩ := append_unique htable hname hname' hrest hrest'
  have hinjective : Function.Injective String.toList := fun _ _ => String.toList_inj.mp
  exact ⟨hinjective.list_map hlist, hinjective hchars, hrests⟩

/-- The start of a text: a column and an operator before the operands, or a parenthesis that
belongs to no operand. -/
inductive Opens (n : Predicate) : Prop
  | stem {column operator : String} {c : Char} {cs : List Char} :
      n.stem? = some (column, operator) → IsSpelled column → operator ∈ standardOperators →
      c = '?' ∨ c = '(' → n.body = c :: cs → Opens n
  | negated {cs : List Char} : n.stem? = none → n.body = 'N' :: 'O' :: 'T' :: ' ' :: '(' :: cs →
      Opens n
  | joined {cs : List Char} : n.stem? = none → n.body = '(' :: cs → Opens n

theorem IsSettled.opens {style : Style} {n : Predicate} (h : n.IsSettled style) : n.Opens := by
  cases n with
  | compare | between => exact .stem rfl h.1 h.2 (.inl rfl) rfl
  | among => exact .stem rfl h.1 h.2 (.inr rfl) rfl
  | amongSelect => exact .stem rfl h.1 h.2.1 (.inr rfl) rfl
  | negate => exact .negated rfl rfl
  | junction connective parts =>
    cases parts with
    | nil => exact absurd h.1 (by simp)
    | cons => exact .joined rfl rfl
  | amongText => exact h.elim
  | raw => exact h.elim

theorem stemChars_of_some {n : Predicate} {column operator : String}
    (h : n.stem? = some (column, operator)) :
    n.stemChars = column.toList ++ ' ' :: (operator.toList ++ [' ']) := by
  rw [stemChars, h]

theorem stemChars_of_none {n : Predicate} (h : n.stem? = none) : n.stemChars = [] := by
  rw [stemChars, h]

/-- The characters before the operands. -/
def precedesOperands (c : Char) : Bool := c != '?' && c != '('

theorem precedesOperands_of_mem {operator : String} (h : operator ∈ standardOperators) :
    ∀ c ∈ operator.toList ++ [' '], precedesOperands c := by
  have hall : ∀ o ∈ standardOperators, (o.toList ++ [' ']).all precedesOperands := by decide
  exact List.all_eq_true.mp (hall operator h)

/-- A column and its operator are not taken for an opening parenthesis, nor for a negation. -/
theorem stem_ne {column operator : String} {cs ds : List Char} (hcolumn : IsSpelled column)
    (hoperator : operator ∈ standardOperators) :
    column.toList ++ ' ' :: (operator.toList ++ ' ' :: cs) ≠ '(' :: ds ∧
      column.toList ++ ' ' :: (operator.toList ++ ' ' :: cs) ≠
        'N' :: 'O' :: 'T' :: ' ' :: '(' :: ds := by
  have hhead : ∀ ds, operator.toList ++ ' ' :: cs ≠ '(' :: ds := by
    intro ds heq
    have hmem : '(' ∈ operator.toList ++ [' '] := by
      cases hchars : operator.toList with
      | nil => simp [hchars] at heq
      | cons d ds =>
        obtain rfl : d = '(' := by simpa [hchars] using congrArg List.head? heq
        simp
    exact absurd (precedesOperands_of_mem hoperator _ hmem) (by decide)
  constructor
  · intro heq
    have hnone : ∀ c ∈ ([] : List Char), isPathChar c := by simp
    have hstop := append_unique heq hcolumn hnone (by simp; decide) (by simp; decide)
    simp at hstop
  · intro heq
    have hword : ∀ c ∈ ['N', 'O', 'T'], isPathChar c := List.all_eq_true.mp rfl
    have hstop := append_unique heq hcolumn hword (by simp; decide) (by simp; decide)
    exact hhead ds (by simpa using hstop.2)

theorem stem?_eq_none {style : Style} {n n' : Predicate} (hn : n.IsSettled style)
    (hn' : n'.IsSettled style) {rest rest' : List Char} (h : n.chars ++ rest = n'.chars ++ rest')
    (hnone : n'.stem? = none) : n.stem? = none := by
  rw [chars, chars, stemChars_of_none hnone] at h
  cases hn.opens with
  | negated hstem | joined hstem => exact hstem
  | stem hstem hcolumn hoperator =>
    rw [stemChars_of_some hstem] at h
    simp only [List.append_assoc, List.cons_append, List.nil_append] at h
    cases hn'.opens with
    | stem hsome => simp [hnone] at hsome
    | negated _ hbody =>
      rw [hbody] at h
      exact absurd h (stem_ne hcolumn hoperator).2
    | joined _ hbody =>
      rw [hbody] at h
      exact absurd h (stem_ne hcolumn hoperator).1

theorem IsSettled.stem {style : Style} {n : Predicate} (h : n.IsSettled style)
    {column operator : String} (hstem : n.stem? = some (column, operator)) :
    IsSpelled column ∧ operator ∈ standardOperators ∧
      ∀ rest, ¬ (n.body ++ rest).head?.any precedesOperands := by
  cases h.opens with
  | stem hsome hcolumn hoperator hc hbody =>
    obtain ⟨rfl, rfl⟩ := Prod.mk.inj (Option.some.inj (hstem.symm.trans hsome))
    refine ⟨hcolumn, hoperator, fun rest => ?_⟩
    rw [hbody]
    obtain rfl | rfl := hc <;> simp [precedesOperands]
  | negated hnone | joined hnone => simp [hnone] at hstem

/-- The stem of a settled predicate is read off its text. -/
theorem stem?_unique {style : Style} {n n' : Predicate} (hn : n.IsSettled style)
    (hn' : n'.IsSettled style) {rest rest' : List Char} (h : n.chars ++ rest = n'.chars ++ rest') :
    n.stem? = n'.stem? ∧ n.body ++ rest = n'.body ++ rest' := by
  cases hstem : n.stem? with
  | none =>
    have hstem' : n'.stem? = none := stem?_eq_none hn' hn h.symm hstem
    rw [chars, chars, stemChars_of_none hstem, stemChars_of_none hstem'] at h
    exact ⟨hstem'.symm, h⟩
  | some pair =>
    cases hstem' : n'.stem? with
    | none => simp [stem?_eq_none hn hn' h hstem'] at hstem
    | some pair' =>
      obtain ⟨column, operator⟩ := pair
      obtain ⟨column', operator'⟩ := pair'
      obtain ⟨hcolumn, hoperator, hbody⟩ := hn.stem hstem
      obtain ⟨hcolumn', hoperator', hbody'⟩ := hn'.stem hstem'
      rw [chars, chars, stemChars_of_some hstem, stemChars_of_some hstem'] at h
      simp only [List.append_assoc, List.cons_append] at h
      obtain ⟨hcolumns, hlater⟩ := append_unique h hcolumn hcolumn' (by simp; decide)
        (by simp; decide)
      have hoperators : (operator.toList ++ [' ']) ++ (n.body ++ rest) =
          (operator'.toList ++ [' ']) ++ (n'.body ++ rest') := by
        simpa using hlater
      obtain ⟨hchars, hrest⟩ := append_unique hoperators (precedesOperands_of_mem hoperator)
        (precedesOperands_of_mem hoperator') (hbody rest) (hbody' rest')
      rw [String.toList_inj.mp hcolumns, String.toList_inj.mp (List.append_cancel_right hchars)]
      exact ⟨rfl, hrest⟩

/-- No other settled predicate has the same text and the same values, whatever follows them. -/
def IsUnique (style : Style) (n : Predicate) : Prop :=
  ∀ {n' : Predicate} {rest rest' : List Char} {vs vs' : List Value}, n'.IsSettled style →
    Stops rest → Stops rest' → n.chars ++ rest = n'.chars ++ rest' →
    n.operands ++ vs = n'.operands ++ vs' → n = n' ∧ rest = rest' ∧ vs = vs'

variable {style : Style}

theorem not_stops_cons {c : Char} (hc : c ≠ ')') (cs : List Char) : ¬ Stops (c :: cs) := by
  simp [Stops, hc]

theorem stops_close (cs : List Char) : Stops (')' :: cs) := .inr rfl

theorem isUnique_compare {column operator : String} {v : Value}
    (h : (compare column operator v).IsSettled style) :
    (compare column operator v).IsUnique style := by
  intro n' rest rest' vs vs' hn' hrest hrest' htext hvalues
  obtain ⟨hstem, hbody⟩ := stem?_unique h hn' htext
  cases n' with
  | compare column' operator' v' =>
    obtain ⟨rfl, rfl⟩ := Prod.mk.inj (Option.some.inj hstem)
    obtain ⟨rfl, hvs⟩ : v = v' ∧ vs = vs' := List.cons.inj hvalues
    exact ⟨rfl, (List.cons.inj hbody).2, hvs⟩
  | between =>
    obtain rfl : rest = ' ' :: 'A' :: 'N' :: 'D' :: ' ' :: '?' :: rest' := (List.cons.inj hbody).2
    exact absurd hrest (not_stops_cons (by decide) _)
  | among | amongSelect => simp [body] at hbody
  | amongText => exact hn'.elim
  | negate | junction | raw => cases hstem

theorem isUnique_between {column operator : String} {low high : Value}
    (h : (between column operator low high).IsSettled style) :
    (between column operator low high).IsUnique style := by
  intro n' rest rest' vs vs' hn' hrest hrest' htext hvalues
  obtain ⟨hstem, hbody⟩ := stem?_unique h hn' htext
  cases n' with
  | between column' operator' low' high' =>
    obtain ⟨rfl, rfl⟩ := Prod.mk.inj (Option.some.inj hstem)
    obtain ⟨rfl, hhigh⟩ : low = low' ∧ high :: vs = high' :: vs' := List.cons.inj hvalues
    obtain ⟨rfl, hvs⟩ := List.cons.inj hhigh
    exact ⟨rfl, by simpa [body] using hbody, hvs⟩
  | compare =>
    obtain rfl : ' ' :: 'A' :: 'N' :: 'D' :: ' ' :: '?' :: rest = rest' := (List.cons.inj hbody).2
    exact absurd hrest' (not_stops_cons (by decide) _)
  | among | amongSelect => simp [body] at hbody
  | amongText => exact hn'.elim
  | negate | junction | raw => cases hstem

theorem isUnique_among {column operator : String} {values : List Value}
    (h : (among column operator values).IsSettled style) :
    (among column operator values).IsUnique style := by
  intro n' rest rest' vs vs' hn' hrest hrest' htext hvalues
  obtain ⟨hstem, hbody⟩ := stem?_unique h hn' htext
  cases n' with
  | among column' operator' values' =>
    obtain ⟨rfl, rfl⟩ := Prod.mk.inj (Option.some.inj hstem)
    rw [operands_among, operands_among] at hvalues
    obtain ⟨hlength, hrests⟩ := marks_unique (by simpa [body] using hbody)
    obtain ⟨rfl, rfl⟩ := List.append_inj hvalues hlength
    exact ⟨rfl, hrests, rfl⟩
  | compare | between => simp [body] at hbody
  | amongSelect =>
    cases values <;> simp [body, listed, selectionChars] at hbody
  | amongText => exact hn'.elim
  | negate | junction | raw => cases hstem

theorem isUnique_negate {inner : Predicate} (h : (negate inner).IsSettled style)
    (ih : inner.IsUnique style) : (negate inner).IsUnique style := by
  intro n' rest rest' vs vs' hn' hrest hrest' htext hvalues
  obtain ⟨hstem, hbody⟩ := stem?_unique h hn' htext
  cases n' with
  | negate inner' =>
    have hinside : inner.chars ++ ')' :: rest = inner'.chars ++ ')' :: rest' := by
      simpa [body, chars] using hbody
    have hinner' : inner'.IsSettled style := hn'
    obtain ⟨rfl, hclose, hvs⟩ := ih hinner' (stops_close rest) (stops_close rest') hinside hvalues
    exact ⟨rfl, (List.cons.inj hclose).2, hvs⟩
  | junction connective parts =>
    obtain _ | ⟨p, ps⟩ := parts
    · exact absurd hn'.1 (by simp)
    · simp [body, listed, partChars] at hbody
  | raw => exact hn'.elim
  | compare | between | among | amongSelect | amongText => cases hstem

theorem filter_unique {filter filter' : Option Predicate} {rest rest' : List Char}
    {vs vs' : List Value} (hfilter' : IsSettledFilter style filter')
    (ih : ∀ p ∈ filter, p.IsUnique style)
    (htext : filterChars filter ++ ')' :: rest = filterChars filter' ++ ')' :: rest')
    (hvalues : (filter.map operands).getD [] ++ vs = (filter'.map operands).getD [] ++ vs') :
    filter = filter' ∧ rest = rest' ∧ vs = vs' := by
  cases filter with
  | none =>
    cases filter' with
    | none => exact ⟨rfl, (List.cons.inj htext).2, hvalues⟩
    | some p' => simp [filterChars] at htext
  | some p =>
    cases filter' with
    | none => simp [filterChars] at htext
    | some p' =>
      have hinside : p.chars ++ ')' :: rest = p'.chars ++ ')' :: rest' := by
        simpa [filterChars, chars] using htext
      obtain ⟨rfl, hclose, hvs⟩ :=
        ih p rfl hfilter' (stops_close rest) (stops_close rest') hinside hvalues
      exact ⟨rfl, (List.cons.inj hclose).2, hvs⟩

theorem not_head?_filterChars (filter : Option Predicate) (rest : List Char) :
    ¬ (filterChars filter ++ ')' :: rest).head?.any isPathChar := by
  cases filter with
  | none => simp [filterChars, isPathChar, Token.isNameChar]
  | some p => simp [filterChars, isPathChar, Token.isNameChar]

theorem isUnique_amongSelect {column operator : String} {selection : Selection}
    {filter : Option Predicate} (h : (amongSelect column operator selection filter).IsSettled style)
    (ih : ∀ p ∈ filter, p.IsUnique style) :
    (amongSelect column operator selection filter).IsUnique style := by
  intro n' rest rest' vs vs' hn' hrest hrest' htext hvalues
  obtain ⟨hstem, hbody⟩ := stem?_unique h hn' htext
  cases n' with
  | amongSelect column' operator' selection' filter' =>
    obtain ⟨rfl, rfl⟩ := Prod.mk.inj (Option.some.inj hstem)
    obtain ⟨-, -, ⟨first, others, name, hname, hcolumns, rfl⟩, -⟩ := h
    obtain ⟨-, -, ⟨first', others', name', hname', hcolumns', rfl⟩, hfilter'⟩ := hn'
    have hinside : selectionChars ⟨style, first :: others, some (.table name)⟩ ++
        (filterChars filter ++ ')' :: rest) =
          selectionChars ⟨style, first' :: others', some (.table name')⟩ ++
            (filterChars filter' ++ ')' :: rest') := by
      simpa [body] using hbody
    obtain ⟨hlist, hnames, hclosing⟩ := selectionChars_unique hcolumns hname hcolumns' hname'
      (not_head?_filterChars filter rest) (not_head?_filterChars filter' rest') hinside
    rw [operands_amongSelect, operands_amongSelect] at hvalues
    obtain ⟨rfl, hrests, hvs⟩ := filter_unique hfilter' ih hclosing hvalues
    rw [hlist, hnames]
    exact ⟨rfl, hrests, hvs⟩
  | compare | between => simp [body] at hbody
  | among _ _ values' =>
    cases values' <;> simp [body, listed, selectionChars] at hbody
  | amongText => exact hn'.elim
  | negate | junction | raw => cases hstem

/-- The parts of a junction behind its first one. -/
theorem parts_unique {connective : Connective} {ps ps' : List Predicate} {rest rest' : List Char}
    {vs vs' : List Value} (hps' : AreSettled style ps') (ih : ∀ p ∈ ps, p.IsUnique style)
    (hrest : Stops rest) (hrest' : Stops rest')
    (htext : (partChars ps).flatMap ((' ' :: connective.word.toList ++ [' ']) ++ ·) ++ rest =
      (partChars ps').flatMap ((' ' :: connective.word.toList ++ [' ']) ++ ·) ++ rest')
    (hvalues : ps.flatMap operands ++ vs = ps'.flatMap operands ++ vs') :
    ps = ps' ∧ rest = rest' ∧ vs = vs' := by
  induction ps generalizing ps' with
  | nil =>
    cases ps' with
    | nil => exact ⟨rfl, htext, hvalues⟩
    | cons p' ps' =>
      rw [partChars, List.flatMap_nil, List.nil_append] at htext
      rw [htext, partChars, List.flatMap_cons] at hrest
      exact absurd hrest (not_stops_cons (by decide) _)
  | cons p ps ih' =>
    cases ps' with
    | nil =>
      rw [partChars, partChars, List.flatMap_nil, List.nil_append] at htext
      rw [← htext, List.flatMap_cons] at hrest'
      exact absurd hrest' (not_stops_cons (by decide) _)
    | cons p' ps' =>
      have hinside : p.chars ++ ')' :: ((partChars ps).flatMap
          ((' ' :: connective.word.toList ++ [' ']) ++ ·) ++ rest) =
          p'.chars ++ ')' :: ((partChars ps').flatMap
            ((' ' :: connective.word.toList ++ [' ']) ++ ·) ++ rest') := by
        simpa [partChars, chars] using htext
      rw [List.flatMap_cons, List.flatMap_cons, List.append_assoc, List.append_assoc] at hvalues
      obtain ⟨rfl, hclose, hlater⟩ := ih p (by simp) hps'.1 (stops_close _) (stops_close _) hinside
        hvalues
      obtain ⟨rfl, hrests, hvs⟩ := ih' hps'.2 (fun q hq => ih q (by simp [hq]))
        (List.cons.inj hclose).2 hlater
      exact ⟨rfl, hrests, hvs⟩

/-- The first separator tells the connective. -/
theorem connective_unique {connective connective' : Connective} {ps ps' : List Predicate}
    {rest rest' : List Char} (hps : ps ≠ []) (hps' : ps' ≠ [])
    (h : (partChars ps).flatMap ((' ' :: connective.word.toList ++ [' ']) ++ ·) ++ rest =
      (partChars ps').flatMap ((' ' :: connective'.word.toList ++ [' ']) ++ ·) ++ rest') :
    connective = connective' := by
  obtain ⟨p, ps, rfl⟩ := List.exists_cons_of_ne_nil hps
  obtain ⟨p', ps', rfl⟩ := List.exists_cons_of_ne_nil hps'
  cases connective <;> cases connective' <;> simp [partChars, Connective.word] at h ⊢

theorem isUnique_junction {connective : Connective} {parts : List Predicate}
    (h : (junction connective parts).IsSettled style) (ih : ∀ p ∈ parts, p.IsUnique style) :
    (junction connective parts).IsUnique style := by
  intro n' rest rest' vs vs' hn' hrest hrest' htext hvalues
  obtain ⟨hstem, hbody⟩ := stem?_unique h hn' htext
  cases n' with
  | junction connective' parts' =>
    obtain ⟨hlength, -⟩ := h
    obtain ⟨hlength', hparts'⟩ := hn'
    obtain _ | ⟨p, ps⟩ := parts
    · simp at hlength
    obtain _ | ⟨p', ps'⟩ := parts'
    · simp at hlength'
    have hps : ps ≠ [] := by
      rintro rfl
      simp at hlength
    have hps' : ps' ≠ [] := by
      rintro rfl
      simp at hlength'
    have hinside : p.chars ++ ')' :: ((partChars ps).flatMap
        ((' ' :: connective.word.toList ++ [' ']) ++ ·) ++ rest) =
        p'.chars ++ ')' :: ((partChars ps').flatMap
          ((' ' :: connective'.word.toList ++ [' ']) ++ ·) ++ rest') := by
      simpa [body, listed, partChars, chars] using hbody
    rw [operands_junction, operands_junction, List.flatMap_cons, List.flatMap_cons,
      List.append_assoc, List.append_assoc] at hvalues
    obtain ⟨rfl, hclose, hlater⟩ := ih p (by simp) hparts'.1 (stops_close _) (stops_close _)
      hinside hvalues
    have htail := (List.cons.inj hclose).2
    obtain rfl := connective_unique hps hps' htail
    obtain ⟨rfl, hrests, hvs⟩ := parts_unique hparts'.2 (fun q hq => ih q (by simp [hq])) hrest
      hrest' htail hlater
    exact ⟨rfl, hrests, hvs⟩
  | negate inner' =>
    obtain _ | ⟨p, ps⟩ := parts
    · exact absurd h.1 (by simp)
    · simp [body, listed, partChars] at hbody
  | raw => exact hn'.elim
  | compare | between | among | amongSelect | amongText => cases hstem

mutual

theorem IsSettled.isUnique : ∀ {n : Predicate}, n.IsSettled style → n.IsUnique style
  | .compare .., h => isUnique_compare h
  | .between .., h => isUnique_between h
  | .among .., h => isUnique_among h
  | .negate inner, h => isUnique_negate h (IsSettled.isUnique (n := inner) h)
  | .junction _ _, h => isUnique_junction h (AreSettled.isUnique h.2)
  | .amongText .., h => h.elim
  | .amongSelect .., h => isUnique_amongSelect h (IsSettledFilter.isUnique h.2.2.2)
  | .raw _, h => h.elim

theorem AreSettled.isUnique : ∀ {ns : List Predicate}, AreSettled style ns →
    ∀ n ∈ ns, n.IsUnique style
  | [], _ => fun _ hn => by cases hn
  | _ :: _, h => List.forall_mem_cons.mpr ⟨IsSettled.isUnique h.1, AreSettled.isUnique h.2⟩

theorem IsSettledFilter.isUnique : ∀ {filter : Option Predicate}, IsSettledFilter style filter →
    ∀ n ∈ filter, n.IsUnique style
  | none, _ => fun _ hn => by cases hn
  | some p, h => by
    have hp : p.IsUnique style := IsSettled.isUnique h
    rintro _ ⟨⟩
    exact hp

end

/-- The parameters of a predicate are all its values. -/
theorem returns_operands {p : Predicate} (h : p.IsTabular) (scope : Scope) :
    Resolving.Returns (p.pieces style scope) fun ps =>
      Piece.parametersOf .positional ps = p.operands := by
  refine (p.bears_pieces scope).mono fun ps hps => ?_
  rw [hps.parametersOf_eq (by decide), ← operands, List.filter_eq_self]
  intro v hv
  rw [h.admits_operands v hv]
  rfl

/-- Tabular predicates with the same text and the same values are the same predicate, once their
names are physical and junctions of a single part are gone. -/
theorem settled_eq {casing : Casing} {p q : Predicate} (hp : p.IsTabular) (hq : q.IsTabular)
    {s t : Logged Memo} {ps qs : List Piece}
    (hps : ((p.pieces ⟨casing, .positional⟩ { casing }).run s).1 = .ok ps)
    (hqs : ((q.pieces ⟨casing, .positional⟩ { casing }).run t).1 = .ok qs)
    (htext : Piece.textOf .positional ps = Piece.textOf .positional qs)
    (hvalues : Piece.parametersOf .positional ps = Piece.parametersOf .positional qs) :
    p.settled casing = q.settled casing := by
  obtain ⟨htextP, hsettledP⟩ := (returns_settled casing hp s trivial).2 ps hps
  obtain ⟨htextQ, hsettledQ⟩ := (returns_settled casing hq t trivial).2 qs hqs
  have hvaluesP := (returns_operands hp { casing } s trivial).2 ps hps
  have hvaluesQ := (returns_operands hq { casing } t trivial).2 qs hqs
  have hchars : (p.settled casing).chars ++ [] = (q.settled casing).chars ++ [] := by
    rw [← htextP, ← htextQ, htext]
  have hoperands : (p.settled casing).operands ++ [] = (q.settled casing).operands ++ [] := by
    rw [operands_settled, operands_settled, ← hvaluesP, ← hvaluesQ, hvalues]
  exact (hsettledP.isUnique hsettledQ (.inl rfl) (.inl rfl) hchars hoperands).1

/-- Not of a group, and no member that joined in some years. -/
def leaving (group user joined : String) (wrap : Predicate → Predicate) : Predicate :=
  let members : Selection :=
    { style := {}, columns := [user, "*"], target := some (.table "members") }
  wrap (.negate (.junction .or [.compare group "=" (.int 1),
    wrap (.amongSelect "id" "NOT IN" members (some (wrap (.between joined "BETWEEN" .null .null))))]))

theorem settled_eq_leaving :
    (leaving "groupId" "userId" "yearJoined" id).settled .lowerUnderscore =
      (leaving "group_id" "user_id" "year_joined" fun p => .junction .and [p]).settled
        .lowerUnderscore :=
  settled_eq (s := ⟨{}, []⟩) (t := ⟨{}, []⟩) (by decide) (by decide) rfl rfl (by decide +kernel)
    (Eq.trans (b := [.int 1, .null, .null]) rfl rfl)

end Predicate

end Cql
