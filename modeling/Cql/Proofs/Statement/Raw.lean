import Cql.Proofs.Casing.Camel
import Cql.Proofs.Token.Split
import Cql.Proofs.Token.Word
import Cql.Statement.Render

/-!
Raw text with its names resolved. A name in another casing is one word still, and begins with a
letter still, so it stops and is stopped where the name was: the text has the tokens that it had,
and only names of columns are other words than before.
-/

namespace Cql

open Text.Split (join splitWhere)
open Token

namespace Casing

variable {c : Char} {part : List Char}

/-- The first word of a name begins with the first character of the name. -/
theorem Words.exists_ofIdentifier_cons (hc : c.isAlphanum) (cs : List Char) :
    ∃ word words, ofIdentifier (c :: cs) = (c :: word) :: words := by
  obtain ⟨first, others, hsplit⟩ :=
    List.exists_cons_of_ne_nil (Text.Split.splitWhere_ne_nil (!·.isAlphanum) cs)
  obtain ⟨words, hwords⟩ := exists_cut_start c first
  rw [ofIdentifier, Text.Split.splitWhere_cons hsplit, if_neg (by simp [hc]), List.flatMap_cons,
    hwords]
  cases words with
  | nil => exact ⟨[], _, rfl⟩
  | cons word words => exact ⟨word, _, rfl⟩

theorem head?_writeWords (casing : Casing) (hc : c.isAlpha) (word : List Char)
    (words : List (List Char)) :
    (casing.writeWords ((c :: word) :: words)).head?.any Char.isAlpha := by
  cases casing with
  | lowerUnderscore =>
    simp [writeWords, Words.lowerSnake, Words.lower, Text.Split.join_cons,
      Char.isAlpha_toLower_eq_isAlpha, hc]
  | upperUnderscore =>
    simp [writeWords, Words.upperSnake, Words.upper, Text.Split.join_cons,
      Char.isAlpha_toUpper_eq_isAlpha, hc]
  | lowerCamel =>
    simp [writeWords, Words.lowerCamel, Words.lower, Char.isAlpha_toLower_eq_isAlpha, hc]

theorem isLettered_writeSegment (casing : Casing) (h : IsLettered part) :
    IsLettered (casing.writeSegment part) := by
  rw [writeSegment]
  split
  · cases part with
    | nil => cases h.1
    | cons c cs =>
      have hc : c.isAlpha := h.1
      have halnum : c.isAlphanum := by simp [Char.isAlphanum, hc]
      obtain ⟨word, words, hwords⟩ := Words.exists_ofIdentifier_cons halnum cs
      refine ⟨?_, fun d hd => ?_⟩
      · rw [hwords]
        exact casing.head?_writeWords hc word words
      · have hname : isNameChar d :=
          casing.isNameChar_of_mem_writeWords (fun _ hword _ => Words.isAlphanum_of_mem hword) hd
        rw [isWordChar, hname, Bool.or_true]
  · exact h

/-- A path of names is a path of names in every casing. -/
theorem writePath_lettered (casing : Casing) {path : List Char}
    (h : ∀ part ∈ splitWhere (· == '.') path, IsLettered part) :
    ∃ c cs parts, casing.writePath path = c :: cs ∧ join '.' parts = c :: cs ∧ c.isAlpha ∧
      ∀ part ∈ parts, IsLettered part := by
  obtain ⟨first, others, hsplit⟩ :=
    List.exists_cons_of_ne_nil (Text.Split.splitWhere_ne_nil (· == '.') path)
  rw [hsplit] at h
  have hfirst : IsLettered (casing.writeSegment first) :=
    casing.isLettered_writeSegment (h first (by simp))
  have hparts : ∀ part ∈ (first :: others).map casing.writeSegment, IsLettered part := by
    intro part hpart
    obtain ⟨before, hbefore, rfl⟩ := List.mem_map.mp hpart
    exact casing.isLettered_writeSegment (h before hbefore)
  cases hwritten : casing.writeSegment first with
  | nil => simp [hwritten, IsLettered] at hfirst
  | cons c cs =>
    rw [hwritten] at hfirst
    have hpath : casing.writePath path =
        c :: (cs ++ (others.map casing.writeSegment).flatMap ('.' :: ·)) := by
      rw [writePath, hsplit, List.map_cons, Text.Split.join_cons, hwritten, List.cons_append]
    refine ⟨c, _, _, hpath, ?_, hfirst.1, hparts⟩
    rw [← hpath, writePath, hsplit]

end Casing

namespace Scope

variable {ts : List Token} {cs : List Char}

/-- The scope of a statement without an entity. -/
def bare (casing : Casing) : Scope := { casing }

/-- The tokens of raw text with the names in them resolved. -/
def tokens (scope : Scope) : List Token → List Token
  | [] => []
  | t :: ts => ⟨t.kind, (scope.tokenText t ts).toList⟩ :: tokens scope ts

theorem flatten_tokens (scope : Scope) (binding : Binding) (ts : List Token) :
    flatten (scope.tokens ts) = (Piece.textOf binding (scope.rawTokens ts)).toList := by
  induction ts with
  | nil => rfl
  | cons t ts ih => simp [tokens, rawTokens, ih]

theorem map_kind_tokens (scope : Scope) (ts : List Token) :
    (scope.tokens ts).map Token.kind = ts.map Token.kind := by
  induction ts with
  | nil => rfl
  | cons t ts ih => simp [tokens, ih]

theorem getElem?_tokens (scope : Scope) (ts : List Token) (i : Nat) :
    (scope.tokens ts)[i]? =
      ts[i]?.map fun t => ⟨t.kind, (scope.tokenText t (ts.drop (i + 1))).toList⟩ := by
  induction ts generalizing i with
  | nil => rfl
  | cons t ts ih =>
    cases i with
    | zero => rfl
    | succ i => exact ih i

/-- A word that is taken for the name of a column. -/
def IsName (t : Token) (following : List Token) : Prop :=
  t.kind = .word ∧ ¬Reserved.isReserved t.chars ∧ ¬t.isFunctionName following

instance (t : Token) (following : List Token) : Decidable (IsName t following) :=
  inferInstanceAs (Decidable (_ ∧ _))

theorem tokenText_of_isName {t : Token} {following : List Token} (casing : Casing)
    (h : IsName t following) :
    ((bare casing).tokenText t following).toList = casing.writePath t.chars := by
  obtain ⟨hkind, hreserved, hfunction⟩ := h
  simp [tokenText, hkind, hreserved, hfunction, resolve, bare, Casing.physical, Token.text]

theorem tokenText_of_not_isName {t : Token} {following : List Token} (scope : Scope)
    (h : ¬IsName t following) : (scope.tokenText t following).toList = t.chars := by
  have hkeeps : ¬(t.kind = .word ∧ !Reserved.isReserved t.chars ∧ !t.isFunctionName following) := by
    simpa [IsName] using h
  rw [tokenText, if_neg hkeeps, Token.text, String.toList_ofList]

/-- All names in a text begin with letters. -/
def HasLetters (ts : List Token) : Prop :=
  ∀ t ∈ ts, t.kind = .word → ∀ part ∈ splitWhere (· == '.') t.chars, part.head?.any Char.isAlpha

/-- What the text with its names resolved goes on with stops the tokens that the text itself
stopped, and so it has the resolved tokens. -/
theorem scan_tokens (casing : Casing) (h : scan cs = (ts, none)) (hletters : HasLetters ts) :
    scan (flatten ((bare casing).tokens ts)) = ((bare casing).tokens ts, none) ∧
      Stops cs (flatten ((bare casing).tokens ts)) := by
  induction ts generalizing cs with
  | nil =>
    rw [eq_nil_of_scan h, tokens, flatten_nil]
    exact ⟨by rw [scan], .of_isPrefix List.prefix_rfl⟩
  | cons t ts ih =>
    obtain ⟨c, ds, taken, rest, rfl, hchars, hnext, hrest⟩ := scan_cons h
    obtain ⟨hlater, hstops⟩ := ih hrest fun u hu => hletters u (List.mem_cons_of_mem t hu)
    rw [tokens, flatten_cons]
    by_cases hname : IsName t ts
    · have hheads := hletters t List.mem_cons_self hname.1
      rw [hname.1] at hnext
      have hparts : ∀ part ∈ splitWhere (· == '.') t.chars, IsLettered part := fun part hpart =>
        isLettered_of_mem_splitWhere hnext (hchars ▸ hpart) (hheads part hpart)
      obtain ⟨d, es, parts, hpath, hjoin, hletter, hall⟩ := casing.writePath_lettered hparts
      obtain ⟨-, hcut⟩ := next_word hnext
      have hends : ¬ExtendsWord rest := by
        have hends := not_extendsWord_cutWord ds
        rwa [hcut] at hends
      have hsame := next_join hjoin hall hletter (mt hstops.word hends)
      have hc : c.isAlpha := isAlpha_of_splitWhere (hchars ▸ hheads)
      rw [tokenText_of_isName casing hname, hpath, List.cons_append, scan, hsame]
      refine ⟨?_, .of_letters hc hletter _ _⟩
      simp only [hlater, hname.1]
    · rw [tokenText_of_not_isName _ hname, hchars, List.cons_append, scan,
        next_stops hnext hstops, ← next_append hnext]
      refine ⟨?_, hstops.append_left (c :: taken)⟩
      simp only [hlater]

/-- In a statement without an entity, every clause that takes raw text writes the same pieces for
it. -/
structure WritesRaw (style : Style) (text : String) (ps : List Piece) : Prop where
  scope : ofEntity? style.casing none = pure (bare style.casing)
  filter : ∀ s : Statement, s.filter = some (.raw text) →
    s.filterPieces style (bare style.casing) = return .text " WHERE " :: ps
  guard : ∀ s : Statement, s.guard = some (.raw text) →
    s.guardPieces style (bare style.casing) = return .text " IF " :: ps
  assignment : Statement.assignmentPieces (bare style.casing) (.raw text) = .ok ps
  order : Statement.orderItem (bare style.casing) (.raw text) = .ok ps

theorem writesRaw (style : Style) {text : String} {ps : List Piece}
    (h : (bare style.casing).raw text = .ok ps) : WritesRaw style text ps where
  scope := rfl
  filter s hs := by
    simp only [Statement.filterPieces, hs, h]
    rfl
  guard s hs := by
    simp only [Statement.guardPieces, hs, h]
    rfl
  assignment := h
  order := h

/-- In a statement without an entity, raw text whose names all begin with letters is written with
as many tokens of the same kinds: names of columns are written in the casing of the statement, and
all other tokens as they are. -/
theorem raw_keeps_tokens (style : Style) {text : String} (hread : readAll text.toList = .ok ts)
    (hletters : HasLetters ts) :
    ∃ ps us, WritesRaw style text ps ∧ readAll (Piece.textOf style.binding ps).toList = .ok us ∧
      us.map Token.kind = ts.map Token.kind ∧
      ∀ i t, ts[i]? = some t →
        (t.kind ≠ .word ∨ Reserved.isReserved t.chars ∨ t.isFunctionName (ts.drop (i + 1)) →
          us[i]? = some t) ∧
        (IsName t (ts.drop (i + 1)) → us[i]? = some ⟨.word, style.casing.writePath t.chars⟩) := by
  have hraw : (bare style.casing).raw text = .ok ((bare style.casing).rawTokens ts) := by
    rw [raw, hread]
  obtain ⟨hscan, -⟩ := scan_tokens style.casing (readAll_eq_ok_iff.mp hread) hletters
  rw [flatten_tokens _ style.binding] at hscan
  refine ⟨_, _, writesRaw style hraw, readAll_eq_ok_iff.mpr hscan, map_kind_tokens _ _, ?_⟩
  intro i t ht
  rw [getElem?_tokens, ht, Option.map_some]
  constructor
  · intro hkept
    have hname : ¬IsName t (ts.drop (i + 1)) := fun ⟨hword, hreserved, hfunction⟩ =>
      hkept.elim (fun h => h hword) (Or.rec hreserved hfunction)
    rw [tokenText_of_not_isName _ hname]
  · intro hname
    rw [tokenText_of_isName style.casing hname, hname.1]

/-- The names of columns stand right beside an operator and a comment, and the other words are a
function, a keyword and text in quotes. -/
theorem raw_keeps_tokens_touching :
    ∃ ps us, WritesRaw {} "acc.firstName>=Max(?)AND'aB'<lastName--cD" ps ∧
      readAll (Piece.textOf .positional ps).toList = .ok us ∧ us.length = 11 ∧
      us[0]? = some ⟨.word, "acc.first_name".toList⟩ ∧ us[2]? = some ⟨.word, "Max".toList⟩ ∧
      us[6]? = some ⟨.word, "AND".toList⟩ ∧ us[9]? = some ⟨.word, "last_name".toList⟩ := by
  have hread : readAll "acc.firstName>=Max(?)AND'aB'<lastName--cD".toList = .ok
      [⟨.word, "acc.firstName".toList⟩, ⟨.punctuation, ">=".toList⟩, ⟨.word, "Max".toList⟩,
        ⟨.punctuation, "(".toList⟩, ⟨.positional, "?".toList⟩, ⟨.punctuation, ")".toList⟩,
        ⟨.word, "AND".toList⟩, ⟨.string, "'aB'".toList⟩, ⟨.punctuation, "<".toList⟩,
        ⟨.word, "lastName".toList⟩, ⟨.comment, "--cD".toList⟩] :=
    readAll_eq_ok_iff.mpr (by decide +kernel)
  obtain ⟨ps, us, hwrites, hus, hkinds, htokens⟩ :=
    raw_keeps_tokens {} hread (by unfold HasLetters; decide +kernel)
  refine ⟨ps, us, hwrites, hus, ?_, (htokens 0 _ rfl).2 ?_, (htokens 2 _ rfl).1 ?_,
    (htokens 6 _ rfl).1 ?_, (htokens 9 _ rfl).2 ?_⟩
  · simpa using congrArg List.length hkinds
  all_goals decide +kernel

end Scope

end Cql
