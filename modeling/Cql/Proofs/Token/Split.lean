import Cql.Proofs.Token.Extent

/-!
Tokens of parts of a text. A text that is cut between two of its tokens has its tokens on the two
sides of the cut, so what a token is depends neither on what stands before it nor on what stands
after it.
-/

namespace Cql.Token

variable {cs : List Char} {ts us vs : List Token} {fault : Option Fault}

theorem readAll_eq_ok_iff : readAll cs = .ok ts ↔ scan cs = (ts, none) := by
  rw [readAll]
  constructor
  · intro h
    split at h
    · rename_i hscan
      rw [hscan, Except.ok.inj h]
    · cases h
  · intro h
    rw [h]

theorem eq_nil_of_scan (h : scan cs = ([], none)) : cs = [] := by
  cases cs with
  | nil => rfl
  | cons c cs =>
    rw [scan] at h
    split at h <;> cases h

/-- The first token of a text is the next one, and the other tokens are those of what it leaves. -/
theorem scan_cons {t : Token} (h : scan cs = (t :: ts, fault)) :
    ∃ c ds taken rest, cs = c :: ds ∧ t.chars = c :: taken ∧
      next c ds = .ok (t.kind, taken, rest) ∧ scan rest = (ts, fault) := by
  cases cs with
  | nil =>
    rw [scan] at h
    cases h
  | cons c cs =>
    rw [scan] at h
    split at h
    · cases h
    · rename_i kind taken rest hnext
      obtain ⟨hts, hlater⟩ := Prod.mk.inj h
      obtain ⟨rfl, hrest⟩ := List.cons.inj hts
      exact ⟨c, cs, taken, rest, rfl, rfl, hnext, Prod.ext hrest hlater⟩

/-- The tokens of a text hold the whole text. -/
theorem flatten_scan (h : scan cs = (ts, none)) : flatten ts = cs := by
  induction ts generalizing cs with
  | nil => rw [eq_nil_of_scan h, flatten_nil]
  | cons t ts ih =>
    obtain ⟨c, ds, taken, rest, rfl, hchars, hnext, hrest⟩ := scan_cons h
    rw [flatten_cons, ih hrest, hchars, List.cons_append, next_append hnext]

theorem scan_right (h : scan cs = (us ++ vs, none)) : scan (flatten vs) = (vs, none) := by
  induction us generalizing cs with
  | nil =>
    rw [List.nil_append] at h
    rwa [flatten_scan h]
  | cons u us ih =>
    obtain ⟨c, ds, taken, rest, rfl, hchars, hnext, hrest⟩ := scan_cons h
    exact ih hrest

/-- Every token is the next one of some text. -/
theorem exists_next_of_mem_scan {t : Token} (h : scan cs = (ts, none)) (ht : t ∈ ts) :
    ∃ c ds taken rest, t.chars = c :: taken ∧ next c ds = .ok (t.kind, taken, rest) := by
  obtain ⟨us, vs, rfl⟩ := List.append_of_mem ht
  obtain ⟨c, ds, taken, rest, -, hchars, hnext, -⟩ := scan_cons (scan_right h)
  exact ⟨c, ds, taken, rest, hchars, hnext⟩

/-- No token goes on with what stands after it, so none changes where the text is cut off. -/
theorem scan_left (h : scan cs = (us ++ vs, none)) : scan (flatten us) = (us, none) := by
  induction us generalizing cs with
  | nil => rw [flatten_nil, scan]
  | cons u us ih =>
    obtain ⟨c, ds, taken, rest, rfl, hchars, hnext, hrest⟩ := scan_cons h
    have hbefore : flatten us <+: rest :=
      ⟨flatten vs, by rw [← flatten_append, ← flatten_scan hrest, List.append_eq]⟩
    have hcut := next_stops hnext (.of_isPrefix hbefore)
    rw [flatten_cons, hchars, List.cons_append, scan, hcut]
    simp only [ih hrest, ← hchars]

/-- The tokens on each side of a cut between two tokens are the tokens of the text on that side, and
each token is the only token of its own text. -/
theorem readAll_split (h : readAll cs = .ok (us ++ vs)) :
    readAll (flatten us) = .ok us ∧ readAll (flatten vs) = .ok vs ∧
      ∀ t ∈ us ++ vs, readAll t.chars = .ok [t] := by
  have hscan := readAll_eq_ok_iff.mp h
  refine ⟨readAll_eq_ok_iff.mpr (scan_left hscan), readAll_eq_ok_iff.mpr (scan_right hscan), ?_⟩
  intro t ht
  obtain ⟨before, after, hts⟩ := List.append_of_mem ht
  rw [hts] at hscan
  have hfrom : scan (flatten (t :: after)) = ([t] ++ after, none) := scan_right hscan
  have hone : scan (flatten [t]) = ([t], none) := scan_left hfrom
  rw [flatten_cons, flatten_nil, List.append_nil] at hone
  exact readAll_eq_ok_iff.mpr hone

/-- The cut is before a sign that would go on with the token before it in another text. -/
theorem readAll_split_touching :
    readAll "a.b'it''s'<".toList = .ok [⟨.word, "a.b".toList⟩, ⟨.string, "'it''s'".toList⟩,
        ⟨.punctuation, ['<']⟩] ∧
      readAll "--=?\n/*:x".toList = .ok [⟨.comment, "--=?".toList⟩, ⟨.blank, ['\n']⟩,
        ⟨.comment, "/*:x".toList⟩] ∧
      readAll "'it''s'".toList = .ok [⟨.string, "'it''s'".toList⟩] := by
  have hread : readAll "a.b'it''s'<--=?\n/*:x".toList = .ok
      ([⟨.word, "a.b".toList⟩, ⟨.string, "'it''s'".toList⟩, ⟨.punctuation, ['<']⟩] ++
        [⟨.comment, "--=?".toList⟩, ⟨.blank, ['\n']⟩, ⟨.comment, "/*:x".toList⟩]) :=
    readAll_eq_ok_iff.mpr (by decide +kernel)
  obtain ⟨hbefore, hafter, hone⟩ := readAll_split hread
  exact ⟨hbefore, hafter, hone ⟨.string, "'it''s'".toList⟩ (by simp)⟩

end Cql.Token
