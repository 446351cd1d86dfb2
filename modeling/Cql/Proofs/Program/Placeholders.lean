import Cql.Proofs.Program.Expressions
import Cql.Proofs.Program.Names

/-!
Named placeholders as the scanner sees them. The name of a placeholder is made of letters, digits
and underscores whatever the column is, and the scanner reads it whole, unless it begins with a
digit: then the colon is an operator, and there is no placeholder.
-/

namespace Cql

open Token (IsName isNameChar isNameStart readAll)

namespace Item

variable {i : Item} {name : String}

theorem isName_min (i : Item) : IsName (i.after "min").toList :=
  isName_camelAfter ⟨rfl, List.all_eq_true.mp rfl⟩ fun _ => isNameChar_of_mem_placeholderName

theorem isName_max (i : Item) : IsName (i.after "max").toList :=
  isName_camelAfter ⟨rfl, List.all_eq_true.mp rfl⟩ fun _ => isNameChar_of_mem_placeholderName

/-- A number after the stem has no part in how the name begins. -/
theorem isName_numbered_iff (i : Item) (k : Nat) :
    IsName (i.numbered k).toList ↔ IsName i.stem.toList := by
  rw [numbered, String.toList_append]
  refine ⟨fun h => ⟨?_, fun c hc => h.2 c (List.mem_append_left _ hc)⟩, fun h =>
    isName_append h fun c => isNameChar_of_mem_toString⟩
  have hhead := h.1
  rw [stem, head?_placeholderName]
  rwa [List.head?_append, stem, head?_placeholderName, Option.some_or] at hhead

theorem isNameChar_of_takes (h : i.Takes name) : ∀ c ∈ name.toList, isNameChar c := by
  obtain ⟨column, _ | _ | count⟩ := i
  · obtain rfl := h
    exact fun c => isNameChar_of_mem_placeholderName
  · obtain rfl | rfl := h
    · exact (isName_min _).2
    · exact (isName_max _).2
  · obtain ⟨k, -, rfl⟩ := h
    rw [numbered, String.toList_append]
    exact List.forall_mem_append.mpr
      ⟨fun c => isNameChar_of_mem_placeholderName, fun c => isNameChar_of_mem_toString⟩

/-- Only a name that begins as its column does may begin with a digit. -/
theorem isName_iff_of_takes (h : i.Takes name) :
    IsName name.toList ↔ i.use = .bounds ∨ ¬LeadsWithDigit i.column := by
  obtain ⟨column, _ | _ | count⟩ := i
  · obtain rfl := h
    simp [stem, isName_placeholderName_iff]
  · obtain rfl | rfl := h
    · exact iff_of_true (isName_min _) (.inl rfl)
    · exact iff_of_true (isName_max _) (.inl rfl)
  · obtain ⟨k, -, rfl⟩ := h
    simp [isName_numbered_iff, stem, isName_placeholderName_iff]

end Item

namespace Token

variable {name : List Char}

theorem readAll_colonNamed (h : IsName name) :
    readAll (':' :: name) = .ok [⟨.colonNamed, ':' :: name⟩] := by
  have hnext : next ':' (name ++ []) = .ok (.colonNamed, name, []) := next_colon h (by simp)
  rw [List.append_nil] at hnext
  rw [readAll_eq_ok_iff, scan, hnext]
  simp only [scan]

/-- After a colon, a name that begins with a digit is no name. -/
theorem readAll_colon_of_not_isName (hall : ∀ c ∈ name, isNameChar c) (h : ¬IsName name) :
    ∃ ts, readAll (':' :: name) = .ok ts ∧ ∀ t ∈ ts, t.isPlaceholder = false := by
  have hhead : ¬name.head?.any isNameStart := fun hstart => h ⟨hstart, hall⟩
  have hcut : cutOperator ':' name = ([], name) := by
    cases name <;> simp [cutOperator]
  have hnext : next ':' name = .ok (.punctuation, [], name) := by
    simp [next, hhead, hcut, Text.Blank.isAscii, isNameStart]
  -- What the digits and letters after the colon are read as does not matter: no character of a name
  -- starts a placeholder.
  have hlegible : Legible .colon (name ++ []) (name.map some ++ []) [] :=
    .append_inert (fun c hc => isInert_of_isNameChar (hall c hc)) .nil
  rw [List.append_nil, List.append_nil] at hlegible
  obtain ⟨ts, hscan, hskeleton, -, -⟩ := hlegible.scan_eq
  have hnone : ts.countP isPlaceholder = 0 := by
    rw [countP_isPlaceholder, hskeleton]
    simp [List.count_eq_zero]
  refine ⟨⟨.punctuation, [':']⟩ :: ts, ?_, List.forall_mem_cons.mpr ⟨rfl, ?_⟩⟩
  · rw [readAll_eq_ok_iff, scan, hnext]
    simp only [hscan]
  · simpa [List.countP_eq_zero] using hnone

end Token

namespace Piece

theorem written_named_of_place? {p : Piece} {place : Place} (h : p.place? = some place) :
    p.written .named = ":" ++ place.name := by
  cases p with
  | text s => cases h
  | value name v | hole name =>
    cases h
    rfl

end Piece

namespace Program

variable {P : Program} {casing : Casing} {w : Workshop} {r : Rendered}

/-- With named placeholders, every place of the statement is written as a colon and a name that an
item of the statement takes for its column. The scanner reads it as one placeholder of this name,
but as no placeholder at all if the name is no bound of a range and the last segment of the column
leads with a digit. -/
theorem placeholders_read (h : P.result ⟨casing, .named⟩ w = .ok r) :
    ∃ buffer ps, r = .ofPieces .named buffer ps ∧
      Piece.places ps = (P.statement ⟨casing, .named⟩ w).places ∧
      (∀ p ∈ ps, ∀ place ∈ p.place?, p.written .named = ":" ++ place.name) ∧
      ∀ place ∈ (P.statement ⟨casing, .named⟩ w).places,
        ∃ item ∈ (P.statement ⟨casing, .named⟩ w).items, place.name ∈ item.names ∧
          ∃ ts, readAll (":" ++ place.name).toList = .ok ts ∧
            (item.use = .bounds ∨ ¬LeadsWithDigit item.column →
              ts = [⟨.colonNamed, ':' :: place.name.toList⟩]) ∧
            (item.use ≠ .bounds ∧ LeadsWithDigit item.column →
              ∀ t ∈ ts, t.isPlaceholder = false) := by
  obtain ⟨buffer, ps, rfl, houtcome, -⟩ := exists_bears h
  refine ⟨buffer, ps, rfl, outcome_places ps houtcome,
    fun p _ place hplace => Piece.written_named_of_place? hplace, fun place hplace => ?_⟩
  have hname : place.name ∈ (P.statement ⟨casing, .named⟩ w).items.flatMap Item.names := by
    rw [← Statement.filter_cells] at hplace
    rw [← Statement.names_cells (not_repeatsNames_statement rfl houtcome)]
    exact List.mem_map_of_mem (List.mem_of_mem_filter hplace)
  obtain ⟨item, hitem, hin⟩ := List.mem_flatMap.mp hname
  have htakes := Item.mem_names.mp hin
  have hread := Item.isName_iff_of_takes htakes
  have hchars : (":" ++ place.name).toList = ':' :: place.name.toList := by simp
  refine ⟨item, hitem, hin, ?_⟩
  rw [hchars]
  by_cases hlegible : IsName place.name.toList
  · refine ⟨_, Token.readAll_colonNamed hlegible, fun _ => rfl, fun ⟨huse, hdigit⟩ => ?_⟩
    exact absurd (hread.mp hlegible) (by simp [huse, hdigit])
  · obtain ⟨ts, hts, hnone⟩ :=
      Token.readAll_colon_of_not_isName (Item.isNameChar_of_takes htakes) hlegible
    exact ⟨ts, hts, fun hitem => absurd (hread.mpr hitem) hlegible, fun _ => hnone⟩

/-- Changes an account by columns whose names are not plain. -/
def securing : Program where
  origin := .update "accounts"
  clauses := [.setHoles ["acc.\"Größe\""], .setValue "\"2fa\"" (.bool true),
    .filter (.between "1st" "BETWEEN" (.int 1) (.int 9))]

theorem placeholders_read_securing : ∃ r,
    securing.result ⟨.lowerUnderscore, .named⟩ {} = .ok r ∧
    readAll ":Gre".toList = .ok [⟨.colonNamed, ":Gre".toList⟩] ∧
    readAll ":min1st".toList = .ok [⟨.colonNamed, ":min1st".toList⟩] ∧
    ∃ ts, readAll ":2fa".toList = .ok ts ∧ ∀ t ∈ ts, t.isPlaceholder = false := by
  obtain ⟨-, -, -, -, -, hread⟩ := placeholders_read
    (rfl : securing.result ⟨.lowerUnderscore, .named⟩ {} = .ok _)
  have hplaces : (securing.statement ⟨.lowerUnderscore, .named⟩ {}).places =
      [⟨"Gre", none⟩, ⟨"2fa", some (.bool true)⟩, ⟨"min1st", some (.int 1)⟩,
        ⟨"max1st", some (.int 9)⟩] := rfl
  have hitems : (securing.statement ⟨.lowerUnderscore, .named⟩ {}).items =
      [⟨"acc.\"Größe\"", .one⟩, ⟨"\"2fa\"", .one⟩, ⟨"1st", .bounds⟩] := rfl
  have hnamed : ∀ item ∈ (securing.statement ⟨.lowerUnderscore, .named⟩ {}).items,
      "Gre" ∈ item.names ∨ "min1st" ∈ item.names →
        item.use = .bounds ∨ ¬LeadsWithDigit item.column := by
    rw [hitems]
    decide +kernel
  have hunnamed : ∀ item ∈ (securing.statement ⟨.lowerUnderscore, .named⟩ {}).items,
      "2fa" ∈ item.names → item.use ≠ .bounds ∧ LeadsWithDigit item.column := by
    rw [hitems]
    decide +kernel
  rw [hplaces] at hread
  refine ⟨_, rfl, ?_, ?_, ?_⟩
  · obtain ⟨item, hitem, hin, ts, hts, hone, -⟩ := hread ⟨"Gre", none⟩ (by simp)
    exact hts.trans (congrArg _ (hone (hnamed item hitem (.inl hin))))
  · obtain ⟨item, hitem, hin, ts, hts, hone, -⟩ := hread ⟨"min1st", some (.int 1)⟩ (by simp)
    exact hts.trans (congrArg _ (hone (hnamed item hitem (.inr hin))))
  · obtain ⟨item, hitem, hin, ts, hts, -, hnone⟩ := hread ⟨"2fa", some (.bool true)⟩ (by simp)
    exact ⟨ts, hts, hnone (hunnamed item hitem hin)⟩

/-- A name that begins with a digit is not read as one. -/
theorem placeholder_not_read : ¬ ∀ (P : Program) (casing : Casing) (w : Workshop) (r : Rendered),
    P.result ⟨casing, .named⟩ w = .ok r →
    ∀ place ∈ (P.statement ⟨casing, .named⟩ w).places,
      readAll (":" ++ place.name).toList = .ok [⟨.colonNamed, ':' :: place.name.toList⟩] := by
  intro hall
  have hread := hall securing .lowerUnderscore {} _ rfl ⟨"2fa", some (.bool true)⟩
    (List.mem_cons_of_mem _ List.mem_cons_self)
  revert hread
  decide +kernel

end Program

end Cql
