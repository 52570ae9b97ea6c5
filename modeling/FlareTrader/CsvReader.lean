import FlareTrader.ContractFile
import FlareTrader.SortedMap

/-! The reader of CSV files. The first line names the columns, and a line is accepted when
it splits into as many fields. -/

namespace FlareTrader

abbrev ColumnMap := SortedMap String ℕ (· < ·)

def PlacesFit (m : ColumnMap) : Prop :=
  ∀ name i, m.find? name = some i → i < m.entries.length

def nameColumns : List (List Char) → ℕ → ColumnMap → Bool × ColumnMap
  | [], _, m => (true, m)
  | name :: header, i, m =>
    if name = [] then (false, m)
    else if m.contains (String.ofList name) then (false, m)
    else nameColumns header (i + 1) (m.emplace (String.ofList name) i)

theorem placesFit_empty : PlacesFit .empty := by
  intro name i h
  cases h

theorem placesFit_nameColumns {header : List (List Char)} {i : ℕ} {m : ColumnMap}
    (h : PlacesFit m) (hi : i ≤ m.entries.length) : PlacesFit (nameColumns header i m).2 := by
  induction header generalizing i m with
  | nil => exact h
  | cons name header ih =>
    rw [nameColumns]
    split_ifs with hempty htwice
    · exact h
    · exact h
    · have hnone : m.find? (String.ofList name) = none := by
        simpa [SortedMap.contains] using htwice
      have hlength : (m.insert (String.ofList name) i).entries.length = m.entries.length + 1 := by
        rw [(SortedMap.insert_perm m _ i).length_eq, SortedMap.erase_of_find?_none hnone]
        rfl
      rw [SortedMap.emplace_of_find?_none hnone]
      apply ih
      · intro other j hj
        rw [SortedMap.find?_insert] at hj
        split_ifs at hj with hsame
        · cases hj
          omega
        · have := h other j hj
          omega
      · omega

/-- `ifs_` is the lines that it still gives and whether it is good. -/
structure CsvReader where
  lines : List (List Char)
  good : Bool
  nameToIndex : ColumnMap
  fields : List (List Char)
  placesFit : PlacesFit nameToIndex
  fields_length : fields = [] ∨ fields.length = nameToIndex.entries.length

namespace CsvReader

/-- Nothing is read from a file that is missing or has no line. -/
def failed : CsvReader := ⟨[], false, .empty, [], placesFit_empty, Or.inl rfl⟩

/-- A stream that is closed is still good until a line is wanted. -/
def make (file : Option (List Char)) : Option CsvReader :=
  match (file.map ContractFile.getlines).getD [] with
  | [] => some failed
  | headLine :: lines =>
    (stringSplit headLine [','] false).map fun header =>
      let named := nameColumns header 0 .empty
      { lines := if header ≠ [] ∧ named.1 then lines else []
        good := true
        nameToIndex := named.2
        fields := []
        placesFit := placesFit_nameColumns placesFit_empty le_rfl
        fields_length := Or.inl rfl }

def nextLine (r : CsvReader) : Option (Except String (Bool × CsvReader)) :=
  if r.good = false then some (.ok (false, r))
  else match r.lines with
    | [] => some (.ok (false, { r with good := false }))
    | line :: lines =>
      (stringSplit line [','] false).map fun fields =>
        if h : fields.length ≠ r.nameToIndex.entries.length then .error "invalid csv file"
        else .ok (true, { r with
          lines := lines, fields := fields, fields_length := Or.inr (not_not.mp h) })

def getFieldRef (r : CsvReader) (fieldName : String) : Except String (List Char) :=
  match h : r.nameToIndex.find? fieldName with
  | none => .error "field not found"
  | some i =>
    if hempty : r.fields = [] then .error "no data"
    else .ok (r.fields.get ⟨i, by
      rw [r.fields_length.resolve_left hempty]
      exact r.placesFit fieldName i h⟩)

theorem getFieldRef_ok_iff {r : CsvReader} (hread : r.fields ≠ []) (fieldName : String) :
    (∃ field, r.getFieldRef fieldName = .ok field) ↔ r.nameToIndex.contains fieldName = true := by
  unfold getFieldRef SortedMap.contains
  split
  · next hnone =>
    rw [hnone]
    refine iff_of_false ?_ Bool.false_ne_true
    rintro ⟨field, hfield⟩
    cases hfield
  · next i hsome =>
    have hcontains : (r.nameToIndex.find? fieldName).isSome = true := by
      rw [hsome]
      rfl
    rw [dif_neg hread]
    exact iff_of_true ⟨_, rfl⟩ hcontains

def ReadsFields (r : CsvReader) (row : List Char) : Prop :=
  ∃ r', r.nextLine = some (.ok (true, r')) ∧ r'.fields.length = row.count ',' + 1 ∧
    [','].intercalate r'.fields = row

variable {r : CsvReader} {row : List Char} {lines : List (List Char)}

theorem nextLine_cons (hgood : r.good = true) (hlines : r.lines = row :: lines) :
    r.nextLine = (stringSplit row [','] false).map fun fields =>
      if h : fields.length ≠ r.nameToIndex.entries.length then .error "invalid csv file"
      else .ok (true, { r with
        lines := lines, fields := fields, fields_length := Or.inr (not_not.mp h) }) := by
  rw [nextLine, if_neg (by simp [hgood])]
  simp only [hlines]

theorem readsFields_iff (hgood : r.good = true) (hlines : r.lines = row :: lines)
    (hcolumns : r.nameToIndex.entries.length = row.count ',' + 1) :
    r.ReadsFields row ↔ KeepsElements row [','] := by
  rw [ReadsFields, nextLine_cons hgood hlines, KeepsElements, Occurrences.length_occurrences_singleton]
  constructor
  · rintro ⟨r', hr', hlength, hjoined⟩
    obtain ⟨fields, hsplit, hfields⟩ := Option.map_eq_some_iff.mp hr'
    split_ifs at hfields with hcount
    cases hfields
    refine ⟨fields, hsplit, fun fuel hfuel => ?_, hjoined, hlength⟩
    rw [splitLoop_eq_stringSplit (List.cons_ne_nil _ _) hfuel, hsplit]
  · rintro ⟨fields, hsplit, -, hjoined, hlength⟩
    have hcount : ¬fields.length ≠ r.nameToIndex.entries.length := by
      rw [hlength, hcolumns]
      exact not_not.mpr rfl
    rw [hsplit, Option.map_some, dif_neg hcount]
    exact ⟨_, rfl, hlength, hjoined⟩

/-- Texts keep all their elements exactly where the last one has some text; a row of as
many fields as columns is read exactly where its last field has some. -/
theorem stringSplit_keeps_iff (str : List Char) {delim : List Char} (hdelim : delim ≠ [])
    (hgood : r.good = true) (hlines : r.lines = row :: lines)
    (hcolumns : r.nameToIndex.entries.length = row.count ',' + 1) :
    (KeepsElements str delim ↔ ¬Occurrences.EndsInside delim str) ∧
      (r.ReadsFields row ↔ row ≠ [] ∧ row.getLast? ≠ some ',') := by
  refine ⟨keepsElements_iff hdelim, ?_⟩
  rw [readsFields_iff hgood hlines hcolumns, keepsElements_iff (List.cons_ne_nil _ _),
    Occurrences.endsInside_singleton, not_or]

def behindHead (file : String) : CsvReader := ((make (some file.toList)).getD failed)

theorem stringSplit_keeps_iff_row :
    (KeepsElements ['a', ':', ':', 'b'] [':', ':'] ↔
        ¬Occurrences.EndsInside [':', ':'] ['a', ':', ':', 'b']) ∧
      ((behindHead "x,y\n1,2\n").ReadsFields ['1', ',', '2'] ↔
        ['1', ',', '2'] ≠ [] ∧ ['1', ',', '2'].getLast? ≠ some ',') :=
  stringSplit_keeps_iff ['a', ':', ':', 'b'] (by decide)
    (by decide +kernel) (by decide +kernel : (behindHead "x,y\n1,2\n").lines = [['1', ',', '2']])
    (by decide +kernel)

/-- The empty field behind the last comma is lost. -/
theorem trailing_field_is_lost :
    stringSplit ['a', ','] [','] false = some [['a']] ∧ ¬KeepsElements ['a', ','] [','] ∧
      (behindHead "x,y\n1,\n").nextLine = some (.error "invalid csv file") := by
  have hlines : (behindHead "x,y\n1,\n").lines = [['1', ',']] := by decide +kernel
  have hcount : [['1']].length ≠ (behindHead "x,y\n1,\n").nameToIndex.entries.length := by
    decide +kernel
  have hsplit : stringSplit ['1', ','] [','] false = some [['1']] := by decide
  refine ⟨by decide, ?_, ?_⟩
  · rw [keepsElements_iff (List.cons_ne_nil _ _), not_not]
    decide
  · rw [nextLine_cons (by decide +kernel) hlines, hsplit, Option.map_some, dif_pos hcount]

end CsvReader

end FlareTrader
