import FlareTrader.Occurrences

/-! Splitting a text at a delimiter. Empty elements are dropped or kept, but for the last
one, which is always dropped when it is empty. -/

namespace FlareTrader

def findText (delim : List Char) : List Char → Option ℕ
  | [] => if delim = [] then some 0 else none
  | c :: cs =>
    if delim.isPrefixOf (c :: cs) then some 0 else (findText delim cs).map (· + 1)

def splitLoop (delim : List Char) (skipEmptyElem : Bool) : ℕ → List Char → Option (List (List Char))
  | 0, _ => none
  | fuel + 1, rest =>
    match findText delim rest with
    | some size =>
      (splitLoop delim skipEmptyElem fuel (rest.drop (size + delim.length))).map fun results =>
        if size ≠ 0 then rest.take size :: results
        else if skipEmptyElem then results
        else [] :: results
    | none => some (if rest ≠ [] then [rest] else [])

/-- Each turn takes the delimiter off the text, so only an empty delimiter, with which
the loop never ends, exceeds the turns. -/
def stringSplit (str delim : List Char) (skipEmptyElem : Bool := true) :
    Option (List (List Char)) :=
  splitLoop delim skipEmptyElem (str.length + 1) str

section Single

variable {d : Char}

theorem findText_none {str : List Char} (h : d ∉ str) : findText [d] str = none := by
  induction str with
  | nil => rfl
  | cons c cs ih =>
    rw [List.mem_cons, not_or] at h
    have hne : (d == c) = false := beq_eq_false_iff_ne.mpr h.1
    simp [findText, List.isPrefixOf, hne, ih h.2]

theorem findText_append {field : List Char} (h : d ∉ field) (rest : List Char) :
    findText [d] (field ++ d :: rest) = some field.length := by
  induction field with
  | nil => simp [findText, List.isPrefixOf]
  | cons c cs ih =>
    rw [List.mem_cons, not_or] at h
    have hne : (d == c) = false := beq_eq_false_iff_ne.mpr h.1
    simp [findText, List.isPrefixOf, hne, ih h.2]

theorem notMem_intercalate {c : Char} (hne : c ≠ d) {fields : List (List Char)}
    (h : ∀ field ∈ fields, c ∉ field) : c ∉ [d].intercalate fields := by
  induction fields with
  | nil => exact List.not_mem_nil
  | cons field fields ih =>
    have hfield := h field List.mem_cons_self
    cases fields with
    | nil =>
      rw [List.intercalate_singleton]
      exact hfield
    | cons next fields =>
      rw [List.intercalate_cons_cons, List.mem_append, List.mem_append, List.mem_singleton,
        not_or, not_or]
      exact ⟨⟨hfield, hne⟩, ih fun f hf => h f (List.mem_cons_of_mem _ hf)⟩

theorem splitLoop_intercalate {fields : List (List Char)} (h : ∀ field ∈ fields, d ∉ field)
    {fuel : ℕ} (hfuel : ([d].intercalate fields).length < fuel) :
    splitLoop [d] true fuel ([d].intercalate fields) =
      some (fields.filter fun field => field ≠ []) := by
  induction fields generalizing fuel with
  | nil =>
    obtain ⟨fuel, rfl⟩ := Nat.exists_eq_succ_of_ne_zero (Nat.ne_zero_of_lt hfuel)
    rfl
  | cons field fields ih =>
    obtain ⟨fuel, rfl⟩ := Nat.exists_eq_succ_of_ne_zero (Nat.ne_zero_of_lt hfuel)
    have hfield := h field List.mem_cons_self
    cases fields with
    | nil =>
      rw [List.intercalate_singleton, splitLoop, findText_none hfield]
      by_cases hempty : field = []
      · simp [hempty]
      · simp [hempty]
    | cons next fields =>
      rw [List.intercalate_cons_cons, List.append_assoc, List.singleton_append] at hfuel ⊢
      rw [List.length_append, List.length_cons] at hfuel
      have hrest := ih (fun f hf => h f (List.mem_cons_of_mem _ hf)) (Nat.lt_of_lt_of_le
        (Nat.lt_succ_self _) (by omega : ([d].intercalate (next :: fields)).length + 1 ≤ fuel))
      have hdrop : (field ++ d :: [d].intercalate (next :: fields)).drop (field.length + [d].length) =
          [d].intercalate (next :: fields) := by
        rw [← List.drop_drop, List.drop_left]
        rfl
      rw [splitLoop, findText_append hfield]
      simp only [hdrop, hrest, List.take_left, Option.map_some, if_true]
      generalize next :: fields = others
      by_cases hempty : field = []
      · simp [hempty]
      · simp [hempty]

theorem stringSplit_intercalate {fields : List (List Char)} (h : ∀ field ∈ fields, d ∉ field) :
    stringSplit ([d].intercalate fields) [d] = some (fields.filter fun field => field ≠ []) :=
  splitLoop_intercalate h (Nat.lt_succ_self _)

end Single

section Kept

variable {str delim : List Char}

theorem findText_some {n : ℕ} (h : findText delim str = some n) :
    delim <+: str.drop n ∧ ∀ m < n, ¬delim <+: str.drop m := by
  induction str generalizing n with
  | nil =>
    rw [findText] at h
    split_ifs at h with hempty
    cases h
    exact ⟨hempty ▸ List.nil_prefix, fun m hm => absurd hm m.not_lt_zero⟩
  | cons c cs ih =>
    rw [findText] at h
    split_ifs at h with hstands
    · cases h
      exact ⟨List.isPrefixOf_iff_prefix.mp hstands, fun m hm => absurd hm m.not_lt_zero⟩
    · obtain ⟨k, hk, rfl⟩ := Option.map_eq_some_iff.mp h
      obtain ⟨hhere, hbefore⟩ := ih hk
      refine ⟨hhere, fun m hm => ?_⟩
      cases m with
      | zero => exact fun hfirst => hstands (List.isPrefixOf_iff_prefix.mpr hfirst)
      | succ m => exact hbefore m (Nat.lt_of_succ_lt_succ hm)

theorem findText_nowhere (hdelim : delim ≠ []) (h : findText delim str = none) (n : ℕ) :
    ¬delim <+: str.drop n := by
  induction str generalizing n with
  | nil => exact fun hstands => hdelim (List.prefix_nil.mp (by simpa using hstands))
  | cons c cs ih =>
    rw [findText] at h
    split_ifs at h with hstands
    cases n with
    | zero => exact fun hfirst => hstands (List.isPrefixOf_iff_prefix.mpr hfirst)
    | succ n => exact ih (Option.map_eq_none_iff.mp h) n

theorem cut_of_findText {size : ℕ} (h : findText delim str = some size) :
    str = str.take size ++ delim ++ str.drop (size + delim.length) := by
  obtain ⟨tail, htail⟩ := (findText_some h).1
  rw [← List.drop_drop, ← htail, List.drop_left, List.append_assoc, htail,
    List.take_append_drop]

theorem splitLoop_kept (hdelim : delim ≠ []) (str : List Char) :
    ∃ elems rest, (∀ fuel, str.length < fuel → splitLoop delim false fuel str =
        some (elems ++ if rest ≠ [] then [rest] else [])) ∧
      delim.intercalate (elems ++ [rest]) = str ∧
      elems.length = (Occurrences.occurrences delim str).length ∧
      (rest = [] ↔ Occurrences.EndsInside delim str) := by
  have hlength : 0 < delim.length := List.length_pos_iff.mpr hdelim
  induction hn : str.length using Nat.strong_induction_on generalizing str with
  | _ n ih =>
    cases hfind : findText delim str with
    | none =>
      have hnowhere := findText_nowhere hdelim hfind
      refine ⟨[], str, fun fuel hfuel => ?_, List.intercalate_singleton, ?_, ?_⟩
      · obtain ⟨fuel, rfl⟩ := Nat.exists_eq_succ_of_ne_zero (Nat.ne_zero_of_lt hfuel)
        rw [splitLoop, hfind, List.nil_append]
      · rw [Occurrences.occurrences_of_nowhere hnowhere, List.length_nil, List.length_nil]
      · rw [Occurrences.endsInside_of_nowhere hnowhere]
    | some size =>
      obtain ⟨hstands, hbefore⟩ := findText_some hfind
      have hcut := cut_of_findText hfind
      have hshort := congrArg List.length hcut
      rw [List.length_append, List.length_append] at hshort
      have hcount' := Occurrences.occurrences_of_first hdelim hstands hbefore
      have hends := Occurrences.endsInside_of_first hdelim hstands hbefore
      obtain ⟨elems, rest, hloop, hjoined, hcount, hrest⟩ :=
        ih _ (by omega) (str.drop (size + delim.length)) rfl
      refine ⟨str.take size :: elems, rest, fun fuel hfuel => ?_, ?_, ?_, ?_⟩
      · obtain ⟨fuel, rfl⟩ := Nat.exists_eq_succ_of_ne_zero (Nat.ne_zero_of_lt hfuel)
        simp only [splitLoop, hfind, hloop fuel (by omega), Option.map_some]
        by_cases hempty : size = 0
        · simp [hempty]
        · simp [hempty]
      · rw [List.cons_append, List.intercalate_cons_of_ne_nil (by simp), hjoined, ← hcut]
      · rw [hcount', List.length_cons, List.length_cons, List.length_map, hcount]
      · rw [hrest, hends]

theorem splitLoop_eq_stringSplit (hdelim : delim ≠ []) {fuel : ℕ} (hfuel : str.length < fuel) :
    splitLoop delim false fuel str = stringSplit str delim false := by
  obtain ⟨elems, rest, hloop, -⟩ := splitLoop_kept hdelim str
  rw [stringSplit, hloop fuel hfuel, hloop _ (Nat.lt_succ_self _)]

def KeepsElements (str delim : List Char) : Prop :=
  ∃ elems, stringSplit str delim false = some elems ∧
    (∀ fuel, str.length < fuel → splitLoop delim false fuel str = some elems) ∧
    delim.intercalate elems = str ∧
    elems.length = (Occurrences.occurrences delim str).length + 1

/-- The last element is lost exactly when it is empty. -/
theorem keepsElements_iff (hdelim : delim ≠ []) :
    KeepsElements str delim ↔ ¬Occurrences.EndsInside delim str := by
  obtain ⟨elems, rest, hloop, hjoined, hcount, hrest⟩ := splitLoop_kept hdelim str
  rw [← hrest]
  constructor
  · rintro ⟨all, hall, -, -, hlength⟩ hempty
    have hsame := hall.symm.trans (hloop _ (Nat.lt_succ_self _))
    rw [if_neg (not_not.mpr hempty), List.append_nil] at hsame
    rw [Option.some.inj hsame, hcount] at hlength
    omega
  · intro hsome
    have hsplit : stringSplit str delim false = some (elems ++ [rest]) := by
      rw [stringSplit, hloop _ (Nat.lt_succ_self _), if_pos hsome]
    refine ⟨elems ++ [rest], hsplit, fun fuel hfuel => ?_, hjoined, ?_⟩
    · rw [splitLoop_eq_stringSplit hdelim hfuel, hsplit]
    · rw [List.length_append, hcount, List.length_singleton]

end Kept

end FlareTrader
