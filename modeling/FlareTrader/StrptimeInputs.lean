import FlareTrader.Strptime

/-! The strings that `strptime` accepts. The loop takes a rendering off the front of the
string, and nothing after it asks what is left of the string. -/

namespace FlareTrader.DateTime

def Token.writeValues (value : Field → ℕ) : Token → List Char
  | literal c => [c]
  | percent => ['%']
  | field f => FixedWidth.write f.width (value f)

def Token.width : Token → ℕ
  | literal _ => 1
  | percent => 1
  | field f => f.width

def Format.width (fmt : Format) : ℕ := (fmt.tokens.map Token.width).sum

theorem Token.writeValues_of (dt : Datetime) (t : Token) :
    t.writeValues (Field.of dt) = t.write dt := by
  cases t <;> rfl

theorem Token.length_write (dt : Datetime) (t : Token) : (t.write dt).length = t.width := by
  cases t with
  | literal c => rfl
  | percent => rfl
  | field f => exact FixedWidth.length_write f.width (f.of dt)

theorem length_render (dt : Datetime) (fmt : Format) : (render dt fmt).length = fmt.width := by
  simp only [render, Format.width, List.length_flatMap, Token.length_write]

structure Takes (t : Token) (str : List Char) (scan : Scan) (str' : List Char) (scan' : Scan) :
    Prop where
  text : str = t.writeValues scan'.value ++ str'
  fresh : ∀ g, t = .field g → scan.find g = false
  find : ∀ g, scan.find g = true ∨ t = .field g → scan'.find g = true
  value : ∀ g, t ≠ .field g → scan'.value g = scan.value g
  bound : (∀ g, scan.value g < 10 ^ g.width) → ∀ g, scan'.value g < 10 ^ g.width

theorem Takes.of_text {t : Token} {str str' : List Char} {scan : Scan}
    (htext : str = t.writeValues scan.value ++ str') (hfield : ∀ g, t ≠ .field g) :
    Takes t str scan str' scan where
  text := htext
  fresh := fun g hg => absurd hg (hfield g)
  find := fun g hg => hg.resolve_right (hfield g)
  value := fun _ _ => rfl
  bound := fun h => h

theorem takes_field {f : Field} {n : ℕ} {str str' : List Char} {scan : Scan}
    (hfind : scan.find f = false) (hread : FixedWidth.read f.width str = some (n, str')) :
    Takes (.field f) str scan str' (scan.store f n) := by
  obtain ⟨hlt, htext⟩ := FixedWidth.eq_of_read hread
  refine ⟨?_, fun g hg => ?_, fun g hg => ?_, fun g hg => ?_, fun hbound g => ?_⟩
  · simp only [Token.writeValues, Scan.store, Function.update_self]
    exact htext
  · cases hg
    exact hfind
  · by_cases hfg : g = f
    · simp [Scan.store, hfg]
    · have hold : scan.find g = true := hg.resolve_right fun heq => hfg (Token.field.inj heq).symm
      simp [Scan.store, hfg, hold]
  · have hne : g ≠ f := fun hfg => hg (hfg ▸ rfl)
    simp [Scan.store, hne]
  · by_cases hfg : g = f
    · subst hfg
      simpa [Scan.store] using hlt
    · simpa [Scan.store, hfg] using hbound g

theorem scanLoop_cases {t : Token} (ht : ∀ c, .literal c = t → c ≠ '%' ∧ c ≠ nul) (d : Char)
    (fmt str : List Char) (scan : Scan) :
    scanLoop (t.spell ++ fmt) (d :: str) scan = .error invalidFormat ∨
      ∃ str' scan', Takes t (d :: str) scan str' scan' ∧
        scanLoop (t.spell ++ fmt) (d :: str) scan = scanLoop fmt str' scan' := by
  cases t with
  | literal c =>
    have hc := (ht c rfl).1
    by_cases hsame : c = d
    · subst hsame
      refine Or.inr ⟨str, scan, Takes.of_text rfl fun g hg => ?_, scanLoop_literal hc fmt str scan⟩
      cases hg
    · left
      rw [scanLoop.eq_def]
      exact (if_pos hc).trans (if_pos hsame)
  | percent =>
    by_cases hsame : d = '%'
    · subst hsame
      refine Or.inr ⟨str, scan, Takes.of_text rfl fun g hg => ?_, rfl⟩
      cases hg
    · left
      show scanLoop ('%' :: '%' :: fmt) (d :: str) scan = _
      rw [scanLoop, if_neg (not_not.mpr rfl)]
      exact if_pos hsame
  | field f =>
    show scanLoop ('%' :: f.specifier :: fmt) (d :: str) scan = _ ∨ ∃ str' scan', _ ∧
      scanLoop ('%' :: f.specifier :: fmt) (d :: str) scan = _
    rw [scanLoop, if_neg (not_not.mpr rfl)]
    simp only [Field.ofSpecifier_specifier]
    cases hfind : scan.find f with
    | true => exact Or.inl (if_pos rfl)
    | false =>
      cases hread : FixedWidth.read f.width (d :: str) with
      | none => exact Or.inl rfl
      | some r => exact Or.inr ⟨r.2, scan.store f r.1, takes_field hfind hread, rfl⟩

theorem Spells.uncons {t : Token} {ts : List Token} {fmt : List Char} (h : Spells (t :: ts) fmt) :
    (∀ c, .literal c = t → c ≠ '%' ∧ c ≠ nul) ∧ fmt = t.spell ++ ts.flatMap Token.spell ∧
      Spells ts (ts.flatMap Token.spell) := by
  obtain ⟨rfl, hlit⟩ := h
  exact ⟨fun c hc => hlit c (hc ▸ List.mem_cons_self), List.flatMap_cons,
    rfl, fun c hc => hlit c (List.mem_cons_of_mem t hc)⟩

theorem scanLoop_nil {t : Token} (fmt : List Char) (scan : Scan) :
    ∃ f rest, scanLoop (t.spell ++ fmt) [] scan = .ok (f :: rest, scan) := by
  cases t <;> exact ⟨_, _, rfl⟩

/-- A loop that fails throws, its assertions hold. -/
theorem scanLoop_error {ts : List Token} {fmt str : List Char} {scan : Scan} (h : Spells ts fmt)
    {failure : Failure} (hrun : scanLoop fmt str scan = .error failure) :
    failure = invalidFormat := by
  induction ts generalizing fmt str scan with
  | nil =>
    rw [← h.1, List.flatMap_nil, scanLoop.eq_def] at hrun
    cases hrun
  | cons t ts ih =>
    obtain ⟨ht, rfl, htail⟩ := h.uncons
    cases str with
    | nil =>
      obtain ⟨f, rest, hnil⟩ := @scanLoop_nil t (ts.flatMap Token.spell) scan
      rw [hnil] at hrun
      cases hrun
    | cons d str =>
      rcases scanLoop_cases ht d (ts.flatMap Token.spell) str scan with
        hfail | ⟨str', scan', -, hstep⟩
      · exact Except.error.inj (hrun.symm.trans hfail)
      · exact ih htail (hstep.symm.trans hrun)

/-- What a loop to the end of the format has taken is the text of the values it has stored,
which later tokens do not overwrite. -/
theorem eq_of_scanLoop {ts : List Token} {fmt str : List Char} {scan scan' : Scan}
    (h : Spells ts fmt) (hrun : scanLoop fmt str scan = .ok ([], scan')) :
    (∃ rest, str = ts.flatMap (Token.writeValues scan'.value) ++ rest) ∧
      (∀ g, scan.find g = true ∨ .field g ∉ ts → scan'.value g = scan.value g) ∧
      ((∀ g, scan.value g < 10 ^ g.width) → ∀ g, scan'.value g < 10 ^ g.width) := by
  induction ts generalizing fmt str scan with
  | nil =>
    rw [← h.1, List.flatMap_nil, scanLoop.eq_def] at hrun
    obtain rfl := (Prod.mk.inj (Except.ok.inj hrun)).2
    exact ⟨⟨str, rfl⟩, fun _ _ => rfl, fun hbound => hbound⟩
  | cons t ts ih =>
    obtain ⟨ht, rfl, htail⟩ := h.uncons
    cases str with
    | nil =>
      obtain ⟨f, rest, hnil⟩ := @scanLoop_nil t (ts.flatMap Token.spell) scan
      rw [hnil] at hrun
      cases hrun
    | cons d str =>
      rcases scanLoop_cases ht d (ts.flatMap Token.spell) str scan with
        hfail | ⟨str', next, htakes, hstep⟩
      · rw [hfail] at hrun
        cases hrun
      · obtain ⟨⟨rest, hrest⟩, hvalue, hbound⟩ := ih htail (hstep.symm.trans hrun)
        have htext : t.writeValues next.value = t.writeValues scan'.value := by
          cases t with
          | literal c => rfl
          | percent => rfl
          | field f =>
            rw [Token.writeValues, Token.writeValues, hvalue f (Or.inl (htakes.find f (Or.inr rfl)))]
        refine ⟨⟨rest, ?_⟩, fun g hg => ?_, fun h => hbound (htakes.bound h)⟩
        · rw [htakes.text, htext, hrest, List.flatMap_cons, List.append_assoc]
        · have hother : t ≠ .field g := by
            rintro rfl
            rcases hg with hfind | hnot
            · rw [htakes.fresh g rfl] at hfind
              cases hfind
            · exact hnot List.mem_cons_self
          rw [← htakes.value g hother]
          refine hvalue g (hg.imp (fun hfind => htakes.find g (Or.inl hfind)) fun hnot hmem => ?_)
          exact hnot (List.mem_cons_of_mem t hmem)

theorem Date.fields_of_make {y m d : ℤ} {date : Date} (h : Date.make y m d = .ok date) :
    date.year = y ∧ date.month = m ∧ date.day = d := by
  rw [Date.make] at h
  split at h
  · cases h
  · split at h
    · cases h
    · split at h
      · cases h
      · rw [← Except.ok.inj h]
        exact ⟨rfl, rfl, rfl⟩

theorem Time.fields_of_make {h m s us : ℤ} {time : Time} (hmake : Time.make h m s us = .ok time) :
    time.hour = h ∧ time.minute = m ∧ time.second = s ∧ time.microsecond = us := by
  rw [Time.make] at hmake
  split at hmake
  · cases hmake
  · rw [← Except.ok.inj hmake]
    exact ⟨rfl, rfl, rfl, rfl⟩

theorem Datetime.of_make {value : Field → ℕ} {dt : Datetime}
    (h : Datetime.make (value .year) (value .month) (value .day) (value .hour) (value .minute)
      (value .second) (1000 * value .millisecond + value .microsecond) = .ok dt)
    (hbound : value .microsecond < 1000) (f : Field) : f.of dt = value f := by
  rw [Datetime.make] at h
  cases hdate : Date.make (value .year) (value .month) (value .day) with
  | error failure =>
    rw [hdate] at h
    cases h
  | ok date =>
    cases htime : Time.make (value .hour) (value .minute) (value .second)
        (1000 * value .millisecond + value .microsecond) with
    | error failure =>
      rw [hdate, htime] at h
      cases h
    | ok time =>
      rw [hdate, htime] at h
      rw [← Except.ok.inj h]
      obtain ⟨hyear, hmonth, hday⟩ := Date.fields_of_make hdate
      obtain ⟨hhour, hminute, hsecond, hmicro⟩ := Time.fields_of_make htime
      cases f <;> simp only [Field.of, hyear, hmonth, hday, hhour, hminute, hsecond, hmicro] <;>
        omega

theorem Date.error_of_make {y m d : ℤ} {failure : Failure} (h : Date.make y m d = .error failure) :
    ∃ what, failure = .outOfRange what := by
  rw [Date.make] at h
  split at h
  · exact ⟨_, (Except.error.inj h).symm⟩
  · next hin =>
    split at h
    · next failure' hlookup =>
      rw [lookup_dayRangeTable (by omega) (by omega)] at hlookup
      cases hlookup
    · split at h
      · exact ⟨_, (Except.error.inj h).symm⟩
      · cases h

theorem Datetime.error_of_make {y m d h mi s us : ℤ} {failure : Failure}
    (hmake : Datetime.make y m d h mi s us = .error failure) :
    ∃ what, failure = .outOfRange what := by
  rw [Datetime.make] at hmake
  cases hdate : Date.make y m d with
  | error failure' =>
    rw [hdate] at hmake
    exact Except.error.inj hmake ▸ Date.error_of_make hdate
  | ok date =>
    cases htime : Time.make h mi s us with
    | error failure' =>
      rw [hdate, htime] at hmake
      rw [Time.make] at htime
      split at htime
      · exact ⟨_, (Except.error.inj hmake).symm.trans (Except.error.inj htime).symm⟩
      · cases htime
    | ok time =>
      rw [hdate, htime] at hmake
      cases hmake

section Strptime

variable {fmt : Format} {str : List Char} {dt : Datetime}

theorem strptime_accepts (hnul : nul ∉ str) (h : strptime str fmt.text = .ok dt) :
    (∃ rest, str = render dt fmt ++ rest) ∧ ∀ f, .field f ∉ fmt.tokens → f.of dt = 0 := by
  rw [strptime, cStr_text, cStr_of_not_mem hnul] at h
  cases hrun : scanLoop fmt.text str .initial with
  | error failure =>
    rw [hrun] at h
    cases h
  | ok r =>
    obtain ⟨pfmt, scan⟩ := r
    rw [hrun] at h
    replace h : (if pfmt ≠ [] then .error invalidFormat
      else Datetime.make (scan.value .year) (scan.value .month) (scan.value .day)
        (scan.value .hour) (scan.value .minute) (scan.value .second)
        (1000 * scan.value .millisecond + scan.value .microsecond)) = Except.ok dt := h
    split_ifs at h with hend
    rw [not_not.mp hend] at hrun
    obtain ⟨⟨rest, hrest⟩, hvalue, hbound⟩ :=
      eq_of_scanLoop (spells_of_tokenize fmt.tokenize_text) hrun
    have hfields := Datetime.of_make h (hbound (fun g => by cases g <;> decide) .microsecond)
    refine ⟨⟨rest, ?_⟩, fun f hf => ?_⟩
    · have hwrite : Token.writeValues scan.value = Token.write dt := by
        funext t
        rw [← t.writeValues_of, funext hfields]
      rw [hrest, hwrite, render]
    · rw [hfields f, hvalue f (Or.inr hf)]
      rfl

theorem strptime_throws {failure : Failure} (h : strptime str fmt.text = .error failure) :
    (∃ what, failure = .runtimeError what) ∨ ∃ what, failure = .outOfRange what := by
  rw [strptime, cStr_text] at h
  cases hrun : scanLoop fmt.text (cStr str) .initial with
  | error failure' =>
    rw [hrun] at h
    rw [← Except.error.inj h, scanLoop_error (spells_of_tokenize fmt.tokenize_text) hrun]
    exact Or.inl ⟨_, rfl⟩
  | ok r =>
    obtain ⟨pfmt, scan⟩ := r
    rw [hrun] at h
    replace h : (if pfmt ≠ [] then .error invalidFormat
      else Datetime.make (scan.value .year) (scan.value .month) (scan.value .day)
        (scan.value .hour) (scan.value .minute) (scan.value .second)
        (1000 * scan.value .millisecond + scan.value .microsecond)) = Except.error failure := h
    split_ifs at h with hend
    · exact Or.inl ⟨_, (Except.error.inj h).symm⟩
    · exact Or.inr (Datetime.error_of_make h)

/-- A string that is accepted is a rendering of its result, unless a rendering is followed
by more. -/
theorem strptime_exact_iff (fmt : Format) (str : List Char) (hnul : nul ∉ str) :
    ((∀ dt, strptime str fmt.text = .ok dt → render dt fmt = str) ↔
        str.length ≤ fmt.width ∨ ¬∃ dt, (∀ f, .field f ∉ fmt.tokens → f.of dt = 0) ∧
          render dt fmt = str.take fmt.width) ∧
      ((∃ dt, strptime str fmt.text = .ok dt) ∨
        (∃ what, strptime str fmt.text = .error (.runtimeError what)) ∨
        ∃ what, strptime str fmt.text = .error (.outOfRange what)) := by
  refine ⟨⟨fun h => ?_, fun h dt hok => ?_⟩, ?_⟩
  · by_contra hnot
    rw [not_or, not_le, not_not] at hnot
    obtain ⟨hlong, dt, hzero, htaken⟩ := hnot
    have hrest : nul ∉ str.drop fmt.width := fun hmem => hnul (List.mem_of_mem_drop hmem)
    have hok := strptime_append fmt dt hzero hrest
    rw [htaken, List.take_append_drop] at hok
    have hlength := length_render dt fmt
    rw [h dt hok] at hlength
    omega
  · obtain ⟨⟨rest, hstr⟩, hzero⟩ := strptime_accepts hnul hok
    have hlength := length_render dt fmt
    rcases h with hshort | hnone
    · rw [hstr, List.length_append] at hshort
      have hnil : rest = [] := List.eq_nil_of_length_eq_zero (by omega)
      rw [hstr, hnil, List.append_nil]
    · refine absurd ⟨dt, hzero, ?_⟩ hnone
      rw [hstr, ← hlength, List.take_left]
  · cases hresult : strptime str fmt.text with
    | ok dt => exact Or.inl ⟨dt, rfl⟩
    | error failure =>
      right
      rcases strptime_throws hresult with ⟨what, rfl⟩ | ⟨what, rfl⟩
      · exact Or.inl ⟨what, rfl⟩
      · exact Or.inr ⟨what, rfl⟩

theorem strptime_exact_iff_example :
    strptime "2021/02/11 15:30:55.865302".toList exampleFormat.text = .ok exampleDatetime ∧
      render exampleDatetime exampleFormat = "2021/02/11 15:30:55.865302".toList := by
  have htext : render exampleDatetime exampleFormat ++ [] =
      "2021/02/11 15:30:55.865302".toList := by
    decide +kernel
  have hok : strptime "2021/02/11 15:30:55.865302".toList exampleFormat.text =
      .ok exampleDatetime := by
    rw [← htext]
    refine strptime_append exampleFormat exampleDatetime (fun f hf => ?_) List.not_mem_nil
    exact absurd hf (by cases f <;> decide +kernel)
  exact ⟨hok, (strptime_exact_iff exampleFormat "2021/02/11 15:30:55.865302".toList
    (by decide +kernel)).1.mpr (Or.inl (by decide +kernel)) exampleDatetime hok⟩

theorem strptime_accepts_more :
    strptime "2021/02/11 15:30:55.865302999".toList exampleFormat.text = .ok exampleDatetime ∧
      render exampleDatetime exampleFormat ≠ "2021/02/11 15:30:55.865302999".toList := by
  have htext : render exampleDatetime exampleFormat ++ "999".toList =
      "2021/02/11 15:30:55.865302999".toList := by
    decide +kernel
  refine ⟨?_, by decide +kernel⟩
  rw [← htext]
  refine strptime_append exampleFormat exampleDatetime (fun f hf => ?_) (by decide +kernel)
  exact absurd hf (by cases f <;> decide +kernel)

end Strptime

end FlareTrader.DateTime
