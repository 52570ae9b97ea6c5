import FlareTrader.DatetimeMoves
import FlareTrader.FixedWidth

/-! `strptime` of `utils/datetime.cpp`: one loop over the format and the string, and the
formats whose rendering it reads. -/

namespace FlareTrader.DateTime

inductive Field where
  | year
  | month
  | day
  | hour
  | minute
  | second
  | millisecond
  | microsecond
  deriving DecidableEq, Repr

namespace Field

def specifier : Field → Char
  | year => 'Y'
  | month => 'm'
  | day => 'd'
  | hour => 'H'
  | minute => 'M'
  | second => 'S'
  | millisecond => 's'
  | microsecond => 'u'

def width : Field → ℕ
  | year => 4
  | month | day | hour | minute | second => 2
  | millisecond | microsecond => 3

def ofSpecifier (c : Char) : Option Field :=
  if c = 'Y' then some year
  else if c = 'm' then some month
  else if c = 'd' then some day
  else if c = 'H' then some hour
  else if c = 'M' then some minute
  else if c = 'S' then some second
  else if c = 's' then some millisecond
  else if c = 'u' then some microsecond
  else none

theorem ofSpecifier_specifier (f : Field) : ofSpecifier f.specifier = some f := by
  cases f <;> rfl

theorem ofSpecifier_eq_some {c : Char} {f : Field} (h : ofSpecifier c = some f) :
    c = f.specifier := by
  rw [ofSpecifier] at h
  split_ifs at h with hc hc hc hc hc hc hc hc <;> cases h <;> exact hc

end Field

/-- The variables `find_*` and the values that the loop reads. -/
structure Scan where
  find : Field → Bool
  value : Field → ℕ

namespace Scan

def initial : Scan := ⟨fun _ => false, fun _ => 0⟩

def store (scan : Scan) (f : Field) (n : ℕ) : Scan where
  find := Function.update scan.find f true
  value := Function.update scan.value f n

end Scan

def invalidFormat : Failure := .runtimeError "ft::datetime::strptime: invalid format"

def scanLoop : List Char → List Char → Scan → Except Failure (List Char × Scan)
  | f :: fmt, c :: str, scan =>
    if f ≠ '%' then
      if f ≠ c then .error invalidFormat else scanLoop fmt str scan
    else match fmt with
      | [] => .error .assertion
      | s :: fmt =>
        match Field.ofSpecifier s with
        | some field =>
          if scan.find field then .error invalidFormat
          else match FixedWidth.read field.width (c :: str) with
            | some (n, str) => scanLoop fmt str (scan.store field n)
            | none => .error invalidFormat
        | none =>
          if s = '%' then
            if c ≠ '%' then .error invalidFormat else scanLoop fmt str scan
          else .error .assertion
  | [], _, scan => .ok ([], scan)
  | f :: fmt, [], scan => .ok (f :: fmt, scan)

def nul : Char := Char.ofNat 0

def cStr (str : List Char) : List Char := str.takeWhile (· ≠ nul)

def strptime (str fmt : List Char) : Except Failure Datetime := do
  let (pfmt, scan) ← scanLoop (cStr fmt) (cStr str) .initial
  if pfmt ≠ [] then
    .error invalidFormat
  else
    Datetime.make (scan.value .year) (scan.value .month) (scan.value .day) (scan.value .hour)
      (scan.value .minute) (scan.value .second)
      (1000 * scan.value .millisecond + scan.value .microsecond)

def Field.of (dt : Datetime) : Field → ℕ
  | year => dt.date.year.toNat
  | month => dt.date.month.toNat
  | day => dt.date.day.toNat
  | hour => dt.time.hour.toNat
  | minute => dt.time.minute.toNat
  | second => dt.time.second.toNat
  | millisecond => (dt.time.microsecond / 1000).toNat
  | microsecond => (dt.time.microsecond % 1000).toNat

theorem Field.of_lt (dt : Datetime) (f : Field) : f.of dt < 10 ^ f.width := by
  have hyear : dt.date.year ≤ 9999 := dt.date.le_kMaxYear
  have hmonth := dt.date.isDay.month_le
  have hday := dt.date.isDay.day_le.trans (Date.monthLength_le _ _)
  have hh := dt.time.hour_range
  have hm := dt.time.minute_range
  have hs := dt.time.second_range
  have hus := dt.time.microsecond_range
  cases f <;> simp only [Field.of, Field.width] <;> omega

theorem Datetime.make_of (dt : Datetime) :
    Datetime.make (Field.of dt .year) (Field.of dt .month) (Field.of dt .day)
      (Field.of dt .hour) (Field.of dt .minute) (Field.of dt .second)
      (1000 * Field.of dt .millisecond + Field.of dt .microsecond) = .ok dt := by
  have hyear : ((Field.of dt .year : ℕ) : ℤ) = dt.date.year :=
    Int.toNat_of_nonneg (zero_le_one.trans dt.date.kMinYear_le)
  have hmonth : ((Field.of dt .month : ℕ) : ℤ) = dt.date.month :=
    Int.toNat_of_nonneg (zero_le_one.trans dt.date.isDay.one_le_month)
  have hday : ((Field.of dt .day : ℕ) : ℤ) = dt.date.day :=
    Int.toNat_of_nonneg (zero_le_one.trans dt.date.isDay.one_le_day)
  have hhour : ((Field.of dt .hour : ℕ) : ℤ) = dt.time.hour :=
    Int.toNat_of_nonneg dt.time.hour_range.1
  have hminute : ((Field.of dt .minute : ℕ) : ℤ) = dt.time.minute :=
    Int.toNat_of_nonneg dt.time.minute_range.1
  have hsecond : ((Field.of dt .second : ℕ) : ℤ) = dt.time.second :=
    Int.toNat_of_nonneg dt.time.second_range.1
  have hmicro : 1000 * ((Field.of dt .millisecond : ℕ) : ℤ) + (Field.of dt .microsecond : ℕ) =
      dt.time.microsecond := by
    have hus := dt.time.microsecond_range
    simp only [Field.of]
    omega
  rw [Datetime.make, hyear, hmonth, hday, hhour, hminute, hsecond, hmicro,
    Date.make_of_isDay dt.date.isDay, dif_pos ⟨dt.date.kMinYear_le, dt.date.le_kMaxYear⟩,
    Time.make_eq dt.time.hour_range dt.time.minute_range dt.time.second_range
      dt.time.microsecond_range]
  rfl

inductive Token where
  | literal (c : Char)
  | percent
  | field (f : Field)
  deriving DecidableEq, Repr

namespace Token

def spell : Token → List Char
  | literal c => [c]
  | percent => ['%', '%']
  | field f => ['%', f.specifier]

def write (dt : Datetime) : Token → List Char
  | literal c => [c]
  | percent => ['%']
  | field f => FixedWidth.write f.width (f.of dt)

end Token

def tokenize : List Char → Option (List Token)
  | [] => some []
  | c :: fmt =>
    if c = nul then none
    else if c ≠ '%' then (tokenize fmt).map (.literal c :: ·)
    else match fmt with
      | [] => none
      | s :: fmt =>
        match Field.ofSpecifier s with
        | some f => (tokenize fmt).map (.field f :: ·)
        | none => if s = '%' then (tokenize fmt).map (.percent :: ·) else none

def Spells (ts : List Token) (fmt : List Char) : Prop :=
  ts.flatMap Token.spell = fmt ∧ ∀ c, Token.literal c ∈ ts → c ≠ '%' ∧ c ≠ nul

theorem Spells.cons {ts : List Token} {fmt : List Char} (h : Spells ts fmt) {t : Token}
    (ht : ∀ c, .literal c = t → c ≠ '%' ∧ c ≠ nul) : Spells (t :: ts) (t.spell ++ fmt) := by
  refine ⟨by rw [List.flatMap_cons, h.1], fun c hc => ?_⟩
  rcases List.mem_cons.mp hc with heq | hmem
  · exact ht c heq
  · exact h.2 c hmem

theorem spells_of_tokenize {fmt : List Char} {ts : List Token} (h : tokenize fmt = some ts) :
    Spells ts fmt := by
  fun_induction tokenize fmt generalizing ts with
  | case1 =>
    obtain rfl := Option.some.inj h
    exact ⟨rfl, fun c hc => absurd hc List.not_mem_nil⟩
  | case2 => cases h
  | case3 c fmt hnul hne ih =>
    obtain ⟨ts, hts, rfl⟩ := Option.map_eq_some_iff.mp h
    refine (ih hts).cons fun c' heq => ?_
    cases heq
    exact ⟨hne, hnul⟩
  | case4 => cases h
  | case5 c hnul hpercent s fmt f hf ih =>
    obtain ⟨ts, hts, rfl⟩ := Option.map_eq_some_iff.mp h
    rw [not_not.mp hpercent, Field.ofSpecifier_eq_some hf]
    exact (ih hts).cons fun c' heq => by cases heq
  | case6 c hnul hpercent fmt hnone ih =>
    obtain ⟨ts, hts, rfl⟩ := Option.map_eq_some_iff.mp h
    rw [not_not.mp hpercent]
    exact (ih hts).cons fun c' heq => by cases heq
  | case7 => cases h

theorem scanLoop_literal {c : Char} (h : c ≠ '%') (fmt str : List Char) (scan : Scan) :
    scanLoop (c :: fmt) (c :: str) scan = scanLoop fmt str scan := by
  rw [scanLoop.eq_def]
  exact (if_pos h).trans (if_neg (not_not.mpr rfl))

theorem scanLoop_percent (fmt str : List Char) (scan : Scan) :
    scanLoop ('%' :: '%' :: fmt) ('%' :: str) scan = scanLoop fmt str scan := rfl

theorem scanLoop_field {f : Field} {n : ℕ} (hn : n < 10 ^ f.width) {scan : Scan}
    (hfind : scan.find f = false) (fmt str : List Char) :
    scanLoop ('%' :: f.specifier :: fmt) (FixedWidth.write f.width n ++ str) scan =
      scanLoop fmt str (scan.store f n) := by
  have hread := FixedWidth.read_write hn str
  have hne : FixedWidth.write f.width n ++ str ≠ [] := by
    intro hnil
    have hlength := FixedWidth.length_write f.width n
    rw [(List.append_eq_nil_iff.mp hnil).1] at hlength
    cases f <;> cases hlength
  obtain ⟨c, cs, hcs⟩ := List.exists_cons_of_ne_nil hne
  rw [hcs] at hread ⊢
  rw [scanLoop, if_neg (not_not.mpr rfl)]
  simp [Field.ofSpecifier_specifier, hfind, hread]

namespace Scan

def after (dt : Datetime) : Scan → List Token → Scan
  | scan, [] => scan
  | scan, .field f :: ts => after dt (scan.store f (f.of dt)) ts
  | scan, _ :: ts => after dt scan ts

theorem value_after (dt : Datetime) (scan : Scan) (ts : List Token) (f : Field) :
    (scan.after dt ts).value f = if .field f ∈ ts then f.of dt else scan.value f := by
  induction ts generalizing scan with
  | nil => rfl
  | cons t ts ih =>
    cases t with
    | literal c => simp [after, ih]
    | percent => simp [after, ih]
    | field g =>
      rw [after, ih]
      by_cases hg : f = g
      · simp [hg, store]
      · simp [hg, store]

end Scan

/-- Every token takes what was written for it, and what follows is left alone. -/
theorem scanLoop_write (dt : Datetime) {ts : List Token} {fmt : List Char} {scan : Scan}
    (h : Spells ts fmt) (hnew : ∀ f, ts.count (.field f) ≤ if scan.find f then 0 else 1)
    (rest : List Char) :
    scanLoop fmt (ts.flatMap (Token.write dt) ++ rest) scan = .ok ([], scan.after dt ts) := by
  obtain ⟨rfl, hlit⟩ := h
  induction ts generalizing scan with
  | nil => rw [List.flatMap_nil, scanLoop.eq_def]; rfl
  | cons t ts ih =>
    have htail : ∀ c, Token.literal c ∈ ts → c ≠ '%' ∧ c ≠ nul :=
      fun c hc => hlit c (List.mem_cons_of_mem t hc)
    rw [List.flatMap_cons, List.flatMap_cons, List.append_assoc]
    cases t with
    | literal c =>
      have hc := (hlit c List.mem_cons_self).1
      exact (scanLoop_literal hc _ _ scan).trans (ih (by simpa using hnew) htail)
    | percent => exact (scanLoop_percent _ _ scan).trans (ih (by simpa using hnew) htail)
    | field f =>
      have hfind : scan.find f = false := by
        have hcount := hnew f
        rw [List.count_cons_self] at hcount
        by_contra hfound
        rw [if_pos (Bool.not_eq_false _ ▸ hfound)] at hcount
        omega
      refine (scanLoop_field (f.of_lt dt) hfind _ _).trans (ih (fun g => ?_) htail)
      have hcount := hnew g
      by_cases hg : g = f
      · subst hg
        rw [List.count_cons_self, hfind] at hcount
        exact (Nat.le_of_succ_le_succ hcount).trans (Nat.zero_le _)
      · have hne : Token.field f ≠ .field g := fun heq => hg (Token.field.inj heq).symm
        rw [List.count_cons_of_ne hne] at hcount
        simpa [Scan.store, hg] using hcount

/-- A format string: the date once and the parts of the time at most once each. -/
structure Format where
  text : List Char
  tokens : List Token
  tokenize_text : tokenize text = some tokens
  date_once : ∀ f ∈ [Field.year, .month, .day], tokens.count (.field f) = 1
  at_most_once : ∀ f, tokens.count (.field f) ≤ 1

def render (dt : Datetime) (fmt : Format) : List Char := fmt.tokens.flatMap (Token.write dt)

theorem cStr_of_not_mem {str : List Char} (h : nul ∉ str) : cStr str = str := by
  rw [cStr, List.takeWhile_eq_self_iff]
  intro c hc
  exact decide_eq_true (fun heq => h (heq ▸ hc))

theorem nul_not_mem_spell {t : Token} (h : ∀ c, .literal c = t → c ≠ '%' ∧ c ≠ nul) :
    nul ∉ t.spell := by
  cases t with
  | literal c => simpa [Token.spell] using (h c rfl).2.symm
  | percent => decide
  | field f => cases f <;> decide

theorem nul_not_mem_write (dt : Datetime) {t : Token}
    (h : ∀ c, .literal c = t → c ≠ '%' ∧ c ≠ nul) : nul ∉ t.write dt := by
  cases t with
  | literal c => simpa [Token.write] using (h c rfl).2.symm
  | percent => exact show nul ∉ ['%'] by decide
  | field f => exact fun hmem => absurd (FixedWidth.isDigit_of_mem_write hmem) (by decide)

theorem cStr_text (fmt : Format) : cStr fmt.text = fmt.text := by
  have hspells := spells_of_tokenize fmt.tokenize_text
  refine cStr_of_not_mem fun hmem => ?_
  rw [← hspells.1, List.mem_flatMap] at hmem
  obtain ⟨t, ht, hnul⟩ := hmem
  exact nul_not_mem_spell (fun c heq => hspells.2 c (heq ▸ ht)) hnul

theorem nul_not_mem_render (dt : Datetime) (fmt : Format) : nul ∉ render dt fmt := by
  have hspells := spells_of_tokenize fmt.tokenize_text
  intro hmem
  rw [render, List.mem_flatMap] at hmem
  obtain ⟨t, ht, hnul⟩ := hmem
  exact nul_not_mem_write dt (fun c heq => hspells.2 c (heq ▸ ht)) hnul

/-- What follows the text of the format is not looked at. -/
theorem strptime_append (fmt : Format) (dt : Datetime)
    (h : ∀ f, .field f ∉ fmt.tokens → f.of dt = 0) {rest : List Char} (hrest : nul ∉ rest) :
    strptime (render dt fmt ++ rest) fmt.text = .ok dt := by
  have hstr : cStr (render dt fmt ++ rest) = render dt fmt ++ rest := by
    refine cStr_of_not_mem fun hmem => ?_
    rcases List.mem_append.mp hmem with hmem | hmem
    · exact nul_not_mem_render dt fmt hmem
    · exact hrest hmem
  have hrun := @scanLoop_write dt _ _ .initial (spells_of_tokenize fmt.tokenize_text)
    fmt.at_most_once rest
  have hvalue (f : Field) : (Scan.initial.after dt fmt.tokens).value f = f.of dt := by
    rw [Scan.value_after]
    split
    · rfl
    · next hnot => exact (h f hnot).symm
  rw [strptime, cStr_text, hstr, render, hrun]
  refine Eq.trans ?_ dt.make_of
  simp only [← hvalue]
  rfl

/-- What a format writes is read back as the date and time that it was written from. -/
theorem strptime_render (fmt : Format) (dt : Datetime)
    (h : ∀ f, .field f ∉ fmt.tokens → f.of dt = 0) :
    strptime (render dt fmt) fmt.text = .ok dt := by
  have hrender := strptime_append fmt dt h (List.not_mem_nil : nul ∉ [])
  rwa [List.append_nil] at hrender

def exampleFormat : Format where
  text := "%Y/%m/%d %H:%M:%S.%s%u".toList
  tokens := [.field .year, .literal '/', .field .month, .literal '/', .field .day, .literal ' ',
    .field .hour, .literal ':', .field .minute, .literal ':', .field .second, .literal '.',
    .field .millisecond, .field .microsecond]
  tokenize_text := by decide +kernel
  date_once := by decide +kernel
  at_most_once := fun f => by cases f <;> decide +kernel

def exampleDatetime : Datetime where
  date := .of2021 2 11 (by decide)
  time := ⟨15, 30, 55, 865302, by decide, by decide, by decide, by decide⟩

theorem strptime_render_example :
    strptime "2021/02/11 15:30:55.865302".toList "%Y/%m/%d %H:%M:%S.%s%u".toList =
      .ok exampleDatetime := by
  have htext : render exampleDatetime exampleFormat = "2021/02/11 15:30:55.865302".toList := by
    decide +kernel
  rw [← htext]
  exact strptime_render exampleFormat exampleDatetime fun f hf =>
    absurd hf (by cases f <;> decide +kernel)

end FlareTrader.DateTime
