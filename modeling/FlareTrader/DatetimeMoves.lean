import FlareTrader.DateOrder

/-! Times of day and `Datetime` of `utils/datetime.cpp`, and adding a span of time. -/

namespace FlareTrader.DateTime

structure Time where
  hour : ℤ
  minute : ℤ
  second : ℤ
  microsecond : ℤ
  hour_range : 0 ≤ hour ∧ hour ≤ 23
  minute_range : 0 ≤ minute ∧ minute ≤ 59
  second_range : 0 ≤ second ∧ second ≤ 59
  microsecond_range : 0 ≤ microsecond ∧ microsecond ≤ 999999
  deriving DecidableEq, Repr

namespace Time

def make (hour minute second microsecond : ℤ) : Except Failure Time :=
  if h : hour < 0 ∨ hour > 23 ∨ minute < 0 ∨ minute > 59 ∨ second < 0 ∨ second > 59 ∨
      microsecond < 0 ∨ microsecond > 999999 then
    .error (.outOfRange s!"time out of range: {hour}:{minute}:{second}.{microsecond}")
  else
    .ok {
      hour, minute, second, microsecond
      hour_range := by omega
      minute_range := by omega
      second_range := by omega
      microsecond_range := by omega }

def microsecondCount (t : Time) : ℤ :=
  t.microsecond + t.second * 1000000 + t.minute * 60 * 1000000 + t.hour * 3600 * 1000000

theorem make_eq {h m s us : ℤ} (hh : 0 ≤ h ∧ h ≤ 23) (hm : 0 ≤ m ∧ m ≤ 59)
    (hs : 0 ≤ s ∧ s ≤ 59) (hus : 0 ≤ us ∧ us ≤ 999999) :
    make h m s us = .ok ⟨h, m, s, us, hh, hm, hs, hus⟩ := by
  rw [make, dif_neg]
  omega

theorem microsecondCount_range (t : Time) :
    0 ≤ t.microsecondCount ∧ t.microsecondCount < 86400000000 := by
  have hh := t.hour_range
  have hm := t.minute_range
  have hs := t.second_range
  have hus := t.microsecond_range
  rw [microsecondCount]
  omega

end Time

structure Datetime where
  date : Date
  time : Time
  deriving DecidableEq, Repr

namespace Datetime

def make (year month day hour minute second microsecond : ℤ) : Except Failure Datetime := do
  let date ← Date.make year month day
  let time ← Time.make hour minute second microsecond
  return ⟨date, time⟩

def plus (dt : Datetime) (timedelta : Timedelta) : Except Failure Datetime := do
  let dstMicrosecond := dt.time.microsecond + timedelta.microseconds
  let dstSecond := dt.time.second + (timedelta.seconds + dstMicrosecond.tdiv 1000000)
  let dstMinute := dt.time.minute + dstSecond.tdiv 60
  let dstHour := dt.time.hour + dstMinute.tdiv 60
  let dstTime ← Time.make (dstHour.tmod 24) (dstMinute.tmod 60) (dstSecond.tmod 60)
    (dstMicrosecond.tmod 1000000)
  let dayMoved := dstHour.tdiv 24
  if dayMoved = 0 then
    return ⟨dt.date, dstTime⟩
  else
    let dstDate ← dt.date.plus (.ofDays (timedelta.days + dayMoved))
    return ⟨dstDate, dstTime⟩

def micros (dt : Datetime) : ℤ := (dt.date.ord - 1) * 86400000000 + dt.time.microsecondCount

def InYears (n : ℤ) : Prop := 0 ≤ n ∧ n < 3652059 * 86400000000

theorem inYears_iff (ord count : ℤ) (hcount : 0 ≤ count ∧ count < 86400000000) :
    InYears ((ord - 1) * 86400000000 + count) ↔ Date.InRange ord := by
  have hfirst : Gregorian.ordinal kMinYear 1 1 = 1 := by
    rw [Gregorian.ordinal_firstDay, kMinYear, Gregorian.daysBeforeYear_one, zero_add]
  have hlast : Gregorian.ordinal kMaxYear 12 31 = 3652059 := Gregorian.ordinal_lastDay 9999
  rw [InYears, Date.InRange, hfirst, hlast]
  omega

def timeSum (dt : Datetime) (td : Timedelta) : ℤ :=
  dt.time.microsecondCount + td.seconds * 1000000 + td.microseconds

variable {dt : Datetime} {td : Timedelta}

theorem timeSum_range (h : td.Normalised) :
    0 ≤ dt.timeSum td ∧ dt.timeSum td < 2 * 86400000000 := by
  obtain ⟨hseconds, hseconds', hmicro, hmicro'⟩ := h
  have hcount := dt.time.microsecondCount_range
  rw [timeSum]
  omega

def movedDate (dt : Datetime) (td : Timedelta) (days : ℤ) : Except Failure Date :=
  if days = 0 then .ok dt.date else dt.date.plus (.ofDays (td.days + days))

theorem plus_eq (hseconds : 0 ≤ td.seconds) (hmicro : 0 ≤ td.microseconds) :
    ∃ time : Time, time.microsecondCount = dt.timeSum td % 86400000000 ∧
      dt.plus td = (dt.movedDate td (dt.timeSum td / 86400000000)).map (⟨·, time⟩) := by
  have hh := dt.time.hour_range
  have hm := dt.time.minute_range
  have hs := dt.time.second_range
  have hus := dt.time.microsecond_range
  simp only [plus]
  generalize hmicroEq : dt.time.microsecond + td.microseconds = micro
  have hmicro0 : 0 ≤ micro := by omega
  rw [Int.tdiv_eq_ediv_of_nonneg hmicro0, Int.tmod_eq_emod_of_nonneg hmicro0]
  generalize hsecondEq : dt.time.second + (td.seconds + micro / 1000000) = second
  have hsecond0 : 0 ≤ second := by omega
  rw [Int.tdiv_eq_ediv_of_nonneg hsecond0, Int.tmod_eq_emod_of_nonneg hsecond0]
  generalize hminuteEq : dt.time.minute + second / 60 = minute
  have hminute0 : 0 ≤ minute := by omega
  rw [Int.tdiv_eq_ediv_of_nonneg hminute0, Int.tmod_eq_emod_of_nonneg hminute0]
  generalize hhourEq : dt.time.hour + minute / 60 = hour
  have hhour0 : 0 ≤ hour := by omega
  rw [Int.tdiv_eq_ediv_of_nonneg hhour0, Int.tmod_eq_emod_of_nonneg hhour0]
  have hsum : dt.timeSum td = hour * 3600000000 + minute % 60 * 60000000 +
      second % 60 * 1000000 + micro % 1000000 := by
    rw [timeSum, Time.microsecondCount]
    omega
  have hday : dt.timeSum td / 86400000000 = hour / 24 := by omega
  have htime : ∃ time, Time.make (hour % 24) (minute % 60) (second % 60) (micro % 1000000) =
      .ok time ∧ time.microsecondCount = dt.timeSum td % 86400000000 := by
    refine ⟨_, Time.make_eq (by omega) (by omega) (by omega) (by omega), ?_⟩
    rw [Time.microsecondCount]
    dsimp only
    omega
  obtain ⟨time, hmake, hcount⟩ := htime
  refine ⟨time, hcount, ?_⟩
  rw [hmake, hday, movedDate]
  split
  · rfl
  · rfl

/-- The result, when there is one, is off by the days of the span when the time of day
stays below midnight. -/
theorem plus_micros (h : td.Normalised) (hrange : InYears (dt.micros + td.total)) :
    (dt.timeSum td < 86400000000 → ∃ dt', dt.plus td = .ok dt' ∧
      dt'.micros = dt.micros + td.total - td.days * 86400000000) ∧
    (86400000000 ≤ dt.timeSum td → ∃ dt', dt.plus td = .ok dt' ∧
      dt'.micros = dt.micros + td.total) := by
  have htotal : dt.micros + td.total = (dt.date.ord + td.days - 1) * 86400000000 +
      dt.timeSum td := by
    rw [micros, Timedelta.total, timeSum]
    ring
  have hsum := @timeSum_range dt td h
  obtain ⟨time, hcount, hplus⟩ := @plus_eq dt td h.seconds_nonneg h.microseconds_nonneg
  constructor
  · intro hbelow
    have hday : dt.timeSum td / 86400000000 = 0 := by omega
    rw [hday, movedDate, if_pos rfl] at hplus
    refine ⟨⟨dt.date, time⟩, hplus, ?_⟩
    rw [htotal, micros, hcount]
    dsimp only
    omega
  · intro hover
    have hday : dt.timeSum td / 86400000000 = 1 := by omega
    have hin : Date.InRange (dt.date.ord + (td.days + 1)) := by
      rw [← inYears_iff _ time.microsecondCount time.microsecondCount_range, hcount]
      convert hrange using 1
      omega
    obtain ⟨date, hdate, hord⟩ := Date.plus_of_inRange hin
    rw [hday, movedDate, if_neg one_ne_zero, hdate] at hplus
    refine ⟨⟨date, time⟩, hplus, ?_⟩
    rw [htotal, micros, hcount]
    dsimp only
    omega

/-- Adding a span is exact without days and over midnight, and only then. -/
theorem plus_exact_iff (dt : Datetime) {td : Timedelta} (h : td.Normalised)
    (hrange : InYears (dt.micros + td.total)) :
    (∃ dt', dt.plus td = .ok dt' ∧ dt'.micros = dt.micros + td.total) ↔
      td.days = 0 ∨ 86400000000 ≤ dt.timeSum td := by
  obtain ⟨hbelow, hover⟩ := plus_micros h hrange
  rcases lt_or_ge (dt.timeSum td) 86400000000 with hlt | hge
  · obtain ⟨dt', hplus, hmicros⟩ := hbelow hlt
    have hone (d : Datetime) : dt.plus td = .ok d ↔ d = dt' := by
      rw [hplus, Except.ok.injEq, eq_comm]
    simp only [hone, exists_eq_left, hmicros]
    omega
  · exact iff_of_true (hover hge) (Or.inr hge)

def february (time : Time) : Datetime := ⟨Date.of2021 2 10 (by decide), time⟩

def lastMicrosecond : Time := ⟨23, 59, 59, 999999, by decide, by decide, by decide, by decide⟩

def noon : Time := ⟨12, 0, 0, 0, by decide, by decide, by decide, by decide⟩

theorem plus_exact_iff_last_microsecond :
    ∃ dt', (february lastMicrosecond).plus ⟨1, 0, 1⟩ = .ok dt' ∧
      dt'.micros = (february lastMicrosecond).micros + Timedelta.total ⟨1, 0, 1⟩ :=
  (plus_exact_iff (february lastMicrosecond) ⟨by decide, by decide, by decide, by decide⟩
    ⟨by decide +kernel, by decide +kernel⟩).mpr (Or.inr (by decide))

theorem day_after_noon_is_noon :
    (february noon).plus (.ofDays 1) = .ok (february noon) ∧
      ¬ ∃ dt', (february noon).plus (.ofDays 1) = .ok dt' ∧
        dt'.micros = (february noon).micros + (Timedelta.ofDays 1).total := by
  have hplus : (february noon).plus (.ofDays 1) = .ok (february noon) := by decide
  refine ⟨hplus, ?_⟩
  rintro ⟨dt', hresult, hmicros⟩
  rw [hplus, Except.ok.injEq] at hresult
  rw [← hresult, left_eq_add] at hmicros
  exact absurd hmicros (by decide)

end Datetime

end FlareTrader.DateTime
