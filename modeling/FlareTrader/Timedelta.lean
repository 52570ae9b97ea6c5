import Mathlib

/-! Spans of time. The carries of `utils/datetime.h`, the constructors of `Timedelta`
and its operators. An `int` is an integer here; only the 64-bit count of the ordering
operators has its range. -/

namespace FlareTrader.DateTime

/-- `time_carry`: division of C++ rounds towards zero. -/
def timeCarry (time base : ℤ) : ℤ :=
  if time < 0 then (time + 1).tdiv base - 1 else time.tdiv base

def timeMod (time base : ℤ) : ℤ :=
  if time < 0 then time.tmod base + base else time.tmod base

/-- The inputs that `time_mod` does not reduce: it returns the base itself. -/
def Unreduced (time base : ℤ) : Prop := time < 0 ∧ base ∣ time

instance (time base : ℤ) : Decidable (Unreduced time base) :=
  inferInstanceAs (Decidable (_ ∧ _))

theorem timeCarry_eq {time base : ℤ} (hbase : 0 < base) :
    timeCarry time base = time / base := by
  cases time with
  | ofNat n =>
    have hn : ¬ Int.ofNat n < 0 := not_lt.mpr (Int.natCast_nonneg n)
    rw [timeCarry, if_neg hn]
    exact Int.tdiv_eq_ediv_of_nonneg (Int.natCast_nonneg n)
  | negSucc n =>
    have hsucc : Int.negSucc n + 1 = -(n : ℤ) := by omega
    have hquot : Int.negSucc n / base = -((n : ℤ) / base + 1) := Int.negSucc_ediv n hbase
    rw [timeCarry, if_pos (Int.negSucc_lt_zero n), hsucc, Int.neg_tdiv,
      Int.tdiv_eq_ediv_of_nonneg (Int.natCast_nonneg n), hquot]
    ring

theorem timeMod_of_unreduced {time base : ℤ} (h : Unreduced time base) :
    timeMod time base = base := by
  rw [timeMod, if_pos h.1, Int.tmod_eq_zero_of_dvd h.2, zero_add]

theorem timeMod_of_not_unreduced {time base : ℤ} (hbase : 0 < base)
    (h : ¬ Unreduced time base) : timeMod time base = time % base := by
  by_cases htime : time < 0
  · have hdvd : ¬ (0 ≤ time ∨ base ∣ time) := by
      rintro (hnonneg | hdvd)
      · exact absurd htime (not_lt.mpr hnonneg)
      · exact h ⟨htime, hdvd⟩
    rw [timeMod, if_pos htime, Int.tmod_eq_emod, if_neg hdvd, Int.natAbs_of_nonneg hbase.le]
    ring
  · rw [timeMod, if_neg htime, Int.tmod_eq_emod_of_nonneg (not_lt.mp htime)]

def excess (time base : ℤ) : ℤ := if Unreduced time base then base else 0

theorem excess_nonneg {time base : ℤ} (hbase : 0 < base) : 0 ≤ excess time base := by
  rw [excess]
  split
  · exact hbase.le
  · exact le_rfl

theorem excess_eq_zero_iff {time base : ℤ} (hbase : 0 < base) :
    excess time base = 0 ↔ ¬ Unreduced time base := by
  rw [excess]
  split
  · next h => simp [h, hbase.ne']
  · next h => simp [h]

theorem timeMod_add_timeCarry {time base : ℤ} (hbase : 0 < base) :
    timeMod time base + base * timeCarry time base = time + excess time base := by
  have hdiv := Int.emod_add_mul_ediv time base
  rw [timeCarry_eq hbase]
  by_cases h : Unreduced time base
  · have hmod : time % base = 0 := Int.emod_eq_zero_of_dvd h.2
    rw [timeMod_of_unreduced h, excess, if_pos h]
    linarith
  · rw [timeMod_of_not_unreduced hbase h, excess, if_neg h]
    linarith

theorem timeMod_range {time base : ℤ} (hbase : 0 < base) (h : ¬ Unreduced time base) :
    0 ≤ timeMod time base ∧ timeMod time base < base := by
  rw [timeMod_of_not_unreduced hbase h]
  exact ⟨Int.emod_nonneg time hbase.ne', Int.emod_lt_of_pos time hbase⟩

theorem timeMod_nonneg {time base : ℤ} (hbase : 0 < base) : 0 ≤ timeMod time base := by
  by_cases h : Unreduced time base
  · rw [timeMod_of_unreduced h]
    exact hbase.le
  · exact (timeMod_range hbase h).1

@[simp] theorem timeCarry_zero (base : ℤ) : timeCarry 0 base = 0 := by simp [timeCarry]

@[simp] theorem timeMod_zero (base : ℤ) : timeMod 0 base = 0 := by simp [timeMod]

structure Timedelta where
  days : ℤ
  seconds : ℤ
  microseconds : ℤ
  deriving DecidableEq, Repr

namespace Timedelta

/-! The constructors, named by their last argument. -/

def ofDays (days : ℤ) : Timedelta := ⟨days, 0, 0⟩

def ofHours (days hours : ℤ) : Timedelta where
  days := days + timeCarry hours 24
  seconds := timeMod hours 24 * 3600
  microseconds := 0

def ofMinutes (days hours minutes : ℤ) : Timedelta :=
  let hours := hours + timeCarry minutes 60
  { days := days + timeCarry hours 24
    seconds := timeMod minutes 60 * 60 + timeMod hours 24 * 3600
    microseconds := 0 }

def ofSeconds (days hours minutes seconds : ℤ) : Timedelta :=
  let minutes := minutes + timeCarry seconds 60
  let hours := hours + timeCarry minutes 60
  { days := days + timeCarry hours 24
    seconds := timeMod seconds 60 + timeMod minutes 60 * 60 + timeMod hours 24 * 3600
    microseconds := 0 }

def ofMilliseconds (days hours minutes seconds milliseconds : ℤ) : Timedelta :=
  let seconds := seconds + timeCarry milliseconds 1000
  let minutes := minutes + timeCarry seconds 60
  let hours := hours + timeCarry minutes 60
  { days := days + timeCarry hours 24
    seconds := timeMod seconds 60 + timeMod minutes 60 * 60 + timeMod hours 24 * 3600
    microseconds := timeMod milliseconds 1000 * 1000 }

def ofMicroseconds (days hours minutes seconds milliseconds microseconds : ℤ) : Timedelta :=
  let milliseconds := milliseconds + timeCarry microseconds 1000
  let seconds := seconds + timeCarry milliseconds 1000
  let minutes := minutes + timeCarry seconds 60
  let hours := hours + timeCarry minutes 60
  { days := days + timeCarry hours 24
    seconds := timeMod seconds 60 + timeMod minutes 60 * 60 + timeMod hours 24 * 3600
    microseconds := timeMod microseconds 1000 + timeMod milliseconds 1000 * 1000 }

def total (t : Timedelta) : ℤ := t.days * 86400000000 + t.seconds * 1000000 + t.microseconds

structure Normalised (t : Timedelta) : Prop where
  seconds_nonneg : 0 ≤ t.seconds
  seconds_lt : t.seconds < 86400
  microseconds_nonneg : 0 ≤ t.microseconds
  microseconds_lt : t.microseconds < 1000000

end Timedelta

structure Parts where
  days : ℤ
  hours : ℤ
  minutes : ℤ
  seconds : ℤ
  milliseconds : ℤ
  microseconds : ℤ

namespace Parts

def total (p : Parts) : ℤ :=
  p.days * 86400000000 + p.hours * 3600000000 + p.minutes * 60000000 + p.seconds * 1000000
    + p.milliseconds * 1000 + p.microseconds

/-! What reaches each position: the argument and the carry from below. -/

def carriedMilliseconds (p : Parts) : ℤ := p.milliseconds + p.microseconds / 1000

def carriedSeconds (p : Parts) : ℤ := p.seconds + p.carriedMilliseconds / 1000

def carriedMinutes (p : Parts) : ℤ := p.minutes + p.carriedSeconds / 60

def carriedHours (p : Parts) : ℤ := p.hours + p.carriedMinutes / 60

def Slips (p : Parts) : Prop :=
  Unreduced p.microseconds 1000 ∨ Unreduced p.carriedMilliseconds 1000 ∨
    Unreduced p.carriedSeconds 60 ∨ Unreduced p.carriedMinutes 60 ∨ Unreduced p.carriedHours 24

instance (p : Parts) : Decidable p.Slips := inferInstanceAs (Decidable (_ ∨ _))

def error (p : Parts) : ℤ :=
  excess p.microseconds 1000 + excess p.carriedMilliseconds 1000 * 1000
    + excess p.carriedSeconds 60 * 1000000 + excess p.carriedMinutes 60 * 60000000
    + excess p.carriedHours 24 * 3600000000

def timedelta (p : Parts) : Timedelta :=
  .ofMicroseconds p.days p.hours p.minutes p.seconds p.milliseconds p.microseconds

theorem timedelta_eq (p : Parts) :
    p.timedelta =
      { days := p.days + timeCarry p.carriedHours 24
        seconds := timeMod p.carriedSeconds 60 + timeMod p.carriedMinutes 60 * 60
          + timeMod p.carriedHours 24 * 3600
        microseconds := timeMod p.microseconds 1000
          + timeMod p.carriedMilliseconds 1000 * 1000 } := by
  simp [timedelta, Timedelta.ofMicroseconds, carriedHours, carriedMinutes, carriedSeconds,
    carriedMilliseconds, timeCarry_eq]

theorem total_timedelta (p : Parts) : p.timedelta.total = p.total + p.error := by
  have hmicro := @timeMod_add_timeCarry p.microseconds 1000 (by decide)
  have hmilli := @timeMod_add_timeCarry p.carriedMilliseconds 1000 (by decide)
  have hsecond := @timeMod_add_timeCarry p.carriedSeconds 60 (by decide)
  have hminute := @timeMod_add_timeCarry p.carriedMinutes 60 (by decide)
  have hhour := @timeMod_add_timeCarry p.carriedHours 24 (by decide)
  have hms : p.carriedMilliseconds = p.milliseconds + timeCarry p.microseconds 1000 := by
    rw [timeCarry_eq (by decide)]
    rfl
  have hs : p.carriedSeconds = p.seconds + timeCarry p.carriedMilliseconds 1000 := by
    rw [timeCarry_eq (by decide)]
    rfl
  have hm : p.carriedMinutes = p.minutes + timeCarry p.carriedSeconds 60 := by
    rw [timeCarry_eq (by decide)]
    rfl
  have hh : p.carriedHours = p.hours + timeCarry p.carriedMinutes 60 := by
    rw [timeCarry_eq (by decide)]
    rfl
  rw [timedelta_eq, Timedelta.total, total, error]
  linarith

/-- The excesses do not cancel. -/
theorem error_eq_zero_iff (p : Parts) : p.error = 0 ↔ ¬ p.Slips := by
  have hmicro := @excess_nonneg p.microseconds 1000 (by decide)
  have hmilli := @excess_nonneg p.carriedMilliseconds 1000 (by decide)
  have hsecond := @excess_nonneg p.carriedSeconds 60 (by decide)
  have hminute := @excess_nonneg p.carriedMinutes 60 (by decide)
  have hhour := @excess_nonneg p.carriedHours 24 (by decide)
  rw [Slips, not_or, not_or, not_or, not_or, ← excess_eq_zero_iff (by decide),
    ← excess_eq_zero_iff (by decide), ← excess_eq_zero_iff (by decide),
    ← excess_eq_zero_iff (by decide), ← excess_eq_zero_iff (by decide), error]
  omega

theorem not_slips_of_nonneg {p : Parts} (hhours : 0 ≤ p.hours) (hminutes : 0 ≤ p.minutes)
    (hseconds : 0 ≤ p.seconds) (hmilli : 0 ≤ p.milliseconds) (hmicro : 0 ≤ p.microseconds) :
    ¬ p.Slips := by
  have hms : 0 ≤ p.carriedMilliseconds := by
    rw [carriedMilliseconds]
    omega
  have hs : 0 ≤ p.carriedSeconds := by
    rw [carriedSeconds]
    omega
  have hm : 0 ≤ p.carriedMinutes := by
    rw [carriedMinutes]
    omega
  have hh : 0 ≤ p.carriedHours := by
    rw [carriedHours]
    omega
  rintro (h | h | h | h | h)
  · exact absurd h.1 (not_lt.mpr hmicro)
  · exact absurd h.1 (not_lt.mpr hms)
  · exact absurd h.1 (not_lt.mpr hs)
  · exact absurd h.1 (not_lt.mpr hm)
  · exact absurd h.1 (not_lt.mpr hh)

theorem normalised_timedelta {p : Parts} (h : ¬ p.Slips) : p.timedelta.Normalised := by
  rw [Slips, not_or, not_or, not_or, not_or] at h
  obtain ⟨hmicro, hmilli, hsecond, hminute, hhour⟩ := h
  have hmicro := timeMod_range (by decide) hmicro
  have hmilli := timeMod_range (by decide) hmilli
  have hsecond := timeMod_range (by decide) hsecond
  have hminute := timeMod_range (by decide) hminute
  have hhour := timeMod_range (by decide) hhour
  rw [timedelta_eq]
  constructor <;> dsimp only <;> omega

theorem timedelta_nonneg (p : Parts) :
    0 ≤ p.timedelta.seconds ∧ 0 ≤ p.timedelta.microseconds := by
  have hmicro := @timeMod_nonneg p.microseconds 1000 (by decide)
  have hmilli := @timeMod_nonneg p.carriedMilliseconds 1000 (by decide)
  have hsecond := @timeMod_nonneg p.carriedSeconds 60 (by decide)
  have hminute := @timeMod_nonneg p.carriedMinutes 60 (by decide)
  have hhour := @timeMod_nonneg p.carriedHours 24 (by decide)
  rw [timedelta_eq]
  constructor <;> dsimp only <;> omega

theorem timedelta_exact_iff (p : Parts) :
    (p.timedelta.Normalised ∧ p.timedelta.total = p.total) ↔ ¬ p.Slips := by
  rw [total_timedelta, add_eq_left, error_eq_zero_iff]
  exact ⟨fun h => h.2, fun h => ⟨normalised_timedelta h, h⟩⟩

end Parts

inductive Call where
  | ofDays (days : ℤ)
  | ofHours (days hours : ℤ)
  | ofMinutes (days hours minutes : ℤ)
  | ofSeconds (days hours minutes seconds : ℤ)
  | ofMilliseconds (days hours minutes seconds milliseconds : ℤ)
  | ofMicroseconds (days hours minutes seconds milliseconds microseconds : ℤ)

namespace Call

def run : Call → Timedelta
  | ofDays d => .ofDays d
  | ofHours d h => .ofHours d h
  | ofMinutes d h m => .ofMinutes d h m
  | ofSeconds d h m s => .ofSeconds d h m s
  | ofMilliseconds d h m s ms => .ofMilliseconds d h m s ms
  | ofMicroseconds d h m s ms us => .ofMicroseconds d h m s ms us

def parts : Call → Parts
  | ofDays d => ⟨d, 0, 0, 0, 0, 0⟩
  | ofHours d h => ⟨d, h, 0, 0, 0, 0⟩
  | ofMinutes d h m => ⟨d, h, m, 0, 0, 0⟩
  | ofSeconds d h m s => ⟨d, h, m, s, 0, 0⟩
  | ofMilliseconds d h m s ms => ⟨d, h, m, s, ms, 0⟩
  | ofMicroseconds d h m s ms us => ⟨d, h, m, s, ms, us⟩

theorem run_eq (c : Call) : c.run = c.parts.timedelta := by
  cases c <;>
    simp [run, parts, Parts.timedelta, Timedelta.ofDays, Timedelta.ofHours, Timedelta.ofMinutes,
      Timedelta.ofSeconds, Timedelta.ofMilliseconds, Timedelta.ofMicroseconds]

end Call

namespace Timedelta

variable {t u : Timedelta}

def add (t u : Timedelta) : Timedelta :=
  ofMicroseconds (t.days + u.days) 0 0 (t.seconds + u.seconds) 0 (t.microseconds + u.microseconds)

def sub (t u : Timedelta) : Timedelta :=
  ofMicroseconds (t.days - u.days) 0 0 (t.seconds - u.seconds) 0 (t.microseconds - u.microseconds)

instance : Add Timedelta := ⟨add⟩

instance : Sub Timedelta := ⟨sub⟩

def sumParts (t u : Timedelta) : Parts :=
  ⟨t.days + u.days, 0, 0, t.seconds + u.seconds, 0, t.microseconds + u.microseconds⟩

def differenceParts (t u : Timedelta) : Parts :=
  ⟨t.days - u.days, 0, 0, t.seconds - u.seconds, 0, t.microseconds - u.microseconds⟩

theorem total_sumParts (t u : Timedelta) : (sumParts t u).total = t.total + u.total := by
  simp only [sumParts, Parts.total, total]
  ring

theorem total_differenceParts (t u : Timedelta) :
    (differenceParts t u).total = t.total - u.total := by
  simp only [differenceParts, Parts.total, total]
  ring

theorem add_exact_of_nonneg (hseconds : 0 ≤ t.seconds + u.seconds)
    (hmicro : 0 ≤ t.microseconds + u.microseconds) :
    (t + u).Normalised ∧ (t + u).total = t.total + u.total := by
  have hslips : ¬ (sumParts t u).Slips :=
    Parts.not_slips_of_nonneg le_rfl le_rfl hseconds le_rfl hmicro
  rw [← total_sumParts]
  exact (sumParts t u).timedelta_exact_iff.mpr hslips

theorem add_exact (ht : t.Normalised) (hu : u.Normalised) :
    (t + u).Normalised ∧ (t + u).total = t.total + u.total :=
  add_exact_of_nonneg (add_nonneg ht.seconds_nonneg hu.seconds_nonneg)
    (add_nonneg ht.microseconds_nonneg hu.microseconds_nonneg)

theorem sub_exact_iff (t u : Timedelta) :
    ((t - u).Normalised ∧ (t - u).total = t.total - u.total) ↔ ¬ (differenceParts t u).Slips := by
  rw [← total_differenceParts]
  exact (differenceParts t u).timedelta_exact_iff

def InInt64 (x : ℤ) : Prop := -2 ^ 63 ≤ x ∧ x < 2 ^ 63

instance (x : ℤ) : Decidable (InInt64 x) := inferInstanceAs (Decidable (_ ∧ _))

def int64 (x : ℤ) : Option ℤ := if InInt64 x then some x else none

def microsecondCount (t : Timedelta) : Option ℤ := do
  let days ← int64 (t.days * 24 * 3600 * 1000000)
  int64 (t.microseconds + t.seconds * 1000000 + days)

/-! The comparisons. The orderings give nothing where a count overflows. -/

def eq (t u : Timedelta) : Bool :=
  t.days == u.days && t.seconds == u.seconds && t.microseconds == u.microseconds

def ne (t u : Timedelta) : Bool := !t.eq u

def ge (t u : Timedelta) : Option Bool := do
  let count ← t.microsecondCount
  let count' ← u.microsecondCount
  pure (decide (count ≥ count'))

def gt (t u : Timedelta) : Option Bool := do
  let count ← t.microsecondCount
  let count' ← u.microsecondCount
  pure (decide (count > count'))

def le (t u : Timedelta) : Option Bool := (t.gt u).map (! ·)

def lt (t u : Timedelta) : Option Bool := (t.ge u).map (! ·)

def CountFits (t : Timedelta) : Prop :=
  InInt64 (t.days * 24 * 3600 * 1000000) ∧ InInt64 t.total

instance (t : Timedelta) : Decidable t.CountFits := inferInstanceAs (Decidable (_ ∧ _))

theorem microsecondCount_eq (t : Timedelta) :
    t.microsecondCount = if t.CountFits then some t.total else none := by
  have htotal : t.microseconds + t.seconds * 1000000 + t.days * 24 * 3600 * 1000000 = t.total := by
    rw [total]
    ring
  by_cases hdays : InInt64 (t.days * 24 * 3600 * 1000000)
  · simp [microsecondCount, int64, CountFits, hdays, htotal]
  · simp [microsecondCount, int64, CountFits, hdays]

theorem eq_iff_total_eq (ht : t.Normalised) (hu : u.Normalised) :
    t.eq u = true ↔ t.total = u.total := by
  obtain ⟨hs, hs', hus, hus'⟩ := ht
  obtain ⟨hsu, hsu', husu, husu'⟩ := hu
  simp only [eq, Bool.and_eq_true, beq_iff_eq, total]
  omega

theorem ge_eq (t u : Timedelta) :
    t.ge u = if t.CountFits ∧ u.CountFits then some (decide (u.total ≤ t.total)) else none := by
  rw [ge, microsecondCount_eq, microsecondCount_eq]
  by_cases ht : t.CountFits <;> by_cases hu : u.CountFits <;> simp [ht, hu]

theorem gt_eq (t u : Timedelta) :
    t.gt u = if t.CountFits ∧ u.CountFits then some (decide (u.total < t.total)) else none := by
  rw [gt, microsecondCount_eq, microsecondCount_eq]
  by_cases ht : t.CountFits <;> by_cases hu : u.CountFits <;> simp [ht, hu]

theorem le_eq (t u : Timedelta) :
    t.le u = if t.CountFits ∧ u.CountFits then some (decide (t.total ≤ u.total)) else none := by
  rw [le, gt_eq]
  split
  · simp only [Option.map_some, ← decide_not, not_lt]
  · rfl

theorem lt_eq (t u : Timedelta) :
    t.lt u = if t.CountFits ∧ u.CountFits then some (decide (t.total < u.total)) else none := by
  rw [lt, ge_eq]
  split
  · simp only [Option.map_some, ← decide_not, not_le]
  · rfl

def OrderedByTotal (t u : Timedelta) : Prop :=
  t.ge u = some (decide (u.total ≤ t.total)) ∧ t.gt u = some (decide (u.total < t.total)) ∧
    t.le u = some (decide (t.total ≤ u.total)) ∧ t.lt u = some (decide (t.total < u.total))

theorem orderedByTotal_iff (t u : Timedelta) :
    t.OrderedByTotal u ↔ t.CountFits ∧ u.CountFits := by
  rw [OrderedByTotal, ge_eq, gt_eq, le_eq, lt_eq]
  by_cases h : t.CountFits ∧ u.CountFits <;> simp [h]

/-- What a constructor makes is normalised and exact unless a negative multiple of a base
reaches its position. Sums are always exact, differences under the same condition. -/
theorem timedeltas_exact_iff (c : Call) (t u : Timedelta) :
    ((c.run.Normalised ∧ c.run.total = c.parts.total) ↔ ¬ c.parts.Slips) ∧
    (t.Normalised → u.Normalised →
      ((t + u).Normalised ∧ (t + u).total = t.total + u.total) ∧
      (((t - u).Normalised ∧ (t - u).total = t.total - u.total) ↔
        ¬ (differenceParts t u).Slips) ∧
      (t.eq u = true ↔ t.total = u.total) ∧ (t.ne u = true ↔ t.total ≠ u.total) ∧
      (t.OrderedByTotal u ↔ t.CountFits ∧ u.CountFits)) := by
  constructor
  · rw [c.run_eq]
    exact c.parts.timedelta_exact_iff
  · intro ht hu
    have heq := eq_iff_total_eq ht hu
    refine ⟨add_exact ht hu, sub_exact_iff t u, heq, ?_, orderedByTotal_iff t u⟩
    rw [ne, Bool.not_eq_true', ← Bool.not_eq_true, heq]

theorem timedeltas_exact_iff_minutes :
    (ofSeconds 0 0 (-1) (-30)).total = -90000000 ∧ (ofMinutes 0 0 1).Normalised ∧
      (ofMinutes 0 0 1 + ofMinutes 0 0 2).total = 180000000 := by
  have hcall := (timedeltas_exact_iff (.ofSeconds 0 0 (-1) (-30)) (.ofDays 0) (.ofDays 0)).1.mpr
    (by decide)
  have hone := (timedeltas_exact_iff (.ofMinutes 0 0 1) (.ofDays 0) (.ofDays 0)).1.mpr (by decide)
  have htwo := (timedeltas_exact_iff (.ofMinutes 0 0 2) (.ofDays 0) (.ofDays 0)).1.mpr (by decide)
  have hsum := ((timedeltas_exact_iff (.ofDays 0) _ _).2 hone.1 htwo.1).1.2
  rw [hone.2, htwo.2] at hsum
  exact ⟨hcall.2, hone.1, hsum⟩

/-- A whole hour below zero becomes nothing, and so does a minute less two. -/
theorem negative_hour_is_lost :
    (Call.ofMinutes 0 0 (-60)).run = ⟨-1, 86400, 0⟩ ∧
      (Call.ofMinutes 0 0 (-60)).parts.total = -3600000000 ∧
      ¬ ((Call.ofMinutes 0 0 (-60)).run.Normalised ∧
        (Call.ofMinutes 0 0 (-60)).run.total = (Call.ofMinutes 0 0 (-60)).parts.total) ∧
      (ofMinutes 0 0 1 - ofMinutes 0 0 2).total = 0 ∧
      (ofMinutes 0 0 1).total - (ofMinutes 0 0 2).total = -60000000 := by
  refine ⟨by decide, by decide, fun h => ?_, by decide, by decide⟩
  exact absurd h.2 (by decide)

end Timedelta

end FlareTrader.DateTime
