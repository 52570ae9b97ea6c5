import FlareTrader.Date

/-! The conversion of seconds since 1970 to a date and a time of day in the zone of the
exchange, `FastUnixSecondToDate`, compared with the calendar of `Date`. -/

namespace FlareTrader.DateTime

structure Tm where
  sec : ℤ
  min : ℤ
  hour : ℤ
  mday : ℤ
  mon : ℤ
  year : ℤ
  deriving DecidableEq, Repr

def int32 (x : ℤ) : Option ℤ := if -2 ^ 31 ≤ x ∧ x < 2 ^ 31 then some x else none

namespace UnixSeconds

def kTimeZone : ℤ := 8
def kHoursInDay : ℤ := 24
def kMinutesInHour : ℤ := 60
def kDaysFromUnixTime : ℤ := 2472632
def kDaysFromYear : ℤ := 153
def kMagicUnkonwnFirst : ℤ := 146097
def kMagicUnkonwnSec : ℤ := 1461

end UnixSeconds

open UnixSeconds in
/-- The quotient of the seconds is converted to an `int`, which wraps. -/
def fastUnixSecondToDate (unixSec : ℤ) : Option Tm := do
  let sec := unixSec.tmod kMinutesInHour
  let i := (unixSec.tdiv kMinutesInHour).bmod (2 ^ 32)
  let min := i.tmod kMinutesInHour
  let i := i.tdiv kMinutesInHour
  let zoned ← int32 (i + kTimeZone)
  let hour := zoned.tmod kHoursInDay
  let mday := zoned.tdiv kHoursInDay
  let a ← int32 (mday + kDaysFromUnixTime)
  let b := (← int32 ((← int32 (a * 4)) + 3)).tdiv kMagicUnkonwnFirst
  let c ← int32 ((← int32 ((← int32 (-b)) * kMagicUnkonwnFirst)).tdiv 4 + a)
  let d := (← int32 ((← int32 (c * 4)) + 3)).tdiv kMagicUnkonwnSec
  let e ← int32 ((← int32 (-d)) * kMagicUnkonwnSec)
  let e ← int32 (e.tdiv 4 + c)
  let m := (← int32 ((← int32 (5 * e)) + 2)).tdiv kDaysFromYear
  let months ← int32 ((← int32 (kDaysFromYear * m)) + 2)
  let mday ← int32 ((← int32 ((← int32 (-months)).tdiv 5 + e)) + 1)
  let mon ← int32 ((← int32 ((← int32 ((← int32 (-m)).tdiv 10 * 12)) + m)) + 2)
  let year ← int32 ((← int32 ((← int32 ((← int32 (b * 100)) + d)) - 6700)) + m.tdiv 10)
  return { sec, min, hour, mday, mon, year }

theorem int32_bind {β : Type} {x : ℤ} (f : ℤ → Option β) (hlow : -2147483648 ≤ x)
    (hhigh : x < 2147483648) : (int32 x >>= f) = f x := by
  rw [int32, if_pos ⟨hlow, hhigh⟩]
  rfl

theorem tdiv_neg_mul {x k : ℤ} (n : ℤ) (hx : 0 ≤ x) (hk : 0 ≤ k) :
    (-x * k).tdiv n = -(k * x / n) := by
  rw [neg_mul, Int.neg_tdiv, mul_comm, Int.tdiv_eq_ediv_of_nonneg (mul_nonneg hk hx)]

/-- Within the range no value overflows, and truncating divisions are as good as others. -/
theorem fastUnixSecondToDate_eq {unixSec a b c d e m : ℤ} (hzero : 0 ≤ unixSec)
    (hrange : unixSec < 60 * 2 ^ 31) (ha : a = (unixSec / 60 / 60 + 8) / 24 + 2472632)
    (hb : b = (4 * a + 3) / 146097) (hc : c = a - 146097 * b / 4) (hd : d = (4 * c + 3) / 1461)
    (he : e = c - 1461 * d / 4) (hm : m = (5 * e + 2) / 153) :
    fastUnixSecondToDate unixSec = some {
      sec := unixSec % 60
      min := unixSec / 60 % 60
      hour := (unixSec / 60 / 60 + 8) % 24
      mday := e - (153 * m + 2) / 5 + 1
      mon := m + 2 - 12 * (m / 10)
      year := 100 * b + d - 6700 + m / 10 } := by
  have ha0 : 0 ≤ a := by omega
  obtain ⟨⟨hb0, hc0, hc1, hd0, hd1, he0⟩, he1, -⟩ :=
    Gregorian.march_of_number ha0 hb hc hd he
  have ha1 : a ≤ 3963941 := by omega
  have hb1 : b ≤ 109 := by omega
  have he2 : e ≤ 365 := by omega
  have hm0 : 0 ≤ m ∧ m ≤ 11 := by omega
  have hi : (unixSec.tdiv 60).bmod (2 ^ 32) = unixSec / 60 := by
    rw [Int.tdiv_eq_ediv_of_nonneg hzero]
    exact Int.bmod_eq_of_le (by omega) (by omega)
  have hdiv : ∀ x n : ℤ, 0 ≤ x → x.tdiv n = x / n := fun x n hx => Int.tdiv_eq_ediv_of_nonneg hx
  have hmod : ∀ x n : ℤ, 0 ≤ x → x.tmod n = x % n := fun x n hx => Int.tmod_eq_emod_of_nonneg hx
  have hb' : (a * 4 + 3) / 146097 = b := by omega
  have hc' : (-b * 146097).tdiv 4 + a = c := by
    rw [tdiv_neg_mul 4 hb0 (by decide)]
    omega
  have hd' : (c * 4 + 3) / 1461 = d := by omega
  have he' : (-d * 1461).tdiv 4 + c = e := by
    rw [tdiv_neg_mul 4 hd0 (by decide)]
    omega
  have hm' : (5 * e + 2) / 153 = m := hm.symm
  have hday : (-(153 * m + 2)).tdiv 5 = -((153 * m + 2) / 5) := by
    rw [Int.neg_tdiv, hdiv _ _ (by omega)]
  have hmon : (-m).tdiv 10 = -(m / 10) := by
    rw [Int.neg_tdiv, hdiv _ _ hm0.1]
  simp only [fastUnixSecondToDate, UnixSeconds.kTimeZone, UnixSeconds.kHoursInDay,
    UnixSeconds.kMinutesInHour, UnixSeconds.kDaysFromUnixTime, UnixSeconds.kDaysFromYear,
    UnixSeconds.kMagicUnkonwnFirst, UnixSeconds.kMagicUnkonwnSec, hi]
  rw [hmod _ _ hzero, hmod (unixSec / 60) _ (by omega), hdiv (unixSec / 60) _ (by omega),
    int32_bind _ (by omega) (by omega), hmod (unixSec / 60 / 60 + 8) _ (by omega),
    hdiv (unixSec / 60 / 60 + 8) _ (by omega), ← ha, int32_bind _ (by omega) (by omega)]
  -- the century
  rw [int32_bind _ (by omega) (by omega), int32_bind _ (by omega) (by omega),
    hdiv (a * 4 + 3) _ (by omega), hb', int32_bind _ (by omega) (by omega),
    int32_bind _ (by omega) (by omega), hc', int32_bind _ (by omega) (by omega)]
  -- the year of the century and the day of the year
  rw [int32_bind _ (by omega) (by omega), int32_bind _ (by omega) (by omega),
    hdiv (c * 4 + 3) _ (by omega), hd', int32_bind _ (by omega) (by omega),
    int32_bind _ (by omega) (by omega), he', int32_bind _ (by omega) (by omega)]
  -- the month and the day of the month
  rw [int32_bind _ (by omega) (by omega), int32_bind _ (by omega) (by omega),
    hdiv (5 * e + 2) _ (by omega), hm', int32_bind _ (by omega) (by omega),
    int32_bind _ (by omega) (by omega), int32_bind _ (by omega) (by omega), hday,
    int32_bind _ (by omega) (by omega), int32_bind _ (by omega) (by omega)]
  rw [int32_bind _ (by omega) (by omega), hmon, int32_bind _ (by omega) (by omega),
    int32_bind _ (by omega) (by omega), int32_bind _ (by omega) (by omega)]
  rw [int32_bind _ (by omega) (by omega), int32_bind _ (by omega) (by omega),
    int32_bind _ (by omega) (by omega), hdiv m _ hm0.1, int32_bind _ (by omega) (by omega)]
  refine congrArg some ?_
  simp only [Tm.mk.injEq, true_and]
  omega

theorem make_epoch : ∃ epoch, Date.make 1970 1 1 = .ok epoch ∧ epoch.ord = 719163 := by
  rw [Date.make_of_isDay (by decide), dif_pos (by decide)]
  exact ⟨_, rfl, by decide⟩

theorem fastUnixSecondToDate_agrees (unixSec : ℤ) (hzero : 0 ≤ unixSec)
    (hrange : unixSec < 60 * 2 ^ 31) :
    ∃ tm date, fastUnixSecondToDate unixSec = some tm ∧
      (do
        let epoch ← Date.make 1970 1 1
        epoch.plus (.ofDays ((unixSec + 28800) / 86400))) = .ok date ∧
      tm.year + 1900 = date.year ∧ tm.mon + 1 = date.month ∧ tm.mday = date.day ∧
      tm.hour = (unixSec + 28800) % 86400 / 3600 ∧
      tm.min = (unixSec + 28800) % 86400 % 3600 / 60 ∧
      tm.sec = (unixSec + 28800) % 86400 % 60 := by
  obtain ⟨n, hn⟩ : ∃ n, n = (unixSec + 28800) / 86400 := ⟨_, rfl⟩
  obtain ⟨a, ha⟩ : ∃ a, a = (unixSec / 60 / 60 + 8) / 24 + 2472632 := ⟨_, rfl⟩
  obtain ⟨b, hb⟩ : ∃ b, b = (4 * a + 3) / 146097 := ⟨_, rfl⟩
  obtain ⟨c, hc⟩ : ∃ c, c = a - 146097 * b / 4 := ⟨_, rfl⟩
  obtain ⟨d, hd⟩ : ∃ d, d = (4 * c + 3) / 1461 := ⟨_, rfl⟩
  obtain ⟨e, he⟩ : ∃ e, e = c - 1461 * d / 4 := ⟨_, rfl⟩
  obtain ⟨m, hm⟩ : ∃ m, m = (5 * e + 2) / 153 := ⟨_, rfl⟩
  have han : a = n + 2472632 := by omega
  obtain ⟨⟨-, -, -, -, -, he0⟩, he1, hnumber⟩ := Gregorian.march_of_number (by omega) hb hc hd he
  obtain ⟨hday, hordinal⟩ := Gregorian.isDay_from_march he0 he1 hm
  obtain ⟨epoch, hepoch, hord⟩ := make_epoch
  have hreaches := epoch.plus_reaches (.ofDays n)
  have hdays : (Timedelta.ofDays n).days = n := rfl
  have hin : Date.InRange (epoch.ord + n) := by
    have hlow : Gregorian.ordinal kMinYear 1 1 = 1 := by decide
    have hhigh : Gregorian.ordinal kMaxYear 12 31 = 3652059 := Gregorian.ordinal_lastDay 9999
    rw [Date.InRange, hlow, hhigh, hord]
    omega
  rw [Date.Reaches, hdays, if_pos hin] at hreaches
  obtain ⟨date, hdate, hdateOrd⟩ := hreaches
  have hsame : date.ord = Gregorian.ordinal (100 * b + d - 4800 + m / 10)
      (m + 3 - 12 * (m / 10)) (e - (153 * m + 2) / 5 + 1) := by
    rw [hordinal, hnumber, hdateOrd, hord]
    omega
  obtain ⟨hyear, hmonth, hmday⟩ := date.isDay.ordinal_inj hday hsame
  refine ⟨_, date, fastUnixSecondToDate_eq hzero hrange ha hb hc hd he hm, ?_, ?_, ?_, hmday.symm, ?_,
    ?_, ?_⟩
  · rw [hepoch, ← hn]
    exact hdate
  · rw [hyear]
    dsimp only
    omega
  · rw [hmonth]
    dsimp only
    omega
  · dsimp only
    omega
  · dsimp only
    omega
  · dsimp only
    omega

theorem fastUnixSecondToDate_agrees_noon :
    fastUnixSecondToDate 1613966399 = some ⟨59, 59, 11, 22, 1, 121⟩ ∧
      ∃ tm date, fastUnixSecondToDate 1613966399 = some tm ∧ tm.mday = date.day ∧
        (do
          let epoch ← Date.make 1970 1 1
          epoch.plus (.ofDays ((1613966399 + 28800) / 86400))) = .ok date := by
  obtain ⟨tm, date, htm, hdate, -, -, hday, -⟩ :=
    fastUnixSecondToDate_agrees 1613966399 (by decide) (by decide)
  exact ⟨by decide +kernel, tm, date, htm, hday, hdate⟩

end FlareTrader.DateTime
