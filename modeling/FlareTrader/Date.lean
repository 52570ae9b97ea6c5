import FlareTrader.GregorianCalendar
import FlareTrader.Timedelta

/-! Dates of `utils/datetime.cpp`: the constructor, the two loops that add and subtract
days, the difference and the comparisons. -/

namespace FlareTrader.DateTime

open Gregorian

/-- How a call ends without a value. `undefined` is an index outside of its table and a
loop that does not end. -/
inductive Failure where
  | outOfRange (what : String)
  | runtimeError (what : String)
  | assertion
  | undefined
  deriving DecidableEq, Repr

def kMaxYear : ℤ := 9999
def kMinYear : ℤ := 1

def kDayRangeOfLeapYear : List ℤ := [0, 31, 29, 31, 30, 31, 30, 31, 31, 30, 31, 30, 31]
def kDayRangeOfNonLeapYear : List ℤ := [0, 31, 28, 31, 30, 31, 30, 31, 31, 30, 31, 30, 31]

def kAccumulatedDayOfLeapYear : List ℤ :=
  [0, 0, 31, 60, 91, 121, 152, 182, 213, 244, 274, 305, 335]
def kAccumulatedDayOfNonLeapYear : List ℤ :=
  [0, 0, 31, 59, 90, 120, 151, 181, 212, 243, 273, 304, 334]

def isLeapYear (year : ℤ) : Bool :=
  !(year.tmod 4 != 0 || (year.tmod 100 == 0 && year.tmod 400 != 0))

def dayRangeTable (year : ℤ) : List ℤ :=
  if isLeapYear year then kDayRangeOfLeapYear else kDayRangeOfNonLeapYear

def accDaysTable (year : ℤ) : List ℤ :=
  if isLeapYear year then kAccumulatedDayOfLeapYear else kAccumulatedDayOfNonLeapYear

def lookup (table : List ℤ) (i : ℤ) : Except Failure ℤ :=
  if i < 0 then .error .undefined
  else match table[i.toNat]? with
    | some value => .ok value
    | none => .error .undefined

theorem isLeapYear_iff (year : ℤ) : isLeapYear year = true ↔ IsLeap year := by
  have hdvd (n : ℤ) : year.tmod n = 0 ↔ n ∣ year := Int.dvd_iff_tmod_eq_zero.symm
  simp only [isLeapYear, IsLeap, Bool.not_eq_true', Bool.or_eq_false_iff, Bool.and_eq_false_iff,
    bne_eq_false_iff_eq, beq_eq_false_iff_ne, ne_eq, hdvd]

theorem lookup_dayRangeTable {y m : ℤ} (hone : 1 ≤ m) (hm : m ≤ 12) :
    lookup (dayRangeTable y) m = .ok (monthLength y m) := by
  by_cases h : IsLeap y
  · have hleap : isLeapYear y = true := (isLeapYear_iff y).mpr h
    rw [dayRangeTable, if_pos hleap, monthLength, if_pos h]
    interval_cases m <;> rfl
  · have hleap : ¬ isLeapYear y = true := (isLeapYear_iff y).not.mpr h
    rw [dayRangeTable, if_neg hleap, monthLength, if_neg h]
    interval_cases m <;> rfl

theorem lookup_accDaysTable {y m : ℤ} (hone : 1 ≤ m) (hm : m ≤ 12) :
    lookup (accDaysTable y) m = .ok (daysBeforeMonth y m) := by
  by_cases h : IsLeap y
  · have hleap : isLeapYear y = true := (isLeapYear_iff y).mpr h
    rw [accDaysTable, if_pos hleap,
      daysBeforeMonth_congr (iff_of_true h (by decide : IsLeap 4))]
    interval_cases m <;> rfl
  · have hleap : ¬ isLeapYear y = true := (isLeapYear_iff y).not.mpr h
    rw [accDaysTable, if_neg hleap,
      daysBeforeMonth_congr (iff_of_false h (by decide : ¬ IsLeap 1))]
    interval_cases m <;> rfl

structure Date where
  year : ℤ
  month : ℤ
  day : ℤ
  kMinYear_le : kMinYear ≤ year
  le_kMaxYear : year ≤ kMaxYear
  isDay : IsDay year month day
  deriving DecidableEq, Repr

namespace Date

def outOfRange (year month day : ℤ) : Failure :=
  .outOfRange s!"date out of range: {year}/{month}/{day}"

/-- `Date(year, month, day)`. The table is read when the month is in it. -/
def make (year month day : ℤ) : Except Failure Date :=
  if h : year > kMaxYear ∨ year < kMinYear ∨ month ≤ 0 ∨ month > 12 ∨ day ≤ 0 then
    .error (outOfRange year month day)
  else match hrange : lookup (dayRangeTable year) month with
    | .error failure => .error failure
    | .ok range =>
      if hday : day > range then .error (outOfRange year month day)
      else
        .ok {
          year, month, day
          kMinYear_le := by omega
          le_kMaxYear := by omega
          isDay := by
            rw [lookup_dayRangeTable (by omega) (by omega), Except.ok.injEq] at hrange
            exact ⟨by omega, by omega, by omega, by omega⟩ }

def ord (a : Date) : ℤ := ordinal a.year a.month a.day

theorem make_of_isDay {y m d : ℤ} (h : IsDay y m d) :
    make y m d =
      if hyear : kMinYear ≤ y ∧ y ≤ kMaxYear then .ok ⟨y, m, d, hyear.1, hyear.2, h⟩
      else .error (outOfRange y m d) := by
  obtain ⟨hone, hm, hday, hd⟩ := id h
  by_cases hyear : kMinYear ≤ y ∧ y ≤ kMaxYear
  · have hin : ¬ (y > kMaxYear ∨ y < kMinYear ∨ m ≤ 0 ∨ m > 12 ∨ d ≤ 0) := by omega
    rw [make, dif_neg hin, dif_pos hyear]
    split
    · next failure hlookup => simp [lookup_dayRangeTable hone hm] at hlookup
    · next range hlookup =>
      have hrange : monthLength y m = range := by
        simpa [lookup_dayRangeTable hone hm] using hlookup
      rw [dif_neg (by omega)]
  · have hout : y > kMaxYear ∨ y < kMinYear ∨ m ≤ 0 ∨ m > 12 ∨ d ≤ 0 := by omega
    rw [make, dif_pos hout, dif_neg hyear]

theorem ord_injective {a b : Date} (h : a.ord = b.ord) : a = b := by
  obtain ⟨hyear, hmonth, hday⟩ := a.isDay.ordinal_inj b.isDay h
  cases a
  cases b
  simp only [Date.mk.injEq]
  exact ⟨hyear, hmonth, hday⟩

def InRange (n : ℤ) : Prop := ordinal kMinYear 1 1 ≤ n ∧ n ≤ ordinal kMaxYear 12 31

instance (n : ℤ) : Decidable (InRange n) := inferInstanceAs (Decidable (_ ∧ _))

theorem inRange_iff {y m d : ℤ} (h : IsDay y m d) :
    InRange (ordinal y m d) ↔ kMinYear ≤ y ∧ y ≤ kMaxYear := by
  rw [h.year_range_iff kMinYear kMaxYear, InRange, ordinal_firstDay, ordinal_lastDay]
  rfl

theorem ord_inRange (a : Date) : InRange a.ord :=
  (inRange_iff a.isDay).mpr ⟨a.kMinYear_le, a.le_kMaxYear⟩

def Reaches (result : Except Failure Date) (n : ℤ) : Prop :=
  if InRange n then ∃ date, result = .ok date ∧ date.ord = n
  else ∃ what, result = .error (.outOfRange what)

theorem make_reaches {y m d : ℤ} (h : IsDay y m d) : Reaches (make y m d) (ordinal y m d) := by
  have hrange := inRange_iff h
  rw [Reaches, make_of_isDay h]
  by_cases hyear : kMinYear ≤ y ∧ y ≤ kMaxYear
  · rw [if_pos (hrange.mpr hyear), dif_pos hyear]
    exact ⟨_, rfl, rfl⟩
  · rw [if_neg (hrange.not.mpr hyear), dif_neg hyear]
    exact ⟨_, rfl⟩

theorem reaches_of_ord (a : Date) : Reaches (.ok a) a.ord := by
  have hreaches := make_reaches a.isDay
  rwa [make_of_isDay a.isDay, dif_pos ⟨a.kMinYear_le, a.le_kMaxYear⟩] at hreaches

end Date

structure Position where
  year : ℤ
  month : ℤ
  day : ℤ

def monthsForward (dayRange : List ℤ) (year : ℤ) :
    ℕ → ℤ → ℤ → ℤ → Except Failure Position
  | 0, _, _, _ => .error .undefined
  | fuel + 1, deltaDays, dstMonth, dstDay => do
    let range ← lookup dayRange dstMonth
    let leftDaysThisMonth := range - dstDay
    if deltaDays ≤ leftDaysThisMonth then
      return ⟨year, dstMonth, dstDay + deltaDays⟩
    else
      monthsForward dayRange year fuel (deltaDays - (leftDaysThisMonth + 1)) (dstMonth + 1) 1

/-- The jumps of `operator+` back to `calculate`. -/
def yearsForward : ℕ → ℤ → Position → Except Failure Position
  | 0, _, _ => .error .undefined
  | fuel + 1, deltaDays, dst => do
    let totalDaysThisYear := if isLeapYear dst.year then 366 else 365
    let accDays ← lookup (accDaysTable dst.year) dst.month
    let leftDaysThisYear := totalDaysThisYear - (accDays + dst.day)
    if deltaDays ≤ leftDaysThisYear then
      monthsForward (dayRangeTable dst.year) dst.year 13 deltaDays dst.month dst.day
    else
      yearsForward fuel (deltaDays - (leftDaysThisYear + 1)) ⟨dst.year + 1, 1, 1⟩

def monthsBackward (dayRange : List ℤ) (year : ℤ) :
    ℕ → ℤ → ℤ → ℤ → Except Failure Position
  | 0, _, _, _ => .error .undefined
  | fuel + 1, deltaDays, dstMonth, dstDay => do
    if deltaDays < dstDay then
      return ⟨year, dstMonth, dstDay - deltaDays⟩
    else
      let range ← lookup dayRange (dstMonth - 1)
      monthsBackward dayRange year fuel (deltaDays - dstDay) (dstMonth - 1) range

/-- The jumps of `operator-` back to `calculate`. -/
def yearsBackward : ℕ → ℤ → Position → Except Failure Position
  | 0, _, _ => .error .undefined
  | fuel + 1, deltaDays, dst => do
    let accDays ← lookup (accDaysTable dst.year) dst.month
    let daysThisYear := accDays + dst.day - 1
    if deltaDays ≤ daysThisYear then
      monthsBackward (dayRangeTable dst.year) dst.year 13 deltaDays dst.month dst.day
    else
      yearsBackward fuel (deltaDays - (daysThisYear + 1)) ⟨dst.year - 1, 12, 31⟩

namespace Position

def IsDay (p : Position) : Prop := Gregorian.IsDay p.year p.month p.day

def ordinal (p : Position) : ℤ := Gregorian.ordinal p.year p.month p.day

end Position

theorem ite_isLeapYear (y : ℤ) : (if isLeapYear y then (366 : ℤ) else 365) = yearLength y := by
  simp only [isLeapYear_iff, yearLength]

theorem monthsForward_spec {y m d delta : ℤ} (fuel : ℕ) (h : IsDay y m d) (hdelta : 0 ≤ delta)
    (hfit : dayOfYear y m d + delta ≤ yearLength y) (hfuel : 13 - m ≤ fuel) :
    ∃ dst, monthsForward (dayRangeTable y) y fuel delta m d = .ok dst ∧ dst.IsDay ∧
      dst.ordinal = ordinal y m d + delta := by
  induction fuel generalizing m d delta with
  | zero =>
    have hm := h.month_le
    omega
  | succ fuel ih =>
    obtain ⟨hone, hm, hday, hd⟩ := id h
    simp only [monthsForward, lookup_dayRangeTable hone hm]
    by_cases hmonth : delta ≤ monthLength y m - d
    · have hdst : IsDay y m (d + delta) := ⟨hone, hm, by omega, by omega⟩
      refine ⟨⟨y, m, d + delta⟩, if_pos hmonth, hdst, ?_⟩
      simp only [Position.ordinal, ordinal, dayOfYear]
      ring
    · have hnext := daysBeforeMonth_succ y hone
      have hlt : m < 12 := by
        by_contra hlast
        obtain rfl : m = 12 := by omega
        have htotal := daysBeforeMonth_thirteen y
        rw [dayOfYear] at hfit
        norm_num at hnext
        omega
      have hfirst : IsDay y (m + 1) 1 :=
        ⟨by omega, by omega, le_rfl, monthLength_pos y (m + 1)⟩
      have hleft : dayOfYear y (m + 1) 1 + (delta - (monthLength y m - d + 1)) =
          dayOfYear y m d + delta := by
        simp only [dayOfYear, hnext]
        ring
      obtain ⟨dst, hrun, hdst, hord⟩ := ih hfirst (by omega) (hleft.trans_le hfit) (by omega)
      refine ⟨dst, (if_neg hmonth).trans hrun, hdst, hord.trans ?_⟩
      simp only [ordinal]
      omega

theorem yearsForward_spec {p : Position} {delta : ℤ} (fuel : ℕ) (h : p.IsDay) (hdelta : 0 ≤ delta)
    (hfuel : delta < fuel) :
    ∃ dst, yearsForward fuel delta p = .ok dst ∧ dst.IsDay ∧ dst.ordinal = p.ordinal + delta := by
  induction fuel generalizing p delta with
  | zero => omega
  | succ fuel ih =>
    have hle := h.dayOfYear_le
    simp only [yearsForward, lookup_accDaysTable h.one_le_month h.month_le, ite_isLeapYear]
    by_cases hyear : delta ≤ yearLength p.year - (daysBeforeMonth p.year p.month + p.day)
    · have hfit : dayOfYear p.year p.month p.day + delta ≤ yearLength p.year := by
        rw [dayOfYear]
        omega
      have hmonths : 13 - p.month ≤ (13 : ℕ) := by
        have hone := h.one_le_month
        omega
      obtain ⟨dst, hrun, hdst⟩ := monthsForward_spec 13 h hdelta hfit hmonths
      exact ⟨dst, (if_pos hyear).trans hrun, hdst⟩
    · have hfirst : Position.IsDay ⟨p.year + 1, 1, 1⟩ :=
        ⟨le_rfl, by norm_num, le_rfl, monthLength_pos (p.year + 1) 1⟩
      have hnext := ordinal_firstDay (p.year + 1)
      rw [daysBeforeYear_succ] at hnext
      rw [dayOfYear] at hle
      obtain ⟨dst, hrun, hdst, hord⟩ :=
        ih hfirst
          (show 0 ≤ delta - (yearLength p.year - (daysBeforeMonth p.year p.month + p.day) + 1) by
            omega)
          (by omega)
      refine ⟨dst, (if_neg hyear).trans hrun, hdst, hord.trans ?_⟩
      simp only [Position.ordinal, hnext]
      simp only [ordinal, dayOfYear]
      ring

theorem monthsBackward_spec {y m d delta : ℤ} (fuel : ℕ) (h : IsDay y m d) (hdelta : 0 ≤ delta)
    (hfit : delta < dayOfYear y m d) (hfuel : m ≤ fuel) :
    ∃ dst, monthsBackward (dayRangeTable y) y fuel delta m d = .ok dst ∧ dst.IsDay ∧
      dst.ordinal = ordinal y m d - delta := by
  induction fuel generalizing m d delta with
  | zero =>
    have hone := h.one_le_month
    omega
  | succ fuel ih =>
    obtain ⟨hone, hm, hday, hd⟩ := id h
    simp only [monthsBackward]
    by_cases hmonth : delta < d
    · have hdst : IsDay y m (d - delta) := ⟨hone, hm, by omega, by omega⟩
      refine ⟨⟨y, m, d - delta⟩, if_pos hmonth, hdst, ?_⟩
      simp only [Position.ordinal, ordinal, dayOfYear]
      ring
    · have hgt : 1 < m := by
        by_contra hfirst
        obtain rfl : m = 1 := by omega
        rw [dayOfYear, daysBeforeMonth_one] at hfit
        omega
      have hprev := daysBeforeMonth_succ y (show 1 ≤ m - 1 by omega)
      rw [sub_add_cancel] at hprev
      have hlast : IsDay y (m - 1) (monthLength y (m - 1)) :=
        ⟨by omega, by omega, monthLength_pos y (m - 1), le_rfl⟩
      have hleft : dayOfYear y (m - 1) (monthLength y (m - 1)) = dayOfYear y m d - d := by
        simp only [dayOfYear, hprev]
        ring
      obtain ⟨dst, hrun, hdst, hord⟩ := ih hlast (show 0 ≤ delta - d by omega) (by omega) (by omega)
      rw [lookup_dayRangeTable (by omega) (by omega)]
      refine ⟨dst, (if_neg hmonth).trans hrun, hdst, hord.trans ?_⟩
      simp only [ordinal]
      omega

theorem yearsBackward_spec {p : Position} {delta : ℤ} (fuel : ℕ) (h : p.IsDay) (hdelta : 0 ≤ delta)
    (hfuel : delta < fuel) :
    ∃ dst, yearsBackward fuel delta p = .ok dst ∧ dst.IsDay ∧ dst.ordinal = p.ordinal - delta := by
  induction fuel generalizing p delta with
  | zero => omega
  | succ fuel ih =>
    have hone := h.one_le_dayOfYear
    simp only [yearsBackward, lookup_accDaysTable h.one_le_month h.month_le]
    rw [dayOfYear] at hone
    by_cases hyear : delta ≤ daysBeforeMonth p.year p.month + p.day - 1
    · have hfit : delta < dayOfYear p.year p.month p.day := by
        rw [dayOfYear]
        omega
      have hmonths : p.month ≤ (13 : ℕ) := by
        have hle := h.month_le
        omega
      obtain ⟨dst, hrun, hdst⟩ := monthsBackward_spec 13 h hdelta hfit hmonths
      exact ⟨dst, (if_pos hyear).trans hrun, hdst⟩
    · have htwelve : monthLength (p.year - 1) 12 = 31 := rfl
      have hlast : Position.IsDay ⟨p.year - 1, 12, 31⟩ :=
        ⟨by norm_num, le_rfl, by norm_num, htwelve.ge⟩
      have hprev := ordinal_lastDay (p.year - 1)
      rw [sub_add_cancel] at hprev
      obtain ⟨dst, hrun, hdst, hord⟩ :=
        ih hlast (show 0 ≤ delta - (daysBeforeMonth p.year p.month + p.day - 1 + 1) by omega)
          (by omega)
      refine ⟨dst, (if_neg hyear).trans hrun, hdst, hord.trans ?_⟩
      simp only [Position.ordinal, hprev]
      simp only [ordinal, dayOfYear]
      ring

namespace Date

variable {a b : Date}

def position (a : Date) : Position := ⟨a.year, a.month, a.day⟩

def addDays (a : Date) (deltaDays : ℤ) : Except Failure Date := do
  if deltaDays = 0 then
    return a
  else
    let dst ← yearsForward (deltaDays.toNat + 1) deltaDays a.position
    make dst.year dst.month dst.day

def subtractDays (a : Date) (deltaDays : ℤ) : Except Failure Date := do
  if deltaDays = 0 then
    return a
  else
    let dst ← yearsBackward (deltaDays.toNat + 1) deltaDays a.position
    make dst.year dst.month dst.day

/-- `operator+`. It calls `operator-` for negative days, which are then positive there. -/
def plus (a : Date) (timedelta : Timedelta) : Except Failure Date :=
  if timedelta.days < 0 then a.subtractDays (-timedelta.days) else a.addDays timedelta.days

def minus (a : Date) (timedelta : Timedelta) : Except Failure Date :=
  if timedelta.days < 0 then a.addDays (-timedelta.days) else a.subtractDays timedelta.days

theorem addDays_reaches (a : Date) {n : ℤ} (hn : 0 ≤ n) : Reaches (a.addDays n) (a.ord + n) := by
  by_cases hzero : n = 0
  · rw [addDays, if_pos hzero, hzero, add_zero]
    exact a.reaches_of_ord
  · obtain ⟨dst, hrun, hdst, hord⟩ := @yearsForward_spec a.position n (n.toNat + 1) a.isDay hn
      (by omega)
    rw [addDays, if_neg hzero, hrun, show a.ord + n = dst.ordinal from hord.symm]
    exact make_reaches hdst

theorem subtractDays_reaches (a : Date) {n : ℤ} (hn : 0 ≤ n) :
    Reaches (a.subtractDays n) (a.ord - n) := by
  by_cases hzero : n = 0
  · rw [subtractDays, if_pos hzero, hzero, sub_zero]
    exact a.reaches_of_ord
  · obtain ⟨dst, hrun, hdst, hord⟩ := @yearsBackward_spec a.position n (n.toNat + 1) a.isDay hn
      (by omega)
    rw [subtractDays, if_neg hzero, hrun, show a.ord - n = dst.ordinal from hord.symm]
    exact make_reaches hdst

theorem plus_reaches (a : Date) (t : Timedelta) : Reaches (a.plus t) (a.ord + t.days) := by
  rw [plus]
  split
  · next hneg =>
    have hreaches := a.subtractDays_reaches (show 0 ≤ -t.days by omega)
    rwa [sub_neg_eq_add] at hreaches
  · next hnonneg => exact a.addDays_reaches (not_lt.mp hnonneg)

theorem minus_reaches (a : Date) (t : Timedelta) : Reaches (a.minus t) (a.ord - t.days) := by
  rw [minus]
  split
  · next hneg => exact a.addDays_reaches (show 0 ≤ -t.days by omega)
  · next hnonneg => exact a.subtractDays_reaches (not_lt.mp hnonneg)

def sameYearDifference (a b : Date) : Except Failure Timedelta := do
  let accDays ← lookup (accDaysTable a.year) a.month
  let accDays' ← lookup (accDaysTable a.year) b.month
  return .ofDays (accDays + a.day - accDays' - b.day)

def yearsBetween (last : ℤ) : ℕ → ℤ → Timedelta → Except Failure Timedelta
  | 0, y, timedelta => if y ≠ last then .error .undefined else .ok timedelta
  | fuel + 1, y, timedelta =>
    if y ≠ last then
      yearsBetween last fuel (y + 1)
        (timedelta + if isLeapYear y then .ofDays 366 else .ofDays 365)
    else .ok timedelta

def spanBetween (early latter : Date) : Except Failure Timedelta := do
  let lastDay ← make early.year 12 31
  let firstDay ← make latter.year 1 1
  let timedelta := Timedelta.ofDays 1
  let timedelta := timedelta + (← sameYearDifference lastDay early)
  let timedelta := timedelta + (← sameYearDifference latter firstDay)
  yearsBetween latter.year (latter.year - early.year).toNat (early.year + 1) timedelta

def difference (a b : Date) : Except Failure Timedelta := do
  if a.year = b.year then
    sameYearDifference a b
  else if b.year > a.year then
    let timedelta ← spanBetween a b
    return .ofDays (-timedelta.days)
  else
    spanBetween b a

theorem ofDays_add (m n : ℤ) :
    Timedelta.ofDays m + Timedelta.ofDays n = Timedelta.ofDays (m + n) := by
  change Timedelta.ofMicroseconds (m + n) 0 0 (0 + 0) 0 (0 + 0) = Timedelta.ofDays (m + n)
  simp [Timedelta.ofMicroseconds, Timedelta.ofDays]

theorem sameYearDifference_eq (h : a.year = b.year) :
    sameYearDifference a b = .ok (.ofDays (a.ord - b.ord)) := by
  have hdays : daysBeforeMonth a.year a.month + a.day - daysBeforeMonth a.year b.month - b.day =
      a.ord - b.ord := by
    simp only [ord, ordinal, dayOfYear, h]
    ring
  rw [← hdays, sameYearDifference, lookup_accDaysTable a.isDay.one_le_month a.isDay.month_le,
    lookup_accDaysTable b.isDay.one_le_month b.isDay.month_le]
  rfl

theorem yearsBetween_eq {last y : ℤ} (n : ℤ) (fuel : ℕ) (hy : y ≤ last) (hfuel : last - y ≤ fuel) :
    yearsBetween last fuel y (.ofDays n) =
      .ok (.ofDays (n + (daysBeforeYear last - daysBeforeYear y))) := by
  induction fuel generalizing y n with
  | zero =>
    obtain rfl : y = last := by omega
    rw [yearsBetween, if_neg (not_not.mpr rfl), sub_self, add_zero]
  | succ fuel ih =>
    by_cases hlast : y = last
    · rw [yearsBetween, if_neg (not_not.mpr hlast), hlast, sub_self, add_zero]
    · have hyear : (if isLeapYear y then Timedelta.ofDays 366 else .ofDays 365) =
          .ofDays (yearLength y) := by
        rw [← ite_isLeapYear, apply_ite Timedelta.ofDays]
      have hnext := daysBeforeYear_succ y
      rw [yearsBetween, if_pos hlast, hyear, ofDays_add, ih _ (by omega) (by omega), hnext]
      ring_nf

theorem make_lastDay (a : Date) :
    ∃ d, make a.year 12 31 = .ok d ∧ d.year = a.year ∧ d.ord = daysBeforeYear (a.year + 1) := by
  have htwelve : monthLength a.year 12 = 31 := rfl
  have hday : IsDay a.year 12 31 := ⟨by norm_num, le_rfl, by norm_num, htwelve.ge⟩
  rw [make_of_isDay hday, dif_pos ⟨a.kMinYear_le, a.le_kMaxYear⟩]
  exact ⟨_, rfl, rfl, ordinal_lastDay a.year⟩

theorem make_firstDay (a : Date) :
    ∃ d, make a.year 1 1 = .ok d ∧ d.year = a.year ∧ d.ord = daysBeforeYear a.year + 1 := by
  have hday : IsDay a.year 1 1 := ⟨le_rfl, by norm_num, le_rfl, monthLength_pos a.year 1⟩
  rw [make_of_isDay hday, dif_pos ⟨a.kMinYear_le, a.le_kMaxYear⟩]
  exact ⟨_, rfl, rfl, ordinal_firstDay a.year⟩

theorem spanBetween_eq (h : a.year < b.year) :
    spanBetween a b = .ok (.ofDays (b.ord - a.ord)) := by
  obtain ⟨lastDay, hlast, hlastYear, hlastOrd⟩ := a.make_lastDay
  obtain ⟨firstDay, hfirst, hfirstYear, hfirstOrd⟩ := b.make_firstDay
  have hspan : 1 + (lastDay.ord - a.ord) + (b.ord - firstDay.ord) +
      (daysBeforeYear b.year - daysBeforeYear (a.year + 1)) = b.ord - a.ord := by
    rw [hlastOrd, hfirstOrd]
    ring
  have hyears := yearsBetween_eq (1 + (lastDay.ord - a.ord) + (b.ord - firstDay.ord))
    (b.year - a.year).toNat (show a.year + 1 ≤ b.year from h) (by omega)
  rw [hspan, ← ofDays_add, ← ofDays_add] at hyears
  simp only [spanBetween, hlast, hfirst, sameYearDifference_eq hlastYear,
    sameYearDifference_eq hfirstYear.symm, bind, Except.bind]
  exact hyears

theorem difference_eq (a b : Date) : a.difference b = .ok (.ofDays (a.ord - b.ord)) := by
  rcases lt_trichotomy a.year b.year with hlt | heq | hgt
  · rw [difference, if_neg hlt.ne, if_pos hlt, spanBetween_eq hlt]
    change Except.ok (Timedelta.ofDays (-(b.ord - a.ord))) = _
    rw [neg_sub]
  · rw [difference, if_pos heq, sameYearDifference_eq heq]
  · rw [difference, if_neg hgt.ne', if_neg hgt.not_gt, spanBetween_eq hgt]

end Date

end FlareTrader.DateTime
