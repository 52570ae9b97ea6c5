import Mathlib

/-! The proleptic Gregorian calendar: days by year, month and day, and their numbers.
Day 1 is the first of January of year 1. -/

namespace Gregorian

def IsLeap (y : ℤ) : Prop := 4 ∣ y ∧ (¬ 100 ∣ y ∨ 400 ∣ y)

instance (y : ℤ) : Decidable (IsLeap y) := inferInstanceAs (Decidable (_ ∧ _))

def yearLength (y : ℤ) : ℤ := if IsLeap y then 366 else 365

def monthLength (y m : ℤ) : ℤ :=
  if m = 2 then if IsLeap y then 29 else 28
  else if m = 4 ∨ m = 6 ∨ m = 9 ∨ m = 11 then 30 else 31

def daysBeforeMonth (y m : ℤ) : ℤ := ∑ k ∈ Finset.range (m - 1).toNat, monthLength y (k + 1)

def daysBeforeYear (y : ℤ) : ℤ := 365 * (y - 1) + (y - 1) / 4 - (y - 1) / 100 + (y - 1) / 400

theorem monthLength_pos (y m : ℤ) : 0 < monthLength y m := by
  rw [monthLength]
  split_ifs <;> decide

theorem yearLength_pos (y : ℤ) : 0 < yearLength y := by
  rw [yearLength]
  split_ifs <;> decide

theorem daysBeforeMonth_one (y : ℤ) : daysBeforeMonth y 1 = 0 := rfl

theorem daysBeforeMonth_succ (y : ℤ) {m : ℤ} (hm : 1 ≤ m) :
    daysBeforeMonth y (m + 1) = daysBeforeMonth y m + monthLength y m := by
  have hnat : (m + 1 - 1).toNat = (m - 1).toNat + 1 := by omega
  have hlast : (((m - 1).toNat : ℕ) : ℤ) + 1 = m := by omega
  rw [daysBeforeMonth, hnat, Finset.sum_range_succ, hlast]
  rfl

theorem daysBeforeMonth_congr {y y' : ℤ} (h : IsLeap y ↔ IsLeap y') (m : ℤ) :
    daysBeforeMonth y m = daysBeforeMonth y' m := by
  apply Finset.sum_congr rfl
  intro k _
  simp only [monthLength, h]

theorem daysBeforeMonth_mono (y : ℤ) {m m' : ℤ} (h : m ≤ m') :
    daysBeforeMonth y m ≤ daysBeforeMonth y m' := by
  have hrange : Finset.range (m - 1).toNat ⊆ Finset.range (m' - 1).toNat :=
    Finset.range_subset_range.mpr (by omega)
  exact Finset.sum_le_sum_of_subset_of_nonneg hrange fun k _ _ => (monthLength_pos y (k + 1)).le

theorem daysBeforeMonth_nonneg (y m : ℤ) : 0 ≤ daysBeforeMonth y m :=
  Finset.sum_nonneg fun k _ => (monthLength_pos y (k + 1)).le

theorem daysBeforeMonth_thirteen (y : ℤ) : daysBeforeMonth y 13 = yearLength y := by
  by_cases h : IsLeap y
  · rw [daysBeforeMonth_congr (iff_of_true h (by decide : IsLeap 4)), yearLength, if_pos h]
    decide
  · rw [daysBeforeMonth_congr (iff_of_false h (by decide : ¬ IsLeap 1)), yearLength, if_neg h]
    decide

theorem daysBeforeYear_one : daysBeforeYear 1 = 0 := rfl

theorem daysBeforeYear_succ (y : ℤ) :
    daysBeforeYear (y + 1) = daysBeforeYear y + yearLength y := by
  simp only [daysBeforeYear, yearLength, IsLeap]
  split_ifs <;> omega

theorem daysBeforeYear_mono : Monotone daysBeforeYear := by
  refine monotone_int_of_le_succ fun y => ?_
  rw [daysBeforeYear_succ]
  have hpos := yearLength_pos y
  omega

structure IsDay (y m d : ℤ) : Prop where
  one_le_month : 1 ≤ m
  month_le : m ≤ 12
  one_le_day : 1 ≤ d
  day_le : d ≤ monthLength y m

instance (y m d : ℤ) : Decidable (IsDay y m d) :=
  decidable_of_iff (1 ≤ m ∧ m ≤ 12 ∧ 1 ≤ d ∧ d ≤ monthLength y m)
    ⟨fun h => ⟨h.1, h.2.1, h.2.2.1, h.2.2.2⟩, fun h => ⟨h.1, h.2, h.3, h.4⟩⟩

def dayOfYear (y m d : ℤ) : ℤ := daysBeforeMonth y m + d

def ordinal (y m d : ℤ) : ℤ := daysBeforeYear y + dayOfYear y m d

theorem ordinal_firstDay (y : ℤ) : ordinal y 1 1 = daysBeforeYear y + 1 := rfl

theorem ordinal_lastDay (y : ℤ) : ordinal y 12 31 = daysBeforeYear (y + 1) := by
  have hmonths : daysBeforeMonth y 13 = daysBeforeMonth y 12 + 31 :=
    daysBeforeMonth_succ y (show (1 : ℤ) ≤ 12 by norm_num)
  rw [ordinal, dayOfYear, daysBeforeYear_succ, ← daysBeforeMonth_thirteen, hmonths]

section IsDay

variable {y m d y' m' d' : ℤ}

theorem IsDay.one_le_dayOfYear (h : IsDay y m d) : 1 ≤ dayOfYear y m d := by
  have hmonths := daysBeforeMonth_nonneg y m
  have hday := h.one_le_day
  rw [dayOfYear]
  omega

theorem IsDay.dayOfYear_le_daysBeforeMonth (h : IsDay y m d) (hm : m < m') :
    dayOfYear y m d ≤ daysBeforeMonth y m' := by
  have hmonths := daysBeforeMonth_mono y (show m + 1 ≤ m' from hm)
  have hday := h.day_le
  rw [daysBeforeMonth_succ y h.one_le_month] at hmonths
  rw [dayOfYear]
  omega

theorem IsDay.dayOfYear_le (h : IsDay y m d) : dayOfYear y m d ≤ yearLength y := by
  rw [← daysBeforeMonth_thirteen]
  exact h.dayOfYear_le_daysBeforeMonth (Int.lt_add_one_of_le h.month_le)

theorem IsDay.ordinal_range (h : IsDay y m d) :
    daysBeforeYear y < ordinal y m d ∧ ordinal y m d ≤ daysBeforeYear (y + 1) := by
  have hone := h.one_le_dayOfYear
  have hle := h.dayOfYear_le
  rw [daysBeforeYear_succ, ordinal]
  omega

theorem IsDay.ordinal_lt (h : IsDay y m d) (h' : IsDay y' m' d')
    (hlt : y < y' ∨ y = y' ∧ (m < m' ∨ m = m' ∧ d < d')) : ordinal y m d < ordinal y' m' d' := by
  rcases hlt with hyear | ⟨rfl, hmonth | ⟨rfl, hday⟩⟩
  · have hyears := daysBeforeYear_mono (show y + 1 ≤ y' from hyear)
    exact h.ordinal_range.2.trans_lt (hyears.trans_lt h'.ordinal_range.1)
  · have hmonths := h.dayOfYear_le_daysBeforeMonth hmonth
    have hone := h'.one_le_day
    simp only [ordinal, dayOfYear] at hmonths ⊢
    omega
  · simp only [ordinal, dayOfYear]
    omega

theorem IsDay.ordinal_lt_iff (h : IsDay y m d) (h' : IsDay y' m' d') :
    ordinal y m d < ordinal y' m' d' ↔ y < y' ∨ y = y' ∧ (m < m' ∨ m = m' ∧ d < d') := by
  refine ⟨fun hlt => ?_, h.ordinal_lt h'⟩
  by_contra hge
  have hcases : (y' < y ∨ y' = y ∧ (m' < m ∨ m' = m ∧ d' < d)) ∨ y = y' ∧ m = m' ∧ d = d' := by
    omega
  rcases hcases with hgt | ⟨rfl, rfl, rfl⟩
  · exact absurd hlt (h'.ordinal_lt h hgt).not_gt
  · exact absurd hlt (lt_irrefl _)

theorem IsDay.ordinal_inj (h : IsDay y m d) (h' : IsDay y' m' d')
    (heq : ordinal y m d = ordinal y' m' d') : y = y' ∧ m = m' ∧ d = d' := by
  have hlt := (h.ordinal_lt_iff h').not.mp heq.not_lt
  have hgt := (h'.ordinal_lt_iff h).not.mp heq.not_gt
  omega

theorem IsDay.year_range_iff (h : IsDay y m d) (lo hi : ℤ) :
    (lo ≤ y ∧ y ≤ hi) ↔
      daysBeforeYear lo < ordinal y m d ∧ ordinal y m d ≤ daysBeforeYear (hi + 1) := by
  obtain ⟨hlt, hle⟩ := h.ordinal_range
  constructor
  · rintro ⟨hlo, hhi⟩
    have hfirst := daysBeforeYear_mono hlo
    have hlast := daysBeforeYear_mono (show y + 1 ≤ hi + 1 by omega)
    omega
  · rintro ⟨hlo, hhi⟩
    constructor
    · by_contra hyear
      have hfirst := daysBeforeYear_mono (show y + 1 ≤ lo by omega)
      omega
    · by_contra hyear
      have hlast := daysBeforeYear_mono (show hi + 1 ≤ y by omega)
      omega

end IsDay

section March

variable {y e : ℤ}

/-- The months from March on, five of them always having 153 days. -/
theorem daysBeforeMonth_from_march (y : ℤ) {m : ℤ} (hm : 0 ≤ m) (hm' : m ≤ 9) :
    daysBeforeMonth y (m + 3) = yearLength y - 306 + (153 * m + 2) / 5 := by
  by_cases h : IsLeap y
  · rw [daysBeforeMonth_congr (iff_of_true h (by decide : IsLeap 4)), yearLength, if_pos h]
    interval_cases m <;> decide
  · rw [daysBeforeMonth_congr (iff_of_false h (by decide : ¬ IsLeap 1)), yearLength, if_neg h]
    interval_cases m <;> decide

theorem monthLength_from_march (y : ℤ) {m : ℤ} (hm : 0 ≤ m) (hm' : m ≤ 9) :
    monthLength y (m + 3) = (153 * (m + 1) + 2) / 5 - (153 * m + 2) / 5 := by
  interval_cases m <;> rfl

theorem isDay_from_march (he : 0 ≤ e) (he' : e ≤ 364 ∨ e = 365 ∧ IsLeap (y + 1)) {m : ℤ}
    (hm : m = (5 * e + 2) / 153) :
    IsDay (y + m / 10) (m + 3 - 12 * (m / 10)) (e - (153 * m + 2) / 5 + 1) ∧
      ordinal (y + m / 10) (m + 3 - 12 * (m / 10)) (e - (153 * m + 2) / 5 + 1) =
        daysBeforeYear (y + 1) - 305 + e := by
  have hm0 : 0 ≤ m := by omega
  rcases le_or_gt m 9 with hle | hgt
  · have hsame : m / 10 = 0 := by omega
    have hlength := monthLength_from_march y hm0 hle
    have hbefore := daysBeforeMonth_from_march y hm0 hle
    have hyear := daysBeforeYear_succ y
    rw [hsame, add_zero, mul_zero, sub_zero]
    refine ⟨⟨by omega, by omega, by omega, ?_⟩, ?_⟩
    · rw [hlength]
      omega
    · rw [ordinal, dayOfYear, hbefore, hyear]
      ring
  · have hnext : m / 10 = 1 := by omega
    rw [hnext]
    have hcases : m = 10 ∨ m = 11 := by omega
    rcases hcases with rfl | rfl
    · have hlength : monthLength (y + 1) 1 = 31 := rfl
      refine ⟨⟨by norm_num, by norm_num, by omega, ?_⟩, ?_⟩
      · norm_num [hlength]
        omega
      · norm_num [ordinal, dayOfYear, daysBeforeMonth_one]
        omega
    · have hbefore : daysBeforeMonth (y + 1) 2 = 31 := daysBeforeMonth_succ (y + 1) le_rfl
      refine ⟨⟨by norm_num, by norm_num, by omega, ?_⟩, ?_⟩
      · norm_num [monthLength]
        split_ifs with hleap
        · omega
        · have hshort : e ≤ 364 := he'.resolve_right fun h => hleap h.2
          omega
      · norm_num [ordinal, dayOfYear, hbefore]
        omega

end March

section Numbers

variable {a b c d e : ℤ}

/-- The century, the year of it and the day of that year, all counted from March. -/
theorem march_of_number (ha : 0 ≤ a) (hb : b = (4 * a + 3) / 146097) (hc : c = a - 146097 * b / 4)
    (hd : d = (4 * c + 3) / 1461) (he : e = c - 1461 * d / 4) :
    (0 ≤ b ∧ 0 ≤ c ∧ c ≤ 36524 ∧ 0 ≤ d ∧ d ≤ 99 ∧ 0 ≤ e) ∧
      (e ≤ 364 ∨ e = 365 ∧ IsLeap (100 * b + d - 4800 + 1)) ∧
      daysBeforeYear (100 * b + d - 4800 + 1) - 305 + e = a - 1753469 := by
  have hb0 : 0 ≤ b := by omega
  have hcenturies : 146097 * b / 4 = 36524 * b + b / 4 := by omega
  have hcentury : 4 * c = (4 * a + 3) % 146097 - 3 + b % 4 := by omega
  have hc0 : 0 ≤ c ∧ c ≤ 36524 := by omega
  have hyears : 1461 * d / 4 = 365 * d + d / 4 := by omega
  have hyear : 4 * e = (4 * c + 3) % 1461 - 3 + d % 4 := by omega
  have hd0 : 0 ≤ d ∧ d ≤ 99 := by omega
  refine ⟨⟨hb0, hc0.1, hc0.2, hd0.1, hd0.2, by omega⟩, ?_, ?_⟩
  · rcases lt_or_ge e 365 with hlt | hge
    · exact Or.inl (by omega)
    · -- the last day of February is the last one of the year that is counted
      have hfour : d % 4 = 3 := by omega
      refine Or.inr ⟨by omega, ?_⟩
      rw [IsLeap]
      rcases eq_or_ne d 99 with hlast | hother
      · have hfours : b % 4 = 3 := by omega
        omega
      · omega
  · have hfours : (100 * b + d - 4800 + 1 - 1) / 4 = 25 * b - 1200 + d / 4 := by omega
    have hhundreds : (100 * b + d - 4800 + 1 - 1) / 100 = b - 48 := by omega
    have hfourHundreds : (100 * b + d - 4800 + 1 - 1) / 400 = b / 4 - 12 := by omega
    rw [daysBeforeYear, hfours, hhundreds, hfourHundreds]
    omega

end Numbers

end Gregorian
