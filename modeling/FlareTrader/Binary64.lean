import Mathlib

/-! Rounding to double precision, to the nearest and halves to even. Results are taken to be
finite: no number here is too large for the format. -/

namespace Binary64

def lastPlace (x : ℚ) : ℤ := max (Int.log 2 |x| - 52) (-1074)

def halfEven (x : ℚ) : ℤ :=
  let n := ⌊x⌋
  if x - n < 1 / 2 ∨ (x - n = 1 / 2 ∧ n % 2 = 0) then n else n + 1

def round (x : ℚ) : ℚ := halfEven (x / 2 ^ lastPlace x) * 2 ^ lastPlace x

theorem floor_le_halfEven (x : ℚ) : ⌊x⌋ ≤ halfEven x := by
  dsimp only [halfEven]
  split_ifs
  · exact le_rfl
  · exact Int.le_add_one le_rfl

theorem two_zpow_lastPlace_le {x : ℚ} (h : 1 ≤ x) : (2 : ℚ) ^ lastPlace x ≤ x := by
  have habs : |x| = x := abs_of_nonneg (zero_le_one.trans h)
  have hlog : (2 : ℚ) ^ Int.log 2 x ≤ x := by
    simpa using Int.zpow_log_le_self (R := ℚ) (b := 2) (by decide) (zero_lt_one.trans_le h)
  have hexp : 0 ≤ Int.log 2 x := by
    rw [Int.log_of_one_le_right 2 h]
    exact Int.natCast_nonneg _
  refine (zpow_le_zpow_right₀ (by norm_num) ?_).trans hlog
  rw [lastPlace, habs]
  omega

theorem one_le_round {x : ℚ} (h : 1 ≤ x) : 1 ≤ round x := by
  have hpos : (0 : ℚ) < 2 ^ lastPlace x := by positivity
  have hfloor : (⌊x / 2 ^ lastPlace x⌋ : ℚ) ≤ halfEven (x / 2 ^ lastPlace x) := by
    exact_mod_cast floor_le_halfEven _
  rcases le_or_gt 0 (lastPlace x) with hnonneg | hneg
  · have hone : 1 ≤ ⌊x / 2 ^ lastPlace x⌋ := by
      rw [Int.le_floor, Int.cast_one, le_div_iff₀ hpos, one_mul]
      exact two_zpow_lastPlace_le h
    have hcast : (1 : ℚ) ≤ ⌊x / 2 ^ lastPlace x⌋ := by exact_mod_cast hone
    have hlarge : (1 : ℚ) ≤ 2 ^ lastPlace x := one_le_zpow₀ (by norm_num) hnonneg
    exact one_le_mul_of_one_le_of_one_le (hcast.trans hfloor) hlarge
  · obtain ⟨n, hn⟩ := Int.eq_ofNat_of_zero_le (by omega : 0 ≤ -lastPlace x)
    have hunit : (2 : ℚ) ^ lastPlace x = ((2 : ℚ) ^ n)⁻¹ := by
      rw [← zpow_natCast, ← zpow_neg, ← hn, neg_neg]
    have hpow : (0 : ℚ) < 2 ^ n := by positivity
    have hone : (2 : ℚ) ^ n ≤ ⌊x / 2 ^ lastPlace x⌋ := by
      have hle : ((2 ^ n : ℕ) : ℤ) ≤ ⌊x / 2 ^ lastPlace x⌋ := by
        rw [Int.le_floor, hunit, div_inv_eq_mul]
        push_cast
        nlinarith
      exact_mod_cast hle
    rw [round, hunit, ← div_eq_mul_inv, le_div_iff₀ hpow, one_mul]
    rw [hunit] at hone hfloor
    exact hone.trans hfloor

example : round (200000000000 - 1 / 100000) = 200000000000 := by decide +kernel
example : round (100 - 1 / 100000) < 100 := by decide +kernel

end Binary64
