import Mathlib

/-! Rounding to whole numbers, and the part of a whole that falls to the upper one of
two bounds when a mean between them is given. -/

namespace Rounding

variable {K : Type*} [Field K] [LinearOrder K] [IsStrictOrderedRing K] [FloorRing K]

def trunc (x : K) : ℤ := if 0 ≤ x then ⌊x⌋ else ⌈x⌉

def halfAway (x : K) : ℤ := if 0 ≤ x then round x else -round (-x)

theorem trunc_intCast (n : ℤ) : trunc (n : K) = n := by
  rw [trunc, Int.floor_intCast, Int.ceil_intCast, ite_self]

theorem round_mono : Monotone (round : K → ℤ) := by
  intro x y hxy
  rw [round_eq, round_eq]
  exact Int.floor_mono (add_le_add_left hxy _)

theorem round_nonneg {x : K} (h : 0 ≤ x) : 0 ≤ round x := by
  calc (0 : ℤ) = round (0 : K) := round_zero.symm
    _ ≤ round x := round_mono h

omit [IsStrictOrderedRing K] in
theorem halfAway_of_nonneg {x : K} (h : 0 ≤ x) : halfAway x = round x := if_pos h

omit [IsStrictOrderedRing K] in
theorem trunc_pos {x : K} (h : 1 ≤ x) : 0 < trunc x := by
  rw [trunc, if_pos (zero_le_one.trans h)]
  exact Int.floor_pos.mpr h

theorem halfAway_pos_iff {x : K} : 0 < halfAway x ↔ 1 / 2 ≤ x := by
  rw [halfAway]
  split_ifs with hx
  · rw [round_eq, Int.floor_pos]
    constructor <;> intro h <;> linarith
  · have hneg : 0 ≤ round (-x) := round_nonneg (neg_nonneg.mpr (not_le.mp hx).le)
    exact iff_of_false (by omega) fun h => hx (by linarith)

theorem halfAway_intCast (n : ℤ) : halfAway (n : K) = n := by
  rw [halfAway, ← Int.cast_neg, round_intCast, round_intCast, neg_neg, ite_self]

theorem halfAway_mono : Monotone (halfAway : K → ℤ) := by
  intro x y hxy
  unfold halfAway
  split_ifs with hx hy hy
  · exact round_mono hxy
  · exact absurd (hx.trans hxy) hy
  · have hneg : 0 ≤ round (-x) := round_nonneg (neg_nonneg.mpr (not_le.mp hx).le)
    exact (neg_nonpos.mpr hneg).trans (round_nonneg hy)
  · exact neg_le_neg (round_mono (neg_le_neg hxy))

/-- The part of `whole` for the upper bound: all of it from the bound on, none up to the
lower one, and in proportion between them. -/
def upperShare (whole : ℤ) (lower upper mean : K) : ℤ :=
  if upper ≤ mean then whole
  else if mean ≤ lower then 0
  else halfAway (whole * (mean - lower) / (upper - lower))

variable {whole : ℤ} {lower upper mean mean' : K}

theorem proportion_nonneg (hwhole : 0 ≤ whole) (hlower : lower ≤ mean) (hupper : mean ≤ upper) :
    0 ≤ whole * (mean - lower) / (upper - lower) :=
  div_nonneg (mul_nonneg (Int.cast_nonneg hwhole) (sub_nonneg.mpr hlower))
    (sub_nonneg.mpr (hlower.trans hupper))

theorem share_between (hwhole : 0 ≤ whole) (hlower : lower ≤ mean) (hupper : mean ≤ upper)
    (hspread : 0 < upper - lower) :
    0 ≤ halfAway (whole * (mean - lower) / (upper - lower)) ∧
      halfAway (whole * (mean - lower) / (upper - lower)) ≤ whole := by
  have hcast : (0 : K) ≤ whole := Int.cast_nonneg hwhole
  have hnonneg := proportion_nonneg hwhole hlower hupper
  have hle : whole * (mean - lower) / (upper - lower) ≤ whole := by
    rw [div_le_iff₀ hspread]
    exact mul_le_mul_of_nonneg_left (by linarith) hcast
  constructor
  · calc (0 : ℤ) = halfAway (((0 : ℤ) : K)) := (halfAway_intCast 0).symm
      _ ≤ _ := halfAway_mono (by simpa using hnonneg)
  · calc halfAway (whole * (mean - lower) / (upper - lower)) ≤ halfAway (whole : K) :=
          halfAway_mono hle
      _ = whole := halfAway_intCast whole

theorem upperShare_nonneg (hwhole : 0 ≤ whole) : 0 ≤ upperShare whole lower upper mean := by
  unfold upperShare
  split_ifs with hupper hlower
  · exact hwhole
  · exact le_rfl
  · exact (share_between hwhole (not_le.mp hlower).le (not_le.mp hupper).le
      (sub_pos.mpr ((not_le.mp hlower).trans (not_le.mp hupper)))).1

theorem upperShare_le (hwhole : 0 ≤ whole) : upperShare whole lower upper mean ≤ whole := by
  unfold upperShare
  split_ifs with hupper hlower
  · exact le_rfl
  · exact hwhole
  · exact (share_between hwhole (not_le.mp hlower).le (not_le.mp hupper).le
      (sub_pos.mpr ((not_le.mp hlower).trans (not_le.mp hupper)))).2

/-- A higher mean leaves no less for the upper bound, also where the bounds are locked or
crossed. -/
theorem upperShare_mono (hwhole : 0 ≤ whole) (hmean : mean ≤ mean') :
    upperShare whole lower upper mean ≤ upperShare whole lower upper mean' := by
  by_cases hupper' : upper ≤ mean'
  · rw [upperShare.eq_def whole lower upper mean', if_pos hupper']
    exact upperShare_le hwhole
  by_cases hlower : mean ≤ lower
  · have hupper : ¬upper ≤ mean := fun hupper => hupper' (hupper.trans hmean)
    rw [upperShare, if_neg hupper, if_pos hlower]
    exact upperShare_nonneg hwhole
  -- both means are inside
  have hupper : ¬upper ≤ mean := fun hupper => hupper' (hupper.trans hmean)
  have hlower' : ¬mean' ≤ lower := fun hlower' => hlower (hmean.trans hlower')
  have hspread : 0 < upper - lower :=
    sub_pos.mpr ((not_le.mp hlower).trans (not_le.mp hupper))
  rw [upperShare, upperShare, if_neg hupper, if_neg hlower, if_neg hupper', if_neg hlower']
  apply halfAway_mono
  have hcast : (0 : K) ≤ whole := Int.cast_nonneg hwhole
  gcongr

end Rounding
