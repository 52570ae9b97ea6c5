import Mathlib

/-! Numbers as a signed machine integer of 32 bits keeps them, in two's complement. -/

namespace MachineInt

def int32 (a : ℤ) : ℤ := a.bmod (2 ^ 32)

def IsInt32 (a : ℤ) : Prop := -2 ^ 31 ≤ a ∧ a < 2 ^ 31

instance (a : ℤ) : Decidable (IsInt32 a) := inferInstanceAs (Decidable (_ ∧ _))

theorem int32_eq {a : ℤ} (hlow : -2 ^ 31 ≤ a) (hhigh : a < 2 ^ 31) : int32 a = a :=
  Int.bmod_eq_of_le (by omega) (by omega)

theorem le_int32 (a : ℤ) : -2 ^ 31 ≤ int32 a := by
  have h : -((2 ^ 32 : ℕ) / 2 : ℤ) ≤ a.bmod (2 ^ 32) := Int.le_bmod (by decide)
  exact h

theorem int32_lt (a : ℤ) : int32 a < 2 ^ 31 := Int.bmod_lt (by decide)

theorem int32_int32_sub (a b : ℤ) : int32 (int32 a - b) = int32 (a - b) := Int.bmod_sub_bmod

theorem int32_add_ne {a b : ℤ} (hzero : b ≠ 0) (hlow : -2 ^ 32 < b) (hhigh : b < 2 ^ 32) :
    int32 (a + b) ≠ a := by
  intro h
  have hdvd : ((2 ^ 32 : ℕ) : ℤ) ∣ (a + b) - int32 (a + b) := Int.dvd_self_sub_bmod
  rw [h] at hdvd
  omega

end MachineInt
