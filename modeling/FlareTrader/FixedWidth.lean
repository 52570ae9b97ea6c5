import Mathlib

/-! Decimal numbers of a fixed number of digits. -/

namespace FixedWidth

def write : ℕ → ℕ → List Char
  | 0, _ => []
  | w + 1, n => write w (n / 10) ++ [Nat.digitChar (n % 10)]

def digitValue (c : Char) : ℕ := c.toNat - '0'.toNat

def value (cs : List Char) : ℕ := cs.foldl (fun acc c => acc * 10 + digitValue c) 0

def read (w : ℕ) (text : List Char) : Option (ℕ × List Char) :=
  if (text.take w).length = w ∧ (text.take w).all Char.isDigit then
    some (value (text.take w), text.drop w)
  else none

theorem length_write (w n : ℕ) : (write w n).length = w := by
  induction w generalizing n with
  | zero => rfl
  | succ w ih => rw [write, List.length_append, ih, List.length_singleton]

theorem isDigit_of_mem_write {w n : ℕ} {c : Char} (h : c ∈ write w n) : c.isDigit = true := by
  induction w generalizing n with
  | zero => cases h
  | succ w ih =>
    rw [write, List.mem_append, List.mem_singleton] at h
    rcases h with h | rfl
    · exact ih h
    · rw [Nat.isDigit_digitChar, decide_eq_true_eq]
      omega

theorem digitValue_digitChar {n : ℕ} (h : n < 10) : digitValue (Nat.digitChar n) = n := by
  interval_cases n <;> rfl

theorem value_append_singleton (cs : List Char) (c : Char) :
    value (cs ++ [c]) = value cs * 10 + digitValue c := by
  rw [value, List.foldl_append]
  rfl

theorem value_write {w n : ℕ} (h : n < 10 ^ w) : value (write w n) = n := by
  induction w generalizing n with
  | zero =>
    rw [pow_zero, Nat.lt_one_iff] at h
    rw [h]
    rfl
  | succ w ih =>
    have hdiv : n / 10 < 10 ^ w := by
      rw [pow_succ] at h
      omega
    rw [write, value_append_singleton, ih hdiv, digitValue_digitChar (by omega)]
    omega

theorem read_write {w n : ℕ} (h : n < 10 ^ w) (rest : List Char) :
    read w (write w n ++ rest) = some (n, rest) := by
  have hlength := length_write w n
  have hdigits : (write w n).all Char.isDigit = true :=
    List.all_eq_true.mpr fun c hc => isDigit_of_mem_write hc
  rw [read, List.take_left' hlength, List.drop_left' hlength, if_pos ⟨hlength, hdigits⟩,
    value_write h]

theorem digitChar_digitValue {c : Char} (h : c.isDigit = true) :
    digitValue c < 10 ∧ Nat.digitChar (digitValue c) = c := by
  have hrange : 48 ≤ c.toNat ∧ c.toNat ≤ 57 := by
    rw [Char.isDigit, Bool.and_eq_true, decide_eq_true_eq, decide_eq_true_eq] at h
    exact h
  have hc : c = Char.ofNat c.toNat := (Char.ofNat_toNat c).symm
  have hzero : '0'.toNat = 48 := rfl
  rw [digitValue, hzero]
  refine ⟨by omega, ?_⟩
  obtain ⟨n, hn⟩ : ∃ n, n = c.toNat := ⟨_, rfl⟩
  rw [← hn] at hrange hc ⊢
  rw [hc]
  obtain ⟨hlow, hhigh⟩ := hrange
  interval_cases n <;> rfl

theorem write_value {cs : List Char} (h : ∀ c ∈ cs, c.isDigit = true) :
    value cs < 10 ^ cs.length ∧ write cs.length (value cs) = cs := by
  induction cs using List.reverseRecOn with
  | nil => exact ⟨by decide, rfl⟩
  | append_singleton cs c ih =>
    obtain ⟨hlt, hwrite⟩ := ih fun d hd => h d (List.mem_append_left _ hd)
    obtain ⟨hdigit, hchar⟩ := digitChar_digitValue (h c (by simp))
    have hdiv : (value cs * 10 + digitValue c) / 10 = value cs := by omega
    have hmod : (value cs * 10 + digitValue c) % 10 = digitValue c := by omega
    rw [List.length_append, List.length_singleton, value_append_singleton, write, hdiv, hmod,
      hwrite, hchar]
    refine ⟨?_, rfl⟩
    rw [pow_succ]
    omega

theorem eq_of_read {w n : ℕ} {text rest : List Char} (h : read w text = some (n, rest)) :
    n < 10 ^ w ∧ text = write w n ++ rest := by
  rw [read] at h
  split_ifs at h with hread
  obtain ⟨hlength, hdigits⟩ := hread
  obtain ⟨hlt, hwrite⟩ := write_value (List.all_eq_true.mp hdigits)
  obtain ⟨hn, hrest⟩ := Prod.mk.inj (Option.some.inj h)
  rw [hlength, hn] at hlt hwrite
  exact ⟨hlt, by rw [hwrite, ← hrest, List.take_append_drop]⟩

end FixedWidth
