import FlareTrader.Date

/-! The comparisons of dates. They compare `integer_date_`, in which the day takes five
bits and the month starts at the fifth of them. -/

namespace FlareTrader.DateTime.Date

variable {a b c : Date}

def integerDate (a : Date) : ℕ :=
  a.year.toNat <<< 9 ||| a.month.toNat <<< 4 ||| a.day.toNat

def eq (a b : Date) : Bool := a.integerDate == b.integerDate

def ne (a b : Date) : Bool := a.integerDate != b.integerDate

def ge (a b : Date) : Bool := decide (a.integerDate ≥ b.integerDate)

def gt (a b : Date) : Bool := decide (a.integerDate > b.integerDate)

def le (a b : Date) : Bool := decide (a.integerDate ≤ b.integerDate)

def lt (a b : Date) : Bool := decide (a.integerDate < b.integerDate)

def OrderedByOrd (a b : Date) : Prop :=
  a.eq b = decide (a.ord = b.ord) ∧ a.ne b = decide (a.ord ≠ b.ord) ∧
    a.ge b = decide (b.ord ≤ a.ord) ∧ a.gt b = decide (b.ord < a.ord) ∧
    a.le b = decide (a.ord ≤ b.ord) ∧ a.lt b = decide (a.ord < b.ord)

/-- The later date does not have the greater `integer_date_`: the second half of an odd
month loses its bit, and that of an even month takes the bit of the next one. -/
def Blurred (a b : Date) : Prop :=
  a.year = b.year ∧
    (a.month = b.month ∧ a.month % 2 = 1 ∧ a.day < 16 ∧ 16 ≤ b.day ∧ b.day ≤ a.day + 16 ∨
      a.month % 2 = 0 ∧ b.month = a.month + 1 ∧ 16 ≤ a.day ∧ b.day % 16 ≤ a.day - 16)

instance (a b : Date) : Decidable (Blurred a b) := inferInstanceAs (Decidable (_ ∧ _))

/-- Month and day with their common bit. -/
def monthBits (m d : ℕ) : ℕ := if m % 2 = 0 ∧ 16 ≤ d then m + 1 else m

theorem monthBits_range (m d : ℕ) : m ≤ monthBits m d ∧ monthBits m d ≤ m + 1 := by
  rw [monthBits]
  split <;> omega

theorem month_or_day : ∀ m < 13, ∀ d < 32, m <<< 4 ||| d = 16 * monthBits m d + d % 16 := by
  decide

theorem monthLength_le (y m : ℤ) : Gregorian.monthLength y m ≤ 31 := by
  rw [Gregorian.monthLength]
  split_ifs <;> decide

theorem integerDate_eq (a : Date) :
    a.integerDate = 512 * a.year.toNat + 16 * monthBits a.month.toNat a.day.toNat +
      a.day.toNat % 16 := by
  have hm := a.isDay.month_le
  have hd := a.isDay.day_le.trans (monthLength_le a.year a.month)
  have hlow := month_or_day a.month.toNat (by omega) a.day.toNat (by omega)
  have hbits := monthBits_range a.month.toNat a.day.toNat
  have hlt : a.month.toNat <<< 4 ||| a.day.toNat < 2 ^ 9 := by omega
  rw [integerDate, Nat.or_assoc, ← Nat.shiftLeft_add_eq_or_of_lt hlt, hlow, Nat.shiftLeft_eq]
  omega

/-- Dates in their order, packed into numbers with the common bit: the later number is the
greater one unless that bit spoils it. -/
theorem packed_lt_iff {y y' m m' d d' : ℕ} (hone : 1 ≤ d) (hone' : 1 ≤ d') (hd : d ≤ 31)
    (hd' : d' ≤ 31) (hm : m ≤ 12) (hm' : m' ≤ 12)
    (hlex : y < y' ∨ y = y' ∧ (m < m' ∨ m = m' ∧ d < d')) :
    512 * y + 16 * monthBits m d + d % 16 < 512 * y' + 16 * monthBits m' d' + d' % 16 ↔
      ¬ (y = y' ∧ (m = m' ∧ m % 2 = 1 ∧ d < 16 ∧ 16 ≤ d' ∧ d' ≤ d + 16 ∨
        m % 2 = 0 ∧ m' = m + 1 ∧ 16 ≤ d ∧ d' % 16 + 16 ≤ d)) := by
  have hbits := monthBits_range m d
  have hbits' := monthBits_range m' d'
  rcases hlex with hyears | ⟨rfl, hmonths | ⟨rfl, hdays⟩⟩
  · omega
  · simp only [monthBits, true_and, hmonths.ne, false_and, false_or]
    split_ifs <;> omega
  · simp only [monthBits, true_and]
    split_ifs <;> omega

theorem integerDate_lt_iff (h : a.ord < b.ord) : a.integerDate < b.integerDate ↔ ¬ Blurred a b := by
  have hlex := (a.isDay.ordinal_lt_iff b.isDay).mp h
  have hyear : 1 ≤ a.year := a.kMinYear_le
  have hyear' : 1 ≤ b.year := b.kMinYear_le
  have hone := a.isDay.one_le_month
  have hone' := b.isDay.one_le_month
  have hm := a.isDay.month_le
  have hm' := b.isDay.month_le
  have hday := a.isDay.one_le_day
  have hday' := b.isDay.one_le_day
  have hd := a.isDay.day_le.trans (monthLength_le a.year a.month)
  have hd' := b.isDay.day_le.trans (monthLength_le b.year b.month)
  rw [integerDate_eq, integerDate_eq, packed_lt_iff (by omega) (by omega) (by omega) (by omega)
    (by omega) (by omega) (by omega), Blurred]
  omega

theorem not_blurred_of_ord_le (h : a.ord ≤ b.ord) : ¬ Blurred b a := by
  rintro ⟨hyear, hcases⟩
  have hlt : b.ord < a.ord := by
    refine b.isDay.ordinal_lt a.isDay (Or.inr ⟨hyear, ?_⟩)
    omega
  exact absurd h hlt.not_ge

theorem orderedByOrd_iff (a b : Date) : OrderedByOrd a b ↔ ¬ Blurred a b ∧ ¬ Blurred b a := by
  rcases lt_trichotomy a.ord b.ord with hlt | heq | hgt
  · have hiff := integerDate_lt_iff hlt
    have hother := not_blurred_of_ord_le hlt.le
    simp only [OrderedByOrd, eq, ne, ge, gt, le, lt, beq_eq_decide, bne, ← decide_not,
      decide_eq_decide]
    refine ⟨fun h => ⟨hiff.mp (h.2.2.2.2.2.mpr hlt), hother⟩, fun h => ?_⟩
    have hint := hiff.mpr h.1
    omega
  · obtain rfl := ord_injective heq
    have hself := not_blurred_of_ord_le heq.le
    simp [OrderedByOrd, eq, ne, ge, gt, le, lt, hself]
  · have hiff := integerDate_lt_iff hgt
    have hother := not_blurred_of_ord_le hgt.le
    simp only [OrderedByOrd, eq, ne, ge, gt, le, lt, beq_eq_decide, bne, ← decide_not,
      decide_eq_decide]
    refine ⟨fun h => ⟨hother, hiff.mp (h.2.2.2.1.mpr hgt)⟩, fun h => ?_⟩
    have hint := hiff.mpr h.2
    omega

theorem Reaches.of_inRange {result : Except Failure Date} {n : ℤ} (h : Reaches result n)
    (hn : InRange n) : ∃ c, result = .ok c ∧ c.ord = n := by
  rwa [Reaches, if_pos hn] at h

theorem plus_of_inRange {n : ℤ} (h : InRange (a.ord + n)) :
    ∃ c, a.plus (.ofDays n) = .ok c ∧ c.ord = a.ord + n :=
  (a.plus_reaches (.ofDays n)).of_inRange h

theorem plus_difference (a b : Date) : (a.difference b >>= b.plus) = .ok a := by
  have hback : b.ord + (a.ord - b.ord) = a.ord := by ring
  obtain ⟨c, hc, hord⟩ := plus_of_inRange (hback.symm ▸ a.ord_inRange)
  obtain rfl := ord_injective (hord.trans hback)
  rw [difference_eq]
  exact hc

theorem plus_plus {m n : ℤ} (hm : InRange (a.ord + m)) (hn : InRange (a.ord + m + n)) :
    (a.plus (.ofDays m) >>= fun c => c.plus (.ofDays n)) = a.plus (.ofDays (m + n)) := by
  obtain ⟨c, hc, hcord⟩ := plus_of_inRange hm
  obtain ⟨d, hd, hdord⟩ := plus_of_inRange (hcord.symm ▸ hn)
  obtain ⟨e, he, heord⟩ := plus_of_inRange (add_assoc a.ord m n ▸ hn)
  have hde : d.ord = e.ord := by
    rw [hdord, hcord, heord, add_assoc]
  obtain rfl := ord_injective hde
  rw [hc, he]
  exact hd

/-- Arithmetic of dates is arithmetic of their numbers. The comparisons are those of the
numbers exactly for dates that are not blurred. -/
theorem dates_are_ordinals (a b : Date) :
    (∀ n : ℤ, Reaches (a.plus (.ofDays n)) (a.ord + n) ∧
      Reaches (a.minus (.ofDays n)) (a.ord - n)) ∧
    a.difference b = .ok (.ofDays (a.ord - b.ord)) ∧
    (OrderedByOrd a b ↔ ¬ Blurred a b ∧ ¬ Blurred b a) ∧
    (a.difference b >>= b.plus) = .ok a ∧
    ∀ m n : ℤ, InRange (a.ord + m) → InRange (a.ord + m + n) →
      (a.plus (.ofDays m) >>= fun c => c.plus (.ofDays n)) = a.plus (.ofDays (m + n)) := by
  refine ⟨fun n => ⟨a.plus_reaches _, a.minus_reaches _⟩, difference_eq a b,
    orderedByOrd_iff a b, plus_difference a b, fun m n hm hn => plus_plus hm hn⟩

def of2021 (month day : ℤ) (h : Gregorian.IsDay 2021 month day) : Date where
  year := 2021
  month := month
  day := day
  kMinYear_le := by decide
  le_kMaxYear := by decide
  isDay := h

theorem dates_are_ordinals_new_year :
    ((of2021 12 31 (by decide)).plus (.ofDays 1) >>= fun c => c.plus (.ofDays (-366))) =
      (of2021 12 31 (by decide)).plus (.ofDays (-365)) := by
  have hdays : (-365 : ℤ) = 1 + -366 := by decide
  have h := dates_are_ordinals (of2021 12 31 (by decide)) (of2021 1 1 (by decide))
  rw [hdays]
  exact h.2.2.2.2 1 (-366) (by decide +kernel) (by decide +kernel)

/-- The sixteenth of January is before the first, and the seventeenth of February is the
first of March. -/
theorem february_seventeenth_equals_march_first :
    (of2021 1 16 (by decide)).lt (of2021 1 1 (by decide)) = true ∧
      (of2021 2 17 (by decide)).eq (of2021 3 1 (by decide)) = true ∧
      (of2021 2 17 (by decide)).ord ≠ (of2021 3 1 (by decide)).ord ∧
      ¬ OrderedByOrd (of2021 2 17 (by decide)) (of2021 3 1 (by decide)) := by
  refine ⟨by decide, by decide, by decide, fun h => ?_⟩
  exact absurd h.1 (by decide)

end FlareTrader.DateTime.Date
