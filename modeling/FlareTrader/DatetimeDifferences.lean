import FlareTrader.DatetimeMoves

/-! Subtracting a span from a `Datetime`, which adds its negation made by a constructor,
and the difference of two, which is made from the four differences of their times. -/

namespace FlareTrader.DateTime.Datetime

/-- The constructor with three arguments takes days, hours and minutes. -/
def minus (dt : Datetime) (timedelta : Timedelta) : Except Failure Datetime :=
  dt.plus (.ofMinutes (-timedelta.days) (-timedelta.seconds) (-timedelta.microseconds))

def difference (a b : Datetime) : Except Failure Timedelta := do
  let dates ← a.date.difference b.date
  return dates + Timedelta.ofMicroseconds 0 (a.time.hour - b.time.hour)
    (a.time.minute - b.time.minute) (a.time.second - b.time.second) 0
    (a.time.microsecond - b.time.microsecond)

section Minus

variable {dt dt' : Datetime} {td : Timedelta}

/-- What an addition ends with, the days of the span being lost below midnight. -/
theorem micros_of_plus (hseconds : 0 ≤ td.seconds) (hmicro : 0 ≤ td.microseconds)
    (hplus : dt.plus td = .ok dt') :
    dt.timeSum td < 86400000000 ∧ dt'.micros = dt.micros + td.total - td.days * 86400000000 ∨
      86400000000 ≤ dt.timeSum td ∧ dt'.micros = dt.micros + td.total := by
  obtain ⟨time, hcount, heq⟩ := @plus_eq dt td hseconds hmicro
  have hcount' := dt.time.microsecondCount_range
  have hsum : dt.timeSum td = dt.time.microsecondCount + td.seconds * 1000000 + td.microseconds :=
    rfl
  rw [hplus, movedDate] at heq
  split_ifs at heq with hday
  · have hdt := Except.ok.inj heq
    rw [hdt, micros, micros, Timedelta.total, hcount]
    dsimp only
    omega
  · have hreaches := dt.date.plus_reaches (.ofDays (td.days + dt.timeSum td / 86400000000))
    rw [Date.Reaches] at hreaches
    split_ifs at hreaches
    · obtain ⟨date, hdate, hord⟩ := hreaches
      have hdays : (Timedelta.ofDays (td.days + dt.timeSum td / 86400000000)).days =
          td.days + dt.timeSum td / 86400000000 := rfl
      rw [hdays] at hord
      rw [hdate] at heq
      have hdt := Except.ok.inj heq
      rw [hdt, micros, micros, Timedelta.total, hcount]
      dsimp only
      omega
    · obtain ⟨what, hfail⟩ := hreaches
      rw [hfail] at heq
      cases heq

/-- The span that is added, where seconds are read as hours and microseconds as minutes. -/
def negated (td : Timedelta) : Timedelta :=
  .ofMinutes (-td.days) (-td.seconds) (-td.microseconds)

theorem excess_eq_or {time base : ℤ} : excess time base = 0 ∨ excess time base = base := by
  rw [excess]
  split_ifs
  · exact Or.inr rfl
  · exact Or.inl rfl

theorem total_negated (h : td.Normalised) (htotal : (negated td).total = -td.total) :
    td.seconds = 0 ∧ td.microseconds = 0 := by
  obtain ⟨hseconds, hseconds', hmicro, hmicro'⟩ := h
  have hminutes := @timeMod_add_timeCarry (-td.microseconds) 60 (by decide)
  have hhours := @timeMod_add_timeCarry (-td.seconds + timeCarry (-td.microseconds) 60) 24
    (by decide)
  simp only [negated, Timedelta.ofMinutes, Timedelta.total] at htotal
  rcases @excess_eq_or (-td.microseconds) 60 with hone | hone
  · rcases @excess_eq_or (-td.seconds + timeCarry (-td.microseconds) 60) 24 with htwo | htwo <;>
      omega
  · rcases @excess_eq_or (-td.seconds + timeCarry (-td.microseconds) 60) 24 with htwo | htwo <;>
      omega

/-- Whole hours are a multiple of 24 seconds, so the remainder is the base. -/
theorem seconds_negated (h : td.Normalised) (hzero : td.microseconds = 0)
    (htime : (negated td).seconds + td.days * 86400 + td.seconds = 0) : td = ⟨0, 0, 0⟩ := by
  obtain ⟨hseconds, hseconds', hmicro, hmicro'⟩ := h
  have htime' : timeMod (-td.seconds) 24 * 3600 + td.days * 86400 + td.seconds = 0 := by
    simpa [negated, Timedelta.ofMinutes, hzero] using htime
  have hnone : td.seconds = 0 := by
    by_contra hne
    have hwhole : Unreduced (-td.seconds) 24 := ⟨by omega, by omega⟩
    rw [timeMod_of_unreduced hwhole] at htime'
    omega
  rw [hnone, neg_zero, timeMod_zero] at htime'
  have hdays : td.days = 0 := by omega
  cases td
  simp only at hnone hdays hzero
  rw [hnone, hdays, hzero]

theorem minus_exact_iff (dt : Datetime) {td : Timedelta} (h : td.Normalised) :
    (∃ dt', dt.minus td = .ok dt' ∧ dt'.micros = dt.micros - td.total) ↔ td = ⟨0, 0, 0⟩ := by
  constructor
  · intro hex
    obtain ⟨dt', hminus, hexact⟩ := hex
    have hseconds : 0 ≤ (negated td).seconds :=
      add_nonneg (mul_nonneg (timeMod_nonneg (by decide)) (by decide))
        (mul_nonneg (timeMod_nonneg (by decide)) (by decide))
    have hmicro : (negated td).microseconds = 0 := rfl
    rcases micros_of_plus hseconds hmicro.ge hminus with ⟨-, hmicros⟩ | ⟨hover, hmicros⟩
    · have hnegated : (negated td).total =
          (negated td).days * 86400000000 + (negated td).seconds * 1000000 := by
        rw [Timedelta.total, hmicro, add_zero]
      have hspan : (negated td).seconds * 1000000 = -td.total := by
        rw [hexact, hnegated] at hmicros
        omega
      obtain ⟨-, -, hmicro0, hmicro1⟩ := id h
      rw [Timedelta.total] at hspan
      exact seconds_negated h (by omega) (by omega)
    · -- without hours and minutes no midnight is passed
      obtain ⟨hnone, hzero⟩ := total_negated h (by omega)
      have hcount := dt.time.microsecondCount_range
      have hsum : dt.timeSum (negated td) = dt.time.microsecondCount := by
        simp [timeSum, negated, Timedelta.ofMinutes, hnone, hzero]
      omega
  · rintro rfl
    obtain ⟨time, hcount, hplus⟩ := @plus_eq dt ⟨0, 0, 0⟩ le_rfl le_rfl
    have hsum : dt.timeSum ⟨0, 0, 0⟩ = dt.time.microsecondCount := by simp [timeSum]
    have hrange := dt.time.microsecondCount_range
    have hday : dt.time.microsecondCount / 86400000000 = 0 := by omega
    rw [hsum, hday, movedDate, if_pos rfl] at hplus
    refine ⟨⟨dt.date, time⟩, hplus, ?_⟩
    rw [micros, micros, hcount, hsum, Timedelta.total]
    dsimp only
    omega

theorem minus_exact_iff_nothing : ∃ dt', (february noon).minus ⟨0, 0, 0⟩ = .ok dt' ∧
    dt'.micros = (february noon).micros - Timedelta.total ⟨0, 0, 0⟩ :=
  (minus_exact_iff (february noon) ⟨by decide, by decide, by decide, by decide⟩).mpr rfl

theorem minus_second_is_hour : InYears ((february noon).micros - Timedelta.total ⟨0, 1, 0⟩) ∧
    ((february noon).minus ⟨0, 1, 0⟩).map (·.time.hour) = .ok 11 ∧
    ¬ ∃ dt', (february noon).minus ⟨0, 1, 0⟩ = .ok dt' ∧
      dt'.micros = (february noon).micros - Timedelta.total ⟨0, 1, 0⟩ := by
  have hminus : ((february noon).minus ⟨0, 1, 0⟩).map micros =
      .ok ((february noon).micros - 3600000000) := by decide +kernel
  refine ⟨⟨by decide +kernel, by decide +kernel⟩, by decide +kernel, ?_⟩
  rintro ⟨dt', hresult, hmicros⟩
  rw [hresult] at hminus
  have hhour := Except.ok.inj hminus
  rw [hmicros] at hhour
  have hsecond : Timedelta.total ⟨0, 1, 0⟩ = 1000000 := rfl
  omega

end Minus

def timeParts (a b : Datetime) : Parts :=
  ⟨0, a.time.hour - b.time.hour, a.time.minute - b.time.minute, a.time.second - b.time.second, 0,
    a.time.microsecond - b.time.microsecond⟩

/-- A part of the difference, with the borrow of the smaller ones, is a whole negative
unit of the next one. -/
def BorrowsWhole (a b : Datetime) : Prop :=
  let hours := a.time.hour - b.time.hour
  let minutes := a.time.minute - b.time.minute
  let seconds := a.time.second - b.time.second
  let microseconds := a.time.microsecond - b.time.microsecond
  microseconds < 0 ∧ 1000 ∣ microseconds ∨ microseconds < -999000 ∨
    seconds = -59 ∧ microseconds < 0 ∨
    minutes = -59 ∧ seconds * 1000000 + microseconds < 0 ∨
    hours = -23 ∧ (minutes * 60 + seconds) * 1000000 + microseconds < 0

instance (a b : Datetime) : Decidable (a.BorrowsWhole b) := inferInstanceAs (Decidable (_ ∨ _))

section Difference

variable (a b : Datetime)

theorem slips_timeParts : (timeParts a b).Slips ↔ a.BorrowsWhole b := by
  obtain ⟨hh, hh'⟩ := a.time.hour_range
  obtain ⟨hm, hm'⟩ := a.time.minute_range
  obtain ⟨hs, hs'⟩ := a.time.second_range
  obtain ⟨hus, hus'⟩ := a.time.microsecond_range
  obtain ⟨kh, kh'⟩ := b.time.hour_range
  obtain ⟨km, km'⟩ := b.time.minute_range
  obtain ⟨ks, ks'⟩ := b.time.second_range
  obtain ⟨kus, kus'⟩ := b.time.microsecond_range
  simp only [Parts.Slips, Unreduced, Parts.carriedHours, Parts.carriedMinutes, Parts.carriedSeconds,
    Parts.carriedMilliseconds, timeParts, BorrowsWhole]
  refine or_congr_right (or_congr ?_ (or_congr ?_ (or_congr ?_ ?_)))
  · omega
  · omega
  · omega
  · omega

theorem difference_eq : a.difference b =
    .ok (Timedelta.ofDays (a.date.ord - b.date.ord) + (timeParts a b).timedelta) := by
  rw [difference, Date.difference_eq]
  rfl

theorem total_timeParts :
    (timeParts a b).total = a.time.microsecondCount - b.time.microsecondCount := by
  simp only [timeParts, Parts.total, Time.microsecondCount]
  ring

theorem difference_micros : ∃ t, a.difference b = .ok t ∧ t.Normalised ∧
    t.total = a.micros - b.micros + (timeParts a b).error := by
  obtain ⟨hseconds, hmicro⟩ := (timeParts a b).timedelta_nonneg
  have hdays : (Timedelta.ofDays (a.date.ord - b.date.ord)).total =
      (a.date.ord - b.date.ord) * 86400000000 := by
    simp [Timedelta.ofDays, Timedelta.total]
  obtain ⟨hnormalised, htotal⟩ := @Timedelta.add_exact_of_nonneg
    (.ofDays (a.date.ord - b.date.ord)) (timeParts a b).timedelta
    (add_nonneg le_rfl hseconds) (add_nonneg le_rfl hmicro)
  refine ⟨_, difference_eq a b, hnormalised, ?_⟩
  rw [htotal, hdays, Parts.total_timedelta, total_timeParts, micros, micros]
  ring

theorem micros_inYears : InYears a.micros :=
  (inYears_iff _ _ a.time.microsecondCount_range).mpr a.date.ord_inRange

theorem difference_countFits {t : Timedelta} (h : t.Normalised)
    (htotal : t.total = a.micros - b.micros) : t.CountFits := by
  obtain ⟨ha, ha'⟩ := a.micros_inYears
  obtain ⟨hb, hb'⟩ := b.micros_inYears
  obtain ⟨hseconds, hseconds', hmicro, hmicro'⟩ := h
  have hdays : t.total = t.days * 86400000000 + t.seconds * 1000000 + t.microseconds := rfl
  rw [Timedelta.CountFits, Timedelta.InInt64, Timedelta.InInt64]
  omega

/-- The difference is exact unless a part of it borrows a whole unit, and exact differences
are opposite and ordered as the two times are. -/
theorem difference_exact_iff :
    ((∃ t, a.difference b = .ok t ∧ t.Normalised ∧ t.total = a.micros - b.micros) ↔
        ¬ a.BorrowsWhole b) ∧
      (¬ a.BorrowsWhole b → ¬ b.BorrowsWhole a → ∃ t t', a.difference b = .ok t ∧
        b.difference a = .ok t' ∧ t'.total = -t.total ∧
        t.ge (.ofDays 0) = some (decide (b.micros ≤ a.micros)) ∧
        t.le (.ofDays 0) = some (decide (a.micros ≤ b.micros))) := by
  have hiff : ∀ a b : Datetime, (∃ t, a.difference b = .ok t ∧ t.Normalised ∧
      t.total = a.micros - b.micros) ↔ ¬ a.BorrowsWhole b := by
    intro a b
    obtain ⟨t, hdifference, hnormalised, htotal⟩ := difference_micros a b
    rw [← slips_timeParts, ← Parts.error_eq_zero_iff, hdifference]
    constructor
    · rintro ⟨t', ht', -, hexact⟩
      rw [← Except.ok.inj ht', htotal] at hexact
      omega
    · exact fun hzero => ⟨t, rfl, hnormalised, by rw [htotal, hzero, add_zero]⟩
  refine ⟨hiff a b, fun hborrow hborrow' => ?_⟩
  obtain ⟨t, ht, hnormalised, htotal⟩ := (hiff a b).mpr hborrow
  obtain ⟨t', ht', -, htotal'⟩ := (hiff b a).mpr hborrow'
  have hfits : t.CountFits ∧ (Timedelta.ofDays 0).CountFits :=
    ⟨difference_countFits a b hnormalised htotal, by decide⟩
  have hzero : (Timedelta.ofDays 0).total = 0 := rfl
  refine ⟨t, t', ht, ht', by rw [htotal, htotal', neg_sub], ?_, ?_⟩
  · rw [Timedelta.ge_eq, if_pos hfits, hzero, htotal, Option.some.injEq, decide_eq_decide, sub_nonneg]
  · rw [Timedelta.le_eq, if_pos hfits, hzero, htotal, Option.some.injEq, decide_eq_decide,
      sub_nonpos]

def morning : Time := { noon with hour := 10, hour_range := by decide }

def millisecond : Time := { noon with microsecond := 1000, microsecond_range := by decide }

theorem difference_exact_iff_morning :
    (∃ t, (february noon).difference (february morning) = .ok t ∧ t.Normalised ∧
        t.total = (february noon).micros - (february morning).micros) ∧
      ∃ t t', (february noon).difference (february morning) = .ok t ∧
        (february morning).difference (february noon) = .ok t' ∧ t'.total = -t.total := by
  obtain ⟨hiff, hopposite⟩ := difference_exact_iff (february noon) (february morning)
  obtain ⟨t, t', ht, ht', htotal, -⟩ := hopposite (by decide) (by decide)
  exact ⟨hiff.mpr (by decide), t, t', ht, ht', htotal⟩

theorem difference_loses_millisecond :
    (february noon).difference (february millisecond) = .ok ⟨0, 0, 0⟩ ∧
      ¬ ∃ t, (february noon).difference (february millisecond) = .ok t ∧ t.Normalised ∧
        t.total = (february noon).micros - (february millisecond).micros := by
  have hdifference : (february noon).difference (february millisecond) = .ok ⟨0, 0, 0⟩ := by
    decide +kernel
  refine ⟨hdifference, ?_⟩
  rintro ⟨t, ht, -, htotal⟩
  rw [hdifference] at ht
  rw [← Except.ok.inj ht] at htotal
  exact absurd htotal (by decide +kernel)

end Difference

end FlareTrader.DateTime.Datetime
