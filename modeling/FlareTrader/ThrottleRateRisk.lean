import FlareTrader.TradeMsg
import FlareTrader.SlidingWindow

/-! The throttle rule keeps the times of the orders it let through and prunes
them against `current_ms_ - period_ms_`, a subtraction of unsigned 64-bit
values. From readings of at least one period on it is the sliding-window
limiter; below one period the difference wraps and every check empties the
queue. -/

namespace FlareTrader

structure ThrottleRateRisk where
  orderLimit : UInt64 := 0
  periodMs : UInt64 := 0
  timeQueue : List UInt64 := []
  currentMs : UInt64 := 0
  deriving DecidableEq

namespace ThrottleRateRisk

def prune (lowerBoundMs : UInt64) (queue : List UInt64) : List UInt64 :=
  queue.dropWhile fun oldest => oldest ≤ lowerBoundMs

def checkOrderRequest (now : UInt64) (r : ThrottleRateRisk) : ErrorCode × ThrottleRateRisk :=
  if r.orderLimit = 0 ∨ r.periodMs = 0 then (.kNoError, r)
  else
    let lowerBoundMs := now - r.periodMs
    let queue := prune lowerBoundMs r.timeQueue
    let r := { r with timeQueue := queue, currentMs := now }
    if r.orderLimit.toNat ≤ queue.length then (.kExceedThrottleRateRisk, r) else (.kNoError, r)

def onOrderSent (r : ThrottleRateRisk) : ThrottleRateRisk :=
  if 0 < r.orderLimit ∧ 0 < r.periodMs then { r with timeQueue := r.timeQueue ++ [r.currentMs] }
  else r

/-- The clock values at which orders were sent, when each check that passes is
followed by the sending of its order. -/
def sentTimes : List UInt64 → ThrottleRateRisk → List UInt64
  | [], _ => []
  | now :: readings, r =>
    match r.checkOrderRequest now with
    | (.kNoError, r') => now :: sentTimes readings r'.onOrderSent
    | (_, r') => sentTimes readings r'

def init (orderLimit periodMs : UInt64) : ThrottleRateRisk := { orderLimit, periodMs }

def clock (readings : List UInt64) : List ℕ := readings.map UInt64.toNat

variable {orderLimit periodMs : UInt64}

abbrev after (orderLimit periodMs : UInt64) (queue : List UInt64) (now : UInt64) : ThrottleRateRisk :=
  ⟨orderLimit, periodMs, queue, now⟩

theorem ne_zero_of_one_le {x : UInt64} (h : 1 ≤ x) : x ≠ 0 ∧ 0 < x := by
  rw [UInt64.le_iff_toNat_le] at h
  have hx : 0 < x.toNat := h
  refine ⟨?_, UInt64.lt_iff_toNat_lt.mpr (by simpa using hx)⟩
  rintro rfl
  simp at hx

theorem sentTimes_cons (hl : 1 ≤ orderLimit) (hp : 1 ≤ periodMs) (queue : List UInt64)
    (now last : UInt64) (readings : List UInt64) :
    sentTimes (now :: readings) (after orderLimit periodMs queue last) =
      let pruned := prune (now - periodMs) queue
      if pruned.length < orderLimit.toNat
      then now :: sentTimes readings (after orderLimit periodMs (pruned ++ [now]) now)
      else sentTimes readings (after orderLimit periodMs pruned now) := by
  obtain ⟨hl0, hl1⟩ := ne_zero_of_one_le hl
  obtain ⟨hp0, hp1⟩ := ne_zero_of_one_le hp
  have hor : ¬ (orderLimit = 0 ∨ periodMs = 0) := not_or.mpr ⟨hl0, hp0⟩
  rw [sentTimes, checkOrderRequest, if_neg hor]
  by_cases h : (prune (now - periodMs) queue).length < orderLimit.toNat
  · simp only [if_neg (not_le.mpr h), if_pos h, onOrderSent, if_pos (And.intro hl1 hp1)]
  · simp only [if_pos (not_lt.mp h), if_neg h]

/-- Below one period the difference wraps above every stored time. -/
theorem pruned_early {queue : List UInt64} {now : UInt64} (hnow : now < periodMs)
    (hq : ∀ x ∈ queue, x ≤ now) :
    prune (now - periodMs) queue = [] := by
  apply List.dropWhile_eq_nil_iff.mpr
  intro x hx
  have h1 := hq x hx
  rw [UInt64.lt_iff_toNat_lt] at hnow
  rw [UInt64.le_iff_toNat_le] at h1
  have h2 := periodMs.toNat_lt
  rw [decide_eq_true_eq, UInt64.le_iff_toNat_le, UInt64.toNat_sub]
  omega

theorem clock_pruned_late {queue : List UInt64} {now : UInt64} (hnow : periodMs ≤ now)
    (hq : (clock queue).Pairwise (· ≤ ·)) :
    clock (prune (now - periodMs) queue) =
      (clock queue).filter fun s => now.toNat < s + periodMs.toNat := by
  have hs : queue.Pairwise fun a b => a.toNat ≤ b.toNat := List.pairwise_map.mp hq
  rw [UInt64.le_iff_toNat_le] at hnow
  have hle : ∀ x : UInt64, x ≤ now - periodMs ↔ x.toNat + periodMs.toNat ≤ now.toNat := by
    intro x
    rw [UInt64.le_iff_toNat_le, UInt64.toNat_sub_of_le _ _ (UInt64.le_iff_toNat_le.mpr hnow)]
    omega
  rw [prune, SortedList.dropWhile_eq_filter hs, clock, clock, List.filter_map]
  · refine congrArg _ (List.filter_congr fun x _ => ?_)
    rw [Bool.eq_iff_iff]
    simp [hle]
  · intro a b hab hb
    simp only [decide_eq_true_eq, hle] at hb ⊢
    omega

theorem sentTimes_early (hl : 1 ≤ orderLimit) (hp : 1 ≤ periodMs) {early : List UInt64}
    (late : List UInt64) (queue : List UInt64) (last : UInt64) (hearly : ∀ x ∈ early, x < periodMs)
    (hs : (queue ++ early).Pairwise (· ≤ ·)) :
    sentTimes (early ++ late) (after orderLimit periodMs queue last) =
      early ++ sentTimes late
        (after orderLimit periodMs (if early = [] then queue else early.getLast?.toList)
          (early.getLastD last)) := by
  induction early generalizing queue last with
  | nil => rfl
  | cons now early ih =>
    have hq : ∀ x ∈ queue, x ≤ now := fun x hx =>
      (List.pairwise_append.mp hs).2.2 x hx now List.mem_cons_self
    have he := ih [now] now
      (fun x hx => hearly x (List.mem_cons_of_mem now hx)) (List.pairwise_append.mp hs).2.1
    have hlim : 0 < orderLimit.toNat := by simpa using UInt64.lt_iff_toNat_lt.mp (ne_zero_of_one_le hl).2
    rw [List.cons_append, sentTimes_cons hl hp]
    simp only [pruned_early (hearly now List.mem_cons_self) hq, List.length_nil, hlim, if_true,
      List.nil_append, he]
    cases early with
    | nil => simp
    | cons a as =>
      simp only [reduceCtorEq, if_false, List.getLastD_cons, List.getLast?_cons_cons,
        List.cons_append]

theorem sentTimes_late (hl : 1 ≤ orderLimit) (hp : 1 ≤ periodMs) {late : List UInt64}
    (queue : List UInt64) (last : UInt64) (hist : List ℕ) (hlate : ∀ x ∈ late, periodMs ≤ x)
    (hs : (hist ++ clock late).Pairwise (· ≤ ·)) (hlast : ∀ x ∈ late, last ≤ x)
    (hq : clock queue = hist.filter fun s => last.toNat < s + periodMs.toNat) :
    hist ++ clock (sentTimes late (after orderLimit periodMs queue last)) =
      SlidingWindow.accept periodMs.toNat orderLimit.toNat hist (clock late) := by
  induction late generalizing queue last hist with
  | nil => simp [sentTimes, clock, SlidingWindow.accept]
  | cons now late ih =>
    have hnow := hlate now List.mem_cons_self
    have hlast' := UInt64.le_iff_toNat_le.mp (hlast now List.mem_cons_self)
    have hle : ∀ x ∈ hist, x ≤ now.toNat := fun x hx =>
      (List.pairwise_append.mp hs).2.2 x hx now.toNat (by simp [clock])
    have hsh := (List.pairwise_append.mp hs).1
    have hpos : 0 < periodMs.toNat := by simpa using UInt64.lt_iff_toNat_lt.mp (ne_zero_of_one_le hp).2
    have hpr : clock (prune (now - periodMs) queue) =
        hist.filter fun s => now.toNat < s + periodMs.toNat := by
      rw [clock_pruned_late hnow (hq ▸ hsh.filter _), hq, List.filter_filter]
      apply List.filter_congr
      intro x _
      simp only [← Bool.decide_and, decide_eq_decide]
      omega
    have hcount : (prune (now - periodMs) queue).length =
        SlidingWindow.count periodMs.toNat hist now.toNat := by
      have hlen := congrArg List.length hpr
      rw [clock, List.length_map] at hlen
      rw [hlen, SlidingWindow.count, List.countP_eq_length_filter]
      refine congrArg _ (List.filter_congr fun x hx => ?_)
      simp [SlidingWindow.inWindow, hle x hx]
    have hnext : ∀ x ∈ late, now ≤ x := fun x hx => UInt64.le_iff_toNat_le.mpr <|
      List.rel_of_pairwise_cons (List.pairwise_append.mp hs).2.1 (List.mem_map_of_mem hx)
    have hlate' : ∀ x ∈ late, periodMs ≤ x := fun x hx => hlate x (List.mem_cons_of_mem now hx)
    rw [sentTimes_cons hl hp]
    simp only [hcount, clock, List.map_cons, SlidingWindow.accept]
    split_ifs with hc
    · have hih := ih (prune (now - periodMs) queue ++ [now]) now
        (hist ++ [now.toNat]) hlate' (by simpa [clock] using hs) hnext
        (by simp only [clock, List.map_append, List.filter_append] at hpr ⊢
            simp [hpr, hpos])
      simpa [clock] using hih
    · have hsub : (hist ++ clock late).Sublist (hist ++ clock (now :: late)) :=
        (List.Sublist.refl hist).append (List.sublist_cons_self _ _)
      exact ih _ _ _ hlate' (hs.sublist hsub) hnext hpr

theorem clock_getLast? (l : List UInt64) : clock l.getLast?.toList = (clock l).getLast?.toList := by
  rw [clock, clock, List.getLast?_map]
  cases l.getLast? <;> rfl

/-- The rule is the sliding-window limiter that remembers only the last of the
orders sent below one period. -/
theorem clock_sentTimes (hl : 1 ≤ orderLimit) (hp : 1 ≤ periodMs) {early late : List UInt64}
    (hearly : ∀ x ∈ early, x < periodMs) (hlate : ∀ x ∈ late, periodMs ≤ x)
    (hs : (early ++ late).Pairwise (· ≤ ·)) :
    clock (sentTimes (early ++ late) (init orderLimit periodMs)) =
      SlidingWindow.restarted periodMs.toNat orderLimit.toNat (clock early) (clock late) := by
  obtain ⟨hse, hsl, hcross⟩ := List.pairwise_append.mp hs
  have he := sentTimes_early hl hp late [] 0 hearly hse
  have hpos : 0 < periodMs.toNat := by
    simpa using UInt64.lt_iff_toNat_lt.mp (ne_zero_of_one_le hp).2
  change clock (sentTimes (early ++ late) (after orderLimit periodMs [] 0)) = _
  have hsplit : clock early = (clock early).dropLast ++ clock early.getLast?.toList := by
    rw [clock_getLast?, SlidingWindow.dropLast_append_getLast?]
  have hclock : (clock early.getLast?.toList ++ clock late).Pairwise (· ≤ ·) := by
    have hall : (clock early ++ clock late).Pairwise (· ≤ ·) := by
      rw [clock, clock, ← List.map_append, List.pairwise_map]
      exact hs.imp fun h => UInt64.le_iff_toNat_le.mp h
    rw [hsplit] at hall
    exact hall.sublist ((List.sublist_append_right _ _).append (List.Sublist.refl _))
  have hqueue : (if early = [] then [] else early.getLast?.toList) = early.getLast?.toList := by
    cases early <;> simp
  have hlast : ∀ x ∈ late, early.getLastD 0 ≤ x := by
    intro x hx
    cases early using List.reverseRecOn with
    | nil => exact UInt64.le_iff_toNat_le.mpr (Nat.zero_le _)
    | append_singleton early e => simpa using hcross e (by simp) x hx
  have hfilter : clock early.getLast?.toList = (clock early.getLast?.toList).filter
      fun s => (early.getLastD 0).toNat < s + periodMs.toNat := by
    cases early using List.reverseRecOn with
    | nil => rfl
    | append_singleton early e => simp [clock, hpos]
  rw [he, hqueue, clock, List.map_append]
  change clock early ++ clock _ = _
  conv_lhs => rw [hsplit]
  rw [List.append_assoc, sentTimes_late hl hp _ _ _ hlate hclock hlast hfilter,
    SlidingWindow.restarted, clock_getLast?]

/-- The windows of sent orders are bounded exactly if no window that ends at one
of the first arrivals, those below one period and `orderLimit - 1` more, is
over-full with arrivals. -/
theorem windowBounded_iff (orderLimit periodMs : UInt64) (hl : 1 ≤ orderLimit) (hp : 1 ≤ periodMs)
    {readings : List UInt64}
    (hs : readings.Pairwise (· ≤ ·)) :
    SlidingWindow.Bounded periodMs.toNat orderLimit.toNat
        (clock (sentTimes readings (init orderLimit periodMs))) ↔
      ∀ i now, i + 1 < (readings.countP (· < periodMs)) + orderLimit.toNat →
        readings[i]? = some now →
        SlidingWindow.count periodMs.toNat (clock (readings.take (i + 1))) now.toNat ≤
          orderLimit.toNat := by
  have hdown : ∀ a b : UInt64, a ≤ b → decide (b < periodMs) = true → decide (a < periodMs) = true := by
    intro a b hab hb
    simp only [decide_eq_true_eq] at hb ⊢
    exact UInt64.lt_of_le_of_lt hab hb
  have hearly : ∀ x ∈ readings.takeWhile (· < periodMs), x < periodMs := fun x hx => by
    simpa using List.mem_takeWhile_imp hx
  have hlate : ∀ x ∈ readings.dropWhile (· < periodMs), periodMs ≤ x := fun x hx => by
    simpa using SortedList.of_mem_dropWhile hs hdown hx
  have hcount : readings.countP (· < periodMs) =
      (clock (readings.takeWhile (· < periodMs))).length := by
    rw [clock, List.length_map, SortedList.takeWhile_eq_filter hs hdown, List.countP_eq_length_filter]
  have hlim : 1 ≤ orderLimit.toNat := UInt64.le_iff_toNat_le.mp hl
  have hclock : (clock readings).Pairwise (· ≤ ·) :=
    List.pairwise_map.mpr (hs.imp fun h => UInt64.le_iff_toNat_le.mp h)
  have hsent := clock_sentTimes hl hp hearly hlate
    (by rwa [List.takeWhile_append_dropWhile])
  have hsplit : clock readings = clock (readings.takeWhile (· < periodMs)) ++
      clock (readings.dropWhile (· < periodMs)) := by
    rw [clock, clock, clock, ← List.map_append, List.takeWhile_append_dropWhile]
  rw [List.takeWhile_append_dropWhile] at hsent
  rw [hsent, hcount, SlidingWindow.bounded_restarted_iff hlim (hsplit ▸ hclock), ← hsplit]
  constructor
  · intro h i now hi hnow
    have hget : (clock readings)[i]? = some now.toNat := by simp [clock, hnow]
    simpa [clock] using h i now.toNat hi hget
  · intro h i t hi ht
    obtain ⟨now, hnow, rfl⟩ := List.getElem?_map .. ▸ ht |> Option.map_eq_some_iff.mp
    simpa [clock] using h i now hi hnow

theorem windowBounded_after_one_period :
    SlidingWindow.Bounded 1000 2 (clock (sentTimes [1000, 1500, 1900, 2600] (init 2 1000))) := by
  apply (windowBounded_iff 2 1000 (by decide) (by decide) (by decide)).mpr
  intro i now hi hnow
  have hi0 : i = 0 := by
    have hcount : ([1000, 1500, 1900, 2600] : List UInt64).countP (· < 1000) = 0 := by decide
    rw [hcount] at hi
    change i + 1 < 0 + 2 at hi
    omega
  subst hi0
  cases hnow
  decide

theorem early_readings_flood :
    ([5, 5] : List UInt64).Pairwise (· ≤ ·) ∧
      ¬ SlidingWindow.Bounded 1000 1 (clock (sentTimes [5, 5] (init 1 1000))) := by
  refine ⟨by decide, fun h => ?_⟩
  have h5 := h 5
  revert h5
  decide

end ThrottleRateRisk

end FlareTrader
