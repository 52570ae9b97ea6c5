import FlareTrader.StrategyPositions

/-! Reads of the position manager. Bookings of a name that is not configured go to
the common pool, and so do those of all other such names and of the pool itself; a
read goes to the calculator of the name, and there is none. -/

namespace FlareTrader

inductive PositionCall
  | setPosition (pos : Position)
  | updatePending (tickerId : ℕ) (direction : Direction) (offset : Offset) (changed : ℤ)
  | updateTraded (tickerId : ℕ) (direction : Direction) (offset : Offset) (traded : ℤ)
      (tradedPrice : ℚ)

namespace PositionCall

def tickerId : PositionCall → ℕ
  | .setPosition pos => pos.tickerId
  | .updatePending t _ _ _ => t
  | .updateTraded t _ _ _ _ => t

def Books : PositionCall → Prop
  | .setPosition _ => True
  | .updatePending _ _ _ changed => changed ≠ 0
  | .updateTraded _ _ _ traded _ => 0 < traded

instance (call : PositionCall) : Decidable call.Books :=
  match call with
  | .setPosition _ => inferInstanceAs (Decidable True)
  | .updatePending _ _ _ changed => inferInstanceAs (Decidable (changed ≠ 0))
  | .updateTraded _ _ _ traded _ => inferInstanceAs (Decidable (0 < traded))

def book (ct : ContractTable) (L : Ledger) : PositionCall → Ledger
  | .setPosition pos => fun t s =>
    if (ct.getByIndex pos.tickerId).isSome ∧ t = pos.tickerId then (pos.side s).entry else L t s
  | .updatePending t direction offset changed => L + pendingDelta t direction offset changed
  | .updateTraded t direction offset traded _ =>
    if (ct.getByIndex t).isSome ∧ 0 < traded then L + tradedDelta t direction offset traded else L

def onCalculator (ct : ContractTable) (c : PositionCalculator) :
    PositionCall → Bool × PositionCalculator
  | .setPosition pos => c.setPosition ct pos
  | .updatePending t direction offset changed =>
    (true, c.updatePending t direction offset changed)
  | .updateTraded t direction offset traded price =>
    c.updateTraded ct t direction offset traded price

section Calculator

variable {ct : ContractTable} {c : PositionCalculator} {call : PositionCall} {t : ℕ}

theorem ledger_onCalculator : (call.onCalculator ct c).2.ledger = call.book ct c.ledger := by
  cases call with
  | setPosition pos =>
    cases ht : ct.getByIndex pos.tickerId with
    | none =>
      simp only [onCalculator, PositionCalculator.setPosition, book, ht]
      simp
    | some contract =>
      funext t s
      simp only [onCalculator, book, ht, Option.isSome_some, true_and]
      exact PositionCalculator.ledger_setPosition ht c t s
  | updatePending t direction offset changed =>
    exact PositionCalculator.ledger_updatePending t direction offset changed c
  | updateTraded t direction offset traded price =>
    by_cases hv : 0 < traded
    · cases ht : ct.getByIndex t with
      | none => simp [onCalculator, book, PositionCalculator.updateTraded, ht, not_le.mpr hv]
      | some contract =>
        simp only [onCalculator, book, ht, Option.isSome_some, hv, and_self, if_true]
        exact PositionCalculator.ledger_updateTraded ht direction offset hv price c
    · simp [onCalculator, book, PositionCalculator.updateTraded, hv, not_lt.mp hv]

theorem isSome_modify (c : PositionCalculator) (t t' : ℕ) (side : Side)
    (f : PositionDetail → PositionDetail) (a : PositionDetail → Bool) :
    ((c.modify t side f a).getPosition t').isSome =
      (decide (t' = t) || (c.getPosition t').isSome) := by
  rw [PositionCalculator.getPosition_modify]
  by_cases h : t' = t
  · simp [h]
  · simp [h]

theorem isSome_onCalculator : ((call.onCalculator ct c).2.getPosition t).isSome = true ↔
    (c.getPosition t).isSome = true ∨
      t = call.tickerId ∧ call.Books ∧ (call.onCalculator ct c).1 = true := by
  cases call with
  | setPosition pos =>
    cases ht : ct.getByIndex pos.tickerId with
    | none => simp [onCalculator, PositionCalculator.setPosition, ht]
    | some contract =>
      simp only [onCalculator, PositionCalculator.setPosition, ht, PositionCalculator.getPosition,
        SortedMap.find?_insert, tickerId, Books, and_true]
      by_cases h : t = pos.tickerId
      · simp [h]
      · simp [h]
  | updatePending t' direction offset changed =>
    by_cases hzero : changed = 0
    · simp [onCalculator, PositionCalculator.updatePending, hzero, Books]
    · simp [onCalculator, PositionCalculator.updatePending, hzero, Books, isSome_modify, tickerId,
        or_comm]
  | updateTraded t' direction offset traded price =>
    by_cases hv : 0 < traded
    · cases ht : ct.getByIndex t' with
      | none => simp [onCalculator, PositionCalculator.updateTraded, ht, not_le.mpr hv]
      | some contract =>
        have hmodify := isSome_modify { c with sizesHold := c.sizesHold && 0 < contract.size } t' t
          (bookedSide direction offset)
          (PositionCalculator.tradedDetail contract.size offset traded price)
          fun d => 0 ≤ d.holdings && 0 ≤ d.openPending && 0 ≤ d.closePending
        simp only [onCalculator, PositionCalculator.updateTraded, ht, if_neg (not_le.mpr hv),
          hmodify, Books, hv, tickerId, and_true]
        simp [or_comm, PositionCalculator.getPosition]
    · simp [onCalculator, PositionCalculator.updateTraded, not_lt.mp hv, Books, hv]

end Calculator

end PositionCall

structure StrategyCall where
  strategy : String
  call : PositionCall

def poolOf (strategyConfigList : List String) (strategy : String) : String :=
  if strategy ∈ strategyConfigList then strategy else kCommonPosPool

def bookings (ct : ContractTable) (strategyConfigList : List String) (pool : String)
    (calls : List StrategyCall) : Ledger :=
  (calls.filter fun c => poolOf strategyConfigList c.strategy = pool).foldl
    (fun L c => c.call.book ct L) 0

namespace PositionManager

def exec (ct : ContractTable) (m : PositionManager) (c : StrategyCall) : Bool × PositionManager :=
  match c.call with
  | .setPosition pos =>
    let r := m.setPosition ct c.strategy pos
    (r.1, r.2.2)
  | .updatePending t direction offset changed =>
    (true, m.updatePending c.strategy t direction offset changed)
  | .updateTraded t direction offset traded price =>
    m.updateTraded ct c.strategy t direction offset traded price

def execAll (ct : ContractTable) (calls : List StrategyCall) (m : PositionManager) :
    PositionManager :=
  calls.foldl (fun m c => (m.exec ct c).2) m

def lastBooked (ct : ContractTable) (strategy : String) (t : ℕ) :
    List StrategyCall → PositionManager → Option String
  | [], _ => none
  | c :: calls, m =>
    (lastBooked ct strategy t calls (m.exec ct c).2).or
      (if c.strategy = strategy ∧ c.call.tickerId = t ∧ c.call.Books ∧ (m.exec ct c).1 = true
        then some (m.findCalculator strategy) else none)

theorem exec_eq (ct : ContractTable) (m : PositionManager) (c : StrategyCall) :
    let r := c.call.onCalculator ct (m.calculator (m.findCalculator c.strategy))
    m.exec ct c = (r.1, m.put (m.findCalculator c.strategy) r.2) := by
  obtain ⟨strategy, call⟩ := c
  cases call with
  | setPosition pos => rfl
  | updatePending t direction offset changed => rfl
  | updateTraded t direction offset traded price => rfl

section Runs

variable {ct : ContractTable} {m : PositionManager}

theorem findCalculator_exec (c : StrategyCall) (strategy : String) :
    (m.exec ct c).2.findCalculator strategy = m.findCalculator strategy := by
  rw [exec_eq]
  exact findCalculator_put m _ c.strategy strategy

theorem contains_exec (c : StrategyCall) (key : String) :
    (m.exec ct c).2.stPosCalculators.contains key = m.stPosCalculators.contains key := by
  rw [exec_eq]
  exact contains_put m (m.contains_findCalculator c.strategy) _ key

theorem calculator_exec (c : StrategyCall) (key : String) :
    (m.exec ct c).2.calculator key =
      if m.findCalculator c.strategy = key then (c.call.onCalculator ct (m.calculator key)).2
      else m.calculator key := by
  rw [exec_eq, calculator_put]
  by_cases h : key = m.findCalculator c.strategy
  · rw [if_pos h, if_pos h.symm, h]
  · rw [if_neg h, if_neg (Ne.symm h)]

theorem contains_execAll (calls : List StrategyCall) (key : String) :
    (m.execAll ct calls).stPosCalculators.contains key = m.stPosCalculators.contains key := by
  induction calls generalizing m with
  | nil => rfl
  | cons c calls ih => exact ih.trans (contains_exec c key)

theorem isSome_execAll (calls : List StrategyCall) {key : String} {t : ℕ}
    (h : ((m.calculator key).getPosition t).isSome = true) :
    (((m.execAll ct calls).calculator key).getPosition t).isSome = true := by
  induction calls generalizing m with
  | nil => exact h
  | cons c calls ih =>
    apply ih
    rw [calculator_exec]
    split_ifs
    · exact PositionCall.isSome_onCalculator.mpr (Or.inl h)
    · exact h

/-- The calculators stay the same, so the latest booking has gone where all those
of its name go, and the record is there. -/
theorem lastBooked_spec {calls : List StrategyCall} {strategy key : String} {t : ℕ}
    (h : lastBooked ct strategy t calls m = some key) :
    key = m.findCalculator strategy ∧
      (((m.execAll ct calls).calculator key).getPosition t).isSome = true := by
  induction calls generalizing m with
  | nil => cases h
  | cons c calls ih =>
    rw [lastBooked, Option.or_eq_some_iff] at h
    rcases h with h | ⟨-, h⟩
    · obtain ⟨hkey, hsome⟩ := ih h
      exact ⟨hkey.trans (findCalculator_exec c strategy), hsome⟩
    · split_ifs at h with hbooks
      obtain ⟨rfl, ht, hb, hok⟩ := hbooks
      cases h
      refine ⟨rfl, isSome_execAll calls ?_⟩
      rw [exec_eq] at hok
      rw [calculator_exec, if_pos rfl]
      exact PositionCall.isSome_onCalculator.mpr (Or.inr ⟨ht.symm, hb, hok⟩)

theorem ledgerOf_execAll (calls : List StrategyCall) (key : String) :
    (m.execAll ct calls).ledgerOf key =
      (calls.filter fun c => m.findCalculator c.strategy = key).foldl
        (fun L c => c.call.book ct L) (m.ledgerOf key) := by
  induction calls generalizing m with
  | nil => rfl
  | cons c calls ih =>
    have hstep : (m.exec ct c).2.ledgerOf key =
        if m.findCalculator c.strategy = key then c.call.book ct (m.ledgerOf key)
        else m.ledgerOf key := by
      rw [ledgerOf, calculator_exec, apply_ite PositionCalculator.ledger,
        PositionCall.ledger_onCalculator]
      rfl
    have hrest := @ih (m.exec ct c).2
    simp only [findCalculator_exec, hstep] at hrest
    by_cases hkey : m.findCalculator c.strategy = key
    · rw [List.filter_cons_of_pos (by simpa using hkey)]
      rwa [if_pos hkey] at hrest
    · rw [List.filter_cons_of_neg (by simpa using hkey)]
      rwa [if_neg hkey] at hrest

end Runs

theorem findCalculator_init (strategyConfigList : List String) (strategy : String) :
    (init strategyConfigList).findCalculator strategy = poolOf strategyConfigList strategy := by
  unfold findCalculator poolOf
  by_cases hcommon : strategy = kCommonPosPool
  · rw [hcommon, ite_self, ite_self]
  · have hlisted : (init strategyConfigList).stPosCalculators.contains strategy = true ↔
        strategy ∈ strategyConfigList := contains_init_iff.trans (or_iff_left hcommon)
    simp only [hlisted]

theorem ledgerOf_bookings (ct : ContractTable) (strategyConfigList : List String)
    (calls : List StrategyCall) (pool : String) :
    ((init strategyConfigList).execAll ct calls).ledgerOf pool =
      bookings ct strategyConfigList pool calls := by
  rw [ledgerOf_execAll, bookings, ledgerOf, calculator_init, PositionCalculator.ledger_empty]
  simp only [findCalculator_init]

/-- A read returns the record of the calculator that the latest booking has gone to,
and what the position rule lets a close take is what the ledger `L` has to give. -/
def ReadsBack (m : PositionManager) (key strategy : String) (t : ℕ) (L : Ledger) : Prop :=
  ∃ pos, m.getPosition strategy t = some pos ∧ (m.calculator key).getPosition t = some pos ∧
    ∀ order : Order, order.strategyId = strategy → order.req.contract.tickerId = t →
      isOffsetClose order.req.offset = true →
      PositionRisk.available m order =
        (L t order.req.side).holdings - (L t order.req.side).closePending

/-- After a booking for a name and a ticker, reads and the checks of closes see the
bookings of the pool exactly if the name is configured or is that of the common pool. -/
theorem reads_back_iff (ct : ContractTable) (strategyConfigList : List String)
    (calls : List StrategyCall) {strategy key : String} {t : ℕ}
    (h : lastBooked ct strategy t calls (init strategyConfigList) = some key) :
    ((init strategyConfigList).execAll ct calls).ReadsBack key strategy t
        (bookings ct strategyConfigList (poolOf strategyConfigList strategy) calls) ↔
      strategy ∈ strategyConfigList ∨ strategy = kCommonPosPool := by
  obtain ⟨hkey, hsome⟩ := lastBooked_spec h
  have hlisted : ((init strategyConfigList).execAll ct calls).stPosCalculators.contains strategy =
      (init strategyConfigList).stPosCalculators.contains strategy :=
    contains_execAll calls strategy
  rw [← contains_init_iff, ← hlisted]
  have hledger := ledgerOf_bookings ct strategyConfigList calls key
  rw [← findCalculator_init, ← hkey, ← hledger]
  have hpool : key = if (init strategyConfigList).stPosCalculators.contains strategy = true
      then strategy else kCommonPosPool := hkey
  rw [← hlisted] at hpool
  generalize (init strategyConfigList).execAll ct calls = m at *
  constructor
  · rintro ⟨pos, hpos, -, -⟩
    obtain ⟨c, hc, -⟩ := Option.bind_eq_some_iff.mp hpos
    rw [SortedMap.contains, hc]
    rfl
  · intro hcontains
    rw [if_pos hcontains] at hpool
    subst hpool
    obtain ⟨pos, hpos⟩ := Option.isSome_iff_exists.mp hsome
    have hread : m.getPosition key t = some pos := (getPosition_eq m key t).trans hpos
    refine ⟨pos, hread, hpos, ?_⟩
    rintro order rfl rfl hclose
    rw [PositionRisk.available_eq hread hclose, ledgerOf, PositionCalculator.ledger, hpos]
    rfl

def boughtFive (strategy : String) : List StrategyCall :=
  [⟨strategy, .updatePending 1 .kBuy .kOpen 5⟩, ⟨strategy, .updateTraded 1 .kBuy .kOpen 5 100⟩]

theorem reads_back_boughtFive : ReadsBack
    ((init ["strategy"]).execAll (.ofList [ticker001]) (boughtFive "strategy")) "strategy" "strategy" 1
    (bookings (.ofList [ticker001]) ["strategy"] (poolOf ["strategy"] "strategy")
      (boughtFive "strategy")) :=
  (reads_back_iff (.ofList [ticker001]) ["strategy"] (boughtFive "strategy")
    (by decide +kernel)).mpr (by decide)

/-- The bookings of another name go to the common pool, where no read finds them. -/
theorem other_name_is_not_read :
    lastBooked (.ofList [ticker001]) "other" 1 (boughtFive "other") (init ["strategy"]) =
        some kCommonPosPool ∧
      ¬ ReadsBack ((init ["strategy"]).execAll (.ofList [ticker001]) (boughtFive "other"))
        kCommonPosPool "other" 1
        (bookings (.ofList [ticker001]) ["strategy"] (poolOf ["strategy"] "other")
          (boughtFive "other")) := by
  refine ⟨by decide +kernel, ?_⟩
  have hnone : ((init ["strategy"]).execAll (.ofList [ticker001]) (boughtFive "other")).getPosition
      "other" 1 = none := by decide +kernel
  rintro ⟨pos, hpos, -, -⟩
  cases hnone.symm.trans hpos

end PositionManager

end FlareTrader
