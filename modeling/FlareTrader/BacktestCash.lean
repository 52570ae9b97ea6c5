import FlareTrader.BacktestFunds

/-! Whether the orders that the backtest gateway takes are covered by cash. The
amount checked and frozen starts with a product of two ints; where that product
wraps around, an order passes whatever it costs. -/

namespace FlareTrader

namespace BacktestGateway

section Cash

variable {ε : Type} {m : MatchEngine ε} {order : OrderRequest} {g : BacktestGateway ε}

def Taken (m : MatchEngine ε) (order : OrderRequest) (g : BacktestGateway ε) : Prop :=
  g.checkOrder order = true ∧ (m.insertOrder order g.matchEngine).1 = true

def Rests (m : MatchEngine ε) (order : OrderRequest) (g : BacktestGateway ε) : Prop :=
  (m.insertOrder order g.matchEngine).2.1 = [.accepted order]

structure CoveredByCash (m : MatchEngine ε) (ct : ContractTable) (order : OrderRequest)
    (g : BacktestGateway ε) : Prop where
  cash : (g.sendOrder m ct order).1 = true → order.notional ≤ g.account.cash
  moved : (g.sendOrder m ct order).1 = true → Rests m order g →
    (g.sendOrder m ct order).2.2.account =
      { g.account with
        cash := g.account.cash - order.notional
        frozen := g.account.frozen + order.notional }

theorem sendOrder_eq_true_iff (ct : ContractTable) :
    (g.sendOrder m ct order).1 = true ↔ Taken m order g := by
  have hengine : (g.updatePending order order.volume).matchEngine = g.matchEngine := rfl
  by_cases hcheck : g.checkOrder order = true
  · simp only [sendOrder, Taken, hcheck, Bool.not_true, Bool.false_eq_true, if_false, hengine,
      true_and]
    split_ifs with hok
    · exact iff_of_true rfl hok
    · exact iff_of_false not_false hok
  · simp [sendOrder, Taken, hcheck]

theorem account_of_rests (ct : ContractTable) (htaken : Taken m order g) (hrests : Rests m order g) :
    (g.sendOrder m ct order).2.2.account =
      FundCalculator.updatePending order order.volume g.account := by
  have hengine : (g.updatePending order order.volume).matchEngine = g.matchEngine := rfl
  unfold Rests at hrests
  simp only [sendOrder, htaken.1, htaken.2, Bool.not_true, Bool.false_eq_true, if_false, if_true,
    hengine, hrests]
  rfl

theorem checked_of_taken (hopen : isOffsetOpen order.offset = true) (htaken : Taken m order g) :
    0 < order.price ∧ 0 < order.volume ∧
      intMul order.contract.size order.volume * order.price ≤ g.account.cash := by
  have hcheck := htaken.1
  simp only [checkOrder] at hcheck
  split_ifs at hcheck with htype hprice hvolume hfund
  · refine ⟨?_, not_le.mp hvolume, ?_⟩
    · exact lt_trans (by norm_num) (not_le.mp hprice)
    · simpa [FundCalculator.checkFund, hopen] using hfund

theorem need_eq_notional_iff (hopen : isOffsetOpen order.offset = true)
    (hsize : 0 < order.contract.size) (htaken : Taken m order g) :
    intMul order.contract.size order.volume * order.price = order.notional ↔
      order.contract.size * order.volume < 2 ^ 31 := by
  obtain ⟨hprice, hvolume, -⟩ := checked_of_taken hopen htaken
  have hnotional : order.notional =
      ((order.contract.size * order.volume : ℤ) : ℚ) * order.price := by
    rw [OrderRequest.notional]
    push_cast
    rfl
  rw [hnotional, mul_left_inj' hprice.ne', Int.cast_inj,
    intMul_eq_mul_iff (mul_pos hsize hvolume).le]

/-- Orders are covered by cash exactly if the product of size and volume does not wrap around, or
the order is not taken, or there is cash enough and it does not rest. -/
theorem covered_by_cash_iff (m : MatchEngine ε) (ct : ContractTable) (order : OrderRequest)
    (g : BacktestGateway ε) (hopen : isOffsetOpen order.offset = true)
    (hsize : 0 < order.contract.size) :
    CoveredByCash m ct order g ↔ order.contract.size * order.volume < 2 ^ 31 ∨
      ¬ Taken m order g ∨ (order.notional ≤ g.account.cash ∧ ¬ Rests m order g) := by
  have hpending : FundCalculator.updatePending order order.volume g.account =
      { g.account with
        cash := g.account.cash - intMul order.contract.size order.volume * order.price
        frozen := g.account.frozen + intMul order.contract.size order.volume * order.price } := by
    simp only [FundCalculator.updatePending, if_pos hopen]
  constructor
  · intro h
    by_cases htaken : Taken m order g
    · by_cases hrests : Rests m order g
      · left
        have hsent := (sendOrder_eq_true_iff ct).mpr htaken
        have hmoved := h.moved hsent hrests
        rw [account_of_rests ct htaken hrests, hpending] at hmoved
        have hfrozen := congrArg Account.frozen hmoved
        exact (need_eq_notional_iff hopen hsize htaken).mp (add_left_cancel hfrozen)
      · exact Or.inr (Or.inr ⟨h.cash ((sendOrder_eq_true_iff ct).mpr htaken), hrests⟩)
    · exact Or.inr (Or.inl htaken)
  · intro h
    refine ⟨fun hsent => ?_, fun hsent hrests => ?_⟩
    · have htaken := (sendOrder_eq_true_iff ct).mp hsent
      rcases h with hfits | hnot | ⟨hcash, -⟩
      · rw [← (need_eq_notional_iff hopen hsize htaken).mpr hfits]
        exact (checked_of_taken hopen htaken).2.2
      · exact absurd htaken hnot
      · exact hcash
    · have htaken := (sendOrder_eq_true_iff ct).mp hsent
      rcases h with hfits | hnot | ⟨-, hnot⟩
      · rw [account_of_rests ct htaken hrests, hpending,
          (need_eq_notional_iff hopen hsize htaken).mpr hfits]
      · exact absurd htaken hnot
      · exact absurd hrests hnot

end Cash

def indexBuy (volume : ℤ) : OrderRequest where
  contract := { size := 300, tickerId := 1 }
  orderId := 1
  type := .kLimit
  direction := .kBuy
  offset := .kOpen
  volume := volume
  price := 4000

def newGateway : BacktestGateway SimpleMatchEngine := { matchEngine := {} }

theorem covered_by_cash_indexBuy :
    (newGateway.sendOrder SimpleMatchEngine.engine (.ofList []) (indexBuy 2)).1 = true ∧
      Rests SimpleMatchEngine.engine (indexBuy 2) newGateway ∧
      CoveredByCash SimpleMatchEngine.engine (.ofList []) (indexBuy 2) newGateway ∧
      ¬ CoveredByCash SimpleMatchEngine.engine (.ofList []) (indexBuy 8000000) newGateway := by
  have hrests : ∀ volume ∈ [2, 8000000],
      Rests SimpleMatchEngine.engine (indexBuy volume) newGateway := by
    unfold Rests
    decide +kernel
  refine ⟨by decide +kernel, hrests 2 (by simp), ?_, fun hcovered => ?_⟩
  · exact (covered_by_cash_iff SimpleMatchEngine.engine (.ofList []) (indexBuy 2) newGateway rfl
      (by norm_num [indexBuy])).mpr (Or.inl (by norm_num [indexBuy]))
  · rcases (covered_by_cash_iff SimpleMatchEngine.engine (.ofList []) (indexBuy 8000000) newGateway
      rfl (by norm_num [indexBuy])).mp hcovered with hfits | htaken | ⟨-, hdone⟩
    · norm_num [indexBuy] at hfits
    · exact htaken ⟨by decide +kernel, by decide +kernel⟩
    · exact hdone (hrests 8000000 (by simp))

/-- Eight million times 300 wraps around to a negative amount, which is frozen. -/
theorem large_buy_is_taken :
    (newGateway.sendOrder SimpleMatchEngine.engine (.ofList []) (indexBuy 8000000)).1 = true ∧
      newGateway.account.cash < (indexBuy 8000000).notional ∧
      newGateway.account.cash < (newGateway.sendOrder SimpleMatchEngine.engine (.ofList [])
        (indexBuy 8000000)).2.2.account.cash := by
  decide +kernel

end BacktestGateway

end FlareTrader
