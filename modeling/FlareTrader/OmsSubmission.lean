import FlareTrader.Oms

/-! A submission that fails. A refusal by the rules leaves the funds, the
positions and the order map alone. When the gateway fails, the rules are told
of a rejection although they never heard of the order, so what they release was
never booked. -/

namespace FlareTrader

theorem PositionRisk.ledgerOf_iterate (order : Order) (changed : ℤ) (n : ℕ) (m : PositionManager)
    (key : String) :
    ((PositionRisk.updatePending order changed)^[n] m).ledgerOf key = m.ledgerOf key +
      if key = m.findCalculator order.strategyId then
        n • pendingDelta order.req.contract.tickerId order.req.direction order.req.offset changed
      else 0 := by
  induction n generalizing m with
  | zero => simp
  | succ n ih =>
    rw [Function.iterate_succ_apply, ih, PositionRisk.updatePending,
      PositionManager.ledgerOf_updatePending, PositionManager.findCalculator_updatePending]
    split_ifs
    · rw [succ_nsmul]
      abel
    · simp

theorem PositionRisk.getPosition_iterate_zero (order : Order) (n : ℕ) (m : PositionManager)
    (strategy : String) (t : ℕ) :
    ((PositionRisk.updatePending order 0)^[n] m).getPosition strategy t =
      m.getPosition strategy t := by
  induction n generalizing m with
  | zero => rfl
  | succ n ih =>
    rw [Function.iterate_succ_apply, ih]
    exact PositionManager.getPosition_updatePending_zero m _ _ _ _ strategy t

def Account.funds (account : Account) : ℚ × ℚ × ℚ := (account.cash, account.frozen, account.margin)

theorem FundRisk.funds_iterate (order : Order) (n : ℕ) (account : Account) :
    ((FundRisk.onOrderRejected order)^[n] account).funds = account.funds +
      if isOffsetOpen order.req.offset then
        n • (order.margin order.req.volume order.req.price,
          -order.margin order.req.volume order.req.price, 0)
      else 0 := by
  induction n generalizing account with
  | zero => simp
  | succ n ih =>
    rw [Function.iterate_succ_apply, ih, FundRisk.onOrderRejected, FundRisk.onOrderCanceled]
    split_ifs
    · rw [succ_nsmul]
      simp only [Account.funds]
      ext <;> simp <;> ring
    · rfl

theorem FundRisk.funds_iterate_eq_iff (order : Order) (n : ℕ) (account : Account) :
    ((FundRisk.onOrderRejected order)^[n] account).funds = account.funds ↔
      (n ≠ 0 → isOffsetOpen order.req.offset = true →
        order.margin order.req.volume order.req.price = 0) := by
  rw [FundRisk.funds_iterate, add_eq_left]
  by_cases ho : isOffsetOpen order.req.offset = true
  · rw [if_pos ho, smul_eq_zero]
    simp only [Prod.mk_eq_zero, neg_eq_zero, and_true, and_self, ho, true_implies]
    exact or_iff_not_imp_left
  · simp [ho]

theorem pendingDelta_eq_zero_iff (t : ℕ) (direction : Direction) (offset : Offset) (a : ℤ) :
    pendingDelta t direction offset a = 0 ↔ a = 0 := by
  constructor
  · intro h
    have he := congrFun (congrFun h t) (bookedSide direction offset)
    simp only [pendingDelta, Ledger.single, and_self, if_true, Pi.zero_apply, pendingEntry] at he
    split_ifs at he
    · exact congrArg (fun e : Entry => e.2.2) he
    · exact congrArg (fun e : Entry => e.2.1) he
  · rintro rfl
    exact pendingDelta_zero t direction offset

theorem PositionRisk.getPosition_pending_iterate_eq_iff (order : Order) (changed : ℤ) (n : ℕ)
    (m : PositionManager) :
    (∀ strategy t, ((PositionRisk.updatePending order changed)^[n] m).getPosition strategy t =
        m.getPosition strategy t) ↔ (n ≠ 0 → changed = 0) := by
  constructor
  · intro h hn
    have hl := PositionRisk.ledgerOf_iterate order changed n m (m.findCalculator order.strategyId)
    have hsame : ((PositionRisk.updatePending order changed)^[n] m).ledgerOf
        (m.findCalculator order.strategyId) = m.ledgerOf (m.findCalculator order.strategyId) := by
      funext t side
      simp only [PositionManager.ledgerOf, PositionCalculator.ledger,
        ← PositionManager.getPosition_eq, h]
    rw [hsame, if_pos rfl, left_eq_add, smul_eq_zero, pendingDelta_eq_zero_iff] at hl
    exact hl.resolve_left hn
  · intro h strategy t
    by_cases hn : n = 0
    · rw [hn]
      rfl
    · rw [h hn]
      exact PositionRisk.getPosition_iterate_zero order n m strategy t

theorem PositionRisk.getPosition_iterate_eq_iff (order : Order) (n : ℕ) (m : PositionManager) :
    (∀ strategy t, ((PositionRisk.onOrderRejected order)^[n] m).getPosition strategy t =
        m.getPosition strategy t) ↔ (n ≠ 0 → order.req.volume = 0) := by
  have hpending := getPosition_pending_iterate_eq_iff order (0 - order.req.volume) n m
  rwa [zero_sub, neg_eq_zero, ← zero_sub] at hpending

namespace Oms

variable {γ : Type}

/-- The state after a submission shows nothing but one final response with the
error code. -/
structure LeavesNoTrace (mqId clientOrderId : ℕ) (errorCode : ErrorCode) (s s' : Oms γ) : Prop where
  funds : s'.params.account.funds = s.params.account.funds
  positions : ∀ strategy t,
    s'.params.posManager.getPosition strategy t = s.params.posManager.getPosition strategy t
  orderMap : s'.orderMap = s.orderMap
  response : ∃ rsp, s'.rspWriters = s.rspWriters ++ [(mqId, rsp)] ∧ rsp.completed = true ∧
    rsp.errorCode = errorCode ∧ rsp.clientOrderId = clientOrderId

theorem completed_of_error (order : Order) (thisTraded : ℤ) (price : ℚ) {errorCode : ErrorCode}
    (h : errorCode ≠ .kNoError) : (order.response thisTraded price errorCode).completed = true :=
  decide_eq_true (Or.inr h)

theorem refused_leavesNoTrace (order : Order) {errorCode : ErrorCode} (h : errorCode ≠ .kNoError)
    (n : ℕ) (rules : List RiskRule) (s : Oms γ) :
    LeavesNoTrace order.mqId order.clientOrderId errorCode s
      (sendRspToStrategy order 0 0 errorCode { s with nextOmsOrderId := n, rules }) where
  funds := rfl
  positions := fun _ _ => rfl
  orderMap := rfl
  response := ⟨_, rfl, completed_of_error order 0 0 h, rfl, rfl⟩

theorem sendFailed_leavesNoTrace_iff (order : Order) (gateway : γ) (n : ℕ) (rules : List RiskRule)
    (s : Oms γ) :
    LeavesNoTrace order.mqId order.clientOrderId .kSendFailed s
        (sendFailed order { s with nextOmsOrderId := n, rules, gateway }) ↔
      (.fund ∈ rules.map RiskRule.kind → isOffsetOpen order.req.offset = true →
          order.margin order.req.volume order.req.price = 0) ∧
        (.position ∈ rules.map RiskRule.kind → order.req.volume = 0) := by
  have hcount : ∀ k, k ∈ rules.map RiskRule.kind ↔ (rules.map RiskRule.kind).count k ≠ 0 :=
    fun k => by rw [Nat.ne_zero_iff_zero_lt, List.count_pos_iff]
  have hfunds := FundRisk.funds_iterate_eq_iff order ((rules.map RiskRule.kind).count .fund)
    s.params.account
  have hpos := PositionRisk.getPosition_iterate_eq_iff order
    ((rules.map RiskRule.kind).count .position) s.params.posManager
  rw [← RiskManagementSystem.onOrderRejected_account order rules s.params, ← hcount] at hfunds
  rw [← RiskManagementSystem.onOrderRejected_posManager order rules s.params, ← hcount] at hpos
  constructor
  · intro h
    exact ⟨hfunds.mp h.funds, hpos.mp h.positions⟩
  · rintro ⟨hf, hp⟩
    refine ⟨hfunds.mpr hf, hpos.mpr hp, ?_, ?_⟩
    · exact RiskManagementSystem.onOrderRejected_orderMap order rules s.params
    · exact ⟨_, rfl, completed_of_error order 0 0 (by decide), rfl, rfl⟩

def submissionError (clock : ℕ → UInt64) (withoutCheck : Bool) (order : Order) (s : Oms γ) :
    ErrorCode :=
  let errorCode := (checkOrder clock withoutCheck order s).1
  if errorCode ≠ .kNoError then errorCode else .kSendFailed

theorem failedSubmission_leavesNoTrace_iff (g : Gateway γ) (ct : ContractTable)
    (clock : ℕ → UInt64) (cmd : TraderCommand) (orderReq : TraderOrderReq) (mqId : ℕ) (s : Oms γ)
    (contract : Contract) (hc : ct.getByIndex orderReq.tickerId = some contract)
    (hf : (sendOrder g ct clock cmd orderReq mqId s).1 = false) :
    let order := newOrder contract cmd orderReq mqId s.nextOmsOrderId
    LeavesNoTrace mqId orderReq.clientOrderId (submissionError clock cmd.withoutCheck order s) s
        (sendOrder g ct clock cmd orderReq mqId s).2 ↔
      (checkOrder clock cmd.withoutCheck order s).1 ≠ .kNoError ∨
        ((.fund ∈ s.rules.map RiskRule.kind → isOffsetOpen orderReq.offset = true →
            order.margin orderReq.volume orderReq.price = 0) ∧
          (.position ∈ s.rules.map RiskRule.kind → orderReq.volume = 0)) := by
  intro order
  obtain ⟨order', rules, rfl, hk, hcase⟩ := sendOrder_cases g clock cmd mqId s hc
  rcases hcase with ⟨hne, hs⟩ | ⟨heq, hs⟩
  · have herr : submissionError clock cmd.withoutCheck order s =
        (checkOrder clock cmd.withoutCheck order s).1 := if_pos hne
    rw [hs, herr]
    exact ⟨fun _ => Or.inl hne, fun _ => refused_leavesNoTrace order hne _ rules s⟩
  · have herr : submissionError clock cmd.withoutCheck order s = .kSendFailed :=
      if_neg (not_not.mpr heq)
    obtain ⟨privdata, gateway, -, ⟨-, hsub⟩ | ⟨-, hsub⟩⟩ := submit_cases g order
      { s with nextOmsOrderId := s.nextOmsOrderId + 1, rules }
    · rw [hs, hsub] at hf
      cases hf
    · have hiff := sendFailed_leavesNoTrace_iff { order with privdata } gateway
        (s.nextOmsOrderId + 1) rules s
      rw [hk] at hiff
      rw [hs, hsub, herr]
      exact hiff.trans ⟨Or.inr, fun h => h.resolve_left (not_not.mpr heq)⟩

def buyOne (offset : Offset) : TraderOrderReq := ⟨7, 1, .kBuy, offset, .kLimit, 1, 100, .kNone⟩

def buyCmd (offset : Offset) : TraderCommand where
  cmd := .kNewOrder (buyOne offset)
  strategyId := "strategy"

theorem failedClose_leavesNoTrace :
    let s := fresh [.fund, .selfTrade]
    let order := newOrder ticker001 (buyCmd .kClose) (buyOne .kClose) 0 1
    LeavesNoTrace 0 7 (submissionError (fun _ => 0) false order s) s
      (sendOrder (.stub false) (.ofList [ticker001]) (fun _ => 0) (buyCmd .kClose) (buyOne .kClose) 0
        s).2 :=
  (failedSubmission_leavesNoTrace_iff (.stub false) (.ofList [ticker001]) (fun _ => 0) (buyCmd .kClose)
    (buyOne .kClose) 0 (fresh [.fund, .selfTrade]) ticker001 rfl (by decide +kernel)).mpr
    (Or.inr (by decide +kernel))

theorem failedOpen_leaves_trace :
    let s := fresh [.fund, .position]
    let r := sendOrder (.stub false) (.ofList [ticker001]) (fun _ => 0) (buyCmd .kOpen)
      (buyOne .kOpen) 0 s
    r.1 = false ∧ ¬ LeavesNoTrace 0 7 .kSendFailed s r.2 := by
  refine ⟨by decide +kernel, fun h => ?_⟩
  exact absurd h.funds (by decide +kernel)

end Oms

end FlareTrader
