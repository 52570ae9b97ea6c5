import FlareTrader.Binary64
import FlareTrader.PositionManager
import FlareTrader.ThrottleRateRisk

/-! The registered risk rules and the system that runs them in order. The rules
share the account, the position manager and the order map with the order
management system; only the throttle rule keeps data of its own. -/

namespace FlareTrader

abbrev OrderMap := SortedMap ℕ Order (· < ·)

structure RiskRuleParams where
  account : Account
  posManager : PositionManager
  orderMap : OrderMap

def Order.marginRate (order : Order) : ℚ :=
  if order.req.direction = .kBuy then order.req.contract.longMarginRate
  else order.req.contract.shortMarginRate

def Order.margin (order : Order) (volume : ℤ) (price : ℚ) : ℚ :=
  intMul order.req.contract.size volume * price * order.marginRate

namespace FundRisk

def checkOrderRequest (account : Account) (order : Order) : ErrorCode :=
  let req := order.req
  if req.direction ≠ .kBuy ∧ req.direction ≠ .kSell then .kNoError
  else if isOffsetClose req.offset then .kNoError
  else
    let estimated := req.price * req.volume * req.contract.size * order.marginRate
    if account.cash * (11 / 10) < estimated then .kFundNotEnough else .kNoError

def onOrderSent (order : Order) (account : Account) : Account :=
  if isOffsetOpen order.req.offset then
    let changed := order.margin order.req.volume order.req.price
    { account with cash := account.cash - changed, frozen := account.frozen + changed }
  else account

def onOrderTraded (order : Order) (trade : OrderTradedRsp) (account : Account) : Account :=
  if isOffsetOpen order.req.offset then
    let frozenReleased := order.margin trade.volume order.req.price
    let margin := order.margin trade.volume trade.price
    { account with
      frozen := account.frozen - frozenReleased
      margin := account.margin + margin
      cash := account.cash + (frozenReleased - margin) }
  else if isOffsetClose order.req.offset then
    let margin := order.margin trade.volume trade.price
    let left := account.margin - margin
    { account with
      margin := if left < 0 then 0 else left
      cash := account.cash + margin }
  else account

def onOrderCanceled (order : Order) (canceled : ℤ) (account : Account) : Account :=
  if isOffsetOpen order.req.offset then
    let changed := order.margin canceled order.req.price
    { account with frozen := account.frozen - changed, cash := account.cash + changed }
  else account

def onOrderRejected (order : Order) (account : Account) : Account :=
  onOrderCanceled order order.req.volume account

end FundRisk

namespace PositionRisk

def available (posManager : PositionManager) (order : Order) : ℤ :=
  match posManager.getPosition order.strategyId order.req.contract.tickerId with
  | none => 0
  | some pos =>
    let detail := if order.req.direction = .kBuy then pos.shortPos else pos.longPos
    detail.holdings - detail.closePending

def checkOrderRequest (posManager : PositionManager) (order : Order) : ErrorCode :=
  if isOffsetClose order.req.offset ∧ available posManager order < order.req.volume
  then .kPositionNotEnough else .kNoError

def updatePending (order : Order) (changed : ℤ) (posManager : PositionManager) : PositionManager :=
  posManager.updatePending order.strategyId order.req.contract.tickerId order.req.direction
    order.req.offset changed

def onOrderSent (order : Order) (posManager : PositionManager) : PositionManager :=
  updatePending order order.req.volume posManager

def onOrderTraded (ct : ContractTable) (order : Order) (trade : OrderTradedRsp)
    (posManager : PositionManager) : PositionManager :=
  (posManager.updateTraded ct order.strategyId order.req.contract.tickerId order.req.direction
    order.req.offset trade.volume trade.price).2

def onOrderCanceled (order : Order) (canceled : ℤ) (posManager : PositionManager) :
    PositionManager :=
  updatePending order (0 - canceled) posManager

def onOrderRejected (order : Order) (posManager : PositionManager) : PositionManager :=
  updatePending order (0 - order.req.volume) posManager

end PositionRisk

namespace SelfTradeRisk

def tolerance : ℚ := Binary64.round (1 / 100000)

/-- The test that makes the rule refuse `req` because of a pending order. -/
def conflicts (req pending : OrderRequest) : Bool :=
  pending.contract.tickerId = req.contract.tickerId ∧
  pending.direction = oppositeDirection req.direction ∧
  (pending.price < tolerance ∨ pending.type = .kMarket ∨
    (req.direction = .kBuy ∧ Binary64.round (pending.price - tolerance) < req.price) ∨
    (req.direction = .kSell ∧ req.price < Binary64.round (pending.price + tolerance)))

def checkOrderRequest (orderMap : OrderMap) (order : Order) : ErrorCode :=
  if orderMap.values.any fun o => conflicts order.req o.req then .kSelfTrade else .kNoError

end SelfTradeRisk

inductive RiskRule
  | fund
  | position
  | selfTrade
  | throttleRate (rule : ThrottleRateRisk)
  deriving DecidableEq

inductive RuleKind
  | fund
  | position
  | selfTrade
  | throttleRate
  deriving DecidableEq, Repr

namespace RiskRule

def kind : RiskRule → RuleKind
  | .fund => .fund
  | .position => .position
  | .selfTrade => .selfTrade
  | .throttleRate _ => .throttleRate

def checkOrderRequest (p : RiskRuleParams) (now : UInt64) (order : Order) :
    RiskRule → ErrorCode × RiskRule
  | .fund => (FundRisk.checkOrderRequest p.account order, .fund)
  | .position => (PositionRisk.checkOrderRequest p.posManager order, .position)
  | .selfTrade => (SelfTradeRisk.checkOrderRequest p.orderMap order, .selfTrade)
  | .throttleRate rule =>
    let r := rule.checkOrderRequest now
    (r.1, .throttleRate r.2)

/-- No rule overrides the check of a cancel request. -/
def checkCancelReq (_order : Order) (_rule : RiskRule) : ErrorCode := .kNoError

def recordSent : RiskRule → RiskRule
  | .throttleRate rule => .throttleRate rule.onOrderSent
  | rule => rule

def onOrderSent (order : Order) (rule : RiskRule) (p : RiskRuleParams) : RiskRuleParams :=
  match rule with
  | .fund => { p with account := FundRisk.onOrderSent order p.account }
  | .position => { p with posManager := PositionRisk.onOrderSent order p.posManager }
  | _ => p

def onOrderTraded (ct : ContractTable) (order : Order) (trade : OrderTradedRsp) (rule : RiskRule)
    (p : RiskRuleParams) : RiskRuleParams :=
  match rule with
  | .fund => { p with account := FundRisk.onOrderTraded order trade p.account }
  | .position => { p with posManager := PositionRisk.onOrderTraded ct order trade p.posManager }
  | _ => p

def onOrderCanceled (order : Order) (canceled : ℤ) (rule : RiskRule) (p : RiskRuleParams) :
    RiskRuleParams :=
  match rule with
  | .fund => { p with account := FundRisk.onOrderCanceled order canceled p.account }
  | .position => { p with posManager := PositionRisk.onOrderCanceled order canceled p.posManager }
  | _ => p

def onOrderRejected (order : Order) (rule : RiskRule) (p : RiskRuleParams) : RiskRuleParams :=
  match rule with
  | .fund => { p with account := FundRisk.onOrderRejected order p.account }
  | .position => { p with posManager := PositionRisk.onOrderRejected order p.posManager }
  | _ => p

theorem kind_checkOrderRequest (p : RiskRuleParams) (now : UInt64) (order : Order)
    (rule : RiskRule) : (rule.checkOrderRequest p now order).2.kind = rule.kind := by
  cases rule <;> rfl

theorem kind_recordSent (rule : RiskRule) : rule.recordSent.kind = rule.kind := by
  cases rule <;> rfl

end RiskRule

namespace RiskManagementSystem

/-- The rules are asked in order until one refuses; the rule at position `i`
reads the clock as `clock i`. -/
def checkOrderRequest (p : RiskRuleParams) (order : Order) (clock : ℕ → UInt64) :
    List RiskRule → ErrorCode × List RiskRule
  | [] => (.kNoError, [])
  | rule :: rules =>
    let r := rule.checkOrderRequest p (clock 0) order
    if r.1 ≠ .kNoError then (r.1, r.2 :: rules)
    else
      let rest := checkOrderRequest p order (fun i => clock (i + 1)) rules
      (rest.1, r.2 :: rest.2)

def checkCancelReq (order : Order) : List RiskRule → ErrorCode
  | [] => .kNoError
  | rule :: rules =>
    if rule.checkCancelReq order ≠ .kNoError then rule.checkCancelReq order
    else checkCancelReq order rules

def notify (hook : RiskRule → RiskRuleParams → RiskRuleParams) (rules : List RiskRule)
    (p : RiskRuleParams) : RiskRuleParams :=
  rules.foldl (fun p rule => hook rule p) p

def onOrderSent (order : Order) (rules : List RiskRule) (p : RiskRuleParams) : RiskRuleParams :=
  notify (RiskRule.onOrderSent order) rules p

def onOrderTraded (ct : ContractTable) (order : Order) (trade : OrderTradedRsp)
    (rules : List RiskRule) (p : RiskRuleParams) : RiskRuleParams :=
  notify (RiskRule.onOrderTraded ct order trade) rules p

def onOrderCanceled (order : Order) (canceled : ℤ) (rules : List RiskRule) (p : RiskRuleParams) :
    RiskRuleParams :=
  notify (RiskRule.onOrderCanceled order canceled) rules p

def onOrderRejected (order : Order) (rules : List RiskRule) (p : RiskRuleParams) : RiskRuleParams :=
  notify (RiskRule.onOrderRejected order) rules p

theorem checkCancelReq_eq (order : Order) (rules : List RiskRule) :
    checkCancelReq order rules = .kNoError := by
  induction rules with
  | nil => rfl
  | cons rule rules ih => exact ih

theorem kinds_checkOrderRequest (p : RiskRuleParams) (order : Order) (clock : ℕ → UInt64)
    (rules : List RiskRule) :
    (checkOrderRequest p order clock rules).2.map RiskRule.kind = rules.map RiskRule.kind := by
  induction rules generalizing clock with
  | nil => rfl
  | cons rule rules ih =>
    simp only [checkOrderRequest]
    split_ifs
    · simp [RiskRule.kind_checkOrderRequest]
    · simp [RiskRule.kind_checkOrderRequest, ih]

theorem kinds_recordSent (rules : List RiskRule) :
    (rules.map RiskRule.recordSent).map RiskRule.kind = rules.map RiskRule.kind := by
  rw [List.map_map]
  exact List.map_congr_left fun rule _ => RiskRule.kind_recordSent rule

theorem passes_of_mem {p : RiskRuleParams} {order : Order} {clock : ℕ → UInt64}
    {rules : List RiskRule} (h : (checkOrderRequest p order clock rules).1 = .kNoError)
    {rule : RiskRule} (hr : rule ∈ rules) :
    ∃ now, (rule.checkOrderRequest p now order).1 = .kNoError := by
  induction rules generalizing clock with
  | nil => cases hr
  | cons first rules ih =>
    simp only [checkOrderRequest] at h
    split_ifs at h with hf
    · exact absurd h hf
    · rcases List.mem_cons.mp hr with rfl | hr
      · exact ⟨clock 0, not_not.mp hf⟩
      · exact ih h hr

theorem notify_iterate {M : Type*} {hook : RiskRule → RiskRuleParams → RiskRuleParams}
    {k : RuleKind} {f : M → M} {part : RiskRuleParams → M}
    (h : ∀ rule p, part (hook rule p) = if rule.kind = k then f (part p) else part p)
    (rules : List RiskRule) (p : RiskRuleParams) :
    part (notify hook rules p) = f^[(rules.map RiskRule.kind).count k] (part p) := by
  induction rules generalizing p with
  | nil => rfl
  | cons rule rules ih =>
    change part (notify hook rules (hook rule p)) = _
    rw [ih, h, List.map_cons, List.count_cons]
    by_cases hk : rule.kind = k
    · simp only [hk, if_true, beq_self_eq_true, Function.iterate_add_apply,
        Function.iterate_one]
    · simp [hk]

theorem notify_orderMap {hook : RiskRule → RiskRuleParams → RiskRuleParams}
    (h : ∀ rule p, (hook rule p).orderMap = p.orderMap) (rules : List RiskRule)
    (p : RiskRuleParams) : (notify hook rules p).orderMap = p.orderMap := by
  induction rules generalizing p with
  | nil => rfl
  | cons rule rules ih => exact (ih (hook rule p)).trans (h rule p)

section Hooks

variable (ct : ContractTable) (order : Order) (trade : OrderTradedRsp) (canceled : ℤ)
  (rules : List RiskRule) (p : RiskRuleParams)

@[simp] theorem onOrderSent_orderMap : (onOrderSent order rules p).orderMap = p.orderMap :=
  notify_orderMap (fun rule p => by cases rule <;> rfl) rules p

@[simp] theorem onOrderTraded_orderMap :
    (onOrderTraded ct order trade rules p).orderMap = p.orderMap :=
  notify_orderMap (fun rule p => by cases rule <;> rfl) rules p

@[simp] theorem onOrderCanceled_orderMap :
    (onOrderCanceled order canceled rules p).orderMap = p.orderMap :=
  notify_orderMap (fun rule p => by cases rule <;> rfl) rules p

@[simp] theorem onOrderRejected_orderMap :
    (onOrderRejected order rules p).orderMap = p.orderMap :=
  notify_orderMap (fun rule p => by cases rule <;> rfl) rules p

theorem onOrderRejected_account : (onOrderRejected order rules p).account =
    (FundRisk.onOrderRejected order)^[(rules.map RiskRule.kind).count .fund] p.account :=
  notify_iterate (fun rule p => by cases rule <;> rfl) rules p

theorem onOrderSent_account : (onOrderSent order rules p).account =
    (FundRisk.onOrderSent order)^[(rules.map RiskRule.kind).count .fund] p.account :=
  notify_iterate (fun rule p => by cases rule <;> rfl) rules p

theorem onOrderTraded_account : (onOrderTraded ct order trade rules p).account =
    (FundRisk.onOrderTraded order trade)^[(rules.map RiskRule.kind).count .fund] p.account :=
  notify_iterate (fun rule p => by cases rule <;> rfl) rules p

theorem onOrderCanceled_account : (onOrderCanceled order canceled rules p).account =
    (FundRisk.onOrderCanceled order canceled)^[(rules.map RiskRule.kind).count .fund] p.account :=
  notify_iterate (fun rule p => by cases rule <;> rfl) rules p

theorem onOrderSent_posManager : (onOrderSent order rules p).posManager =
    (PositionRisk.onOrderSent order)^[(rules.map RiskRule.kind).count .position] p.posManager :=
  notify_iterate (fun rule p => by cases rule <;> rfl) rules p

theorem onOrderTraded_posManager : (onOrderTraded ct order trade rules p).posManager =
    (PositionRisk.onOrderTraded ct order trade)^[(rules.map RiskRule.kind).count .position]
      p.posManager :=
  notify_iterate (fun rule p => by cases rule <;> rfl) rules p

theorem onOrderCanceled_posManager : (onOrderCanceled order canceled rules p).posManager =
    (PositionRisk.onOrderCanceled order canceled)^[(rules.map RiskRule.kind).count .position]
      p.posManager :=
  notify_iterate (fun rule p => by cases rule <;> rfl) rules p

theorem onOrderRejected_posManager : (onOrderRejected order rules p).posManager =
    (PositionRisk.onOrderRejected order)^[(rules.map RiskRule.kind).count .position]
      p.posManager :=
  notify_iterate (fun rule p => by cases rule <;> rfl) rules p

end Hooks

end RiskManagementSystem

end FlareTrader
