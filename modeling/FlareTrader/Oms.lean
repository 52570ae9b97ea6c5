import FlareTrader.RiskRules
import FlareTrader.Execution

/-! The order management system over any gateway: commands of the strategies go
out through the risk rules, responses of the gateway come back into the order
map and on to the strategies. -/

namespace FlareTrader

/-- What the order management system calls of a gateway. A call that does not
return gives `none`. -/
structure Gateway (γ : Type) where
  sendOrder : OrderRequest → γ → Bool × ℕ × γ
  cancelOrder : ℕ → ℕ → γ → Option (Bool × γ)
  onNotify : ℕ → γ → Option γ
  getOrderRsp : γ → Option (GatewayOrderResponse × γ)

structure Oms (γ : Type) where
  gateway : γ
  nextOmsOrderId : ℕ := 1
  /-- The account, the positions and the order map, as the rules share them. -/
  params : RiskRuleParams
  rules : List RiskRule
  rspWriters : List (ℕ × OrderResponse) := []

def GatewayOrderResponse.orderId : GatewayOrderResponse → ℕ
  | .accepted id => id
  | .traded rsp => rsp.orderId
  | .rejected id _ => id
  | .canceled id _ => id
  | .cancelRejected id _ => id

def Order.response (order : Order) (thisTraded : ℤ) (price : ℚ) (errorCode : ErrorCode) :
    OrderResponse where
  clientOrderId := order.clientOrderId
  orderId := order.req.orderId
  tickerId := order.req.contract.tickerId
  direction := order.req.direction
  offset := order.req.offset
  price := order.req.price
  originalVolume := order.req.volume
  tradedVolume := order.tradedVolume
  completed := order.canceledVolume + order.tradedVolume = order.req.volume ∨ errorCode ≠ .kNoError
  errorCode := errorCode
  thisTraded := thisTraded
  thisTradedPrice := price

def Order.traded (order : Order) (volume : ℤ) : Order :=
  let tradedVolume := order.tradedVolume + volume
  { order with
    accepted := true
    tradedVolume := tradedVolume
    status := if tradedVolume = order.req.volume then .kAllTraded
      else if order.status ≠ .kCanceled then .kPartTraded else order.status }

namespace Oms

variable {γ : Type}

def orderMap (s : Oms γ) : OrderMap := s.params.orderMap

def sendRspToStrategy (order : Order) (thisTraded : ℤ) (price : ℚ) (errorCode : ErrorCode)
    (s : Oms γ) : Oms γ :=
  { s with rspWriters := s.rspWriters ++ [(order.mqId, order.response thisTraded price errorCode)] }

def newOrder (contract : Contract) (cmd : TraderCommand) (orderReq : TraderOrderReq)
    (mqId orderId : ℕ) : Order where
  req :=
    { orderId, contract
      direction := orderReq.direction
      offset := orderReq.offset
      volume := orderReq.volume
      type := orderReq.type
      price := orderReq.price
      flags := orderReq.flags }
  clientOrderId := orderReq.clientOrderId
  mqId := mqId
  status := .kSubmitting
  strategyId := cmd.strategyId

/-- The risk stage of `SendOrder`; an urgent command goes past it. -/
def checkOrder (clock : ℕ → UInt64) (withoutCheck : Bool) (order : Order) (s : Oms γ) :
    ErrorCode × Oms γ :=
  if withoutCheck then (.kNoError, s)
  else
    let r := RiskManagementSystem.checkOrderRequest s.params order clock s.rules
    (r.1, { s with rules := r.2 })

def orderSent (order : Order) (s : Oms γ) : Oms γ :=
  { s with
    params := RiskManagementSystem.onOrderSent order s.rules
      { s.params with orderMap := s.params.orderMap.emplace order.req.orderId order }
    rules := s.rules.map RiskRule.recordSent }

def sendFailed (order : Order) (s : Oms γ) : Oms γ :=
  sendRspToStrategy order 0 0 .kSendFailed
    { s with params := RiskManagementSystem.onOrderRejected order s.rules s.params }

def submit (g : Gateway γ) (order : Order) (s : Oms γ) : Bool × Oms γ :=
  let r := g.sendOrder order.req s.gateway
  let order := { order with privdata := r.2.1 }
  let s := { s with gateway := r.2.2 }
  if r.1 then (true, orderSent order s) else (false, sendFailed order s)

def sendOrder (g : Gateway γ) (ct : ContractTable) (clock : ℕ → UInt64) (cmd : TraderCommand)
    (orderReq : TraderOrderReq) (mqId : ℕ) (s : Oms γ) : Bool × Oms γ :=
  match ct.getByIndex orderReq.tickerId with
  | none => (false, s)
  | some contract =>
    let order := newOrder contract cmd orderReq mqId s.nextOmsOrderId
    let r := checkOrder clock cmd.withoutCheck order { s with nextOmsOrderId := s.nextOmsOrderId + 1 }
    if r.1 ≠ .kNoError then (false, sendRspToStrategy order 0 0 r.1 r.2) else submit g order r.2

def doCancelOrder (g : Gateway γ) (order : Order) (withoutCheck : Bool) (s : Oms γ) :
    Option (Oms γ) :=
  if withoutCheck = false ∧ RiskManagementSystem.checkCancelReq order s.rules ≠ .kNoError then some s
  else (g.cancelOrder order.req.orderId order.privdata s.gateway).map fun r => { s with gateway := r.2 }

def cancelOrder (g : Gateway γ) (orderId : ℕ) (withoutCheck : Bool) (s : Oms γ) : Option (Oms γ) :=
  match s.orderMap.find? orderId with
  | none => some s
  | some order => doCancelOrder g order withoutCheck s

/-- The loops over the order map, which is unordered: `iteration` is the order in
which its keys come up. -/
def cancelWhere (g : Gateway γ) (p : Order → Bool) (withoutCheck : Bool) :
    List ℕ → Oms γ → Option (Oms γ)
  | [], s => some s
  | id :: iteration, s =>
    match s.orderMap.find? id with
    | none => cancelWhere g p withoutCheck iteration s
    | some order =>
      if p order then
        (doCancelOrder g order withoutCheck s).bind fun s' =>
          cancelWhere g p withoutCheck iteration s'
      else cancelWhere g p withoutCheck iteration s

def cancelForTicker (g : Gateway γ) (tickerId : ℕ) (withoutCheck : Bool) (iteration : List ℕ)
    (s : Oms γ) : Option (Oms γ) :=
  cancelWhere g (fun order => tickerId = order.req.contract.tickerId) withoutCheck iteration s

def cancelAll (g : Gateway γ) (withoutCheck : Bool) (iteration : List ℕ) (s : Oms γ) :
    Option (Oms γ) :=
  cancelWhere g (fun _ => true) withoutCheck iteration s

def executeCmd (g : Gateway γ) (ct : ContractTable) (clock : ℕ → UInt64) (iteration : List ℕ)
    (cmd : TraderCommand) (mqId : ℕ) (s : Oms γ) : Option (Oms γ) :=
  if cmd.magic ≠ kTradingCmdMagic then some s
  else match cmd.cmd with
    | .kNewOrder orderReq => some (sendOrder g ct clock cmd orderReq mqId s).2
    | .kCancelOrder orderId => cancelOrder g orderId cmd.withoutCheck s
    | .kCancelTicker tickerId => cancelForTicker g tickerId cmd.withoutCheck iteration s
    | .kCancelAll => cancelAll g cmd.withoutCheck iteration s
    | .kNotify signal => (g.onNotify signal s.gateway).map fun gateway => { s with gateway }
    | .unknown => some s

def onAccount (account : Account) (s : Oms γ) : Oms γ :=
  { s with params := { s.params with account } }

def putOrder (id : ℕ) (order : Order) (s : Oms γ) : Oms γ :=
  { s with params := { s.params with orderMap := s.params.orderMap.insert id order } }

def eraseOrder (id : ℕ) (s : Oms γ) : Oms γ :=
  { s with params := { s.params with orderMap := s.params.orderMap.erase id } }

def eraseCompleted (id : ℕ) (order : Order) (s : Oms γ) : Oms γ :=
  if order.tradedVolume + order.canceledVolume = order.req.volume then eraseOrder id s else s

def onOrderAccepted (id : ℕ) (s : Oms γ) : Oms γ :=
  match s.orderMap.find? id with
  | none => s
  | some order =>
    if order.accepted then s
    else
      let order := { order with accepted := true, status := .kAccepted }
      sendRspToStrategy order 0 0 .kNoError (putOrder id order s)

def onOrderRejected (id : ℕ) (s : Oms γ) : Oms γ :=
  match s.orderMap.find? id with
  | none => s
  | some order =>
    let order := { order with status := .kRejected }
    let s := putOrder id order s
    let s := { s with params := RiskManagementSystem.onOrderRejected order s.rules s.params }
    eraseOrder id (sendRspToStrategy order 0 0 .kRejected s)

/-- A fill that comes before the acceptance stands for it. -/
def markAccepted (order : Order) (s : Oms γ) : Oms γ :=
  if order.accepted then s
  else sendRspToStrategy { order with accepted := true } 0 0 .kNoError s

def onSecondaryMarketTraded (ct : ContractTable) (rsp : OrderTradedRsp) (s : Oms γ) : Oms γ :=
  match s.orderMap.find? rsp.orderId with
  | none => s
  | some order =>
    let s := markAccepted order s
    let order := order.traded rsp.volume
    let s := putOrder rsp.orderId order s
    let s := { s with params := RiskManagementSystem.onOrderTraded ct order rsp s.rules s.params }
    eraseCompleted rsp.orderId order (sendRspToStrategy order rsp.volume rsp.price .kNoError s)

def onOrderCanceled (id : ℕ) (canceledVolume : ℤ) (s : Oms γ) : Oms γ :=
  match s.orderMap.find? id with
  | none => s
  | some order =>
    let order := { order with canceledVolume, status := .kCanceled }
    let s := putOrder id order s
    let s := { s with
      params := RiskManagementSystem.onOrderCanceled order canceledVolume s.rules s.params }
    eraseCompleted id order (sendRspToStrategy order 0 0 .kNoError s)

def visit (ct : ContractTable) (s : Oms γ) : GatewayOrderResponse → Oms γ
  | .accepted id => onOrderAccepted id s
  | .traded rsp => onSecondaryMarketTraded ct rsp s
  | .rejected id _ => onOrderRejected id s
  | .canceled id canceledVolume => onOrderCanceled id canceledVolume s
  | .cancelRejected _ _ => s

/-- At most `count` responses are taken from the ring. -/
def drain (g : Gateway γ) (ct : ContractTable) : ℕ → Oms γ → Oms γ
  | 0, s => s
  | count + 1, s =>
    match g.getOrderRsp s.gateway with
    | none => s
    | some (rsp, gateway) => drain g ct count (visit ct { s with gateway } rsp)

def processRsp (g : Gateway γ) (ct : ContractTable) (s : Oms γ) : Oms γ := drain g ct 3 s

section Commands

variable {g : Gateway γ} {ct : ContractTable} {clock : ℕ → UInt64} {iteration : List ℕ}
  {cmd : TraderCommand} {mqId : ℕ} {withoutCheck : Bool} {s s' : Oms γ}

theorem checkOrder_snd (clock : ℕ → UInt64) (withoutCheck : Bool) (order : Order) (s : Oms γ) :
    ∃ rules, rules.map RiskRule.kind = s.rules.map RiskRule.kind ∧
      (checkOrder clock withoutCheck order s).2 = { s with rules } := by
  unfold checkOrder
  split_ifs
  · exact ⟨s.rules, rfl, rfl⟩
  · exact ⟨_, RiskManagementSystem.kinds_checkOrderRequest s.params order clock s.rules, rfl⟩

theorem checkOrder_fst (order : Order) (n : ℕ) :
    (checkOrder clock withoutCheck order { s with nextOmsOrderId := n }).1 =
      (checkOrder clock withoutCheck order s).1 := by
  unfold checkOrder
  split_ifs <;> rfl

theorem sendOrder_cases (g : Gateway γ) (clock : ℕ → UInt64) (cmd : TraderCommand) (mqId : ℕ)
    (s : Oms γ) {contract : Contract} {orderReq : TraderOrderReq}
    (hc : ct.getByIndex orderReq.tickerId = some contract) :
    ∃ order rules, order = newOrder contract cmd orderReq mqId s.nextOmsOrderId ∧
      rules.map RiskRule.kind = s.rules.map RiskRule.kind ∧
      (((checkOrder clock cmd.withoutCheck order s).1 ≠ .kNoError ∧
          sendOrder g ct clock cmd orderReq mqId s =
            (false, sendRspToStrategy order 0 0 (checkOrder clock cmd.withoutCheck order s).1
              { s with nextOmsOrderId := s.nextOmsOrderId + 1, rules })) ∨
        ((checkOrder clock cmd.withoutCheck order s).1 = .kNoError ∧
          sendOrder g ct clock cmd orderReq mqId s =
            submit g order { s with nextOmsOrderId := s.nextOmsOrderId + 1, rules })) := by
  obtain ⟨rules, hk, hs⟩ := checkOrder_snd clock cmd.withoutCheck
    (newOrder contract cmd orderReq mqId s.nextOmsOrderId)
    { s with nextOmsOrderId := s.nextOmsOrderId + 1 }
  refine ⟨_, rules, rfl, hk, ?_⟩
  simp only [sendOrder, hc, checkOrder_fst, hs]
  split_ifs with he
  · exact Or.inl ⟨he, rfl⟩
  · exact Or.inr ⟨not_not.mp he, rfl⟩

theorem submit_cases (g : Gateway γ) (order : Order) (s : Oms γ) :
    ∃ privdata gateway, g.sendOrder order.req s.gateway =
        ((g.sendOrder order.req s.gateway).1, privdata, gateway) ∧
      (((g.sendOrder order.req s.gateway).1 = true ∧
          submit g order s = (true, orderSent { order with privdata } { s with gateway })) ∨
        ((g.sendOrder order.req s.gateway).1 = false ∧
          submit g order s = (false, sendFailed { order with privdata } { s with gateway }))) := by
  refine ⟨_, _, rfl, ?_⟩
  unfold submit
  cases h : (g.sendOrder order.req s.gateway).1 with
  | true => exact Or.inl ⟨rfl, if_pos h⟩
  | false => exact Or.inr ⟨rfl, if_neg (by simp [h])⟩

theorem orderSent_orderMap (order : Order) (s : Oms γ) :
    (orderSent order s).orderMap = s.orderMap.emplace order.req.orderId order :=
  RiskManagementSystem.onOrderSent_orderMap order s.rules _

theorem sendOrder_outcome (g : Gateway γ) (clock : ℕ → UInt64) (cmd : TraderCommand) (mqId : ℕ)
    (s : Oms γ) {contract : Contract} {orderReq : TraderOrderReq}
    (hc : ct.getByIndex orderReq.tickerId = some contract) :
    ∃ order returned s', order = newOrder contract cmd orderReq mqId s.nextOmsOrderId ∧
      sendOrder g ct clock cmd orderReq mqId s = (returned, s') ∧
      s'.nextOmsOrderId = s.nextOmsOrderId + 1 ∧
      s'.rules.map RiskRule.kind = s.rules.map RiskRule.kind ∧
      ((returned = false ∧ s'.orderMap = s.orderMap ∧
          ∃ errorCode, errorCode ≠ .kNoError ∧
            s'.rspWriters = s.rspWriters ++ [(mqId, order.response 0 0 errorCode)]) ∨
        (returned = true ∧ (checkOrder clock cmd.withoutCheck order s).1 = .kNoError ∧
          (∃ privdata, s'.orderMap =
            s.orderMap.emplace order.req.orderId { order with privdata }) ∧
          s'.rspWriters = s.rspWriters)) := by
  obtain ⟨order, rules, ho, hk, ⟨hne, hs⟩ | ⟨heq, hs⟩⟩ := sendOrder_cases g clock cmd mqId s hc
  · refine ⟨order, _, _, ho, hs, rfl, hk, Or.inl ⟨rfl, rfl, _, hne, ?_⟩⟩
    rw [ho]
    rfl
  · obtain ⟨privdata, gateway, -, ⟨-, hsub⟩ | ⟨-, hsub⟩⟩ := submit_cases g order
      { s with nextOmsOrderId := s.nextOmsOrderId + 1, rules }
    · refine ⟨order, _, _, ho, hs.trans hsub, rfl, ?_, Or.inr ⟨rfl, heq, ⟨privdata, ?_⟩, rfl⟩⟩
      · exact (RiskManagementSystem.kinds_recordSent rules).trans hk
      · exact orderSent_orderMap _ _
    · refine ⟨order, _, _, ho, hs.trans hsub, rfl, hk, Or.inl ⟨rfl, ?_, .kSendFailed, by decide, ?_⟩⟩
      · exact RiskManagementSystem.onOrderRejected_orderMap _ rules s.params
      · rw [ho]
        rfl

theorem doCancelOrder_eq_some {order : Order} :
    doCancelOrder g order withoutCheck s = some s' ↔
      ∃ r, g.cancelOrder order.req.orderId order.privdata s.gateway = some r ∧
        s' = { s with gateway := r.2 } := by
  have hr : ¬ (withoutCheck = false ∧
      RiskManagementSystem.checkCancelReq order s.rules ≠ .kNoError) :=
    fun h => h.2 (RiskManagementSystem.checkCancelReq_eq order s.rules)
  simp only [doCancelOrder, if_neg hr, Option.map_eq_some_iff]
  exact exists_congr fun r => and_congr_right fun _ => eq_comm

/-- What a cancel request of any kind does: only the gateway moves, by cancels of
live orders. -/
theorem cancelWhere_invariant (P : γ → Prop) {p : Order → Bool} {m : OrderMap}
    (hP : ∀ id order gw r, m.find? id = some order → P gw →
      g.cancelOrder order.req.orderId order.privdata gw = some r → P r.2)
    (h : cancelWhere g p withoutCheck iteration s = some s') (hm : s.orderMap = m)
    (hs : P s.gateway) :
    P s'.gateway ∧ s' = { s with gateway := s'.gateway } := by
  induction iteration generalizing s with
  | nil =>
    cases h
    exact ⟨hs, rfl⟩
  | cons id iteration ih =>
    rw [cancelWhere] at h
    cases hf : s.orderMap.find? id with
    | none =>
      simp only [hf] at h
      exact ih h hm hs
    | some order =>
      simp only [hf] at h
      split_ifs at h with hp
      · obtain ⟨t, ht, hrest⟩ := Option.bind_eq_some_iff.mp h
        obtain ⟨r, hr, rfl⟩ := doCancelOrder_eq_some.mp ht
        have hih := ih hrest hm (hP id order _ r (hm ▸ hf) hs hr)
        exact hih
      · exact ih h hm hs

theorem executeCmd_invariant (P : γ → Prop)
    (hcancel : ∀ id privdata gw r, P gw → g.cancelOrder id privdata gw = some r → P r.2)
    (hnotify : ∀ signal gw gw', P gw → g.onNotify signal gw = some gw' → P gw')
    (h : executeCmd g ct clock iteration cmd mqId s = some s') :
    (∃ orderReq, cmd.Submits orderReq ∧ s' = (sendOrder g ct clock cmd orderReq mqId s).2) ∨
      (s' = { s with gateway := s'.gateway } ∧ (P s.gateway → P s'.gateway)) := by
  unfold executeCmd at h
  split_ifs at h with hmagic
  · cases h
    exact Or.inr ⟨rfl, id⟩
  · have hwhere : ∀ {p : Order → Bool}, cancelWhere g p cmd.withoutCheck iteration s = some s' →
        s' = { s with gateway := s'.gateway } ∧ (P s.gateway → P s'.gateway) := by
      intro p hw
      refine ⟨(cancelWhere_invariant (fun _ => True) (fun _ _ _ _ _ _ _ => trivial) hw rfl
        trivial).2, fun hs => ?_⟩
      exact (cancelWhere_invariant P (fun _ _ gw r _ hgw hr => hcancel _ _ gw r hgw hr) hw rfl hs).1
    cases hk : cmd.cmd with
    | kNewOrder orderReq =>
      simp only [hk, Option.some.injEq] at h
      exact Or.inl ⟨orderReq, ⟨not_not.mp hmagic, hk⟩, h.symm⟩
    | kCancelOrder orderId =>
      simp only [hk, cancelOrder] at h
      cases hf : s.orderMap.find? orderId with
      | none =>
        simp only [hf, Option.some.injEq] at h
        subst h
        exact Or.inr ⟨rfl, id⟩
      | some order =>
        simp only [hf] at h
        obtain ⟨r, hr, rfl⟩ := doCancelOrder_eq_some.mp h
        exact Or.inr ⟨rfl, fun hs => hcancel _ _ s.gateway r hs hr⟩
    | kCancelTicker tickerId =>
      simp only [hk] at h
      exact Or.inr (hwhere h)
    | kCancelAll =>
      simp only [hk] at h
      exact Or.inr (hwhere h)
    | kNotify signal =>
      simp only [hk] at h
      obtain ⟨gw, hgw, rfl⟩ := Option.map_eq_some_iff.mp h
      exact Or.inr ⟨rfl, fun hs => hnotify signal s.gateway gw hs hgw⟩
    | unknown =>
      simp only [hk, Option.some.injEq] at h
      subst h
      exact Or.inr ⟨rfl, id⟩

theorem executeCmd_cases (h : executeCmd g ct clock iteration cmd mqId s = some s') :
    (∃ orderReq, cmd.Submits orderReq ∧ s' = (sendOrder g ct clock cmd orderReq mqId s).2) ∨
      s' = { s with gateway := s'.gateway } :=
  (executeCmd_invariant (fun _ => True) (fun _ _ _ _ _ _ => trivial) (fun _ _ _ _ _ => trivial)
    h).imp_right And.left

end Commands

end Oms

inductive OmsAction
  | execute (cmd : TraderCommand) (mqId : ℕ) (clock : ℕ → UInt64) (iteration : List ℕ)
  | deliver (rsp : GatewayOrderResponse)
  | account (account : Account)

namespace Oms

variable {γ : Type}

/-- The loops of a cancel command see every key of the order map once. -/
def step (g : Gateway γ) (ct : ContractTable) (s : Oms γ) : OmsAction → Option (Oms γ)
  | .execute cmd mqId clock iteration =>
    if iteration.Perm s.orderMap.keys then executeCmd g ct clock iteration cmd mqId s else none
  | .deliver rsp => some (visit ct s rsp)
  | .account account => some (onAccount account s)

structure Started (s : Oms γ) : Prop where
  nextOmsOrderId : s.nextOmsOrderId = 1
  orderMap : s.orderMap = SortedMap.empty
  rspWriters : s.rspWriters = []

theorem step_cases {g : Gateway γ} {ct : ContractTable} {s s' : Oms γ} {a : OmsAction}
    (h : step g ct s a = some s') :
    (∃ cmd mqId clock iteration orderReq contract, a = .execute cmd mqId clock iteration ∧
        cmd.Submits orderReq ∧ ct.getByIndex orderReq.tickerId = some contract ∧
        s' = (sendOrder g ct clock cmd orderReq mqId s).2) ∨
      (∃ rsp, a = .deliver rsp ∧ s' = visit ct s rsp) ∨
      ((∀ rsp, a ≠ .deliver rsp) ∧ s'.orderMap = s.orderMap ∧
        s'.nextOmsOrderId = s.nextOmsOrderId ∧ s'.rules = s.rules ∧
        s'.rspWriters = s.rspWriters) := by
  cases a with
  | execute cmd mqId clock iteration =>
    simp only [step] at h
    split_ifs at h
    have hnot : ∀ rsp, OmsAction.execute cmd mqId clock iteration ≠ .deliver rsp := by simp
    rcases executeCmd_cases h with ⟨orderReq, hk, hs⟩ | hs
    · cases hc : ct.getByIndex orderReq.tickerId with
      | none =>
        simp only [sendOrder, hc] at hs
        rw [hs]
        exact Or.inr (Or.inr ⟨hnot, rfl, rfl, rfl, rfl⟩)
      | some contract =>
        exact Or.inl ⟨cmd, mqId, clock, iteration, orderReq, contract, rfl, hk, hc, hs⟩
    · rw [hs]
      exact Or.inr (Or.inr ⟨hnot, rfl, rfl, rfl, rfl⟩)
  | deliver rsp =>
    cases h
    exact Or.inr (Or.inl ⟨rsp, rfl, rfl⟩)
  | account account =>
    cases h
    exact Or.inr (Or.inr ⟨fun rsp => by simp, rfl, rfl, rfl, rfl⟩)

theorem sendOrder_nextOmsOrderId (g : Gateway γ) (ct : ContractTable) (clock : ℕ → UInt64)
    (cmd : TraderCommand) (orderReq : TraderOrderReq) (mqId : ℕ) (s : Oms γ) :
    s.nextOmsOrderId ≤ (sendOrder g ct clock cmd orderReq mqId s).2.nextOmsOrderId := by
  cases hc : ct.getByIndex orderReq.tickerId with
  | none =>
    simp only [sendOrder, hc]
    exact le_rfl
  | some contract =>
    obtain ⟨_, _, _, -, hs, hnext, -⟩ := sendOrder_outcome g clock cmd mqId s hc
    rw [hs]
    simp only [hnext]
    omega

theorem step_newOrder (g : Gateway γ) (ct : ContractTable) (clock : ℕ → UInt64)
    {cmd : TraderCommand} {orderReq : TraderOrderReq} (h : cmd.Submits orderReq) (mqId : ℕ)
    (s : Oms γ) : step g ct s (.execute cmd mqId clock s.orderMap.keys) =
      some (sendOrder g ct clock cmd orderReq mqId s).2 := by
  simp only [step, List.Perm.refl, if_true, executeCmd, h.1, h.2]
  rfl

end Oms

def Gateway.stub (ok : Bool) : Gateway Unit where
  sendOrder := fun _ _ => (ok, 0, ())
  cancelOrder := fun _ _ _ => some (ok, ())
  onNotify := fun _ _ => some ()
  getOrderRsp := fun _ => none

def Oms.fresh (rules : List RiskRule) : Oms Unit where
  gateway := ()
  params := ⟨{ cash := 1000 }, .init ["strategy"], .empty⟩
  rules := rules

def ticker001 : Contract :=
  { ticker := "ticker001", size := 10, longMarginRate := 1 / 10, shortMarginRate := 1 / 10,
    tickerId := 1 }

end FlareTrader
