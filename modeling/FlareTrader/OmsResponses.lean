import FlareTrader.Oms

/-! The response handlers seen from one order: what becomes of it and what is
written for it. The visitor applies this to the order a response names and
leaves all other orders alone. -/

namespace FlareTrader

def Order.marked (order : Order) : Order := { order with accepted := true, status := .kAccepted }

def Order.canceled (order : Order) (volume : ℤ) : Order :=
  { order with canceledVolume := volume, status := .kCanceled }

def Order.unlessCompleted (order : Order) : Option Order :=
  if order.tradedVolume + order.canceledVolume = order.req.volume then none else some order

def Order.after (order : Order) : GatewayOrderResponse → Option Order
  | .accepted _ => if order.accepted then some order else some order.marked
  | .traded rsp => (order.traded rsp.volume).unlessCompleted
  | .rejected _ _ => none
  | .canceled _ volume => (order.canceled volume).unlessCompleted
  | .cancelRejected _ _ => some order

def Order.acknowledged (order : Order) : List OrderResponse :=
  if order.accepted then [] else [order.response 0 0 .kNoError]

def Order.written (order : Order) : GatewayOrderResponse → List OrderResponse
  | .accepted _ => order.acknowledged
  | .traded rsp =>
    order.acknowledged ++ [(order.traded rsp.volume).response rsp.volume rsp.price .kNoError]
  | .rejected _ _ => [order.response 0 0 .kRejected]
  | .canceled _ volume => [(order.canceled volume).response 0 0 .kNoError]
  | .cancelRejected _ _ => []

def Order.booked (ct : ContractTable) (order : Order) : GatewayOrderResponse →
    PositionManager → PositionManager
  | .traded rsp => PositionRisk.onOrderTraded ct order rsp
  | .rejected _ _ => PositionRisk.onOrderRejected order
  | .canceled _ volume => PositionRisk.onOrderCanceled order volume
  | _ => id

theorem Order.unlessCompleted_eq_some {order order' : Order} :
    order.unlessCompleted = some order' ↔
      order.tradedVolume + order.canceledVolume ≠ order.req.volume ∧ order = order' := by
  unfold Order.unlessCompleted
  split_ifs with h
  · simp [h]
  · simp [h]

theorem Order.after_eq_some {order order' : Order} {rsp : GatewayOrderResponse}
    (h : order.after rsp = some order') :
    order'.req = order.req ∧ order'.strategyId = order.strategyId ∧ order'.mqId = order.mqId := by
  cases rsp with
  | accepted id =>
    simp only [Order.after] at h
    split_ifs at h
    · cases h
      exact ⟨rfl, rfl, rfl⟩
    · cases h
      exact ⟨rfl, rfl, rfl⟩
  | traded rsp =>
    obtain ⟨-, rfl⟩ := Order.unlessCompleted_eq_some.mp h
    exact ⟨rfl, rfl, rfl⟩
  | rejected id reason => cases h
  | canceled id volume =>
    obtain ⟨-, rfl⟩ := Order.unlessCompleted_eq_some.mp h
    exact ⟨rfl, rfl, rfl⟩
  | cancelRejected id reason =>
    cases h
    exact ⟨rfl, rfl, rfl⟩

namespace Oms

variable {γ : Type} (ct : ContractTable) {s : Oms γ} {rsp : GatewayOrderResponse}

theorem visit_of_find?_none (h : s.orderMap.find? rsp.orderId = none) : visit ct s rsp = s := by
  cases rsp with
  | accepted id =>
    simp only [GatewayOrderResponse.orderId] at h
    simp only [visit, onOrderAccepted, h]
  | traded rsp =>
    simp only [GatewayOrderResponse.orderId] at h
    simp only [visit, onSecondaryMarketTraded, h]
  | rejected id reason =>
    simp only [GatewayOrderResponse.orderId] at h
    simp only [visit, onOrderRejected, h]
  | canceled id volume =>
    simp only [GatewayOrderResponse.orderId] at h
    simp only [visit, onOrderCanceled, h]
  | cancelRejected id reason => rfl

/-- A state in which the order `id` has become `order'`, some responses have been
written and the positions booked. -/
structure Became (id : ℕ) (order' : Option Order) (rsps : List (ℕ × OrderResponse))
    (book : PositionManager → PositionManager) (s s' : Oms γ) : Prop where
  orderMap : ∀ k, s'.orderMap.find? k = if k = id then order' else s.orderMap.find? k
  rspWriters : s'.rspWriters = s.rspWriters ++ rsps
  posManager : s'.params.posManager =
    book^[(s.rules.map RiskRule.kind).count .position] s.params.posManager
  gateway : s'.gateway = s.gateway
  nextOmsOrderId : s'.nextOmsOrderId = s.nextOmsOrderId
  rules : s'.rules = s.rules

theorem eraseCompleted_find? (id : ℕ) (order : Order) (s : Oms γ)
    (h : s.orderMap.find? id = some order) (k : ℕ) :
    (eraseCompleted id order s).orderMap.find? k =
      if k = id then order.unlessCompleted else s.orderMap.find? k := by
  unfold eraseCompleted Order.unlessCompleted
  by_cases hd : order.tradedVolume + order.canceledVolume = order.req.volume
  · simp only [if_pos hd]
    exact SortedMap.find?_erase s.orderMap id k
  · simp only [if_neg hd]
    split_ifs with hk
    · rw [hk, h]
    · rfl

theorem eraseCompleted_eq (id : ℕ) (order : Order) (s : Oms γ) :
    (eraseCompleted id order s).rspWriters = s.rspWriters ∧
      (eraseCompleted id order s).params.posManager = s.params.posManager ∧
      (eraseCompleted id order s).gateway = s.gateway ∧
      (eraseCompleted id order s).nextOmsOrderId = s.nextOmsOrderId ∧
      (eraseCompleted id order s).rules = s.rules := by
  unfold eraseCompleted
  split_ifs <;> exact ⟨rfl, rfl, rfl, rfl, rfl⟩

theorem markAccepted_eq (order : Order) (s : Oms γ) :
    markAccepted order s =
      { s with rspWriters := s.rspWriters ++ order.acknowledged.map (order.mqId, ·) } := by
  unfold markAccepted Order.acknowledged
  split_ifs
  · simp
  · rfl

/-- Both handlers that can complete an order end in the same way: the order is
stored, booked, reported and erased if completed. -/
theorem reported_became (id : ℕ) (order : Order) (rsps : List (ℕ × OrderResponse))
    {book : PositionManager → PositionManager} {hook : RiskRuleParams → RiskRuleParams}
    (thisTraded : ℤ) (price : ℚ) (hmap : ∀ p, (hook p).orderMap = p.orderMap)
    (hpos : ∀ p, (hook p).posManager =
      book^[(s.rules.map RiskRule.kind).count .position] p.posManager) :
    Became id order.unlessCompleted
      (rsps ++ [(order.mqId, order.response thisTraded price .kNoError)]) book s
      (eraseCompleted id order (sendRspToStrategy order thisTraded price .kNoError
        { s with
          params := hook { s.params with orderMap := s.params.orderMap.insert id order }
          rspWriters := s.rspWriters ++ rsps })) := by
  obtain ⟨hw, hp, hg, hn, hr⟩ := eraseCompleted_eq id order
    (sendRspToStrategy order thisTraded price .kNoError
      { s with
        params := hook { s.params with orderMap := s.params.orderMap.insert id order }
        rspWriters := s.rspWriters ++ rsps })
  refine ⟨fun k => ?_, ?_, ?_, hg, hn, hr⟩
  · rw [eraseCompleted_find?]
    · split_ifs with hk
      · rfl
      · simp only [sendRspToStrategy, orderMap, hmap]
        exact SortedMap.find?_insert_of_ne _ hk order
    · simp only [sendRspToStrategy, orderMap, hmap]
      exact SortedMap.find?_insert_self _ id order
  · rw [hw]
    exact List.append_assoc s.rspWriters rsps _
  · rw [hp]
    exact hpos _

theorem visit_became {order : Order} (h : s.orderMap.find? rsp.orderId = some order) :
    Became rsp.orderId (order.after rsp) ((order.written rsp).map (order.mqId, ·))
      (order.booked ct rsp) s (visit ct s rsp) := by
  have hself : Became rsp.orderId (some order) [] id s s := by
    refine ⟨fun k => ?_, (List.append_nil _).symm, ?_, rfl, rfl, rfl⟩
    · split_ifs with hk
      · rw [hk, h]
      · rfl
    · rw [Function.iterate_id]
      rfl
  cases rsp with
  | accepted i =>
    simp only [GatewayOrderResponse.orderId] at h hself ⊢
    simp only [visit, onOrderAccepted, h, Order.after, Order.written, Order.acknowledged]
    split_ifs
    · exact hself
    · refine ⟨fun k => SortedMap.find?_insert s.params.orderMap i k _, rfl, ?_, rfl, rfl, rfl⟩
      change _ = id^[_] _
      rw [Function.iterate_id]
      rfl
  | traded rsp =>
    simp only [GatewayOrderResponse.orderId] at h hself ⊢
    simp only [visit, onSecondaryMarketTraded, h, markAccepted_eq, Order.written, List.map_append]
    exact reported_became rsp.orderId _ _ rsp.volume rsp.price
      (fun p => RiskManagementSystem.onOrderTraded_orderMap ct _ rsp s.rules p)
      (fun p => RiskManagementSystem.onOrderTraded_posManager ct _ rsp s.rules p)
  | rejected i reason =>
    simp only [GatewayOrderResponse.orderId] at h hself ⊢
    simp only [visit, onOrderRejected, h]
    refine ⟨fun k => ?_, rfl, ?_, rfl, rfl, rfl⟩
    · simp only [eraseOrder, sendRspToStrategy, orderMap, putOrder,
        RiskManagementSystem.onOrderRejected_orderMap, SortedMap.find?_erase, Order.after]
      split_ifs with hk
      · rfl
      · exact SortedMap.find?_insert_of_ne _ hk _
    · exact RiskManagementSystem.onOrderRejected_posManager _ s.rules _
  | canceled i volume =>
    simp only [GatewayOrderResponse.orderId] at h hself ⊢
    simp only [visit, onOrderCanceled, h]
    have hb := reported_became i (order.canceled volume) [] 0 0
      (fun p => RiskManagementSystem.onOrderCanceled_orderMap (order.canceled volume) volume s.rules p)
      (fun p => RiskManagementSystem.onOrderCanceled_posManager (order.canceled volume) volume
        s.rules p)
    simp only [List.append_nil, List.nil_append] at hb
    exact hb
  | cancelRejected i reason => exact hself

theorem nextOmsOrderId_mono {g : Gateway γ} {s' : Oms γ} {a : OmsAction}
    (h : step g ct s a = some s') : s.nextOmsOrderId ≤ s'.nextOmsOrderId := by
  rcases step_cases h with ⟨cmd, mqId, clock, iteration, orderReq, contract, -, -, -, rfl⟩ |
    ⟨rsp, -, rfl⟩ | ⟨-, -, hnext, -⟩
  · exact sendOrder_nextOmsOrderId g ct clock cmd orderReq mqId s
  · cases hf : s.orderMap.find? rsp.orderId with
    | none => rw [visit_of_find?_none ct hf]
    | some order => rw [(visit_became ct hf).nextOmsOrderId]
  · exact hnext.ge

end Oms

end FlareTrader
