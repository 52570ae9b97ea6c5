import FlareTrader.OmsCompletion

/-! The funds that the fund rule keeps frozen. Each response on a live order
releases what it takes from the order's open volume, at the order's own price,
so that what is frozen is the reserve of the orders that are live. -/

namespace FlareTrader

def Account.worth (account : Account) : ℚ := account.cash + account.frozen + account.margin

def Order.hold (order : Order) (volume : ℤ) : ℚ :=
  if isOffsetOpen order.req.offset then
    order.req.contract.size * volume * order.req.price * order.marginRate
  else 0

def Order.reserve (order : Order) : ℚ :=
  order.hold (order.req.volume - order.tradedVolume - order.canceledVolume)

def OrderMap.reserve (m : OrderMap) : ℚ := m.sum fun _ order => order.reserve

def Order.funded (order : Order) : GatewayOrderResponse → Account → Account
  | .traded rsp => FundRisk.onOrderTraded order rsp
  | .rejected _ _ => FundRisk.onOrderRejected order
  | .canceled _ volume => FundRisk.onOrderCanceled order volume
  | _ => id

def Order.taken (order : Order) : GatewayOrderResponse → ℤ
  | .traded rsp => rsp.volume
  | .rejected _ _ => order.req.volume
  | .canceled _ volume => volume
  | _ => 0

namespace FundRisk

variable {order : Order} {account : Account}

theorem worth_onOrderSent : (onOrderSent order account).worth = account.worth := by
  unfold onOrderSent Account.worth
  split_ifs
  · simp only
    ring
  · rfl

theorem worth_onOrderCanceled (canceled : ℤ) :
    (onOrderCanceled order canceled account).worth = account.worth := by
  unfold onOrderCanceled Account.worth
  split_ifs
  · simp only
    ring
  · rfl

theorem worth_onOrderTraded (h : isOffsetOpen order.req.offset = true) (trade : OrderTradedRsp) :
    (onOrderTraded order trade account).worth = account.worth := by
  unfold onOrderTraded Account.worth
  rw [if_pos h]
  simp only
  ring

theorem worth_funded (h : isOffsetOpen order.req.offset = true) (rsp : GatewayOrderResponse) :
    (order.funded rsp account).worth = account.worth := by
  cases rsp with
  | accepted id => rfl
  | traded rsp => exact worth_onOrderTraded h rsp
  | rejected id reason => exact worth_onOrderCanceled _
  | canceled id volume => exact worth_onOrderCanceled volume
  | cancelRejected id reason => rfl

end FundRisk

def Order.Fits (order : Order) (volume : ℤ) : Prop :=
  |order.req.contract.size * volume| < 2 ^ 31

instance (order : Order) (volume : ℤ) : Decidable (order.Fits volume) :=
  inferInstanceAs (Decidable (_ < _))

theorem Order.margin_eq {order : Order} {volume : ℤ} (h : order.Fits volume) (price : ℚ) :
    order.margin volume price = order.req.contract.size * volume * price * order.marginRate := by
  rw [Order.margin, intMul_eq_mul h]
  push_cast
  rfl

theorem Order.frozen_funded {order : Order} {rsp : GatewayOrderResponse}
    (h : order.Fits (order.taken rsp)) (account : Account) :
    (order.funded rsp account).frozen = account.frozen - order.hold (order.taken rsp) := by
  have hmargin := Order.margin_eq h order.req.price
  cases rsp with
  | accepted id => simp [Order.funded, Order.taken, Order.hold]
  | cancelRejected id reason => simp [Order.funded, Order.taken, Order.hold]
  | traded rsp =>
    simp only [Order.taken, Order.hold] at hmargin ⊢
    simp only [Order.funded, FundRisk.onOrderTraded, ← hmargin]
    split_ifs <;> simp
  | rejected id reason =>
    simp only [Order.taken, Order.hold] at hmargin ⊢
    simp only [Order.funded, FundRisk.onOrderRejected, FundRisk.onOrderCanceled, ← hmargin]
    split_ifs <;> simp
  | canceled id volume =>
    simp only [Order.taken, Order.hold] at hmargin ⊢
    simp only [Order.funded, FundRisk.onOrderCanceled, ← hmargin]
    split_ifs <;> simp

/-- What a gateway may send for an order whose funds are accounted for. -/
structure Behaves (volume : ℤ) (heard : List GatewayOrderResponse) : Prop where
  fills_pos : ∀ v ∈ fills heard, 0 < v
  one_cancel : (cancels heard).length ≤ 1
  rejected_alone : rejections heard ≠ [] → fills heard = [] ∧ cancels heard = []
  bounded : (fills heard).sum + (cancels heard).sum ≤ volume

structure Order.Counts (order : Order) (heard : List GatewayOrderResponse) : Prop where
  traded : order.tradedVolume = (fills heard).sum
  canceled : order.canceledVolume = (cancels heard).sum

theorem fills_append (heard rsps : List GatewayOrderResponse) :
    fills (heard ++ rsps) = fills heard ++ fills rsps :=
  List.filterMap_append

theorem cancels_append (heard rsps : List GatewayOrderResponse) :
    cancels (heard ++ rsps) = cancels heard ++ cancels rsps :=
  List.filterMap_append

section Respond

variable {order : Order} {heard : List GatewayOrderResponse} {rsp : GatewayOrderResponse}

theorem Behaves.uncanceled {id : ℕ} {volume total : ℤ}
    (h : Behaves total (heard ++ [GatewayOrderResponse.canceled id volume])) : cancels heard = [] := by
  have hone := h.one_cancel
  rw [cancels_append, List.length_append] at hone
  have hlast : (cancels [.canceled id volume]).length = 1 := rfl
  exact List.length_eq_zero_iff.mp (by omega)

theorem Behaves.untouched {id : ℕ} {reason : String} {total : ℤ}
    (h : Behaves total (heard ++ [GatewayOrderResponse.rejected id reason])) :
    fills heard = [] ∧ cancels heard = [] := by
  have hne : rejections (heard ++ [GatewayOrderResponse.rejected id reason]) ≠ [] := by
    simp [rejections]
  obtain ⟨hf, hc⟩ := h.rejected_alone hne
  rw [fills_append] at hf
  rw [cancels_append] at hc
  exact ⟨(List.append_eq_nil_iff.mp hf).1, (List.append_eq_nil_iff.mp hc).1⟩

theorem Order.Counts.after {order' : Order} (h : order.Counts heard)
    (hb : Behaves order.req.volume (heard ++ [rsp])) (ho : order.after rsp = some order') :
    order'.Counts (heard ++ [rsp]) := by
  have hsame : ∀ {o : Order}, fills [rsp] = [] → cancels [rsp] = [] →
      o.tradedVolume = order.tradedVolume → o.canceledVolume = order.canceledVolume →
      o.Counts (heard ++ [rsp]) := by
    intro o hf hc ht hv
    refine ⟨?_, ?_⟩
    · rw [fills_append, hf, List.append_nil, ht, h.traded]
    · rw [cancels_append, hc, List.append_nil, hv, h.canceled]
  cases rsp with
  | accepted id =>
    simp only [Order.after] at ho
    split_ifs at ho
    · cases ho
      exact hsame rfl rfl rfl rfl
    · cases ho
      exact hsame rfl rfl rfl rfl
  | traded rsp =>
    obtain ⟨-, rfl⟩ := Order.unlessCompleted_eq_some.mp ho
    refine ⟨?_, ?_⟩
    · rw [fills_append, List.sum_append, ← h.traded]
      simp [fills, Order.traded]
    · rw [cancels_append, List.sum_append, ← h.canceled]
      simp [cancels, Order.traded]
  | rejected id reason => cases ho
  | canceled id volume =>
    obtain ⟨-, rfl⟩ := Order.unlessCompleted_eq_some.mp ho
    refine ⟨?_, ?_⟩
    · rw [fills_append, List.sum_append, ← h.traded]
      simp [fills, Order.canceled]
    · rw [cancels_append, hb.uncanceled]
      simp [cancels, Order.canceled]
  | cancelRejected id reason =>
    cases ho
    exact hsame rfl rfl rfl rfl

theorem Order.hold_sub (order : Order) (v w : ℤ) :
    order.hold (v - w) = order.hold v - order.hold w := by
  unfold Order.hold
  split_ifs
  · push_cast
    ring
  · ring

@[simp] theorem Order.hold_zero (order : Order) : order.hold 0 = 0 := by
  simp [Order.hold]

theorem Order.reserve_unlessCompleted (order : Order) :
    order.unlessCompleted.elim 0 Order.reserve = order.reserve := by
  unfold Order.unlessCompleted
  split_ifs with hd
  · have hzero : order.req.volume - order.tradedVolume - order.canceledVolume = 0 := by omega
    rw [Option.elim_none, Order.reserve, hzero, Order.hold_zero]
  · rfl

/-- A response takes from the reserve what the fund rule releases for it. -/
theorem Order.reserve_after (h : order.Counts heard)
    (hb : Behaves order.req.volume (heard ++ [rsp])) :
    (order.after rsp).elim 0 Order.reserve = order.reserve - order.hold (order.taken rsp) := by
  cases rsp with
  | accepted id =>
    simp only [Order.after, Order.taken, Order.hold_zero, sub_zero]
    split_ifs
    · rfl
    · rfl
  | traded rsp =>
    rw [Order.after, Order.reserve_unlessCompleted]
    refine Eq.trans (congrArg order.hold ?_) (order.hold_sub _ _)
    simp only [Order.traded, Order.taken]
    omega
  | rejected id reason =>
    obtain ⟨hf, hc⟩ := hb.untouched
    have htraded : order.tradedVolume = 0 := by rw [h.traded, hf, List.sum_nil]
    have hcanceled : order.canceledVolume = 0 := by rw [h.canceled, hc, List.sum_nil]
    simp [Order.after, Order.reserve, Order.taken, htraded, hcanceled]
  | canceled id volume =>
    have hcanceled : order.canceledVolume = 0 := by rw [h.canceled, hb.uncanceled, List.sum_nil]
    rw [Order.after, Order.reserve_unlessCompleted]
    refine Eq.trans (congrArg order.hold ?_) (order.hold_sub _ _)
    simp only [Order.canceled, Order.taken, hcanceled]
    omega
  | cancelRejected id reason => simp [Order.after, Order.taken]

end Respond

namespace Oms

variable {γ : Type} {g : Gateway γ} {ct : ContractTable} {s : Oms γ}

theorem eraseCompleted_account (id : ℕ) (order : Order) (s : Oms γ) :
    (eraseCompleted id order s).params.account = s.params.account := by
  unfold eraseCompleted
  split_ifs
  · rfl
  · rfl

theorem visit_account (ct : ContractTable) {rsp : GatewayOrderResponse} {order : Order}
    (h : s.orderMap.find? rsp.orderId = some order) :
    (visit ct s rsp).params.account =
      (order.funded rsp)^[(s.rules.map RiskRule.kind).count .fund] s.params.account := by
  cases rsp with
  | accepted i =>
    simp only [GatewayOrderResponse.orderId] at h
    simp only [visit, onOrderAccepted, h]
    change _ = id^[_] _
    rw [Function.iterate_id]
    split_ifs <;> rfl
  | traded rsp =>
    simp only [GatewayOrderResponse.orderId] at h
    simp only [visit, onSecondaryMarketTraded, h, markAccepted_eq, eraseCompleted_account]
    exact RiskManagementSystem.onOrderTraded_account ct (order.traded rsp.volume) rsp s.rules _
  | rejected i reason =>
    simp only [GatewayOrderResponse.orderId] at h
    simp only [visit, onOrderRejected, h]
    exact RiskManagementSystem.onOrderRejected_account _ s.rules _
  | canceled i volume =>
    simp only [GatewayOrderResponse.orderId] at h
    simp only [visit, onOrderCanceled, h, eraseCompleted_account]
    exact RiskManagementSystem.onOrderCanceled_account (order.canceled volume) volume s.rules _
  | cancelRejected i reason =>
    change _ = id^[_] _
    rw [Function.iterate_id]
    rfl

theorem step_execute_cases {cmd : TraderCommand} {mqId : ℕ} {clock : ℕ → UInt64}
    {iteration : List ℕ} {s' : Oms γ}
    (h : step g ct s (.execute cmd mqId clock iteration) = some s') :
    (∃ orderReq contract, cmd.Submits orderReq ∧ ct.getByIndex orderReq.tickerId = some contract ∧
        s' = (sendOrder g ct clock cmd orderReq mqId s).2) ∨
      s' = { s with gateway := s'.gateway } := by
  simp only [step] at h
  split_ifs at h
  rcases executeCmd_cases h with ⟨orderReq, hk, hs⟩ | hs
  · cases hc : ct.getByIndex orderReq.tickerId with
    | none =>
      right
      rw [hs, sendOrder, hc]
    | some contract => exact Or.inl ⟨orderReq, contract, hk, hc, hs⟩
  · exact Or.inr hs

theorem orderSent_account (order : Order) (s : Oms γ) :
    (orderSent order s).params.account =
      (FundRisk.onOrderSent order)^[(s.rules.map RiskRule.kind).count .fund] s.params.account :=
  RiskManagementSystem.onOrderSent_account order s.rules _

end Oms

theorem FundRisk.frozen_onOrderSent {order : Order} (h : order.Fits order.req.volume)
    (account : Account) :
    (FundRisk.onOrderSent order account).frozen = account.frozen + order.hold order.req.volume := by
  have hmargin := Order.margin_eq h order.req.price
  simp only [FundRisk.onOrderSent, Order.hold, ← hmargin]
  split_ifs
  · rfl
  · rw [add_zero]

namespace Tracked

variable {γ : Type} {g : Gateway γ} {ct : ContractTable}

/-- The gateway takes every order that passes the rules and behaves for the
orders that are live, nothing overflows and the account is not refreshed. -/
def Funded (g : Gateway γ) (ct : ContractTable) (t : Tracked γ) : OmsAction → Prop
  | .execute cmd mqId clock _ => ∀ orderReq contract, cmd.Submits orderReq →
      ct.getByIndex orderReq.tickerId = some contract →
      let order := Oms.newOrder contract cmd orderReq mqId t.oms.nextOmsOrderId
      (Oms.checkOrder clock cmd.withoutCheck order t.oms).1 = .kNoError →
      (g.sendOrder order.req t.oms.gateway).1 = true ∧ order.Fits order.req.volume
  | .deliver rsp => ∀ order, t.oms.orderMap.find? rsp.orderId = some order →
      Behaves order.req.volume (t.heard rsp.orderId ++ [rsp]) ∧ order.Fits (order.taken rsp)
  | .account _ => False

theorem Funded.submission {t : Tracked γ} {cmd : TraderCommand} {mqId : ℕ} {clock : ℕ → UInt64}
    {iteration : List ℕ} (ha : Funded g ct t (.execute cmd mqId clock iteration))
    {orderReq : TraderOrderReq} (hk : cmd.Submits orderReq) {contract : Contract}
    (hc : ct.getByIndex orderReq.tickerId = some contract) :
    ∃ order rules, order = Oms.newOrder contract cmd orderReq mqId t.oms.nextOmsOrderId ∧
      rules.map RiskRule.kind = t.oms.rules.map RiskRule.kind ∧
      ((∃ errorCode, (Oms.sendOrder g ct clock cmd orderReq mqId t.oms).2 =
          Oms.sendRspToStrategy order 0 0 errorCode
            { t.oms with nextOmsOrderId := t.oms.nextOmsOrderId + 1, rules }) ∨
        (order.Fits order.req.volume ∧ ∃ privdata gateway,
          (Oms.sendOrder g ct clock cmd orderReq mqId t.oms).2 =
            Oms.orderSent { order with privdata }
              { t.oms with nextOmsOrderId := t.oms.nextOmsOrderId + 1, rules, gateway })) := by
  obtain ⟨order, rules, rfl, hrules, ⟨-, hsend⟩ | ⟨hok, hsend⟩⟩ :=
    Oms.sendOrder_cases g clock cmd mqId t.oms hc
  · exact ⟨_, rules, rfl, hrules, Or.inl ⟨_, by rw [hsend]⟩⟩
  · obtain ⟨htaken, hfits⟩ := ha orderReq contract hk hc hok
    obtain ⟨privdata, gateway, -, ⟨-, hsub⟩ | ⟨hfail, -⟩⟩ := Oms.submit_cases g
      (Oms.newOrder contract cmd orderReq mqId t.oms.nextOmsOrderId)
      { t.oms with nextOmsOrderId := t.oms.nextOmsOrderId + 1, rules }
    · exact ⟨_, rules, rfl, hrules, Or.inr ⟨hfits, privdata, gateway, by rw [hsend, hsub]⟩⟩
    · rw [htaken] at hfail
      cases hfail

/-- What the orders in the map keep frozen is what has been frozen since the
account showed `frozen`. -/
structure Reserved (frozen : ℚ) (t : Tracked γ) : Prop where
  fund : (t.oms.rules.map RiskRule.kind).count .fund = 1
  frozen : t.oms.params.account.frozen - frozen = t.oms.orderMap.reserve
  live : ∀ id order, t.oms.orderMap.find? id = some order →
    id < t.oms.nextOmsOrderId ∧ order.Counts (t.heard id)
  unheard : ∀ id, t.oms.nextOmsOrderId ≤ id → t.heard id = []

theorem Reserved.of_started {s : Oms γ} (h : s.Started)
    (hfund : (s.rules.map RiskRule.kind).count .fund = 1) :
    Reserved s.params.account.frozen { oms := s } where
  fund := hfund
  frozen := by
    rw [h.orderMap, sub_self]
    rfl
  live := fun id order ho => by
    rw [h.orderMap] at ho
    cases ho
  unheard := fun _ _ => rfl

theorem Reserved.find?_next {frozen : ℚ} {t : Tracked γ} (h : t.Reserved frozen) :
    t.oms.orderMap.find? t.oms.nextOmsOrderId = none := by
  cases hf : t.oms.orderMap.find? t.oms.nextOmsOrderId with
  | none => rfl
  | some order => exact absurd (h.live _ order hf).1 (lt_irrefl _)

theorem Reserved.sent {frozen : ℚ} {t : Tracked γ} (h : t.Reserved frozen) (order : Order)
    (hid : order.req.orderId = t.oms.nextOmsOrderId) (hnew : order.Counts [])
    (hfits : order.Fits order.req.volume) {rules : List RiskRule}
    (hrules : rules.map RiskRule.kind = t.oms.rules.map RiskRule.kind) (gateway : γ) :
    Reserved frozen ⟨Oms.orderSent order
      { t.oms with nextOmsOrderId := t.oms.nextOmsOrderId + 1, rules, gateway }, t.heard⟩ := by
  have hmap : (Oms.orderSent order { t.oms with
      nextOmsOrderId := t.oms.nextOmsOrderId + 1, rules, gateway }).orderMap =
      t.oms.orderMap.insert t.oms.nextOmsOrderId order := by
    rw [Oms.orderSent_orderMap, hid]
    exact SortedMap.emplace_of_find?_none h.find?_next order
  refine ⟨?_, ?_, fun id o ho => ?_, fun id hle => h.unheard id ?_⟩
  · rw [← h.fund, ← hrules]
    exact congrArg _ (RiskManagementSystem.kinds_recordSent rules)
  · have hvolume : order.reserve = order.hold order.req.volume := by
      rw [Order.reserve, hnew.traded, hnew.canceled]
      simp [fills, cancels]
    simp only [Oms.orderSent_account, hrules, h.fund, Function.iterate_one]
    rw [FundRisk.frozen_onOrderSent hfits, hmap, OrderMap.reserve, SortedMap.sum_insert,
      h.find?_next, Option.elim_none, sub_zero, ← OrderMap.reserve, ← h.frozen, hvolume]
    ring
  · rw [hmap, SortedMap.find?_insert] at ho
    split_ifs at ho with hne
    · cases ho
      rw [hne]
      exact ⟨Nat.lt_succ_self _, by rwa [h.unheard _ le_rfl]⟩
    · obtain ⟨hlt, hcounts⟩ := h.live id o ho
      exact ⟨Nat.lt_succ_of_lt hlt, hcounts⟩
  · exact (Nat.le_succ _).trans hle

theorem record_other (t : Tracked γ) {rsp : GatewayOrderResponse} {id : ℕ}
    (h : id = rsp.orderId → t.oms.orderMap.find? id = none) :
    t.record (.deliver rsp) id = t.heard id := by
  apply if_neg
  rintro ⟨heq, hc⟩
  simp [SortedMap.contains, h heq] at hc

theorem record_self (t : Tracked γ) {rsp : GatewayOrderResponse} {order : Order}
    (h : t.oms.orderMap.find? rsp.orderId = some order) :
    t.record (.deliver rsp) rsp.orderId = t.heard rsp.orderId ++ [rsp] :=
  if_pos ⟨rfl, by simp [SortedMap.contains, h]⟩

theorem Reserved.deliver {frozen : ℚ} {t : Tracked γ} (h : t.Reserved frozen)
    {rsp : GatewayOrderResponse} (ha : t.Funded g ct (.deliver rsp)) :
    Reserved frozen ⟨Oms.visit ct t.oms rsp, t.record (.deliver rsp)⟩ := by
  cases hf : t.oms.orderMap.find? rsp.orderId with
  | none =>
    have hrec : t.record (.deliver rsp) = t.heard :=
      funext fun id => t.record_other fun heq => heq ▸ hf
    rw [Oms.visit_of_find?_none ct hf, hrec]
    exact h
  | some order =>
    obtain ⟨hlt, hcounts⟩ := h.live _ order hf
    obtain ⟨hb, hfits⟩ := ha order hf
    have hv := Oms.visit_became ct hf
    refine ⟨by simp only [hv.rules, h.fund], ?_, fun id o ho => ?_, fun id hle => ?_⟩
    · simp only [Oms.visit_account ct hf, h.fund, Function.iterate_one]
      rw [Order.frozen_funded hfits, OrderMap.reserve, SortedMap.sum_of_find? hv.orderMap, hf,
        Option.elim_some, Order.reserve_after hcounts hb, ← OrderMap.reserve, ← h.frozen]
      ring
    · simp only [hv.orderMap, hv.nextOmsOrderId] at ho ⊢
      split_ifs at ho with hne
      · subst hne
        rw [t.record_self hf]
        exact ⟨hlt, hcounts.after hb ho⟩
      · rw [t.record_other fun heq => absurd heq hne]
        exact h.live id o ho
    · simp only [hv.nextOmsOrderId] at hle
      have hne : id ≠ rsp.orderId := fun heq => absurd hlt (not_lt.mpr (heq ▸ hle))
      exact (t.record_other fun heq => absurd heq hne).trans (h.unheard id hle)

theorem Reserved.preserved {frozen : ℚ} {t t' : Tracked γ} {a : OmsAction} (h : t.Reserved frozen)
    (ha : Funded g ct t a) (hs : step g ct t a = some t') : t'.Reserved frozen := by
  obtain ⟨oms, homs, rfl⟩ := Option.map_eq_some_iff.mp hs
  cases a with
  | execute cmd mqId clock iteration =>
    rcases Oms.step_execute_cases homs with ⟨orderReq, contract, hk, hc, rfl⟩ | homs
    · obtain ⟨order, rules, rfl, hrules, ⟨errorCode, hsend⟩ | ⟨hfits, privdata, gateway, hsend⟩⟩ :=
        ha.submission hk hc
      · rw [hsend]
        refine ⟨?_, h.frozen, fun id o ho => ?_, fun id hle => h.unheard id ?_⟩
        · rw [← h.fund, ← hrules]
          rfl
        · obtain ⟨hlt, hcounts⟩ := h.live id o ho
          exact ⟨Nat.lt_succ_of_lt hlt, hcounts⟩
        · exact (Nat.le_succ _).trans hle
      · rw [hsend]
        exact h.sent { Oms.newOrder contract cmd orderReq mqId t.oms.nextOmsOrderId with privdata }
          rfl ⟨rfl, rfl⟩ hfits hrules gateway
    · rw [homs]
      exact ⟨h.fund, h.frozen, h.live, h.unheard⟩
  | deliver rsp =>
    cases homs
    exact h.deliver ha
  | account account => exact absurd ha id

def worth (t : Tracked γ) : ℚ := t.oms.params.account.worth

def Opens (t : Tracked γ) (a : OmsAction) : Prop :=
  ∀ rsp order, a = .deliver rsp → t.oms.orderMap.find? rsp.orderId = some order →
    isOffsetOpen order.req.offset = true

theorem worth_step {frozen : ℚ} {t t' : Tracked γ} {a : OmsAction} (h : t.Reserved frozen)
    (ha : Funded g ct t a) (ho : t.Opens a) (hs : step g ct t a = some t') :
    t'.worth = t.worth := by
  obtain ⟨oms, homs, rfl⟩ := Option.map_eq_some_iff.mp hs
  cases a with
  | execute cmd mqId clock iteration =>
    rcases Oms.step_execute_cases homs with ⟨orderReq, contract, hk, hc, rfl⟩ | homs
    · obtain ⟨order, rules, rfl, hrules, ⟨errorCode, hsend⟩ | ⟨-, privdata, gateway, hsend⟩⟩ :=
        ha.submission hk hc
      · rw [worth, hsend]
        rfl
      · simp only [worth, hsend, Oms.orderSent_account, hrules, h.fund, Function.iterate_one]
        exact FundRisk.worth_onOrderSent
    · rw [worth, homs]
      rfl
  | deliver rsp =>
    cases homs
    cases hf : t.oms.orderMap.find? rsp.orderId with
    | none => rw [worth, Oms.visit_of_find?_none ct hf, worth]
    | some order =>
      simp only [worth, Oms.visit_account ct hf, h.fund, Function.iterate_one]
      exact FundRisk.worth_funded (ho rsp order rfl hf) rsp
  | account account => exact absurd ha id

theorem frozen_is_reserve (g : Gateway γ) (ct : ContractTable) (s₀ : Oms γ) (h₀ : s₀.Started)
    (hfund : (s₀.rules.map RiskRule.kind).count .fund = 1) (t : Tracked γ)
    (h : Execution.Reaches (step g ct) (Funded g ct) { oms := s₀ } t) :
    t.oms.params.account.frozen - s₀.params.account.frozen = t.oms.orderMap.reserve ∧
      ∀ a t', Funded g ct t a → t.Opens a → step g ct t a = some t' → t'.worth = t.worth := by
  have hres := h.invariant (Reserved s₀.params.account.frozen)
    (fun _ _ _ hr ha hs => hr.preserved ha hs) (.of_started h₀ hfund)
  exact ⟨hres.frozen, fun a t' ha ho hs => worth_step hres ha ho hs⟩

def frozenTwo : Tracked Unit where
  oms := (Oms.sendOrder (.stub true) (.ofList [ticker001]) (fun _ => 0) buyTwoCmd buyTwo 0
    (Oms.fresh [.fund])).2

def halfFilledTwo : Tracked Unit where
  oms := Oms.visit (.ofList [ticker001]) frozenTwo.oms (.traded ⟨0, 1, 90, 1⟩)
  heard := frozenTwo.record (.deliver (.traded ⟨0, 1, 90, 1⟩))

theorem frozen_is_reserve_halfFilledTwo :
    frozenTwo.oms.params.account.frozen - 0 = frozenTwo.oms.orderMap.reserve ∧
      halfFilledTwo.worth = frozenTwo.worth := by
  have hfind : frozenTwo.oms.orderMap.find? 1 =
      some (Oms.newOrder ticker001 buyTwoCmd buyTwo 0 1) := by decide +kernel
  have hsent : Execution.Reaches (step (.stub true) (.ofList [ticker001]))
      (Funded (.stub true) (.ofList [ticker001])) { oms := Oms.fresh [.fund] } frozenTwo := by
    refine (Execution.Reaches.refl _).tail (.execute buyTwoCmd 0 (fun _ => 0) []) ?_ rfl
    intro orderReq contract hk hc order hok
    cases hk.2
    cases hc
    exact ⟨rfl, by decide +kernel⟩
  have hfunded : Funded (.stub true) (.ofList [ticker001]) frozenTwo
      (.deliver (.traded ⟨0, 1, 90, 1⟩)) := by
    intro order ho
    rw [show GatewayOrderResponse.orderId (.traded ⟨0, 1, 90, 1⟩) = 1 from rfl, hfind] at ho
    cases ho
    refine ⟨⟨?_, ?_, ?_, ?_⟩, ?_⟩ <;> decide
  have hopens : frozenTwo.Opens (.deliver (.traded ⟨0, 1, 90, 1⟩)) := by
    intro rsp order hr ho
    cases hr
    rw [show GatewayOrderResponse.orderId (.traded ⟨0, 1, 90, 1⟩) = 1 from rfl, hfind] at ho
    cases ho
    rfl
  obtain ⟨hfrozen, hworth⟩ := frozen_is_reserve (.stub true) (.ofList [ticker001])
    (Oms.fresh [.fund]) ⟨rfl, rfl, rfl⟩ rfl frozenTwo hsent
  exact ⟨hfrozen, hworth _ _ hfunded hopens rfl⟩

end Tracked

end FlareTrader
