import FlareTrader.OmsResponses

/-! Live orders of one ticker that could trade with each other. The self-trade
rule looks for a market order among the pending orders only, so a market order
can slip past a limit order it will trade with. A limit order can at prices so
large that the tolerance of the comparison is lost in rounding. -/

namespace FlareTrader

def IsMarket (type : OrderType) (price : ℚ) : Prop := type = .kMarket ∨ price < 1 / 100000

def NoSelfTrade (m : OrderMap) : Prop :=
  ∀ i j buy sell, m.find? i = some buy → m.find? j = some sell →
    buy.req.direction = .kBuy → sell.req.direction = .kSell →
    buy.req.contract.tickerId = sell.req.contract.tickerId →
    ¬ IsMarket buy.req.type buy.req.price ∧ ¬ IsMarket sell.req.type sell.req.price ∧
      buy.req.price < sell.req.price

def Opposes (m : OrderMap) (orderReq : TraderOrderReq) (pending : OrderRequest) : Prop :=
  ∃ i order, m.find? i = some order ∧ order.req = pending ∧
    pending.contract.tickerId = orderReq.tickerId ∧
    pending.direction = oppositeDirection orderReq.direction

def Meets (orderReq : TraderOrderReq) (pending : OrderRequest) : Prop :=
  IsMarket orderReq.type orderReq.price ∨
    (orderReq.direction = .kBuy ∧ pending.price ≤ orderReq.price) ∨
    (orderReq.direction = .kSell ∧ orderReq.price ≤ pending.price)

/-- An order that would trade with a pending one, and meets only limit orders that stand away
from its own price by the tolerance as computed. -/
structure SlipsPast (m : OrderMap) (orderReq : TraderOrderReq) : Prop where
  meets : ∃ pending, Opposes m orderReq pending ∧ Meets orderReq pending
  limits : ∀ pending, Opposes m orderReq pending → ¬ IsMarket pending.type pending.price
  away : ∀ pending, Opposes m orderReq pending →
    (orderReq.direction = .kBuy →
        orderReq.price ≤ Binary64.round (pending.price - SelfTradeRisk.tolerance)) ∧
      (orderReq.direction = .kSell →
        Binary64.round (pending.price + SelfTradeRisk.tolerance) ≤ orderReq.price)

theorem noSelfTrade_of_find? {m m' : OrderMap} (h : NoSelfTrade m)
    (hm : ∀ i order', m'.find? i = some order' →
      ∃ order, m.find? i = some order ∧ order'.req = order.req) : NoSelfTrade m' := by
  intro i j buy sell hi hj
  obtain ⟨buy', hi', hb⟩ := hm i buy hi
  obtain ⟨sell', hj', hs⟩ := hm j sell hj
  rw [hb, hs]
  exact h i j buy' sell' hi' hj'

theorem SelfTradeRisk.of_pass {m : OrderMap} {order : Order}
    (h : SelfTradeRisk.checkOrderRequest m order = .kNoError) {i : ℕ} {pending : Order}
    (hi : m.find? i = some pending)
    (ht : pending.req.contract.tickerId = order.req.contract.tickerId)
    (hd : pending.req.direction = oppositeDirection order.req.direction) :
    ¬ IsMarket pending.req.type pending.req.price ∧
      (order.req.direction = .kBuy →
        order.req.price ≤ Binary64.round (pending.req.price - SelfTradeRisk.tolerance)) ∧
      (order.req.direction = .kSell →
        Binary64.round (pending.req.price + SelfTradeRisk.tolerance) ≤ order.req.price) := by
  have hmem : pending ∈ m.values := List.mem_map.mpr ⟨(i, pending), SortedMap.find?_eq_some.mp hi, rfl⟩
  have hno : SelfTradeRisk.conflicts order.req pending.req = false := by
    unfold SelfTradeRisk.checkOrderRequest at h
    split_ifs at h with hany
    simpa using fun hc => hany (List.any_eq_true.mpr ⟨pending, hmem, hc⟩)
  simp only [SelfTradeRisk.conflicts, ht, hd, true_and, decide_eq_false_iff_not, not_or, not_and,
    not_lt] at hno
  obtain ⟨hp, hmk, hb, hs⟩ := hno
  refine ⟨?_, hb, hs⟩
  have htolerance : 1 / 100000 ≤ SelfTradeRisk.tolerance := by decide +kernel
  rintro (hk | hlt)
  · exact hmk hk
  · exact absurd hlt (not_lt.mpr (htolerance.trans hp))

section Insert

variable {m : OrderMap} (order : Order) {orderReq : TraderOrderReq}
  (hpass : SelfTradeRisk.checkOrderRequest m order = .kNoError)
  (hreq : order.req.contract.tickerId = orderReq.tickerId ∧
    order.req.direction = orderReq.direction ∧ order.req.type = orderReq.type ∧
    order.req.price = orderReq.price)
  (hslip : ¬ SlipsPast m orderReq)

include hpass hreq hslip

theorem not_meets_of_opposed {i : ℕ} {pending : Order} (hi : m.find? i = some pending)
    (ht : pending.req.contract.tickerId = order.req.contract.tickerId)
    (hd : pending.req.direction = oppositeDirection order.req.direction) :
    ¬ Meets orderReq pending.req := by
  obtain ⟨htick, hdir, htype, hprice⟩ := hreq
  intro hmeets
  have hpassed : ∀ p, Opposes m orderReq p → ¬ IsMarket p.type p.price ∧
      (orderReq.direction = .kBuy →
        orderReq.price ≤ Binary64.round (p.price - SelfTradeRisk.tolerance)) ∧
      (orderReq.direction = .kSell →
        Binary64.round (p.price + SelfTradeRisk.tolerance) ≤ orderReq.price) := by
    rintro p ⟨k, o, hk, rfl, hpt, hpd⟩
    have hp := SelfTradeRisk.of_pass hpass hk (hpt.trans htick.symm) (by rw [hdir]; exact hpd)
    rwa [hdir, hprice] at hp
  apply hslip
  exact ⟨⟨pending.req, ⟨i, pending, hi, rfl, ht.trans htick, by rw [← hdir]; exact hd⟩, hmeets⟩,
    fun p hp => (hpassed p hp).1, fun p hp => (hpassed p hp).2⟩

theorem apart_of_opposed {i : ℕ} {pending : Order} (hi : m.find? i = some pending)
    (ht : pending.req.contract.tickerId = order.req.contract.tickerId)
    (hd : pending.req.direction = oppositeDirection order.req.direction) :
    ¬ IsMarket order.req.type order.req.price ∧ ¬ IsMarket pending.req.type pending.req.price ∧
      (order.req.direction = .kBuy → order.req.price < pending.req.price) ∧
      (order.req.direction = .kSell → pending.req.price < order.req.price) := by
  have hpending := (SelfTradeRisk.of_pass hpass hi ht hd).1
  have hmeets := not_meets_of_opposed order hpass hreq hslip hi ht hd
  obtain ⟨-, hdir, htype, hprice⟩ := hreq
  rw [Meets, ← hdir, ← htype, ← hprice] at hmeets
  simp only [not_or, not_and, not_le] at hmeets
  exact ⟨hmeets.1, hpending, hmeets.2.1, hmeets.2.2⟩

theorem noSelfTrade_insert (h : NoSelfTrade m) (id : ℕ) : NoSelfTrade (m.insert id order) := by
  intro i j buy sell hi hj hb hs ht
  rw [SortedMap.find?_insert] at hi hj
  split_ifs at hi hj with hid hjd hjd
  · cases hi
    cases hj
    rw [hb] at hs
    cases hs
  · -- The new order buys from a pending sell.
    cases hi
    have hd : sell.req.direction = oppositeDirection order.req.direction := by rw [hs, hb]; rfl
    obtain ⟨hnew, hm, hlt, -⟩ := apart_of_opposed order hpass hreq hslip hj ht.symm hd
    exact ⟨hnew, hm, hlt hb⟩
  · -- The new order sells to a pending buy.
    cases hj
    have hd : buy.req.direction = oppositeDirection order.req.direction := by rw [hs, hb]; rfl
    obtain ⟨hnew, hm, -, hlt⟩ := apart_of_opposed order hpass hreq hslip hi ht hd
    exact ⟨hm, hnew, hlt hs⟩
  · exact h i j buy sell hi hj hb hs ht

end Insert

namespace Oms

variable {γ : Type} {g : Gateway γ} {ct : ContractTable}

def Checked (_ : Oms γ) : OmsAction → Prop
  | .execute cmd _ _ _ => ∀ orderReq, cmd.Submits orderReq → cmd.withoutCheck = false ∧
      (orderReq.direction = .kBuy ∨ orderReq.direction = .kSell)
  | _ => True

def NoneSlipsPast (s : Oms γ) : OmsAction → Prop
  | .execute cmd _ _ _ => ∀ orderReq, cmd.Submits orderReq → ¬ SlipsPast s.orderMap orderReq
  | _ => True

theorem selfTrade_passes {clock : ℕ → UInt64} {order : Order} {s : Oms γ}
    (hr : .selfTrade ∈ s.rules.map RiskRule.kind)
    (h : (checkOrder clock false order s).1 = .kNoError) :
    SelfTradeRisk.checkOrderRequest s.orderMap order = .kNoError := by
  obtain ⟨rule, hmem, hkind⟩ := List.mem_map.mp hr
  obtain ⟨now, hpass⟩ := RiskManagementSystem.passes_of_mem h hmem
  cases rule with
  | selfTrade => exact hpass
  | fund => cases hkind
  | position => cases hkind
  | throttleRate rule => cases hkind

theorem noSelfTrade_step {s s' : Oms γ} {a : OmsAction}
    (h : NoSelfTrade s.orderMap ∧ .selfTrade ∈ s.rules.map RiskRule.kind)
    (hc : Checked s a) (ha : NoneSlipsPast s a) (hs : step g ct s a = some s') :
    NoSelfTrade s'.orderMap ∧ .selfTrade ∈ s'.rules.map RiskRule.kind := by
  rcases step_cases hs with ⟨cmd, mqId, clock, iteration, orderReq, contract, rfl, hk, hct, rfl⟩ |
    ⟨rsp, rfl, rfl⟩ | ⟨-, hm, -, hrules, -⟩
  · obtain ⟨order, returned, s', ho, hsend, -, hkinds, hout⟩ := sendOrder_outcome g clock cmd mqId s hct
    rw [hsend]
    obtain ⟨hcheck, -⟩ := hc orderReq hk
    have hslip := ha orderReq hk
    refine ⟨?_, hkinds ▸ h.2⟩
    rcases hout with ⟨-, hmap, -⟩ | ⟨-, hpass, ⟨privdata, hmap⟩, -⟩
    · rw [hmap]
      exact h.1
    · rw [hmap]
      unfold SortedMap.emplace
      split_ifs
      · exact h.1
      · rw [hcheck] at hpass
        have hself := selfTrade_passes h.2 hpass
        have hreq : order.req.contract.tickerId = orderReq.tickerId ∧
            order.req.direction = orderReq.direction ∧ order.req.type = orderReq.type ∧
            order.req.price = orderReq.price := by
          rw [ho]
          exact ⟨ContractTable.tickerId_of_getByIndex hct, rfl, rfl, rfl⟩
        exact noSelfTrade_insert { order with privdata } hself hreq hslip h.1 _
  · cases hf : s.orderMap.find? rsp.orderId with
    | none =>
      rw [visit_of_find?_none ct hf]
      exact h
    | some order =>
      have hv := visit_became ct hf
      refine ⟨noSelfTrade_of_find? h.1 fun i order' hi => ?_, hv.rules ▸ h.2⟩
      rw [hv.orderMap] at hi
      split_ifs at hi with hid
      · exact ⟨order, hid ▸ hf, (Order.after_eq_some hi).1⟩
      · exact ⟨order', hi, rfl⟩
  · exact ⟨hm ▸ h.1, hrules ▸ h.2⟩

def sellLimit : TraderOrderReq := ⟨1, 1, .kSell, .kOpen, .kLimit, 1, 100, .kNone⟩
def buyLimit : TraderOrderReq := ⟨2, 1, .kBuy, .kOpen, .kLimit, 1, 99, .kNone⟩
def buyMarket : TraderOrderReq := ⟨2, 1, .kBuy, .kOpen, .kMarket, 1, 0, .kNone⟩

def submitCmd (orderReq : TraderOrderReq) : TraderCommand where
  cmd := .kNewOrder orderReq
  strategyId := "strategy"

def sent (orderReq : TraderOrderReq) (s : Oms Unit) : Oms Unit :=
  (sendOrder (.stub true) (.ofList [ticker001]) (fun _ => 0) (submitCmd orderReq) orderReq 0 s).2

def submitted (first second : TraderOrderReq) : Oms Unit :=
  sent second (sent first (fresh [.selfTrade]))

theorem submitted_reaches {ok : Oms Unit → OmsAction → Prop} (first second : TraderOrderReq)
    (hfirst : ∀ mqId clock iteration,
      ok (fresh [.selfTrade]) (.execute (submitCmd first) mqId clock iteration))
    (hsecond : ∀ mqId clock iteration,
      ok (sent first (fresh [.selfTrade])) (.execute (submitCmd second) mqId clock iteration)) :
    Execution.Reaches (step (.stub true) (.ofList [ticker001])) ok (fresh [.selfTrade])
      (submitted first second) := by
  have h : Execution.Reaches (step (.stub true) (.ofList [ticker001])) ok (fresh [.selfTrade])
      (fresh [.selfTrade]) := .refl _
  have h1 := h.tail _ (hfirst 0 (fun _ => 0) _)
    (step_newOrder _ _ (fun _ => 0) ⟨rfl, rfl⟩ 0 _)
  exact h1.tail _ (hsecond 0 (fun _ => 0) _) (step_newOrder _ _ (fun _ => 0) ⟨rfl, rfl⟩ 0 _)

end Oms

end FlareTrader
