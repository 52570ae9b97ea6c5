import FlareTrader.StrategyPositions
import FlareTrader.SimpleMatchEngine

/-! The order management system on the backtest gateway. Two ledgers are kept
apart by the responses in the ring: the positions of the strategies, together
with what the ring will still change in them, are the positions of the gateway.
An order is live exactly while it rests or its final response is on its way. -/

namespace FlareTrader

inductive BacktestAction
  | command (cmd : TraderCommand) (mqId : ℕ) (clock : ℕ → UInt64) (iteration : List ℕ)
  | tick (tick : TickData)
  | processRsp

structure Order.Untouched (ct : ContractTable) (order : Order) : Prop where
  listed : ct.getByIndex order.req.contract.tickerId = some order.req.contract
  volume_pos : 0 < order.req.volume
  tradedVolume : order.tradedVolume = 0
  canceledVolume : order.canceledVolume = 0

namespace Oms

variable {ε : Type}

def backtestStep (m : MatchEngine ε) (ct : ContractTable) (s : Oms (BacktestGateway ε)) :
    BacktestAction → Option (Oms (BacktestGateway ε))
  | .command cmd mqId clock iteration =>
    step (BacktestGateway.gateway m ct) ct s (.execute cmd mqId clock iteration)
  | .tick tick => some { s with gateway := s.gateway.onDataFeed m ct tick }
  | .processRsp => some (processRsp (BacktestGateway.gateway m ct) ct s)

/-- New orders go through the risk rules, and the gateway takes what they pass. -/
def OrdersTaken (m : MatchEngine ε) (ct : ContractTable) (s : Oms (BacktestGateway ε)) :
    BacktestAction → Prop
  | .command cmd mqId clock _ => ∀ orderReq contract, cmd.Submits orderReq →
      ct.getByIndex orderReq.tickerId = some contract →
      cmd.withoutCheck = false ∧ (orderReq.direction = .kBuy ∨ orderReq.direction = .kSell) ∧
        ((checkOrder clock false (newOrder contract cmd orderReq mqId s.nextOmsOrderId) s).1 =
            .kNoError →
          (s.gateway.sendOrder m ct
            (newOrder contract cmd orderReq mqId s.nextOmsOrderId).req).1 = true)
  | _ => True

/-- What the responses in the ring will still change in the positions. -/
def inFlight (s : Oms (BacktestGateway ε)) : Ledger :=
  (s.gateway.rspRb.map (effect s.orderMap)).sum

variable {m : MatchEngine ε} {ct : ContractTable}

/-- The orders that rest or have their final response in the ring. -/
def awaited (L : m.Lawful) (g : BacktestGateway ε) : Multiset ℕ :=
  orderIds (L.resting g.matchEngine) + finalIds g.rspRb

structure Reconciled (ct : ContractTable) (L : m.Lawful) (s : Oms (BacktestGateway ε)) : Prop where
  positionRule : (s.rules.map RiskRule.kind).count .position = 1
  gateway : s.gateway.Balanced ct L
  awaited_nodup : (awaited L s.gateway).Nodup
  answered : ∀ id order, s.orderMap.find? id = some order → id ∈ awaited L s.gateway
  live : ∀ id order, s.orderMap.find? id = some order →
    order.req.orderId = id ∧ id < s.nextOmsOrderId ∧ order.Untouched ct
  resting : ∀ k ∈ L.resting s.gateway.matchEngine, ∃ order touch,
    s.orderMap.find? k.orderId = some order ∧ k = order.req.kept touch
  settles : ∀ rsp ∈ s.gateway.rspRb, rsp.IsFinal = true →
    ∃ order, s.orderMap.find? rsp.orderId = some order ∧ rsp.Settles order.req
  balance : s.params.posManager.total + inFlight s = s.gateway.posCalculator.ledger
  booked : ∀ key, Booked ct (s.params.posManager.calculator key)
    (liveOf s.params.posManager s.orderMap key)

namespace Reconciled

variable {L : m.Lawful} {s s' : Oms (BacktestGateway ε)}

theorem find?_of_awaited (h : Reconciled ct L s) {id : ℕ} (hid : id ∈ awaited L s.gateway) :
    ∃ order, s.orderMap.find? id = some order := by
  rcases Multiset.mem_add.mp hid with hid | hid
  · obtain ⟨k, hk, rfl⟩ := Multiset.mem_map.mp hid
    obtain ⟨order, touch, hfind, -⟩ := h.resting k hk
    exact ⟨order, hfind⟩
  · obtain ⟨rsp, hrsp, hf, rfl⟩ := of_mem_finalIds hid
    obtain ⟨order, hfind, -⟩ := h.settles rsp hrsp hf
    exact ⟨order, hfind⟩

theorem find?_next (h : Reconciled ct L s) : s.orderMap.find? s.nextOmsOrderId = none := by
  by_contra hsome
  obtain ⟨order, hfind⟩ := Option.ne_none_iff_exists'.mp hsome
  exact absurd (h.live _ order hfind).2.1 (lt_irrefl _)

theorem next_notMem_awaited (h : Reconciled ct L s) : s.nextOmsOrderId ∉ awaited L s.gateway := by
  intro hin
  obtain ⟨order, hfind⟩ := h.find?_of_awaited hin
  rw [h.find?_next] at hfind
  cases hfind

theorem effects_same (h : Reconciled ct L s) {orderMap : OrderMap}
    (hsame : ∀ {id : ℕ} {old : Order}, s.orderMap.find? id = some old →
      ∃ new, orderMap.find? id = some new ∧ new.req = old.req) :
    s.gateway.rspRb.map (effect orderMap) = s.gateway.rspRb.map (effect s.orderMap) := by
  apply effects_congr
  intro rsp hrsp hf
  obtain ⟨old, hold, -⟩ := h.settles rsp hrsp hf
  obtain ⟨new, hnew, hreq⟩ := hsame hold
  rw [hold, hnew, Option.map_some, Option.map_some, hreq]

theorem resting_same (h : Reconciled ct L s) {orderMap : OrderMap}
    (hsame : ∀ {id : ℕ} {old : Order}, s.orderMap.find? id = some old →
      ∃ new, orderMap.find? id = some new ∧ new.req = old.req) :
    ∀ k ∈ L.resting s.gateway.matchEngine, ∃ order touch,
      orderMap.find? k.orderId = some order ∧ k = order.req.kept touch := by
  intro k hk
  obtain ⟨old, touch, hold, hkept⟩ := h.resting k hk
  obtain ⟨new, hnew, hreq⟩ := hsame hold
  exact ⟨new, touch, hnew, hreq ▸ hkept⟩

theorem settles_same (h : Reconciled ct L s) {orderMap : OrderMap}
    (hsame : ∀ {id : ℕ} {old : Order}, s.orderMap.find? id = some old →
      ∃ new, orderMap.find? id = some new ∧ new.req = old.req) :
    ∀ rsp ∈ s.gateway.rspRb, rsp.IsFinal = true →
      ∃ order, orderMap.find? rsp.orderId = some order ∧ rsp.Settles order.req := by
  intro rsp hrsp hf
  obtain ⟨old, hold, hs⟩ := h.settles rsp hrsp hf
  obtain ⟨new, hnew, hreq⟩ := hsame hold
  exact ⟨new, hnew, hreq ▸ hs⟩

theorem settles_append {orderMap : OrderMap} {rspRb : List GatewayOrderResponse}
    {events : List Event}
    (hsettles : ∀ rsp ∈ rspRb, rsp.IsFinal = true →
      ∃ order, orderMap.find? rsp.orderId = some order ∧ rsp.Settles order.req)
    (hends : ∀ e ∈ events, e.response.IsFinal = true → ∃ order touch,
      orderMap.find? e.response.orderId = some order ∧ e.Ends (order.req.kept touch)) :
    ∀ rsp ∈ rspRb ++ events.map Event.response, rsp.IsFinal = true →
      ∃ order, orderMap.find? rsp.orderId = some order ∧ rsp.Settles order.req := by
  intro rsp hrsp hf
  rcases List.mem_append.mp hrsp with hrsp | hrsp
  · exact hsettles rsp hrsp hf
  · obtain ⟨e, he, rfl⟩ := List.mem_map.mp hrsp
    obtain ⟨order, touch, hfind, hend⟩ := hends e he hf
    exact ⟨order, hfind, settles_kept.mp hend.settles⟩

/-- Cancels and ticks: what leaves the book enters the ring. -/
theorem moved (h : Reconciled ct L s) {g : BacktestGateway ε} {events : List Event}
    (hbal : g.Balanced ct L) (hm : BacktestGateway.Moved L events s.gateway g) :
    Reconciled ct L { s with gateway := g } := by
  have hids : awaited L g = awaited L s.gateway := by
    rw [awaited, awaited, hm.rspRb, finalIds_append, hm.closes.orderIds_eq]
    abel
  have hends : ∀ e ∈ events, e.response.IsFinal = true → ∃ order touch,
      s.orderMap.find? e.response.orderId = some order ∧ e.Ends (order.req.kept touch) := by
    intro e he hf
    obtain ⟨k, hk, hend⟩ := hm.closes.ends he hf
    obtain ⟨order, touch, hfind, rfl⟩ := h.resting k hk
    rw [← hend.orderId] at hfind
    exact ⟨order, touch, hfind, hend⟩
  refine ⟨h.positionRule, hbal, ?_, ?_, h.live, ?_, ?_, ?_, h.booked⟩
  · rw [hids]
    exact h.awaited_nodup
  · rw [hids]
    exact h.answered
  · exact fun k hk => h.resting k (Multiset.mem_of_le hm.closes.le hk)
  · intro rsp hrsp
    rw [hm.rspRb] at hrsp
    exact settles_append h.settles hends rsp hrsp
  · calc s.params.posManager.total + (g.rspRb.map (effect s.orderMap)).sum
        = s.params.posManager.total + (inFlight s + (events.map Event.delta).sum) := by
          rw [hm.rspRb, List.map_append, List.sum_append, effects_of_ends hends]
          rfl
      _ = g.posCalculator.ledger := by rw [hm.ledger, ← h.balance, add_assoc]

theorem fed (h : Reconciled ct L s) (tick : TickData) :
    Reconciled ct L { s with gateway := s.gateway.onDataFeed m ct tick } := by
  obtain ⟨hbal, events, hm⟩ := h.gateway.feed tick
  exact h.moved hbal hm

theorem sent (h : Reconciled ct L s) (order : Order) (hid : order.req.orderId = s.nextOmsOrderId)
    (hlisted : ct.getByIndex order.req.contract.tickerId = some order.req.contract)
    (hd : order.req.direction = .kBuy ∨ order.req.direction = .kSell)
    (ht : order.tradedVolume = 0) (hc : order.canceledVolume = 0)
    (hcheck : PositionRisk.checkOrderRequest s.params.posManager order = .kNoError)
    (hok : (s.gateway.sendOrder m ct order.req).1 = true) {rules : List RiskRule}
    (hk : rules.map RiskRule.kind = s.rules.map RiskRule.kind) :
    Reconciled ct L (orderSent order { s with
      gateway := (s.gateway.sendOrder m ct order.req).2.2
      nextOmsOrderId := s.nextOmsOrderId + 1
      rules }) := by
  have hnone : s.orderMap.find? order.req.orderId = none := hid ▸ h.find?_next
  have hnotin : order.req.orderId ∉ awaited L s.gateway := hid ▸ h.next_notMem_awaited
  have hsame : ∀ {id : ℕ} {old : Order}, s.orderMap.find? id = some old →
      ∃ new, (s.orderMap.insert order.req.orderId order).find? id = some new ∧
        new.req = old.req :=
    fun hfind => ⟨_, SortedMap.find?_insert_of_find?_none hnone order hfind, rfl⟩
  obtain ⟨hv, hbal, events, touch, hins, hring, hledger⟩ := h.gateway.send
    (fun hin => hnotin (Multiset.mem_add.mpr (Or.inl hin))) hlisted hd hok
  generalize (s.gateway.sendOrder m ct order.req).2.2 = g at hbal hins hring hledger ⊢
  have hmap : (orderSent order { s with
      gateway := g, nextOmsOrderId := s.nextOmsOrderId + 1, rules }).orderMap =
      s.orderMap.insert order.req.orderId order :=
    (orderSent_orderMap order _).trans (SortedMap.emplace_of_find?_none hnone order)
  have hpos : (orderSent order { s with
      gateway := g, nextOmsOrderId := s.nextOmsOrderId + 1, rules }).params.posManager =
      PositionRisk.onOrderSent order s.params.posManager := by
    apply (RiskManagementSystem.onOrderSent_posManager order rules _).trans
    rw [hk, h.positionRule]
    rfl
  have hids : awaited L g = order.req.orderId ::ₘ awaited L s.gateway := by
    rw [awaited, awaited, hring, finalIds_append, ← Multiset.cons_add, ← hins.orderIds_eq]
    abel
  have hself : (s.orderMap.insert order.req.orderId order).find? order.req.orderId = some order :=
    SortedMap.find?_insert_self _ _ _
  have hends : ∀ e ∈ events, e.response.IsFinal = true → ∃ order' touch,
      (s.orderMap.insert order.req.orderId order).find? e.response.orderId = some order' ∧
        e.Ends (order'.req.kept touch) := by
    intro e he hf
    have hend := hins.ends he hf
    refine ⟨order, order.req.price, ?_, ?_⟩
    · rw [hend.orderId, hself]
    · rwa [OrderRequest.kept_price]
  constructor
  case positionRule =>
    exact (congrArg _ (RiskManagementSystem.kinds_recordSent rules)).trans (hk ▸ h.positionRule)
  case gateway => exact hbal
  case awaited_nodup => exact hids ▸ Multiset.nodup_cons.mpr ⟨hnotin, h.awaited_nodup⟩
  case answered =>
    intro id order' hfind
    rw [hmap, SortedMap.find?_insert] at hfind
    change id ∈ awaited L g
    rw [hids]
    split_ifs at hfind with heq
    · exact heq ▸ Multiset.mem_cons_self _ _
    · exact Multiset.mem_cons_of_mem (h.answered id order' hfind)
  case live =>
    intro id order' hfind
    rw [hmap, SortedMap.find?_insert] at hfind
    change order'.req.orderId = id ∧ id < s.nextOmsOrderId + 1 ∧ order'.Untouched ct
    split_ifs at hfind with heq
    · cases hfind
      exact ⟨heq.symm, by omega, hlisted, hv, ht, hc⟩
    · obtain ⟨hreq, hlt, huntouched⟩ := h.live id order' hfind
      exact ⟨hreq, by omega, huntouched⟩
  case resting =>
    intro k hk
    rw [hmap]
    rcases hins.mem hk with rfl | hk
    · exact ⟨order, touch, by rw [OrderRequest.kept_orderId, hself], rfl⟩
    · exact h.resting_same hsame k hk
  case settles =>
    intro rsp hrsp
    change rsp ∈ g.rspRb at hrsp
    rw [hring] at hrsp
    rw [hmap]
    exact settles_append (h.settles_same hsame) hends rsp hrsp
  case balance =>
    have hold : s.gateway.rspRb.map (effect (s.orderMap.insert order.req.orderId order)) =
        s.gateway.rspRb.map (effect s.orderMap) :=
      h.effects_same hsame
    have htotal : (PositionRisk.onOrderSent order s.params.posManager).total =
        s.params.posManager.total + order.req.pending :=
      PositionManager.total_updatePending _ _ _ _ _ _
    rw [inFlight, hmap, hpos, htotal]
    change s.params.posManager.total + order.req.pending +
      (g.rspRb.map (effect (s.orderMap.insert order.req.orderId order))).sum =
        g.posCalculator.ledger
    rw [hring, List.map_append, List.sum_append, hold, effects_of_ends hends, hledger, ← h.balance,
      inFlight]
    abel
  case booked =>
    intro key
    rw [hmap, hpos, liveOf_insert, SortedMap.erase_of_find?_none hnone]
    have howner : ∀ strategy,
        (PositionRisk.onOrderSent order s.params.posManager).findCalculator strategy =
          s.params.posManager.findCalculator strategy :=
      PositionManager.findCalculator_updatePending _ _ _ _ _ _
    rw [howner, liveOf_congr howner]
    exact PositionRisk.booked_sent (h.booked key) hv hcheck

theorem skipped (h : Reconciled ct L s) {rsp : GatewayOrderResponse}
    {rspRb : List GatewayOrderResponse} (hring : s.gateway.rspRb = rsp :: rspRb)
    (hf : rsp.IsFinal = false) :
    Reconciled ct L { s with gateway := { s.gateway with rspRb } } := by
  have hids : awaited L { s.gateway with rspRb } = awaited L s.gateway := by
    rw [awaited, awaited, hring, finalIds_cons_of_not hf]
  refine ⟨h.positionRule, ⟨h.gateway.inv, h.gateway.listed, h.gateway.booked⟩, ?_, ?_, h.live,
    h.resting, ?_, ?_, h.booked⟩
  · rw [hids]
    exact h.awaited_nodup
  · rw [hids]
    exact h.answered
  · intro rsp' hrsp hf'
    exact h.settles rsp' (hring ▸ List.mem_cons_of_mem rsp hrsp) hf'
  · have hbal := h.balance
    rw [inFlight, hring, List.map_cons, List.sum_cons, effect_of_not_final _ hf, zero_add] at hbal
    exact hbal

theorem noticed (h : Reconciled ct L s) {rsp : GatewayOrderResponse} (hf : rsp.IsFinal = false) :
    Reconciled ct L (visit ct s rsp) := by
  cases hfind : s.orderMap.find? rsp.orderId with
  | none => rwa [visit_of_find?_none ct hfind]
  | some order =>
    have hb := visit_became ct hfind
    obtain ⟨order', hafter, hreq, howner, htraded, hcanceled⟩ := order.after_of_not_final hf
    rw [hafter, Order.booked_of_not_final hf] at hb
    generalize visit ct s rsp = u at hb ⊢
    have hpos : u.params.posManager = s.params.posManager := by
      rw [hb.posManager, Function.iterate_id]
      rfl
    have hmap : u.orderMap = s.orderMap.insert rsp.orderId order' :=
      SortedMap.eq_of_find? fun k => by rw [hb.orderMap, SortedMap.find?_insert]
    have hsame : ∀ {id : ℕ} {old : Order}, s.orderMap.find? id = some old →
        ∃ new, u.orderMap.find? id = some new ∧ new.req = old.req := by
      intro id old hold
      rw [hb.orderMap]
      split_ifs with heq
      · rw [heq, hfind] at hold
        cases hold
        exact ⟨order', rfl, hreq⟩
      · exact ⟨old, hold, rfl⟩
    have hback : ∀ {id : ℕ} {new : Order}, u.orderMap.find? id = some new →
        ∃ old, s.orderMap.find? id = some old ∧ new.req = old.req ∧
          new.tradedVolume = old.tradedVolume ∧ new.canceledVolume = old.canceledVolume := by
      intro id new hnew
      rw [hb.orderMap] at hnew
      split_ifs at hnew with heq
      · cases hnew
        exact ⟨order, heq ▸ hfind, hreq, htraded, hcanceled⟩
      · exact ⟨new, hnew, rfl, rfl, rfl⟩
    constructor
    case positionRule =>
      rw [hb.rules]
      exact h.positionRule
    case gateway =>
      rw [hb.gateway]
      exact h.gateway
    case awaited_nodup =>
      rw [hb.gateway]
      exact h.awaited_nodup
    case answered =>
      intro id new hnew
      obtain ⟨old, hold, -⟩ := hback hnew
      rw [hb.gateway]
      exact h.answered id old hold
    case live =>
      intro id new hnew
      obtain ⟨old, hold, hr, ht, hc⟩ := hback hnew
      obtain ⟨hid, hlt, hu⟩ := h.live id old hold
      rw [hr, hb.nextOmsOrderId]
      refine ⟨hid, hlt, ?_, ?_, ht.trans hu.tradedVolume, hc.trans hu.canceledVolume⟩
      · rw [hr]
        exact hu.listed
      · rw [hr]
        exact hu.volume_pos
    case resting =>
      rw [hb.gateway]
      exact h.resting_same hsame
    case settles =>
      rw [hb.gateway]
      exact h.settles_same hsame
    case balance =>
      rw [hpos, inFlight, hb.gateway, h.effects_same hsame]
      exact h.balance
    case booked =>
      intro key
      rw [hpos, hmap, liveOf_update hfind hreq howner]
      exact h.booked key

/-- A final response takes its order out of the order map and books what the
gateway has booked. -/
theorem settled (h : Reconciled ct L s) {rsp : GatewayOrderResponse}
    {rspRb : List GatewayOrderResponse} (hring : s.gateway.rspRb = rsp :: rspRb)
    (hf : rsp.IsFinal = true) :
    Reconciled ct L (visit ct { s with gateway := { s.gateway with rspRb } } rsp) := by
  obtain ⟨order, hfind, hsettles⟩ := h.settles rsp (hring ▸ List.mem_cons_self) hf
  obtain ⟨-, -, hu⟩ := h.live _ order hfind
  have hids : awaited L s.gateway = rsp.orderId ::ₘ awaited L { s.gateway with rspRb } := by
    rw [awaited, awaited, hring, finalIds_cons_final hf, Multiset.add_cons]
  obtain ⟨hnotin, hnodup⟩ := Multiset.nodup_cons.mp (hids ▸ h.awaited_nodup)
  have hrest : ∀ rsp' ∈ rspRb, rsp'.IsFinal = true → rsp'.orderId ≠ rsp.orderId := by
    intro rsp' hrsp hf' heq
    exact hnotin (Multiset.mem_add.mpr (Or.inr (heq ▸ mem_finalIds hrsp hf')))
  have hnow : { s with gateway := { s.gateway with rspRb } }.orderMap.find? rsp.orderId =
      some order := hfind
  have hb := visit_became ct hnow
  rw [order.after_of_settles hsettles hu.tradedVolume hu.canceledVolume] at hb
  generalize visit ct { s with gateway := { s.gateway with rspRb } } rsp = u at hb ⊢
  have hpos : u.params.posManager = order.booked ct rsp s.params.posManager := by
    rw [hb.posManager, h.positionRule]
    rfl
  have hmap : u.orderMap = s.orderMap.erase rsp.orderId :=
    SortedMap.eq_of_find? fun k => by
      rw [hb.orderMap, SortedMap.find?_erase]
      rfl
  have hother : ∀ {id : ℕ}, id ≠ rsp.orderId →
      u.orderMap.find? id = s.orderMap.find? id := by
    intro id hne
    rw [hmap]
    exact SortedMap.find?_erase_of_ne _ hne
  have hback : ∀ {id : ℕ} {old : Order}, u.orderMap.find? id = some old →
      id ≠ rsp.orderId ∧ s.orderMap.find? id = some old := by
    intro id old hold
    rw [hmap, SortedMap.find?_erase] at hold
    split_ifs at hold with heq
    exact ⟨heq, hold⟩
  constructor
  case positionRule =>
    rw [hb.rules]
    exact h.positionRule
  case gateway =>
    rw [hb.gateway]
    exact ⟨h.gateway.inv, h.gateway.listed, h.gateway.booked⟩
  case awaited_nodup =>
    rw [hb.gateway]
    exact hnodup
  case answered =>
    intro id old hold
    obtain ⟨hne, hold⟩ := hback hold
    rw [hb.gateway]
    exact (Multiset.mem_cons.mp (hids ▸ h.answered id old hold)).resolve_left hne
  case live =>
    intro id old hold
    rw [hb.nextOmsOrderId]
    exact h.live id old (hback hold).2
  case resting =>
    intro k hk
    rw [hb.gateway] at hk
    have hne : k.orderId ≠ rsp.orderId := fun heq =>
      hnotin (Multiset.mem_add.mpr (Or.inl (heq ▸ Multiset.mem_map_of_mem _ hk)))
    rw [hother hne]
    exact h.resting k hk
  case settles =>
    intro rsp' hrsp hf'
    rw [hb.gateway] at hrsp
    rw [hother (hrest rsp' hrsp hf')]
    exact h.settles rsp' (hring ▸ List.mem_cons_of_mem rsp hrsp) hf'
  case balance =>
    have heffects : rspRb.map (effect u.orderMap) = rspRb.map (effect s.orderMap) := by
      apply effects_congr
      intro rsp' hrsp hf'
      rw [hother (hrest rsp' hrsp hf')]
    have hbal := h.balance
    rw [inFlight, hring, List.map_cons, List.sum_cons, effect_of_find? hfind, ← add_assoc,
      ← Order.booked_total hsettles hu.volume_pos hu.listed] at hbal
    rw [hpos, inFlight, hb.gateway, heffects]
    exact hbal
  case booked =>
    intro key
    rw [hpos, hmap, liveOf_congr (Order.booked_findCalculator rsp)]
    apply Order.booked_settled hsettles hu.listed
    rw [← liveOf_eq hfind]
    exact h.booked key

theorem visited (h : Reconciled ct L s) {rsp : GatewayOrderResponse}
    {rspRb : List GatewayOrderResponse} (hring : s.gateway.rspRb = rsp :: rspRb) :
    Reconciled ct L (visit ct { s with gateway := { s.gateway with rspRb } } rsp) := by
  cases hf : rsp.IsFinal with
  | false => exact (h.skipped hring hf).noticed hf
  | true => exact h.settled hring hf

theorem drained (h : Reconciled ct L s) (count : ℕ) :
    Reconciled ct L (drain (BacktestGateway.gateway m ct) ct count s) := by
  induction count generalizing s with
  | zero => exact h
  | succ count ih =>
    cases hring : s.gateway.rspRb with
    | nil => simpa only [drain, BacktestGateway.gateway, hring] using h
    | cons rsp rspRb =>
      have hrest := ih (h.visited hring)
      simpa only [drain, BacktestGateway.gateway, hring] using hrest

theorem refused (h : Reconciled ct L s) {rules : List RiskRule}
    (hk : rules.map RiskRule.kind = s.rules.map RiskRule.kind) (order : Order)
    (errorCode : ErrorCode) :
    Reconciled ct L (sendRspToStrategy order 0 0 errorCode
      { s with nextOmsOrderId := s.nextOmsOrderId + 1, rules }) := by
  refine ⟨?_, h.gateway, h.awaited_nodup, h.answered, ?_, h.resting, h.settles, h.balance, h.booked⟩
  · exact hk ▸ h.positionRule
  · intro id order' hfind
    obtain ⟨hid, hlt, hu⟩ := h.live id order' hfind
    exact ⟨hid, Nat.lt_succ_of_lt hlt, hu⟩

theorem positionRule_passes (h : Reconciled ct L s) {clock : ℕ → UInt64} {order : Order}
    (hcheck : (checkOrder clock false order s).1 = .kNoError) :
    PositionRisk.checkOrderRequest s.params.posManager order = .kNoError := by
  have hmem : RuleKind.position ∈ s.rules.map RiskRule.kind := by
    rw [← List.count_pos_iff, h.positionRule]
    exact Nat.one_pos
  obtain ⟨rule, hrule, hkind⟩ := List.mem_map.mp hmem
  obtain ⟨now, hnow⟩ := RiskManagementSystem.passes_of_mem hcheck hrule
  cases rule with
  | position => exact hnow
  | fund => cases hkind
  | selfTrade => cases hkind
  | throttleRate rule => cases hkind

theorem submitted (h : Reconciled ct L s) {cmd : TraderCommand} {mqId : ℕ} {clock : ℕ → UInt64}
    {iteration : List ℕ} (htaken : OrdersTaken m ct s (.command cmd mqId clock iteration))
    {orderReq : TraderOrderReq} (hcmd : cmd.Submits orderReq) :
    Reconciled ct L
      (sendOrder (BacktestGateway.gateway m ct) ct clock cmd orderReq mqId s).2 := by
  cases hc : ct.getByIndex orderReq.tickerId with
  | none => simpa only [sendOrder, hc] using h
  | some contract =>
    obtain ⟨hcheck, hd, hok⟩ := htaken orderReq contract hcmd hc
    obtain ⟨order, rules, rfl, hk, hcase⟩ :=
      sendOrder_cases (BacktestGateway.gateway m ct) clock cmd mqId s hc
    rw [hcheck] at hcase
    rcases hcase with ⟨-, hs⟩ | ⟨hpass, hs⟩
    · rw [hs]
      exact h.refused hk _ _
    · have htrue := hok hpass
      obtain ⟨privdata, gateway, hsend, ⟨-, hsub⟩ | ⟨hfalse, -⟩⟩ := submit_cases
        (BacktestGateway.gateway m ct) (newOrder contract cmd orderReq mqId s.nextOmsOrderId)
        { s with nextOmsOrderId := s.nextOmsOrderId + 1, rules }
      · have hgateway : gateway = (s.gateway.sendOrder m ct
            (newOrder contract cmd orderReq mqId s.nextOmsOrderId).req).2.2 :=
          (congrArg (fun r => r.2.2) hsend).symm
        have hlisted : ct.getByIndex contract.tickerId = some contract := by
          rw [ContractTable.tickerId_of_getByIndex hc, hc]
        rw [hs, hsub, hgateway]
        have hrule := h.positionRule_passes hpass
        exact h.sent { newOrder contract cmd orderReq mqId s.nextOmsOrderId with privdata } rfl hlisted
          hd rfl rfl hrule htrue hk
      · exact absurd (htrue.symm.trans hfalse) (by decide)

theorem preserved (h : Reconciled ct L s) {a : BacktestAction} (htaken : OrdersTaken m ct s a)
    (hs : backtestStep m ct s a = some s') : Reconciled ct L s' := by
  cases a with
  | tick tick =>
    cases hs
    exact h.fed tick
  | processRsp =>
    cases hs
    exact h.drained 3
  | command cmd mqId clock iteration =>
    simp only [backtestStep, step] at hs
    split_ifs at hs
    have hcancel : ∀ id privdata g r, Reconciled ct L { s with gateway := g } →
        (BacktestGateway.gateway m ct).cancelOrder id privdata g = some r →
        Reconciled ct L { s with gateway := r.2 } := by
      intro id privdata g r hg hr
      obtain ⟨hbal, events, hm⟩ := hg.gateway.cancel hr
      exact hg.moved hbal hm
    have hnotify : ∀ signal g g', Reconciled ct L { s with gateway := g } →
        (BacktestGateway.gateway m ct).onNotify signal g = some g' →
        Reconciled ct L { s with gateway := g' } := by
      intro signal g g' hg hg'
      obtain rfl := Option.some.inj hg'
      unfold BacktestGateway.onNotify
      cases g.dataFeed with
      | nil => exact hg
      | cons tick dataFeed =>
        have hnext : Reconciled ct L { s with gateway := { g with dataFeed } } :=
          ⟨hg.positionRule, ⟨hg.gateway.inv, hg.gateway.listed, hg.gateway.booked⟩,
            hg.awaited_nodup, hg.answered, hg.live, hg.resting, hg.settles, hg.balance, hg.booked⟩
        exact hnext.fed tick
    rcases executeCmd_invariant (fun g => Reconciled ct L { s with gateway := g }) hcancel hnotify
      hs with ⟨orderReq, hcmd, rfl⟩ | ⟨hmoved, hkeep⟩
    · exact h.submitted htaken hcmd
    · rw [hmoved]
      exact hkeep h

end Reconciled

theorem visit_gateway {γ : Type} (ct : ContractTable) (s : Oms γ) (rsp : GatewayOrderResponse) :
    (visit ct s rsp).gateway = s.gateway := by
  cases hfind : s.orderMap.find? rsp.orderId with
  | none => rw [visit_of_find?_none ct hfind]
  | some order => exact (visit_became ct hfind).gateway

theorem drain_gateway (m : MatchEngine ε) (ct : ContractTable) (rspRb : List GatewayOrderResponse)
    (s : Oms (BacktestGateway ε)) (h : s.gateway.rspRb = rspRb) :
    (drain (BacktestGateway.gateway m ct) ct rspRb.length s).gateway =
      { s.gateway with rspRb := [] } := by
  induction rspRb generalizing s with
  | nil =>
    have hg : s.gateway = { s.gateway with rspRb := [] } := by rw [← h]
    exact hg
  | cons rsp rspRb ih =>
    have hv := visit_gateway ct { s with gateway := { s.gateway with rspRb } } rsp
    have hrest := ih (visit ct { s with gateway := { s.gateway with rspRb } } rsp) (by rw [hv])
    rw [hv] at hrest
    simpa only [List.length_cons, drain, BacktestGateway.gateway, h] using hrest

theorem Reconciled.drained_total {L : m.Lawful} {s : Oms (BacktestGateway ε)}
    (h : Reconciled ct L s) :
    (drain (BacktestGateway.gateway m ct) ct s.gateway.rspRb.length s).params.posManager.total =
      s.gateway.posCalculator.ledger := by
  have hbal := (h.drained s.gateway.rspRb.length).balance
  rw [inFlight, drain_gateway m ct _ s rfl] at hbal
  simpa using hbal

def backtest (engine : ε) (strategyConfigList : List String) (dataFeed : List TickData)
    (account : Account) (rules : List RiskRule) : Oms (BacktestGateway ε) where
  gateway := { matchEngine := engine, dataFeed }
  params := ⟨account, .init strategyConfigList, .empty⟩
  rules := rules

theorem Reconciled.start {L : m.Lawful} {engine : ε} (hinv : L.inv engine)
    (hresting : L.resting engine = 0) (strategyConfigList : List String)
    (dataFeed : List TickData) (account : Account) {rules : List RiskRule}
    (hrule : (rules.map RiskRule.kind).count .position = 1) :
    Reconciled ct L (backtest engine strategyConfigList dataFeed account rules) := by
  have hids : awaited L (backtest engine strategyConfigList dataFeed account rules).gateway = 0 := by
    simp [awaited, backtest, hresting, orderIds, finalIds]
  refine ⟨hrule, ⟨hinv, ?_, ?_⟩, ?_, fun id order hfind => (by cases hfind),
    fun id order hfind => (by cases hfind), ?_, fun rsp hrsp => (by cases hrsp), ?_, fun key => ?_⟩
  · simp [backtest, hresting, Listed]
  · simpa only [backtest, hresting] using Booked.empty
  · rw [hids]
    exact Multiset.nodup_zero
  · simp [backtest, hresting]
  · exact (add_zero _).trans (PositionManager.total_init strategyConfigList)
  · have hempty : liveOf (.init strategyConfigList) .empty key = 0 := rfl
    simpa only [backtest, orderMap, PositionManager.calculator_init, hempty] using Booked.empty

def marketTick : TickData where
  tickerId := 1
  bid := fun _ => 99
  ask := fun _ => 100

def marketOpen : Oms (BacktestGateway SimpleMatchEngine) :=
  let s : Oms (BacktestGateway SimpleMatchEngine) :=
    backtest {} ["strategy"] [] { cash := 1000 } [.position]
  { s with gateway := s.gateway.onDataFeed SimpleMatchEngine.engine (.ofList [ticker001]) marketTick }

end Oms

end FlareTrader
