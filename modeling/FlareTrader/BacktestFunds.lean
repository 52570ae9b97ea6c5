import FlareTrader.BacktestGateway
import FlareTrader.AdvancedBook

/-! The frozen funds of the backtest gateway. Money is frozen with the order as
it was submitted and released with the copy that the engine kept; the two agree
as long as no open order rests at another price than it was submitted with. -/

namespace FlareTrader

structure GatewayRun (ε : Type) where
  gateway : BacktestGateway ε
  sent : List OrderRequest := []

inductive GatewayAction
  | send (order : OrderRequest)
  | cancel (orderId privdata : ℕ)
  | feed (tick : TickData)

def OrderRequest.IsSmall (order : OrderRequest) : Prop :=
  |order.contract.size * order.volume| < 2 ^ 31

instance (order : OrderRequest) : Decidable order.IsSmall := inferInstanceAs (Decidable (_ < _))

def OrderRequest.frozenValue (order : OrderRequest) : ℚ :=
  if isOffsetOpen order.offset then intMul order.contract.size order.volume * order.price else 0

def OrderRequest.notional (order : OrderRequest) : ℚ :=
  order.contract.size * order.volume * order.price

def frozenFor (sent : List OrderRequest) (book : RestingBook) : ℚ :=
  ((sent.filter fun o => isOffsetOpen o.offset ∧ o.orderId ∈ orderIds book).map
    OrderRequest.notional).sum

namespace GatewayRun

variable {ε : Type}

def step (m : MatchEngine ε) (ct : ContractTable) (r : GatewayRun ε) :
    GatewayAction → Option (GatewayRun ε)
  | .send order => some ⟨(r.gateway.sendOrder m ct order).2.2, r.sent ++ [order]⟩
  | .cancel orderId privdata =>
    (r.gateway.cancelOrder m ct orderId privdata).map fun x => ⟨x.2, r.sent⟩
  | .feed tick => some ⟨r.gateway.onDataFeed m ct tick, r.sent⟩

/-- Distinct order ids and no overflow. -/
def Fresh (r : GatewayRun ε) : GatewayAction → Prop
  | .send order => (∀ o ∈ r.sent, o.orderId ≠ order.orderId) ∧ order.IsSmall
  | _ => True

def AtTouch {m : MatchEngine ε} (L : m.Lawful) (r : GatewayRun ε) : GatewayAction → Prop
  | .send order => r.gateway.checkOrder order = true → order.type = .kBest →
      isOffsetOpen order.offset = true → L.quoted order r.gateway.matchEngine = true →
      order.price = L.touch order r.gateway.matchEngine
  | _ => True

end GatewayRun

section Frozen

variable (order : OrderRequest) (account : Account)

theorem intMul_neg {a b : ℤ} (h : |a * b| < 2 ^ 31) : intMul a (-b) = -intMul a b := by
  rw [intMul_eq_mul h, intMul_eq_mul (by rwa [mul_neg, abs_neg]), mul_neg]

theorem FundCalculator.frozen_updatePending :
    (updatePending order order.volume account).frozen = account.frozen + order.frozenValue := by
  unfold updatePending OrderRequest.frozenValue
  split_ifs
  · rfl
  · rw [add_zero]

theorem FundCalculator.frozen_released {order : OrderRequest} (h : order.IsSmall)
    (account : Account) :
    (updatePending order (-order.volume) account).frozen = account.frozen - order.frozenValue := by
  unfold updatePending OrderRequest.frozenValue
  split_ifs
  · rw [intMul_neg h]
    push_cast
    ring
  · rw [sub_zero]

theorem FundCalculator.frozen_traded (price : ℚ) (tick : TickData) :
    (updateTraded order order.volume price tick account).frozen =
      account.frozen - order.frozenValue := by
  unfold updateTraded OrderRequest.frozenValue
  split_ifs
  · rfl
  · rw [sub_zero]

def frozenOf (book : RestingBook) : ℚ := (book.map OrderRequest.frozenValue).sum

theorem frozenOf_cons (order : OrderRequest) (book : RestingBook) :
    frozenOf (order ::ₘ book) = order.frozenValue + frozenOf book := by
  rw [frozenOf, Multiset.map_cons, Multiset.sum_cons]
  rfl

theorem frozenOf_eq {book : RestingBook} (hs : ∀ k ∈ book, k.IsSmall) : frozenOf book =
    ((book.filter fun k => isOffsetOpen k.offset = true).map OrderRequest.notional).sum := by
  induction book using Multiset.induction_on with
  | empty => rfl
  | cons k book ih =>
    have hrest := ih fun k' hk' => hs k' (Multiset.mem_cons_of_mem hk')
    rw [frozenOf_cons, hrest]
    by_cases hopen : isOffsetOpen k.offset = true
    · have hfilter : (k ::ₘ book).filter (fun k => isOffsetOpen k.offset = true) =
          k ::ₘ book.filter fun k => isOffsetOpen k.offset = true :=
        Multiset.filter_cons_of_pos book hopen
      rw [hfilter, Multiset.map_cons, Multiset.sum_cons, OrderRequest.frozenValue, if_pos hopen,
        intMul_eq_mul (hs k (Multiset.mem_cons_self k book)), OrderRequest.notional]
      push_cast
      rfl
    · have hfilter : (k ::ₘ book).filter (fun k => isOffsetOpen k.offset = true) =
          book.filter fun k => isOffsetOpen k.offset = true :=
        Multiset.filter_cons_of_neg book hopen
      rw [hfilter, OrderRequest.frozenValue, if_neg hopen, zero_add]

theorem frozen_closes {book book' : RestingBook} {events : List Event} (ticks : ℕ → TickData)
    (h : Closes book events book') (hs : ∀ k ∈ book, k.IsSmall) (account : Account) :
    (events.foldl (fun account e => e.bookFund ticks account) account).frozen + frozenOf book =
      account.frozen + frozenOf book' := by
  induction h generalizing account with
  | nil book => rfl
  | cancelRejected id rest ih => exact ih hs account
  | traded order price ts rest ih =>
    have hrest := ih (fun k hk => hs k (Multiset.mem_cons_of_mem hk))
      (FundCalculator.updateTraded order order.volume price (ticks order.contract.tickerId) account)
    rw [FundCalculator.frozen_traded] at hrest
    have hfirst : (Event.traded order order.volume price ts).bookFund ticks account =
        FundCalculator.updateTraded order order.volume price (ticks order.contract.tickerId)
          account := rfl
    rw [List.foldl_cons, hfirst, frozenOf_cons]
    linarith
  | canceled order rest ih =>
    have hrest := ih (fun k hk => hs k (Multiset.mem_cons_of_mem hk))
      (FundCalculator.updatePending order (-order.volume) account)
    rw [FundCalculator.frozen_released (hs order (Multiset.mem_cons_self order _)) account] at hrest
    have hfirst : (Event.canceled order order.volume).bookFund ticks account =
        FundCalculator.updatePending order (-order.volume) account := rfl
    rw [List.foldl_cons, hfirst, frozenOf_cons]
    linarith

end Frozen

namespace GatewayRun

variable {ε : Type} {m : MatchEngine ε} {ct : ContractTable}

structure FundsKept (L : m.Lawful) (r : GatewayRun ε) : Prop where
  inv : L.inv r.gateway.matchEngine
  resting_nodup : (orderIds (L.resting r.gateway.matchEngine)).Nodup
  sent_nodup : (r.sent.map (·.orderId)).Nodup
  small : ∀ o ∈ r.sent, o.IsSmall
  resting_sent : ∀ k ∈ L.resting r.gateway.matchEngine, ∃ o ∈ r.sent, ∃ touch,
    k = o.kept touch ∧ (isOffsetOpen o.offset = true → k = o)
  frozen : r.gateway.account.frozen = frozenOf (L.resting r.gateway.matchEngine)

theorem FundsKept.fresh {L : m.Lawful} {r : GatewayRun ε} (h : FundsKept L r)
    {order : OrderRequest} (hfresh : ∀ o ∈ r.sent, o.orderId ≠ order.orderId) :
    order.orderId ∉ orderIds (L.resting r.gateway.matchEngine) := by
  intro hid
  obtain ⟨k, hk, hkid⟩ := Multiset.mem_map.mp hid
  obtain ⟨o, ho, touch, rfl, -⟩ := h.resting_sent k hk
  exact hfresh o ho ((o.kept_orderId touch).symm.trans hkid)

theorem FundsKept.small_resting {L : m.Lawful} {r : GatewayRun ε} (h : FundsKept L r) :
    ∀ k ∈ L.resting r.gateway.matchEngine, k.IsSmall := by
  intro k hk
  obtain ⟨o, ho, touch, rfl, -⟩ := h.resting_sent k hk
  have hs := h.small o ho
  rwa [OrderRequest.IsSmall, ← o.kept_contract touch, ← o.kept_volume touch] at hs

theorem FundsKept.closes {L : m.Lawful} {r : GatewayRun ε} (h : FundsKept L r)
    {events : List Event} {g : BacktestGateway ε}
    (hfrozen : g.account.frozen = r.gateway.account.frozen) (hinv : L.inv g.matchEngine)
    (hc : Closes (L.resting r.gateway.matchEngine) events (L.resting g.matchEngine)) :
    FundsKept L ⟨g.listen ct events, r.sent⟩ := by
  have hclosed := frozen_closes g.currentTicks hc h.small_resting g.account
  refine ⟨?_, ?_, h.sent_nodup, h.small, ?_, ?_⟩
  · simpa only [BacktestGateway.listen_eq] using hinv
  · rw [BacktestGateway.listen_eq]
    exact Multiset.nodup_of_le (Multiset.map_le_map hc.le) h.resting_nodup
  · rw [BacktestGateway.listen_eq]
    exact fun k hk => h.resting_sent k (Multiset.mem_of_le hc.le hk)
  · rw [BacktestGateway.listen_eq]
    rw [hfrozen, h.frozen] at hclosed
    linarith

section Send

variable {L : m.Lawful} {r : GatewayRun ε} {order : OrderRequest} {g : BacktestGateway ε}

theorem FundsKept.sent (h : FundsKept L r) (hfresh : r.Fresh (.send order)) :
    ((r.sent ++ [order]).map (·.orderId)).Nodup ∧ (∀ o ∈ r.sent ++ [order], o.IsSmall) ∧
      ∀ k ∈ L.resting r.gateway.matchEngine, ∃ o ∈ r.sent ++ [order], ∃ touch,
        k = o.kept touch ∧ (isOffsetOpen o.offset = true → k = o) := by
  refine ⟨?_, fun o ho => ?_, fun k hk => ?_⟩
  · rw [List.map_append, List.nodup_append]
    refine ⟨h.sent_nodup, List.nodup_singleton _, fun a ha b hb => ?_⟩
    obtain ⟨o, ho, rfl⟩ := List.mem_map.mp ha
    rw [List.mem_singleton.mp hb]
    exact hfresh.1 o ho
  · rcases List.mem_append.mp ho with ho | ho
    · exact h.small o ho
    · rw [List.mem_singleton.mp ho]
      exact hfresh.2
  · obtain ⟨o, ho, hrest⟩ := h.resting_sent k hk
    exact ⟨o, List.mem_append_left _ ho, hrest⟩

theorem FundsKept.passed (h : FundsKept L r) (hfresh : r.Fresh (.send order))
    (hinv : L.inv g.matchEngine)
    (hresting : L.resting g.matchEngine = L.resting r.gateway.matchEngine)
    (hfrozen : g.account.frozen = r.gateway.account.frozen) :
    FundsKept L ⟨g, r.sent ++ [order]⟩ := by
  obtain ⟨hnodup, hsmall, hold⟩ := h.sent hfresh
  refine ⟨hinv, ?_, hnodup, hsmall, ?_, ?_⟩
  · rw [hresting]
    exact h.resting_nodup
  · rw [hresting]
    exact hold
  · rw [hresting, hfrozen]
    exact h.frozen

theorem OrderRequest.frozenValue_kept {order : OrderRequest} {touch : ℚ}
    (h : isOffsetOpen order.offset = true → order.kept touch = order) :
    (order.kept touch).frozenValue = order.frozenValue := by
  by_cases hopen : isOffsetOpen order.offset = true
  · rw [h hopen]
  · obtain ⟨price, hp⟩ := order.kept_eq touch
    rw [hp]
    simp [OrderRequest.frozenValue, hopen]

theorem FundsKept.rested (h : FundsKept L r) (hfresh : r.Fresh (.send order)) {touch : ℚ}
    (hkept : isOffsetOpen order.offset = true → order.kept touch = order)
    (hinv : L.inv g.matchEngine)
    (hresting : L.resting g.matchEngine = order.kept touch ::ₘ L.resting r.gateway.matchEngine)
    (hfrozen : g.account.frozen = r.gateway.account.frozen + order.frozenValue) :
    FundsKept L ⟨g, r.sent ++ [order]⟩ := by
  obtain ⟨hnodup, hsmall, hold⟩ := h.sent hfresh
  refine ⟨hinv, ?_, hnodup, hsmall, fun k hk => ?_, ?_⟩
  · rw [hresting, orderIds, Multiset.map_cons, Multiset.nodup_cons, OrderRequest.kept_orderId]
    exact ⟨h.fresh hfresh.1, h.resting_nodup⟩
  · rw [hresting] at hk
    rcases Multiset.mem_cons.mp hk with rfl | hk
    · exact ⟨order, List.mem_append_right _ (List.mem_singleton_self order), touch, rfl, hkept⟩
    · exact hold k hk
  · rw [hresting, hfrozen, frozenOf_cons, OrderRequest.frozenValue_kept hkept, h.frozen, add_comm]

theorem FundsKept.send (h : FundsKept L r) (hfresh : r.Fresh (.send order))
    (htouch : r.AtTouch L (.send order)) :
    FundsKept L ⟨(r.gateway.sendOrder m ct order).2.2, r.sent ++ [order]⟩ := by
  unfold BacktestGateway.sendOrder
  by_cases hcheck : r.gateway.checkOrder order = true
  · simp only [hcheck, Bool.not_true, Bool.false_eq_true, if_false]
    obtain ⟨hinv, hins⟩ := L.insert_spec order r.gateway.matchEngine h.inv (h.fresh hfresh.1)
    have hbest := L.best_spec order r.gateway.matchEngine
    have heng : (r.gateway.updatePending order order.volume).matchEngine =
        r.gateway.matchEngine := rfl
    have hpending : (r.gateway.updatePending order order.volume).account.frozen =
        r.gateway.account.frozen + order.frozenValue :=
      FundCalculator.frozen_updatePending order r.gateway.account
    have hreleased := FundCalculator.frozen_released hfresh.2
      (r.gateway.updatePending order order.volume).account
    rw [hpending, add_sub_cancel_right] at hreleased
    rw [heng]
    generalize m.insertOrder order r.gateway.matchEngine = x at *
    obtain ⟨ok, events, e'⟩ := x
    simp only at hinv hins hbest ⊢
    generalize hbook : L.resting e' = book' at hins
    cases hins with
    | unsupported => exact h.passed hfresh hinv hbook hreleased
    | rejected => exact h.passed hfresh hinv hbook hreleased
    | canceled => exact h.passed hfresh hinv hbook hreleased
    | traded price ts =>
      have htraded := FundCalculator.frozen_traded order
        (r.gateway.updatePending order order.volume).account price
        (r.gateway.currentTicks order.contract.tickerId)
      rw [hpending, add_sub_cancel_right] at htraded
      exact h.passed hfresh hinv hbook htraded
    | rested =>
      have hkept : isOffsetOpen order.offset = true →
          order.kept (L.touch order r.gateway.matchEngine) = order := by
        intro hopen
        unfold OrderRequest.kept
        split_ifs with htype
        · have hq : L.quoted order r.gateway.matchEngine = true := by
            by_contra hq
            rw [if_neg hq] at hbest
            simpa using hbest htype
          rw [← htouch hcheck htype hopen hq]
        · rfl
      exact h.rested hfresh hkept hinv hbook hpending
  · simp only [hcheck, Bool.not_false, if_true]
    exact h.passed hfresh h.inv rfl rfl

end Send

theorem FundsKept.preserved {L : m.Lawful} {r r' : GatewayRun ε} {a : GatewayAction}
    (h : FundsKept L r) (hfresh : r.Fresh a) (htouch : r.AtTouch L a)
    (hs : step m ct r a = some r') : FundsKept L r' := by
  cases a with
  | send order =>
    cases hs
    exact h.send hfresh htouch
  | cancel orderId privdata =>
    obtain ⟨x, hx, rfl⟩ := Option.map_eq_some_iff.mp hs
    obtain ⟨y, hy, rfl⟩ := Option.map_eq_some_iff.mp hx
    obtain ⟨hinv, hc⟩ := L.cancel_spec _ _ _ y h.inv hy
    exact h.closes rfl hinv hc
  | feed tick =>
    cases hs
    obtain ⟨hinv, hc⟩ := L.tick_spec tick r.gateway.matchEngine h.inv
    have hrevalue : (r.gateway.revalue ct tick).account.frozen = r.gateway.account.frozen ∧
        (r.gateway.revalue ct tick).matchEngine = r.gateway.matchEngine := by
      unfold BacktestGateway.revalue
      cases r.gateway.posCalculator.getPosition tick.tickerId with
      | none => exact ⟨rfl, rfl⟩
      | some pos =>
        simp only
        split_ifs <;> exact ⟨rfl, rfl⟩
    unfold BacktestGateway.onDataFeed
    rw [← hrevalue.2] at hinv hc
    refine h.closes hrevalue.1 hinv ?_
    rwa [← hrevalue.2]

theorem FundsKept.frozen_eq {L : m.Lawful} {r : GatewayRun ε} (h : FundsKept L r) :
    r.gateway.account.frozen = frozenFor r.sent (L.resting r.gateway.matchEngine) := by
  have hbook : (L.resting r.gateway.matchEngine).filter (fun k => isOffsetOpen k.offset = true) =
      (r.sent.filter fun o => isOffsetOpen o.offset ∧
        o.orderId ∈ orderIds (L.resting r.gateway.matchEngine) : List OrderRequest) := by
    refine (Multiset.Nodup.ext (h.resting_nodup.of_map.filter _)
      (Multiset.coe_nodup.mpr (h.sent_nodup.of_map.filter _))).mpr fun k => ?_
    simp only [Multiset.mem_filter, Multiset.mem_coe, List.mem_filter, decide_eq_true_eq]
    constructor
    · rintro ⟨hk, hopen⟩
      obtain ⟨o, ho, touch, heq, hsame⟩ := h.resting_sent k hk
      have hko : k = o := hsame (by rwa [heq, OrderRequest.kept_offset] at hopen)
      exact ⟨hko ▸ ho, hopen, Multiset.mem_map_of_mem _ hk⟩
    · rintro ⟨hk, hopen, hid⟩
      obtain ⟨k', hk', heq⟩ := Multiset.mem_map.mp hid
      obtain ⟨o, ho, touch, hkept, hsame⟩ := h.resting_sent k' hk'
      have hok : o = k := by
        apply List.inj_on_of_nodup_map h.sent_nodup ho hk
        rw [← heq, hkept, OrderRequest.kept_orderId]
      rw [hsame (hok ▸ hopen), hok] at hk'
      exact ⟨hk', hopen⟩
  rw [h.frozen, frozenOf_eq h.small_resting, hbook, frozenFor, Multiset.map_coe, Multiset.sum_coe]

theorem FundsKept.start (L : m.Lawful) {g : BacktestGateway ε} (hinv : L.inv g.matchEngine)
    (hresting : L.resting g.matchEngine = 0) (hfrozen : g.account.frozen = 0) :
    FundsKept L { gateway := g } := by
  refine ⟨hinv, ?_, List.nodup_nil, by simp, fun k hk => ?_, ?_⟩
  · rw [hresting]
    exact Multiset.nodup_zero
  · rw [hresting] at hk
    exact absurd hk (Multiset.notMem_zero k)
  · rw [hresting, hfrozen]
    rfl

theorem funds_of_reaches (L : m.Lawful) (g : BacktestGateway ε) (hinv : L.inv g.matchEngine)
    (hresting : L.resting g.matchEngine = 0) (hfrozen : g.account.frozen = 0) {r : GatewayRun ε}
    (h : Execution.Reaches (step m ct) (fun r a => r.Fresh a ∧ r.AtTouch L a) { gateway := g } r) :
    r.gateway.account.frozen = frozenFor r.sent (L.resting r.gateway.matchEngine) ∧
      (L.resting r.gateway.matchEngine = 0 → r.gateway.account.frozen = 0) := by
  have hk := h.invariant (FundsKept L)
    (fun _ _ _ hk ha hs => hk.preserved ha.1 ha.2 hs) (.start L hinv hresting hfrozen)
  refine ⟨hk.frozen_eq, fun h0 => ?_⟩
  rw [hk.frozen, h0]
  rfl

end GatewayRun

theorem frozen_matches_resting (ct : ContractTable) (dataFeed : List TickData) :
    (∀ r, Execution.Reaches (GatewayRun.step SimpleMatchEngine.engine ct)
        (fun r a => r.Fresh a ∧ r.AtTouch SimpleMatchEngine.lawful a)
        { gateway := { matchEngine := {}, dataFeed } } r →
      r.gateway.account.frozen =
          frozenFor r.sent (SimpleMatchEngine.resting r.gateway.matchEngine) ∧
        (SimpleMatchEngine.resting r.gateway.matchEngine = 0 → r.gateway.account.frozen = 0)) ∧
      ∀ fuel r, Execution.Reaches (GatewayRun.step (AdvancedMatchEngine.engine ct fuel) ct)
        (fun r a => r.Fresh a ∧ r.AtTouch (AdvancedMatchEngine.lawful ct fuel) a)
        { gateway := { matchEngine := {}, dataFeed } } r →
      r.gateway.account.frozen =
          frozenFor r.sent (AdvancedMatchEngine.resting r.gateway.matchEngine) ∧
        (AdvancedMatchEngine.resting r.gateway.matchEngine = 0 →
          r.gateway.account.frozen = 0) := by
  constructor
  · intro r h
    exact GatewayRun.funds_of_reaches SimpleMatchEngine.lawful { matchEngine := {}, dataFeed }
      SimpleMatchEngine.filed_empty rfl rfl h
  · intro fuel r h
    exact GatewayRun.funds_of_reaches (AdvancedMatchEngine.lawful ct fuel)
      { matchEngine := {}, dataFeed } AdvancedMatchEngine.indexed_empty rfl rfl h

def bestBuy (price : ℚ) : OrderRequest where
  contract := ticker001
  orderId := 1
  type := .kBest
  direction := .kBuy
  offset := .kOpen
  volume := 2
  price := price

def quoteTick : TickData where
  tickerId := 1
  bid := fun _ => 99
  ask := fun _ => 101

def boughtBest (price : ℚ) : BacktestGateway SimpleMatchEngine :=
  let g : BacktestGateway SimpleMatchEngine := { matchEngine := {} }
  ((g.onDataFeed SimpleMatchEngine.engine (.ofList [ticker001]) quoteTick).sendOrder
    SimpleMatchEngine.engine (.ofList [ticker001]) (bestBuy price)).2.2

theorem frozen_matches_resting_boughtBest :
    (boughtBest 99).account.frozen =
      frozenFor [bestBuy 99] (SimpleMatchEngine.resting (boughtBest 99).matchEngine) := by
  have hstart : Execution.Reaches (GatewayRun.step SimpleMatchEngine.engine (.ofList [ticker001]))
      (fun r a => r.Fresh a ∧ r.AtTouch SimpleMatchEngine.lawful a)
      { gateway := { matchEngine := {}, dataFeed := [] } }
      { gateway := { matchEngine := {}, dataFeed := [] } } := .refl _
  have hfeed := hstart.tail (.feed quoteTick) ⟨trivial, trivial⟩ rfl
  have hsend := hfeed.tail (.send (bestBuy 99))
    ⟨⟨by simp, by decide⟩, fun _ _ _ _ => by decide +kernel⟩ rfl
  exact ((frozen_matches_resting (.ofList [ticker001]) []).1 _ hsend).1

/-- Submitted at 100, kept at the bid of 99: cancelling leaves the difference frozen. -/
theorem repriced_best_leaves_frozen :
    ∃ r, Execution.Reaches (GatewayRun.step SimpleMatchEngine.engine (.ofList [ticker001]))
        GatewayRun.Fresh { gateway := { matchEngine := {} } } r ∧
      SimpleMatchEngine.resting r.gateway.matchEngine = 0 ∧ r.gateway.account.frozen = 20 := by
  have hstart : Execution.Reaches (GatewayRun.step SimpleMatchEngine.engine (.ofList [ticker001]))
      GatewayRun.Fresh { gateway := { matchEngine := {} } } { gateway := { matchEngine := {} } } :=
    .refl _
  have hfeed := hstart.tail (.feed quoteTick) trivial rfl
  have hsend := hfeed.tail (.send (bestBuy 100)) ⟨by simp, by decide⟩ rfl
  have hcancel := hsend.tail (.cancel 1 1) trivial rfl
  exact ⟨_, hcancel, by decide +kernel, by decide +kernel⟩

end FlareTrader
