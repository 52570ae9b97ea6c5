import FlareTrader.OmsExposure
import FlareTrader.OmsQueue

/-! The commands to cancel all orders, or the orders of a ticker, on the backtest gateway: they
return while the ring has room for a response to each, the orders that rest are canceled, and when
the responses have been processed none of them is live and nothing is pending on them. -/

namespace FlareTrader

theorem SimpleMatchEngine.mem_resting_cancelOrder {e : SimpleMatchEngine} (h : e.Filed)
    {orderId tickerId : ℕ} {k : OrderRequest} :
    k ∈ (cancelOrder orderId tickerId e).2.2.resting ↔
      k ∈ e.resting ∧ ¬ (k.orderId = orderId ∧ k.contract.tickerId = tickerId) := by
  constructor
  · intro hk
    obtain ⟨t, id, hfind⟩ := (mem_resting_iff _).mp hk
    unfold cancelOrder at hfind
    cases hf : (e.book tickerId).find? orderId with
    | none =>
      rw [hf] at hfind
      obtain ⟨rfl, rfl⟩ := h t id k hfind
      refine ⟨(mem_resting_iff e).mpr ⟨_, _, hfind⟩, fun ⟨hid, ht⟩ => ?_⟩
      rw [hid, ht, hf] at hfind
      cases hfind
    | some order =>
      simp only [hf, book_setBook] at hfind
      split_ifs at hfind with ht
      · rw [SortedMap.find?_erase] at hfind
        split_ifs at hfind with hid
        obtain ⟨rfl, -⟩ := h tickerId id k hfind
        exact ⟨(mem_resting_iff e).mpr ⟨_, _, hfind⟩, fun hboth => hid hboth.1⟩
      · obtain ⟨-, hticker⟩ := h t id k hfind
        exact ⟨(mem_resting_iff e).mpr ⟨_, _, hfind⟩, fun hboth => ht (hticker.symm.trans hboth.2)⟩
  · rintro ⟨hk, hnot⟩
    obtain ⟨t, id, hfind⟩ := (mem_resting_iff _).mp hk
    obtain ⟨rfl, rfl⟩ := h t id k hfind
    refine (mem_resting_iff _).mpr ⟨k.contract.tickerId, k.orderId, ?_⟩
    unfold cancelOrder
    cases hf : (e.book tickerId).find? orderId with
    | none => exact hfind
    | some order =>
      simp only [book_setBook]
      split_ifs with ht
      · rw [SortedMap.find?_erase, if_neg fun hid => hnot ⟨hid, ht⟩, ← ht]
        exact hfind
      · exact hfind

theorem Order.after_privdata {order after : Order} {rsp : GatewayOrderResponse}
    (h : order.after rsp = some after) :
    after.privdata = order.privdata ∧ after.req = order.req := by
  have hopen : ∀ {o : Order}, o.unlessCompleted = some after → after = o := by
    intro o ho
    unfold Order.unlessCompleted at ho
    split_ifs at ho
    exact (Option.some.inj ho).symm
  cases rsp with
  | accepted id =>
    simp only [Order.after] at h
    split_ifs at h <;> cases h <;> exact ⟨rfl, rfl⟩
  | traded rsp =>
    rw [hopen h]
    exact ⟨rfl, rfl⟩
  | rejected id reason => cases h
  | canceled id volume =>
    rw [hopen h]
    exact ⟨rfl, rfl⟩
  | cancelRejected id reason =>
    cases h
    exact ⟨rfl, rfl⟩

theorem ContractTable.tickerId_le {ct : ContractTable} {t : ℕ} {contract : Contract}
    (h : ct.getByIndex t = some contract) : contract.tickerId ≤ ct.contracts.length := by
  have hid := tickerId_of_getByIndex h
  unfold getByIndex at h
  split_ifs at h with hzero
  obtain ⟨hlt, -⟩ := List.getElem?_eq_some_iff.mp h
  omega

theorem pendings_of_forall_ne {live : RestingBook} {t : ℕ} (side : Side)
    (h : ∀ k ∈ live, k.contract.tickerId ≠ t) : pendings live t side = 0 := by
  induction live using Multiset.induction with
  | empty => rfl
  | cons order live ih =>
    obtain ⟨horder, hlive⟩ := Multiset.forall_mem_cons.mp h
    rw [pendings_cons, Pi.add_apply, Pi.add_apply, ih hlive, OrderRequest.pending_apply,
      if_neg fun hsame => horder hsame.1.symm, add_zero]

namespace Oms

/-- The gateway gets back with an order what it needs to cancel it. -/
def Addressed {γ : Type} (s : Oms γ) : Prop :=
  ∀ id order, s.orderMap.find? id = some order → order.privdata = order.req.contract.tickerId

section Addressed

variable {ε : Type} {m : MatchEngine ε} {ct : ContractTable} {s s' : Oms (BacktestGateway ε)}

theorem Addressed.visit (h : s.Addressed) (ct : ContractTable) (rsp : GatewayOrderResponse) :
    (Oms.visit ct s rsp).Addressed := by
  cases hfind : s.orderMap.find? rsp.orderId with
  | none => rwa [visit_of_find?_none ct hfind]
  | some order =>
    intro id after hafter
    rw [(visit_became ct hfind).orderMap] at hafter
    split_ifs at hafter with hid
    · obtain ⟨hprivdata, hreq⟩ := Order.after_privdata hafter
      rw [hprivdata, hreq]
      exact h _ order hfind
    · exact h id after hafter

theorem Addressed.drain (h : s.Addressed) (count : ℕ) :
    (Oms.drain (BacktestGateway.gateway m ct) ct count s).Addressed := by
  induction count generalizing s with
  | zero => exact h
  | succ count ih =>
    cases hring : s.gateway.rspRb with
    | nil => simpa only [Oms.drain, BacktestGateway.gateway, hring] using h
    | cons rsp rspRb =>
      have hgateway : ({ s with gateway := { s.gateway with rspRb } } : Oms _).Addressed := h
      have hrest := ih (hgateway.visit ct rsp)
      simpa only [Oms.drain, BacktestGateway.gateway, hring] using hrest

theorem sendFailed_orderMap {γ : Type} (order : Order) (s : Oms γ) :
    (sendFailed order s).orderMap = s.orderMap :=
  RiskManagementSystem.onOrderRejected_orderMap order s.rules s.params

theorem privdata_sendOrder {order : OrderRequest} {g : BacktestGateway ε}
    (h : (g.sendOrder m ct order).1 = true) :
    (g.sendOrder m ct order).2.1 = order.contract.tickerId := by
  unfold BacktestGateway.sendOrder at h ⊢
  dsimp only at h ⊢
  split_ifs at h ⊢
  rfl

theorem Addressed.orderSent {γ : Type} {s : Oms γ} (h : s.Addressed) {order : Order}
    (horder : order.privdata = order.req.contract.tickerId) :
    (Oms.orderSent order s).Addressed := by
  intro id live hlive
  rw [orderSent_orderMap] at hlive
  rcases eq_or_ne id order.req.orderId with rfl | hid
  · -- An id that the map holds already keeps its order.
    unfold SortedMap.emplace at hlive
    split_ifs at hlive
    · exact h _ live hlive
    · rw [SortedMap.find?_insert_self] at hlive
      cases hlive
      exact horder
  · rw [SortedMap.find?_emplace_of_ne _ hid] at hlive
    exact h id live hlive

theorem Addressed.submit (h : s.Addressed) (order : Order) :
    (Oms.submit (BacktestGateway.gateway m ct) order s).2.Addressed := by
  have hgateway (gateway : BacktestGateway ε) : ({ s with gateway } : Oms _).Addressed := h
  obtain ⟨privdata, gateway, hresult, ⟨htrue, hsubmit⟩ | ⟨-, hsubmit⟩⟩ :=
    submit_cases (BacktestGateway.gateway m ct) order s
  · have hsame : (s.gateway.sendOrder m ct order.req).2.1 = order.req.contract.tickerId :=
      privdata_sendOrder htrue
    have hprivdata : (s.gateway.sendOrder m ct order.req).2.1 = privdata :=
      congrArg (fun r => r.2.1) hresult
    rw [hsubmit]
    exact (hgateway gateway).orderSent (hprivdata.symm.trans hsame)
  · rw [hsubmit]
    intro id live hlive
    rw [sendFailed_orderMap] at hlive
    exact h id live hlive

theorem Addressed.sendOrder (h : s.Addressed) {clock : ℕ → UInt64} {cmd : TraderCommand}
    {orderReq : TraderOrderReq} {mqId : ℕ} :
    (Oms.sendOrder (BacktestGateway.gateway m ct) ct clock cmd orderReq mqId s).2.Addressed := by
  cases hcontract : ct.getByIndex orderReq.tickerId with
  | none =>
    simp only [Oms.sendOrder, hcontract]
    exact h
  | some contract =>
    obtain ⟨order, rules, -, -, ⟨-, hsend⟩ | ⟨-, hsend⟩⟩ :=
      sendOrder_cases (BacktestGateway.gateway m ct) clock cmd mqId s hcontract
    · rw [hsend]
      exact h
    · have hcounted : ({ s with nextOmsOrderId := s.nextOmsOrderId + 1, rules } :
          Oms _).Addressed := h
      rw [hsend]
      exact hcounted.submit order

theorem Addressed.step (h : s.Addressed) {a : BacktestAction}
    (hs : backtestStep m ct s a = some s') : s'.Addressed := by
  cases a with
  | tick tick =>
    cases hs
    exact h
  | processRsp =>
    cases hs
    exact h.drain 3
  | command cmd mqId clock iteration =>
    simp only [backtestStep, Oms.step] at hs
    split_ifs at hs
    rcases executeCmd_cases hs with ⟨orderReq, -, rfl⟩ | hsame
    · exact h.sendOrder
    · rw [hsame]
      exact h

end Addressed

section Ring

variable {ε : Type} {m : MatchEngine ε} {ct : ContractTable} {s s' : Oms (BacktestGateway ε)}

/-- A step that puts more responses into the ring than it holds does not return. -/
def ringStep (m : MatchEngine ε) (ct : ContractTable) (s : Oms (BacktestGateway ε))
    (a : BacktestAction) : Option (Oms (BacktestGateway ε)) :=
  (backtestStep m ct s a).filter fun s => s.gateway.Within

theorem ringStep_eq_some {a : BacktestAction} : ringStep m ct s a = some s' ↔
    backtestStep m ct s a = some s' ∧ s'.gateway.Within := by
  rw [ringStep, Option.filter_eq_some_iff, decide_eq_true_eq]

theorem isSome_ringStep {a : BacktestAction} (hs : backtestStep m ct s a = some s') :
    (ringStep m ct s a).isSome ↔ s'.gateway.Within := by
  rw [ringStep, hs, Option.filter_some]
  by_cases hw : s'.gateway.Within <;> simp [hw]

theorem ringStep_hosted (hs : s.gateway.Within) {frame : Frame} {cmd : TraderCommand}
    (hcmd : frame.cmd = some cmd) :
    (ringStep m ct s (.command cmd frame.mqId frame.clock (frame.iteration s.orderMap))).map
        hosted = executeReturning m ct (hosted s) frame := by
  rw [executeReturning_hosted s hs, returning, ringStep]
  simp only [backtestStep, Oms.step, frame.iteration_perm, if_true, executeFrame, hcmd]

/-- A run on the ring is one without it, in which no more than the ring holds is in it. -/
theorem reaches_of_ring {ok : Oms (BacktestGateway ε) → BacktestAction → Prop}
    (h : Execution.Reaches (ringStep m ct) ok s s') :
    Execution.Reaches (backtestStep m ct) ok s s' :=
  h.invariant (Execution.Reaches (backtestStep m ct) ok s)
    (fun _ a _ ht ha hstep => ht.tail a ha (ringStep_eq_some.mp hstep).1) (.refl s)

end Ring

section Cancel

variable {ct : ContractTable} {s s' : Oms (BacktestGateway SimpleMatchEngine)}

/-- The loop of a cancel command takes the orders it picks off the engine, and no other. -/
theorem cancelWhere_resting (ct : ContractTable) (p : Order → Bool) (withoutCheck : Bool)
    (iteration : List ℕ) (hfiled : s.gateway.matchEngine.Filed) :
    ∃ s', cancelWhere (BacktestGateway.gateway SimpleMatchEngine.engine ct) p
        withoutCheck iteration s = some s' ∧
      ∀ k, k ∈ s'.gateway.matchEngine.resting ↔ k ∈ s.gateway.matchEngine.resting ∧
        ∀ id ∈ iteration, ∀ order, s.orderMap.find? id = some order → p order = true →
          ¬ (k.orderId = order.req.orderId ∧ k.contract.tickerId = order.privdata % 2 ^ 32) := by
  induction iteration generalizing s with
  | nil => exact ⟨s, rfl, fun k => by simp⟩
  | cons id iteration ih =>
    rw [cancelWhere]
    cases hfind : s.orderMap.find? id with
    | none =>
      obtain ⟨s', hs', hresting⟩ := ih hfiled
      exact ⟨s', hs', fun k => (hresting k).trans (by simp [hfind])⟩
    | some order =>
      by_cases hp : p order = true
      · obtain ⟨r, hr⟩ : ∃ r, (BacktestGateway.gateway SimpleMatchEngine.engine ct).cancelOrder
            order.req.orderId order.privdata s.gateway = some r := ⟨_, rfl⟩
        have hengine : r.2.matchEngine = (SimpleMatchEngine.cancelOrder order.req.orderId
            (order.privdata % 2 ^ 32) s.gateway.matchEngine).2.2 := by
          cases hr
          dsimp only [BacktestGateway.gateway]
          simp only [BacktestGateway.listen_eq]
        -- A cancel changes the gateway alone: the loop goes on with the same order map.
        obtain ⟨s', hs', hresting⟩ := ih (s := { s with gateway := r.2 }) (by
          dsimp only
          rw [hengine]
          exact (SimpleMatchEngine.cancelOrder_spec hfiled _ _).1)
        refine ⟨s', ?_, fun k => (hresting k).trans ?_⟩
        · dsimp only
          rw [if_pos hp, doCancelOrder_eq_some.mpr ⟨r, hr, rfl⟩, Option.bind_some]
          exact hs'
        · dsimp only
          rw [hengine, SimpleMatchEngine.mem_resting_cancelOrder hfiled, and_assoc,
            List.forall_mem_cons]
          refine and_congr_right fun _ => and_congr ?_ Iff.rfl
          simp [hfind, hp]
      · obtain ⟨s', hs', hresting⟩ := ih hfiled
        refine ⟨s', ?_, fun k => (hresting k).trans (by simp [hfind, hp])⟩
        dsimp only
        rw [if_neg hp]
        exact hs'

section Reconciled

variable (h : Reconciled ct SimpleMatchEngine.lawful s)

include h

theorem Reconciled.order_of_resting {k : OrderRequest} (hk : k ∈ s.gateway.matchEngine.resting) :
    ∃ order, s.orderMap.find? k.orderId = some order ∧ k.contract = order.req.contract := by
  obtain ⟨order, touch, hfind, hkept⟩ := h.resting k hk
  obtain ⟨price, hprice⟩ := OrderRequest.kept_eq order.req touch
  refine ⟨order, hfind, ?_⟩
  rw [hkept, hprice]

theorem Reconciled.canceled (ha : s.Addressed) (hct : ct.contracts.length < 2 ^ 32)
    (p : Order → Bool) (withoutCheck : Bool) {iteration : List ℕ}
    (hperm : iteration.Perm s.orderMap.keys) :
    ∃ s', cancelWhere (BacktestGateway.gateway SimpleMatchEngine.engine ct) p withoutCheck
        iteration s = some s' ∧
      ∀ k, k ∈ s'.gateway.matchEngine.resting ↔ k ∈ s.gateway.matchEngine.resting ∧
        ∀ order, s.orderMap.find? k.orderId = some order → p order = false := by
  obtain ⟨s', hs', hresting⟩ := cancelWhere_resting ct p withoutCheck iteration h.gateway.inv
  refine ⟨s', hs', fun k => (hresting k).trans (and_congr_right fun hbefore => ⟨?_, ?_⟩)⟩
  · intro hnot order hfind
    by_contra hp
    obtain ⟨order', hfind', hcontract⟩ := h.order_of_resting hbefore
    obtain rfl := Option.some.inj (hfind.symm.trans hfind')
    obtain ⟨hid, -, huntouched⟩ := h.live _ order hfind
    have hmem : k.orderId ∈ iteration :=
      hperm.mem_iff.mpr (SortedMap.mem_keys_iff.mpr ⟨order, hfind⟩)
    have hlisted := ContractTable.tickerId_le huntouched.listed
    -- The gateway narrows what it gets back to 32 bits, which every listed id has.
    refine hnot k.orderId hmem order hfind (by simpa using hp) ⟨hid.symm, ?_⟩
    rw [ha _ order hfind, hcontract, Nat.mod_eq_of_lt (hlisted.trans_lt hct)]
  · rintro hnot id - order hfind hp ⟨hid, -⟩
    rw [(h.live id order hfind).1] at hid
    rw [hnot order (by rw [hid, hfind])] at hp
    cases hp

theorem Reconciled.settled_ticker (hring : s.gateway.rspRb = []) {t : ℕ}
    (hclear : ∀ k ∈ s.gateway.matchEngine.resting, k.contract.tickerId ≠ t) :
    (∀ id order, s.orderMap.find? id = some order → order.req.contract.tickerId ≠ t) ∧
      ∀ side, (s.gateway.posCalculator.ledger t side).openPending = 0 ∧
        (s.gateway.posCalculator.ledger t side).closePending = 0 := by
  have hbooked := h.gateway.booked.covers
  have hpendings (side : Side) :
      pendings (SimpleMatchEngine.lawful.resting s.gateway.matchEngine) t side = 0 :=
    pendings_of_forall_ne side hclear
  refine ⟨fun id order hfind => ?_, fun side => ⟨?_, ?_⟩⟩
  · have hin := h.answered id order hfind
    rw [awaited, hring] at hin
    obtain ⟨k, hk, rfl⟩ := Multiset.mem_map.mp (by simpa [finalIds, orderIds] using hin)
    obtain ⟨order', hfind', hcontract⟩ := h.order_of_resting hk
    obtain rfl := Option.some.inj (hfind.symm.trans hfind')
    rw [← hcontract]
    exact hclear k hk
  · rw [hbooked.openPending, hpendings]
    rfl
  · rw [hbooked.closePending, hpendings]
    rfl

theorem Reconciled.settled_total (hring : s.gateway.rspRb = []) :
    s.params.posManager.total = s.gateway.posCalculator.ledger := by
  have hbalance := h.balance
  simpa [inFlight, hring] using hbalance

end Reconciled

theorem Reconciled.reaches {strategyConfigList : List String} {dataFeed : List TickData}
    {account : Account} {rules : List RiskRule}
    (hrule : (rules.map RiskRule.kind).count .position = 1)
    (h : Execution.Reaches (ringStep SimpleMatchEngine.engine ct)
      (fun s a => OrdersTaken SimpleMatchEngine.engine ct s a ∧ s.RoomToOpen a)
      (backtest {} strategyConfigList dataFeed account rules) s) :
    Reconciled ct SimpleMatchEngine.lawful s ∧ s.Addressed := by
  have hstart : (backtest {} strategyConfigList dataFeed account rules :
      Oms (BacktestGateway SimpleMatchEngine)).Addressed := fun id order hfind => by cases hfind
  exact (reaches_of_ring h).invariant
    (fun s => Reconciled ct SimpleMatchEngine.lawful s ∧ s.Addressed)
    (fun _ _ _ hk ha hs => ⟨hk.1.preserved ha.1 hs, hk.2.step hs⟩)
    ⟨Reconciled.start SimpleMatchEngine.filed_empty rfl strategyConfigList dataFeed account hrule,
      hstart⟩

/-- A cancel command puts one response into the ring for each live order that it picks. -/
theorem ring_cancelWhere {p : Order → Bool} {withoutCheck : Bool} {iteration : List ℕ}
    (hperm : iteration.Perm s.orderMap.keys)
    (hs : cancelWhere (BacktestGateway.gateway SimpleMatchEngine.engine ct) p withoutCheck
      iteration s = some s') :
    s'.gateway.rspRb.length =
      s.gateway.rspRb.length + (s.orderMap.values.filter p).length := by
  have hcount : (cancelWhere (BacktestGateway.gateway SimpleMatchEngine.engine ct) p withoutCheck
      iteration s).map ringLength = _ := cancelWhere_reports iteration s
  rw [hs, cancelReports_simple, length_liveOrders hperm, Option.map_some, Option.map_some] at hcount
  exact Option.some.inj hcount

theorem Reconciled.drained_canceled (h : Reconciled ct SimpleMatchEngine.lawful s)
    {cmd : TraderCommand} (hcmd : ∀ orderReq, cmd.cmd ≠ .kNewOrder orderReq) {mqId : ℕ}
    {clock : ℕ → UInt64} {iteration : List ℕ}
    (hs : backtestStep SimpleMatchEngine.engine ct s (.command cmd mqId clock iteration) =
      some s') :
    Reconciled ct SimpleMatchEngine.lawful (drain
      (BacktestGateway.gateway SimpleMatchEngine.engine ct) ct s'.gateway.rspRb.length s') := by
  refine (h.preserved ?_ hs).drained _
  intro orderReq contract hsubmits
  exact absurd hsubmits.2 (hcmd orderReq)

/-- A command to cancel all orders returns exactly when the ring has room for a response to each
live order, whatever order its loop takes; when the responses have been processed no order rests
or is live, the strategies hold what the gateway holds, and nothing is pending. -/
theorem cancel_all_settles (ct : ContractTable) (hct : ct.contracts.length < 2 ^ 32)
    (strategyConfigList : List String) (dataFeed : List TickData) (account : Account)
    (rules : List RiskRule) (hrule : (rules.map RiskRule.kind).count .position = 1)
    (s : Oms (BacktestGateway SimpleMatchEngine))
    (h : Execution.Reaches (ringStep SimpleMatchEngine.engine ct)
      (fun s a => OrdersTaken SimpleMatchEngine.engine ct s a ∧ s.RoomToOpen a)
      (backtest {} strategyConfigList dataFeed account rules) s)
    {cmd : TraderCommand} (hmagic : cmd.magic = kTradingCmdMagic) (hcmd : cmd.cmd = .kCancelAll)
    (mqId : ℕ) (clock : ℕ → UInt64) {iteration : List ℕ}
    (hperm : iteration.Perm s.orderMap.keys) :
    ((ringStep SimpleMatchEngine.engine ct s (.command cmd mqId clock iteration)).isSome ↔
        s.gateway.rspRb.length + s.orderMap.values.length ≤ kOrderRspCapacity) ∧
      ∀ s', ringStep SimpleMatchEngine.engine ct s (.command cmd mqId clock iteration) = some s' →
        let t := drain (BacktestGateway.gateway SimpleMatchEngine.engine ct) ct
          s'.gateway.rspRb.length s'
        t.gateway.matchEngine.resting = 0 ∧ (∀ id, t.orderMap.find? id = none) ∧
          t.params.posManager.total = t.gateway.posCalculator.ledger ∧
          ∀ ticker side, (t.gateway.posCalculator.ledger ticker side).openPending = 0 ∧
            (t.gateway.posCalculator.ledger ticker side).closePending = 0 := by
  obtain ⟨hr, ha⟩ := Reconciled.reaches hrule h
  obtain ⟨s', hcancel, hresting⟩ := hr.canceled ha hct (fun _ => true) cmd.withoutCheck hperm
  have hs' : backtestStep SimpleMatchEngine.engine ct s (.command cmd mqId clock iteration) =
      some s' := by
    simp only [backtestStep, Oms.step, hperm, if_true, executeCmd, hmagic, hcmd, ne_eq,
      not_true_eq_false, if_false, cancelAll, hcancel]
  have hcount := ring_cancelWhere hperm hcancel
  rw [List.filter_true] at hcount
  refine ⟨(isSome_ringStep hs').trans (by rw [BacktestGateway.Within, hcount]), fun s'' hs'' => ?_⟩
  obtain rfl : s' = s'' := Option.some.inj (hs'.symm.trans (ringStep_eq_some.mp hs'').1)
  have hnone : s'.gateway.matchEngine.resting = 0 := by
    refine Multiset.eq_zero_of_forall_notMem fun k hk => ?_
    obtain ⟨hbefore, hnot⟩ := (hresting k).mp hk
    obtain ⟨order, hfind, -⟩ := hr.order_of_resting hbefore
    cases hnot order hfind
  have hdrained := hr.drained_canceled (by simp [hcmd]) hs'
  have hgateway := drain_gateway SimpleMatchEngine.engine ct _ s' rfl
  intro t
  -- Processing responses leaves the engine as the command left it.
  have hclear : t.gateway.matchEngine.resting = 0 := by
    rw [hgateway]
    exact hnone
  have hring : t.gateway.rspRb = [] := by rw [hgateway]
  have hticker (ticker : ℕ) := hdrained.settled_ticker (t := ticker) hring (by simp [t, hclear])
  refine ⟨hclear, fun id => ?_, hdrained.settled_total hring, fun ticker => (hticker ticker).2⟩
  refine Option.eq_none_iff_forall_ne_some.mpr fun order hfind => ?_
  exact (hticker _).1 id order hfind rfl

/-- A command to cancel the orders of one ticker returns exactly when the ring has room for a
response to each live one of them, takes them off and no others; when the responses have been
processed no order of that ticker is live and nothing is pending on it. -/
theorem cancel_for_ticker_settles (ct : ContractTable) (hct : ct.contracts.length < 2 ^ 32)
    (strategyConfigList : List String) (dataFeed : List TickData) (account : Account)
    (rules : List RiskRule) (hrule : (rules.map RiskRule.kind).count .position = 1)
    (s : Oms (BacktestGateway SimpleMatchEngine))
    (h : Execution.Reaches (ringStep SimpleMatchEngine.engine ct)
      (fun s a => OrdersTaken SimpleMatchEngine.engine ct s a ∧ s.RoomToOpen a)
      (backtest {} strategyConfigList dataFeed account rules) s)
    {cmd : TraderCommand} {tickerId : ℕ} (hmagic : cmd.magic = kTradingCmdMagic)
    (hcmd : cmd.cmd = .kCancelTicker tickerId) (mqId : ℕ) (clock : ℕ → UInt64)
    {iteration : List ℕ} (hperm : iteration.Perm s.orderMap.keys) :
    ((ringStep SimpleMatchEngine.engine ct s (.command cmd mqId clock iteration)).isSome ↔
        s.gateway.rspRb.length + (s.orderMap.values.filter fun order =>
          tickerId = order.req.contract.tickerId).length ≤ kOrderRspCapacity) ∧
      ∀ s', ringStep SimpleMatchEngine.engine ct s (.command cmd mqId clock iteration) = some s' →
        let t := drain (BacktestGateway.gateway SimpleMatchEngine.engine ct) ct
          s'.gateway.rspRb.length s'
        (∀ k, k ∈ t.gateway.matchEngine.resting ↔
            k ∈ s.gateway.matchEngine.resting ∧ k.contract.tickerId ≠ tickerId) ∧
          (∀ id order, t.orderMap.find? id = some order →
            order.req.contract.tickerId ≠ tickerId) ∧
          t.params.posManager.total = t.gateway.posCalculator.ledger ∧
          ∀ side, (t.gateway.posCalculator.ledger tickerId side).openPending = 0 ∧
            (t.gateway.posCalculator.ledger tickerId side).closePending = 0 := by
  obtain ⟨hr, ha⟩ := Reconciled.reaches hrule h
  obtain ⟨s', hcancel, hresting⟩ := hr.canceled ha hct
    (fun order => tickerId = order.req.contract.tickerId) cmd.withoutCheck hperm
  have hs' : backtestStep SimpleMatchEngine.engine ct s (.command cmd mqId clock iteration) =
      some s' := by
    simp only [backtestStep, Oms.step, hperm, if_true, executeCmd, hmagic, hcmd, ne_eq,
      not_true_eq_false, if_false, cancelForTicker, hcancel]
  refine ⟨(isSome_ringStep hs').trans
    (by rw [BacktestGateway.Within, ring_cancelWhere hperm hcancel]), fun s'' hs'' => ?_⟩
  obtain rfl : s' = s'' := Option.some.inj (hs'.symm.trans (ringStep_eq_some.mp hs'').1)
  have hothers (k : OrderRequest) : k ∈ s'.gateway.matchEngine.resting ↔
      k ∈ s.gateway.matchEngine.resting ∧ k.contract.tickerId ≠ tickerId := by
    refine (hresting k).trans (and_congr_right fun hbefore => ?_)
    obtain ⟨order, hfind, hcontract⟩ := hr.order_of_resting hbefore
    simp [hfind, hcontract, eq_comm]
  have hdrained := hr.drained_canceled (by simp [hcmd]) hs'
  have hgateway := drain_gateway SimpleMatchEngine.engine ct _ s' rfl
  intro t
  have hleft (k : OrderRequest) : k ∈ t.gateway.matchEngine.resting ↔
      k ∈ s.gateway.matchEngine.resting ∧ k.contract.tickerId ≠ tickerId := by
    rw [hgateway]
    exact hothers k
  have hring : t.gateway.rspRb = [] := by rw [hgateway]
  obtain ⟨hnone, hpending⟩ := hdrained.settled_ticker hring fun k hk => ((hleft k).mp hk).2
  exact ⟨hleft, hnone, hdrained.settled_total hring, hpending⟩

end Cancel

def buyBelowAsk : TraderOrderReq := ⟨7, 1, .kBuy, .kOpen, .kLimit, 1, 99, .kNone⟩

def buyBelowAskCmd : TraderCommand where
  cmd := .kNewOrder buyBelowAsk
  strategyId := "strategy"

def cancelAllCmd : TraderCommand where
  cmd := .kCancelAll
  strategyId := "strategy"

def restsBelowAsk : Oms (BacktestGateway SimpleMatchEngine) :=
  (sendOrder (BacktestGateway.gateway SimpleMatchEngine.engine (.ofList [ticker001]))
    (.ofList [ticker001]) (fun _ => 0) buyBelowAskCmd buyBelowAsk 0 marketOpen).2

theorem reaches_restsBelowAsk : Execution.Reaches
    (ringStep SimpleMatchEngine.engine (.ofList [ticker001]))
    (fun s a => OrdersTaken SimpleMatchEngine.engine (.ofList [ticker001]) s a ∧ s.RoomToOpen a)
    (backtest {} ["strategy"] [] { cash := 1000 } [.position]) restsBelowAsk := by
  have hstart : Execution.Reaches
      (ringStep SimpleMatchEngine.engine (.ofList [ticker001]))
      (fun s a => OrdersTaken SimpleMatchEngine.engine (.ofList [ticker001]) s a ∧ s.RoomToOpen a)
      (backtest {} ["strategy"] [] { cash := 1000 } [.position])
      (backtest {} ["strategy"] [] { cash := 1000 } [.position]) := .refl _
  have htick := hstart.tail (.tick marketTick) ⟨trivial, trivial⟩
    (ringStep_eq_some.mpr ⟨rfl, by decide +kernel⟩)
  have hcmd : buyBelowAskCmd.Submits buyBelowAsk := ⟨rfl, rfl⟩
  have hstep : backtestStep SimpleMatchEngine.engine (.ofList [ticker001]) marketOpen
      (.command buyBelowAskCmd 0 (fun _ => 0) []) = some restsBelowAsk :=
    step_newOrder (BacktestGateway.gateway SimpleMatchEngine.engine (.ofList [ticker001]))
      (.ofList [ticker001]) (fun _ => 0) hcmd 0 marketOpen
  exact htick.tail (.command buyBelowAskCmd 0 (fun _ => 0) [])
    ⟨fun orderReq contract hcmd hc => by
      cases hcmd.2
      cases hc
      exact ⟨rfl, Or.inl rfl, fun _ => by decide +kernel⟩,
    fun orderReq hcmd _ => by
      cases hcmd.2
      decide +kernel⟩ (ringStep_eq_some.mpr ⟨hstep, by decide +kernel⟩)

theorem keys_restsBelowAsk : restsBelowAsk.orderMap.keys = [1] := by decide +kernel

theorem cancel_all_settles_restsBelowAsk :
    (restsBelowAsk.orderMap.keys = [1] ∧
        (restsBelowAsk.gateway.posCalculator.ledger 1 .long).openPending = 1) ∧
      ∃ s', ringStep SimpleMatchEngine.engine (.ofList [ticker001]) restsBelowAsk
          (.command cancelAllCmd 0 (fun _ => 0) [1]) = some s' ∧
        let t := drain (BacktestGateway.gateway SimpleMatchEngine.engine (.ofList [ticker001]))
          (.ofList [ticker001]) s'.gateway.rspRb.length s'
        t.gateway.matchEngine.resting = 0 ∧ (∀ id, t.orderMap.find? id = none) ∧
          t.params.posManager.total = t.gateway.posCalculator.ledger ∧
          ∀ ticker side, (t.gateway.posCalculator.ledger ticker side).openPending = 0 ∧
            (t.gateway.posCalculator.ledger ticker side).closePending = 0 := by
  have hperm : List.Perm [1] restsBelowAsk.orderMap.keys := by rw [keys_restsBelowAsk]
  obtain ⟨hreturns, hsettles⟩ := cancel_all_settles (.ofList [ticker001]) (by decide) ["strategy"]
    [] { cash := 1000 } [.position] rfl restsBelowAsk reaches_restsBelowAsk
    (show cancelAllCmd.magic = kTradingCmdMagic from rfl) rfl 0 (fun _ => 0) hperm
  obtain ⟨s', hs'⟩ := Option.isSome_iff_exists.mp (hreturns.mpr (by decide +kernel))
  exact ⟨⟨keys_restsBelowAsk, by decide +kernel⟩, s', hs', hsettles s' hs'⟩

def cancelTickerCmd : TraderCommand where
  cmd := .kCancelTicker 1
  strategyId := "strategy"

theorem cancel_for_ticker_settles_restsBelowAsk :
    (restsBelowAsk.gateway.posCalculator.ledger 1 .long).openPending = 1 ∧
      ∃ s', ringStep SimpleMatchEngine.engine (.ofList [ticker001]) restsBelowAsk
          (.command cancelTickerCmd 0 (fun _ => 0) [1]) = some s' ∧
        let t := drain (BacktestGateway.gateway SimpleMatchEngine.engine (.ofList [ticker001]))
          (.ofList [ticker001]) s'.gateway.rspRb.length s'
        (∀ k, k ∈ t.gateway.matchEngine.resting ↔
            k ∈ restsBelowAsk.gateway.matchEngine.resting ∧ k.contract.tickerId ≠ 1) ∧
          (∀ id order, t.orderMap.find? id = some order →
            order.req.contract.tickerId ≠ 1) ∧
          t.params.posManager.total = t.gateway.posCalculator.ledger ∧
          ∀ side, (t.gateway.posCalculator.ledger 1 side).openPending = 0 ∧
            (t.gateway.posCalculator.ledger 1 side).closePending = 0 := by
  have hperm : List.Perm [1] restsBelowAsk.orderMap.keys := by rw [keys_restsBelowAsk]
  obtain ⟨hreturns, hsettles⟩ := cancel_for_ticker_settles (.ofList [ticker001]) (by decide)
    ["strategy"] [] { cash := 1000 } [.position] rfl restsBelowAsk reaches_restsBelowAsk
    (show cancelTickerCmd.magic = kTradingCmdMagic from rfl) rfl 0 (fun _ => 0) hperm
  obtain ⟨s', hs'⟩ := Option.isSome_iff_exists.mp (hreturns.mpr (by decide +kernel))
  exact ⟨by decide +kernel, s', hs', hsettles s' hs'⟩

end Oms

end FlareTrader
