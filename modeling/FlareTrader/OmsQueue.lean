import FlareTrader.OmsBacktest
import FlareTrader.RingBuffer

/-! The order management system on one thread with the backtest gateway and the
bounded ring between them. The gateway puts its responses from inside the calls
of that thread, which alone takes them out: a put into a full ring never ends. -/

namespace FlareTrader

def kOrderRspCapacity : ℕ := 1024

namespace BacktestGateway

variable {ε : Type}

/-- Every callback ends with one put. -/
def onEventWithBlocking (ct : ContractTable) (g : BacktestGateway ε) (e : Event) :
    Option (BacktestGateway ε) :=
  if g.rspRb.length < kOrderRspCapacity then some (onEvent ct g e) else none

def listenWithBlocking (ct : ContractTable) :
    List Event → BacktestGateway ε → Option (BacktestGateway ε)
  | [], g => some g
  | e :: events, g => (onEventWithBlocking ct g e).bind (listenWithBlocking ct events)

def sendOrderWithBlocking (m : MatchEngine ε) (ct : ContractTable) (order : OrderRequest)
    (g : BacktestGateway ε) : Option (Bool × ℕ × BacktestGateway ε) :=
  if !g.checkOrder order then some (false, 0, g)
  else
    let g := updatePending order order.volume g
    let r := m.insertOrder order g.matchEngine
    (listenWithBlocking ct r.2.1 { g with matchEngine := r.2.2 }).map fun g =>
      if r.1 then (true, order.contract.tickerId, g)
      else (false, order.contract.tickerId, updatePending order (-order.volume) g)

def cancelOrderWithBlocking (m : MatchEngine ε) (ct : ContractTable) (orderId privdata : ℕ)
    (g : BacktestGateway ε) : Option (Bool × BacktestGateway ε) :=
  (m.cancelOrder orderId (privdata % 2 ^ 32) g.matchEngine).bind fun r =>
    (listenWithBlocking ct r.2.1 { g with matchEngine := r.2.2 }).map fun g => (r.1, g)

def onDataFeedWithBlocking (m : MatchEngine ε) (ct : ContractTable) (tick : TickData)
    (g : BacktestGateway ε) : Option (BacktestGateway ε) :=
  let g := revalue ct tick g
  let g := { g with currentTicks := Function.update g.currentTicks tick.tickerId tick }
  let r := m.onNewTick tick g.matchEngine
  listenWithBlocking ct r.1 { g with matchEngine := r.2 }

def onNotifyWithBlocking (m : MatchEngine ε) (ct : ContractTable) (g : BacktestGateway ε) :
    Option (BacktestGateway ε) :=
  match g.dataFeed with
  | [] => some g
  | tick :: dataFeed => onDataFeedWithBlocking m ct tick { g with dataFeed }

/-- The gateway is lost to a thread that is stuck in a put. -/
def blockingGateway (m : MatchEngine ε) (ct : ContractTable) :
    Gateway (Option (BacktestGateway ε)) where
  sendOrder := fun order g =>
    match g.bind (sendOrderWithBlocking m ct order) with
    | none => (false, 0, none)
    | some r => (r.1, r.2.1, some r.2.2)
  cancelOrder := fun orderId privdata g =>
    (g.bind (cancelOrderWithBlocking m ct orderId privdata)).map fun r => (r.1, some r.2)
  onNotify := fun _ g => (g.bind (onNotifyWithBlocking m ct)).map some
  getOrderRsp := fun g => g.bind fun g => ((gateway m ct).getOrderRsp g).map fun r => (r.1, some r.2)

section Blocking

variable {m : MatchEngine ε} {ct : ContractTable} {g : BacktestGateway ε}

def Within (g : BacktestGateway ε) : Prop := g.rspRb.length ≤ kOrderRspCapacity

instance (g : BacktestGateway ε) : Decidable g.Within := inferInstanceAs (Decidable (_ ≤ _))

/-- A put of the concrete ring that holds the responses returns under the same condition. -/
theorem onEventWithBlocking_isSome_iff
    {rb : RingBuffer GatewayOrderResponse kOrderRspCapacity} (h : rb.Holds g.rspRb) (e : Event) :
    (onEventWithBlocking ct g e).isSome ↔ (rb.put e.response).1 = true := by
  have hdvd : kOrderRspCapacity ∣ 2 ^ 64 := by decide
  rw [RingBuffer.put_fst_iff hdvd (by decide) h, onEventWithBlocking]
  split_ifs with hroom
  · simpa using hroom
  · simpa using hroom

theorem onEvent_rspRb (ct : ContractTable) (g : BacktestGateway ε) (e : Event) :
    (onEvent ct g e).rspRb = g.rspRb ++ [e.response] := by
  cases e <;> rfl

theorem listen_rspRb (ct : ContractTable) (events : List Event) (g : BacktestGateway ε) :
    (listen ct events g).rspRb.length = g.rspRb.length + events.length := by
  rw [listen_eq]
  simp

theorem listenWithBlocking_eq (h : g.Within) (events : List Event) :
    listenWithBlocking ct events g =
      if (listen ct events g).Within then some (listen ct events g) else none := by
  induction events generalizing g with
  | nil => exact (if_pos h).symm
  | cons e events ih =>
    have hcons : listen ct (e :: events) g = listen ct events (onEvent ct g e) := rfl
    have hlength := listen_rspRb ct events (onEvent ct g e)
    rw [onEvent_rspRb, List.length_append, List.length_singleton] at hlength
    rw [hcons, listenWithBlocking, onEventWithBlocking]
    by_cases hroom : g.rspRb.length < kOrderRspCapacity
    · rw [if_pos hroom, Option.bind_some]
      apply ih
      rw [Within, onEvent_rspRb, List.length_append, List.length_singleton]
      exact hroom
    · rw [if_neg hroom, Option.bind_none, if_neg]
      rw [Within, hlength]
      omega

theorem sendOrderWithBlocking_eq (h : g.Within) (order : OrderRequest) :
    sendOrderWithBlocking m ct order g = if (sendOrder m ct order g).2.2.Within
      then some (sendOrder m ct order g) else none := by
  unfold sendOrderWithBlocking sendOrder
  by_cases hcheck : g.checkOrder order = true
  · simp only [hcheck, Bool.not_true, Bool.false_eq_true, if_false]
    have hpending : (updatePending order order.volume g).Within := h
    generalize updatePending order order.volume g = g' at hpending ⊢
    generalize m.insertOrder order g'.matchEngine = r
    have hengine : ({ g' with matchEngine := r.2.2 } : BacktestGateway ε).Within := hpending
    rw [listenWithBlocking_eq hengine]
    generalize listen ct r.2.1 { g' with matchEngine := r.2.2 } = g''
    have hundo : (updatePending order (-order.volume) g'').Within ↔ g''.Within := Iff.rfl
    cases r.1 with
    | true => by_cases hw : g''.Within <;> simp [hw]
    | false => by_cases hw : g''.Within <;> simp [hw, hundo]
  · simp only [hcheck, Bool.not_false, if_true, if_pos h]

theorem cancelOrderWithBlocking_eq (h : g.Within) (orderId privdata : ℕ) :
    cancelOrderWithBlocking m ct orderId privdata g =
      (cancelOrder m ct orderId privdata g).filter fun r => r.2.Within := by
  unfold cancelOrderWithBlocking cancelOrder
  cases m.cancelOrder orderId (privdata % 2 ^ 32) g.matchEngine with
  | none => rfl
  | some r =>
    have hengine : ({ g with matchEngine := r.2.2 } : BacktestGateway ε).Within := h
    rw [Option.bind_some, Option.map_some, listenWithBlocking_eq hengine]
    by_cases hw : (listen ct r.2.1 { g with matchEngine := r.2.2 }).Within <;>
      simp [hw, Option.filter]

theorem onNotifyWithBlocking_eq (h : g.Within) :
    onNotifyWithBlocking m ct g =
      if (onNotify m ct g).Within then some (onNotify m ct g) else none := by
  unfold onNotifyWithBlocking onNotify
  cases g.dataFeed with
  | nil => exact (if_pos h).symm
  | cons tick dataFeed =>
    have hrev : (revalue ct tick { g with dataFeed }).rspRb = g.rspRb := by
      obtain ⟨account, hrev⟩ := revalue_eq ct tick { g with dataFeed }
      rw [hrev]
    apply listenWithBlocking_eq
    exact (congrArg List.length hrev).trans_le h

end Blocking

end BacktestGateway

namespace Oms

variable {ε : Type} {m : MatchEngine ε} {ct : ContractTable}

def hosted (s : Oms (BacktestGateway ε)) : Oms (Option (BacktestGateway ε)) where
  gateway := some s.gateway
  nextOmsOrderId := s.nextOmsOrderId
  params := s.params
  rules := s.rules
  rspWriters := s.rspWriters

/-- A frame of a trade queue: the size may be wrong, and the loops of a cancel
see every key of the order map once. -/
structure Frame where
  cmd : Option TraderCommand
  mqId : ℕ := 0
  clock : ℕ → UInt64 := fun _ => 0
  iteration : OrderMap → List ℕ := SortedMap.keys
  iteration_perm : ∀ m, (iteration m).Perm m.keys

variable {γ : Type}

def executeFrame (g : Gateway γ) (ct : ContractTable) (s : Oms γ) (frame : Frame) :
    Option (Oms γ) :=
  match frame.cmd with
  | none => some s
  | some cmd => executeCmd g ct frame.clock (frame.iteration s.orderMap) cmd frame.mqId s

def executeReturning (m : MatchEngine ε) (ct : ContractTable)
    (s : Oms (Option (BacktestGateway ε))) (frame : Frame) :
    Option (Oms (Option (BacktestGateway ε))) :=
  (executeFrame (BacktestGateway.blockingGateway m ct) ct s frame).filter fun s => s.gateway.isSome

def processCmd (m : MatchEngine ε) (ct : ContractTable) (s : Oms (Option (BacktestGateway ε)))
    (frames : List Frame) : Option (Oms (Option (BacktestGateway ε))) :=
  Execution.run (executeReturning m ct) s frames

def turn (m : MatchEngine ε) (ct : ContractTable) (s : Oms (Option (BacktestGateway ε)))
    (frames : List Frame) : Option (Oms (Option (BacktestGateway ε))) :=
  (processCmd m ct s frames).map (processRsp (BacktestGateway.blockingGateway m ct) ct)

section Hosted

theorem hosted_injective {s s' : Oms (BacktestGateway ε)} (h : hosted s = hosted s') : s = s' := by
  cases s
  cases s'
  simpa [hosted] using h

theorem visit_hosted (s : Oms (BacktestGateway ε)) (rsp : GatewayOrderResponse) :
    visit ct (hosted s) rsp = hosted (visit ct s rsp) := by
  have hmap : (hosted s).orderMap = s.orderMap := rfl
  cases rsp with
  | accepted id =>
    simp only [visit, onOrderAccepted, hmap]
    cases s.orderMap.find? id with
    | none => rfl
    | some order =>
      simp only
      split_ifs <;> rfl
  | traded rsp =>
    simp only [visit, onSecondaryMarketTraded, hmap]
    cases s.orderMap.find? rsp.orderId with
    | none => rfl
    | some order =>
      simp only [markAccepted, eraseCompleted]
      split_ifs <;> rfl
  | rejected id reason =>
    simp only [visit, onOrderRejected, hmap]
    cases s.orderMap.find? id <;> rfl
  | canceled id canceledVolume =>
    simp only [visit, onOrderCanceled, hmap]
    cases s.orderMap.find? id with
    | none => rfl
    | some order =>
      simp only [eraseCompleted]
      split_ifs <;> rfl
  | cancelRejected id reason => rfl

theorem drain_hosted (count : ℕ) (s : Oms (BacktestGateway ε)) :
    drain (BacktestGateway.blockingGateway m ct) ct count (hosted s) =
      hosted (drain (BacktestGateway.gateway m ct) ct count s) := by
  induction count generalizing s with
  | zero => rfl
  | succ count ih =>
    have hget : (BacktestGateway.blockingGateway m ct).getOrderRsp (hosted s).gateway =
        ((BacktestGateway.gateway m ct).getOrderRsp s.gateway).map fun r => (r.1, some r.2) := rfl
    simp only [drain, hget]
    cases (BacktestGateway.gateway m ct).getOrderRsp s.gateway with
    | none => rfl
    | some r =>
      have hhost : ({ hosted s with gateway := some r.2 } : Oms (Option (BacktestGateway ε))) =
          hosted { s with gateway := r.2 } := rfl
      simp only [Option.map_some, hhost, visit_hosted]
      exact ih _

/-- The result of a call on the bounded gateway: what the unbounded one gives, if
that fits the ring. -/
def returning (s : Option (Oms (BacktestGateway ε))) : Option (Oms (Option (BacktestGateway ε))) :=
  (s.filter fun s => s.gateway.Within).map hosted

theorem returning_of_within {s : Oms (BacktestGateway ε)} (h : s.gateway.Within) :
    returning (some s) = some (hosted s) := by
  simp [returning, Option.filter, h]

theorem returning_of_not_within {s : Oms (BacktestGateway ε)} (h : ¬s.gateway.Within) :
    returning (some s) = none := by
  simp [returning, Option.filter, h]

theorem checkOrder_hosted (clock : ℕ → UInt64) (withoutCheck : Bool) (order : Order)
    (s : Oms (BacktestGateway ε)) : checkOrder clock withoutCheck order (hosted s) =
      ((checkOrder clock withoutCheck order s).1,
        hosted (checkOrder clock withoutCheck order s).2) := by
  unfold checkOrder
  split_ifs <;> rfl

theorem submit_hosted (s : Oms (BacktestGateway ε)) (hs : s.gateway.Within) (order : Order) :
    (some (submit (BacktestGateway.blockingGateway m ct) order (hosted s)).2).filter
        (fun s => s.gateway.isSome) =
      returning (some (submit (BacktestGateway.gateway m ct) order s).2) := by
  have hfree : (BacktestGateway.gateway m ct).sendOrder order.req s.gateway =
      s.gateway.sendOrder m ct order.req := rfl
  have hbound : (BacktestGateway.blockingGateway m ct).sendOrder order.req (hosted s).gateway =
      if (s.gateway.sendOrder m ct order.req).2.2.Within then
        ((s.gateway.sendOrder m ct order.req).1, (s.gateway.sendOrder m ct order.req).2.1,
          some (s.gateway.sendOrder m ct order.req).2.2)
      else (false, 0, none) := by
    simp only [BacktestGateway.blockingGateway, hosted, Option.bind_some,
      BacktestGateway.sendOrderWithBlocking_eq hs order.req]
    split_ifs <;> rfl
  simp only [submit, hbound, hfree]
  generalize s.gateway.sendOrder m ct order.req = r
  by_cases hw : r.2.2.Within
  · simp only [if_pos hw]
    split_ifs with hok
    · rw [returning_of_within (by exact hw)]
      rfl
    · rw [returning_of_within (by exact hw)]
      rfl
  · simp only [if_neg hw, Bool.false_eq_true, if_false]
    split_ifs with hok
    · rw [returning_of_not_within (by exact hw)]
      rfl
    · rw [returning_of_not_within (by exact hw)]
      rfl

theorem sendOrder_hosted (s : Oms (BacktestGateway ε)) (hs : s.gateway.Within)
    (clock : ℕ → UInt64) (cmd : TraderCommand) (orderReq : TraderOrderReq) (mqId : ℕ) :
    (some (sendOrder (BacktestGateway.blockingGateway m ct) ct clock cmd orderReq mqId
        (hosted s)).2).filter (fun s => s.gateway.isSome) =
      returning (some (sendOrder (BacktestGateway.gateway m ct) ct clock cmd orderReq mqId s).2) := by
  unfold sendOrder
  cases ct.getByIndex orderReq.tickerId with
  | none => exact (returning_of_within hs).symm
  | some contract =>
    have hnext : ({ hosted s with nextOmsOrderId := (hosted s).nextOmsOrderId + 1 } :
        Oms (Option (BacktestGateway ε))) =
          hosted { s with nextOmsOrderId := s.nextOmsOrderId + 1 } := rfl
    simp only [hnext, checkOrder_hosted]
    obtain ⟨rules, -, hrules⟩ := checkOrder_snd clock cmd.withoutCheck
      (newOrder contract cmd orderReq mqId s.nextOmsOrderId)
      { s with nextOmsOrderId := s.nextOmsOrderId + 1 }
    have hid : (hosted s).nextOmsOrderId = s.nextOmsOrderId := rfl
    rw [hid, hrules]
    split_ifs with he
    · rw [returning_of_within (by exact hs)]
      rfl
    · exact submit_hosted { s with nextOmsOrderId := s.nextOmsOrderId + 1, rules } hs _

theorem doCancelOrder_hosted (s : Oms (BacktestGateway ε)) (hs : s.gateway.Within) (order : Order)
    (withoutCheck : Bool) :
    doCancelOrder (BacktestGateway.blockingGateway m ct) order withoutCheck (hosted s) =
      returning (doCancelOrder (BacktestGateway.gateway m ct) order withoutCheck s) := by
  have hr : ∀ rules : List RiskRule, ¬(withoutCheck = false ∧
      RiskManagementSystem.checkCancelReq order rules ≠ .kNoError) :=
    fun rules h => h.2 (RiskManagementSystem.checkCancelReq_eq order rules)
  have hbound : (BacktestGateway.blockingGateway m ct).cancelOrder order.req.orderId order.privdata
      (hosted s).gateway = ((s.gateway.cancelOrder m ct order.req.orderId order.privdata).filter
        fun r => r.2.Within).map fun r => (r.1, some r.2) := by
    simp only [BacktestGateway.blockingGateway, hosted, Option.bind_some,
      BacktestGateway.cancelOrderWithBlocking_eq hs]
  have hfree : (BacktestGateway.gateway m ct).cancelOrder order.req.orderId order.privdata
      s.gateway = s.gateway.cancelOrder m ct order.req.orderId order.privdata := rfl
  simp only [doCancelOrder, if_neg (hr _), hbound, hfree]
  cases s.gateway.cancelOrder m ct order.req.orderId order.privdata with
  | none => rfl
  | some r =>
    by_cases hw : r.2.Within
    · rw [Option.map_some, returning_of_within (by exact hw)]
      simp [Option.filter, hw, hosted]
    · rw [Option.map_some, returning_of_not_within (by exact hw)]
      simp [Option.filter, hw]

theorem length_cancel {g g' : BacktestGateway ε} {orderId privdata : ℕ} {ok : Bool}
    (h : g.cancelOrder m ct orderId privdata = some (ok, g')) :
    g.rspRb.length ≤ g'.rspRb.length := by
  obtain ⟨r, hr, heq⟩ := Option.map_eq_some_iff.mp h
  cases heq
  rw [BacktestGateway.listen_rspRb]
  exact Nat.le_add_right _ _

theorem cancelWhere_hosted {p : Order → Bool} {withoutCheck : Bool} (iteration : List ℕ)
    (s : Oms (BacktestGateway ε)) (hs : s.gateway.Within) :
    cancelWhere (BacktestGateway.blockingGateway m ct) p withoutCheck iteration (hosted s) =
      returning (cancelWhere (BacktestGateway.gateway m ct) p withoutCheck iteration s) := by
  induction iteration generalizing s with
  | nil => exact (returning_of_within hs).symm
  | cons id iteration ih =>
    have hmap : (hosted s).orderMap = s.orderMap := rfl
    simp only [cancelWhere, hmap]
    cases s.orderMap.find? id with
    | none => exact ih s hs
    | some order =>
      simp only
      split_ifs
      · rw [doCancelOrder_hosted s hs]
        cases hc : doCancelOrder (BacktestGateway.gateway m ct) order withoutCheck s with
        | none => rfl
        | some s' =>
          rw [Option.bind_some]
          by_cases hw : s'.gateway.Within
          · rw [returning_of_within hw, Option.bind_some]
            exact ih s' hw
          · rw [returning_of_not_within hw, Option.bind_none]
            cases hrest : cancelWhere (BacktestGateway.gateway m ct) p withoutCheck iteration s' with
            | none => rfl
            | some s'' =>
              have hgrow : s'.gateway.rspRb.length ≤ s''.gateway.rspRb.length :=
                (cancelWhere_invariant
                  (fun g => s'.gateway.rspRb.length ≤ g.rspRb.length)
                  (fun _ _ _ r _ hg hr => hg.trans (length_cancel hr)) hrest rfl le_rfl).1
              exact (returning_of_not_within fun hw' => hw (hgrow.trans hw')).symm
      · exact ih s hs

theorem returned_returning (s : Option (Oms (BacktestGateway ε))) :
    (returning s).filter (fun s => s.gateway.isSome) = returning s := by
  cases s with
  | none => rfl
  | some s =>
    by_cases hw : s.gateway.Within
    · rw [returning_of_within hw]
      rfl
    · rw [returning_of_not_within hw]
      rfl

theorem executeReturning_hosted (s : Oms (BacktestGateway ε)) (hs : s.gateway.Within)
    (frame : Frame) : executeReturning m ct (hosted s) frame =
      returning (executeFrame (BacktestGateway.gateway m ct) ct s frame) := by
  have hmap : (hosted s).orderMap = s.orderMap := rfl
  unfold executeReturning executeFrame
  cases frame.cmd with
  | none => exact (returning_of_within hs).symm
  | some cmd =>
    simp only [executeCmd, hmap]
    split_ifs with hmagic
    · exact (returning_of_within hs).symm
    · cases cmd.cmd with
      | kNewOrder orderReq => exact sendOrder_hosted s hs _ _ _ _
      | kCancelOrder orderId =>
        simp only [cancelOrder, hmap]
        cases s.orderMap.find? orderId with
        | none => exact (returning_of_within hs).symm
        | some order =>
          simp only
          rw [doCancelOrder_hosted s hs, returned_returning]
      | kCancelTicker tickerId =>
        simp only [cancelForTicker]
        rw [cancelWhere_hosted _ s hs, returned_returning]
      | kCancelAll =>
        simp only [cancelAll]
        rw [cancelWhere_hosted _ s hs, returned_returning]
      | kNotify signal =>
        have hbound : (BacktestGateway.blockingGateway m ct).onNotify signal (hosted s).gateway =
            (if (s.gateway.onNotify m ct).Within then some (s.gateway.onNotify m ct)
              else none).map some := by
          simp only [BacktestGateway.blockingGateway, hosted, Option.bind_some,
            BacktestGateway.onNotifyWithBlocking_eq hs]
        have hfree : (BacktestGateway.gateway m ct).onNotify signal s.gateway =
            some (s.gateway.onNotify m ct) := rfl
        simp only [hbound, hfree, Option.map_some]
        by_cases hw : (s.gateway.onNotify m ct).Within
        · rw [if_pos hw, returning_of_within (by exact hw)]
          rfl
        · rw [if_neg hw, returning_of_not_within (by exact hw)]
          rfl
      | unknown => exact (returning_of_within hs).symm

end Hosted

section Reports

def cancelReports (m : MatchEngine ε) : List Order → ε → Option ℕ
  | [], _ => some 0
  | order :: orders, e =>
    (m.cancelOrder order.req.orderId (order.privdata % 2 ^ 32) e).bind fun r =>
      (cancelReports m orders r.2.2).map fun n => r.2.1.length + n

def orderReports (m : MatchEngine ε) (ct : ContractTable) (clock : ℕ → UInt64)
    (cmd : TraderCommand) (orderReq : TraderOrderReq) (mqId : ℕ) (s : Oms (BacktestGateway ε)) : ℕ :=
  match ct.getByIndex orderReq.tickerId with
  | none => 0
  | some contract =>
    let order := newOrder contract cmd orderReq mqId s.nextOmsOrderId
    if (checkOrder clock cmd.withoutCheck order s).1 = .kNoError ∧
        s.gateway.checkOrder order.req = true then
      (m.insertOrder order.req s.gateway.matchEngine).2.1.length
    else 0

def feedReports (m : MatchEngine ε) (g : BacktestGateway ε) : ℕ :=
  match g.dataFeed with
  | [] => 0
  | tick :: _ => (m.onNewTick tick g.matchEngine).1.length

def liveOrders (iteration : List ℕ) (p : Order → Bool) (orderMap : OrderMap) : List Order :=
  (iteration.filterMap orderMap.find?).filter p

def reports (m : MatchEngine ε) (ct : ContractTable) (s : Oms (BacktestGateway ε))
    (frame : Frame) : Option ℕ :=
  match frame.cmd with
  | none => some 0
  | some cmd =>
    if cmd.magic ≠ kTradingCmdMagic then some 0
    else match cmd.cmd with
      | .kNewOrder orderReq => some (orderReports m ct frame.clock cmd orderReq frame.mqId s)
      | .kCancelOrder orderId =>
        cancelReports m (s.orderMap.find? orderId).toList s.gateway.matchEngine
      | .kCancelTicker tickerId =>
        cancelReports m (liveOrders (frame.iteration s.orderMap)
          (fun order => tickerId = order.req.contract.tickerId) s.orderMap) s.gateway.matchEngine
      | .kCancelAll =>
        cancelReports m (liveOrders (frame.iteration s.orderMap) (fun _ => true) s.orderMap)
          s.gateway.matchEngine
      | .kNotify _ => some (feedReports m s.gateway)
      | .unknown => some 0

def Fits (m : MatchEngine ε) (ct : ContractTable) (s : Oms (BacktestGateway ε)) (frame : Frame) :
    Prop := ∃ n, reports m ct s frame = some n ∧ s.gateway.rspRb.length + n ≤ kOrderRspCapacity

def ringLength (s : Oms (BacktestGateway ε)) : ℕ := s.gateway.rspRb.length

theorem doCancelOrder_eq (order : Order) (withoutCheck : Bool) (s : Oms (BacktestGateway ε)) :
    doCancelOrder (BacktestGateway.gateway m ct) order withoutCheck s =
      (m.cancelOrder order.req.orderId (order.privdata % 2 ^ 32) s.gateway.matchEngine).map fun r =>
        { s with gateway := BacktestGateway.listen ct r.2.1 { s.gateway with matchEngine := r.2.2 } } := by
  have hr : ¬(withoutCheck = false ∧
      RiskManagementSystem.checkCancelReq order s.rules ≠ .kNoError) :=
    fun h => h.2 (RiskManagementSystem.checkCancelReq_eq order s.rules)
  have hfree : (BacktestGateway.gateway m ct).cancelOrder order.req.orderId order.privdata
      s.gateway = s.gateway.cancelOrder m ct order.req.orderId order.privdata := rfl
  rw [doCancelOrder, if_neg hr, hfree, BacktestGateway.cancelOrder, Option.map_map]
  rfl

theorem cancelWhere_reports {p : Order → Bool} {withoutCheck : Bool} (iteration : List ℕ)
    (s : Oms (BacktestGateway ε)) :
    (cancelWhere (BacktestGateway.gateway m ct) p withoutCheck iteration s).map ringLength =
      (cancelReports m (liveOrders iteration p s.orderMap) s.gateway.matchEngine).map
        (s.gateway.rspRb.length + ·) := by
  induction iteration generalizing s with
  | nil => rfl
  | cons id iteration ih =>
    simp only [cancelWhere, liveOrders, List.filterMap_cons]
    cases hf : s.orderMap.find? id with
    | none => exact ih s
    | some order =>
      by_cases hp : p order = true
      · simp only [hp, if_true, List.filter_cons_of_pos, cancelReports, doCancelOrder_eq]
        cases m.cancelOrder order.req.orderId (order.privdata % 2 ^ 32) s.gateway.matchEngine with
        | none => rfl
        | some r =>
          simp only [Option.map_some, Option.bind_some]
          rw [ih]
          have hengine : (BacktestGateway.listen ct r.2.1
              { s.gateway with matchEngine := r.2.2 }).matchEngine = r.2.2 := by
            rw [BacktestGateway.listen_eq]
          have hmap : ∀ gateway, ({ s with gateway } : Oms (BacktestGateway ε)).orderMap =
              s.orderMap := fun _ => rfl
          simp only [hengine, hmap, BacktestGateway.listen_rspRb, liveOrders, Option.map_map]
          apply congrArg (fun f => Option.map f _)
          funext n
          exact Nat.add_assoc _ _ _
      · simp only [if_neg hp]
        rw [List.filter_cons_of_neg hp]
        exact ih s

theorem sendOrder_ring (g : BacktestGateway ε) (order : OrderRequest) :
    (g.sendOrder m ct order).2.2.rspRb.length = g.rspRb.length +
      if g.checkOrder order = true then (m.insertOrder order g.matchEngine).2.1.length else 0 := by
  unfold BacktestGateway.sendOrder
  by_cases hcheck : g.checkOrder order = true
  · have heng : (g.updatePending order order.volume).matchEngine = g.matchEngine := rfl
    have hring : ∀ (g : BacktestGateway ε) (changed : ℤ),
        (g.updatePending order changed).rspRb = g.rspRb := fun _ _ => rfl
    simp only [hcheck, Bool.not_true, Bool.false_eq_true, if_false, if_true, heng]
    split_ifs
    · rw [BacktestGateway.listen_rspRb]
      rfl
    · rw [hring, BacktestGateway.listen_rspRb]
      rfl
  · simp [hcheck]

theorem submit_gateway (order : Order) (s : Oms (BacktestGateway ε)) :
    (submit (BacktestGateway.gateway m ct) order s).2.gateway =
      (s.gateway.sendOrder m ct order.req).2.2 := by
  have hfree : (BacktestGateway.gateway m ct).sendOrder order.req s.gateway =
      s.gateway.sendOrder m ct order.req := rfl
  simp only [submit, hfree]
  split_ifs <;> rfl

theorem orderReports_spec (clock : ℕ → UInt64) (cmd : TraderCommand) (orderReq : TraderOrderReq)
    (mqId : ℕ) (s : Oms (BacktestGateway ε)) :
    (sendOrder (BacktestGateway.gateway m ct) ct clock cmd orderReq mqId s).2.gateway.rspRb.length =
      s.gateway.rspRb.length + orderReports m ct clock cmd orderReq mqId s := by
  unfold orderReports
  cases hc : ct.getByIndex orderReq.tickerId with
  | none =>
    simp only [sendOrder, hc]
    rfl
  | some contract =>
    obtain ⟨order, rules, rfl, -, ⟨hne, hs⟩ | ⟨heq, hs⟩⟩ :=
      sendOrder_cases (BacktestGateway.gateway m ct) clock cmd mqId s hc
    · rw [hs]
      simp only [hne, false_and, if_false]
      rfl
    · rw [hs, submit_gateway, sendOrder_ring]
      simp only [heq, true_and]

theorem feedReports_spec (g : BacktestGateway ε) :
    (g.onNotify m ct).rspRb.length = g.rspRb.length + feedReports m g := by
  unfold BacktestGateway.onNotify feedReports
  cases g.dataFeed with
  | nil => rfl
  | cons tick dataFeed =>
    obtain ⟨account, hrev⟩ := BacktestGateway.revalue_eq ct tick { g with dataFeed }
    simp only [BacktestGateway.onDataFeed]
    rw [hrev, BacktestGateway.listen_rspRb]

theorem executeFrame_reports (s : Oms (BacktestGateway ε)) (frame : Frame) :
    (executeFrame (BacktestGateway.gateway m ct) ct s frame).map ringLength =
      (reports m ct s frame).map (s.gateway.rspRb.length + ·) := by
  unfold executeFrame reports
  cases frame.cmd with
  | none => rfl
  | some cmd =>
    simp only [executeCmd]
    split_ifs with hmagic
    · rfl
    · cases cmd.cmd with
      | kNewOrder orderReq => exact congrArg some (orderReports_spec _ _ _ _ s)
      | kCancelOrder orderId =>
        simp only [cancelOrder]
        cases s.orderMap.find? orderId with
        | none => rfl
        | some order =>
          simp only [doCancelOrder_eq, Option.toList_some, cancelReports]
          cases m.cancelOrder order.req.orderId (order.privdata % 2 ^ 32) s.gateway.matchEngine with
          | none => rfl
          | some r =>
            simp [ringLength, BacktestGateway.listen_rspRb]
      | kCancelTicker tickerId => exact cancelWhere_reports _ s
      | kCancelAll => exact cancelWhere_reports _ s
      | kNotify signal => exact congrArg some (feedReports_spec s.gateway)
      | unknown => rfl

theorem executeReturning_iff (s : Oms (BacktestGateway ε)) (hs : s.gateway.Within) (frame : Frame) :
    (∃ s', executeFrame (BacktestGateway.gateway m ct) ct s frame = some s' ∧
      executeReturning m ct (hosted s) frame = some (hosted s') ∧ s'.gateway.Within) ↔
      Fits m ct s frame := by
  have hring : (executeFrame (BacktestGateway.gateway m ct) ct s frame).map ringLength =
      (reports m ct s frame).map (s.gateway.rspRb.length + ·) := executeFrame_reports s frame
  rw [executeReturning_hosted s hs]
  constructor
  · rintro ⟨s', hs', -, hw⟩
    rw [hs', Option.map_some] at hring
    obtain ⟨n, hn, hlen⟩ := Option.map_eq_some_iff.mp hring.symm
    exact ⟨n, hn, hlen.trans_le hw⟩
  · rintro ⟨n, hn, hlen⟩
    rw [hn, Option.map_some] at hring
    obtain ⟨s', hs', heq⟩ := Option.map_eq_some_iff.mp hring
    have hw : s'.gateway.Within := heq.trans_le hlen
    refine ⟨s', hs', ?_, hw⟩
    rw [hs', returning_of_within hw]

end Reports

section Turns

theorem processCmd_hosted_iff (frames : List Frame) (s : Oms (BacktestGateway ε))
    (hs : s.gateway.Within) : (processCmd m ct (hosted s) frames).isSome ↔
      Execution.Along (executeFrame (BacktestGateway.gateway m ct) ct) (Fits m ct) s frames := by
  induction frames generalizing s with
  | nil => exact iff_of_true rfl trivial
  | cons frame frames ih =>
    have hcons : processCmd m ct (hosted s) (frame :: frames) =
        (executeReturning m ct (hosted s) frame).bind fun s' => processCmd m ct s' frames := rfl
    rw [hcons, Execution.Along]
    constructor
    · intro h
      obtain ⟨t, ht⟩ := Option.isSome_iff_exists.mp h
      obtain ⟨t', ht', hrest⟩ := Option.bind_eq_some_iff.mp ht
      rw [executeReturning_hosted s hs] at ht'
      obtain ⟨s', hs', rfl⟩ := Option.map_eq_some_iff.mp ht'
      obtain ⟨hexec, hw⟩ := Option.filter_eq_some_iff.mp hs'
      have hw' : s'.gateway.Within := of_decide_eq_true hw
      refine ⟨(executeReturning_iff s hs frame).mp ⟨s', hexec, ?_, hw'⟩, fun s'' hs'' => ?_⟩
      · rw [executeReturning_hosted s hs, hexec, returning_of_within hw']
      · rw [hexec] at hs''
        cases hs''
        rw [← ih s' hw', hrest]
        rfl
    · rintro ⟨hfit, hrest⟩
      obtain ⟨s', hexec, hreturn, hw⟩ := (executeReturning_iff s hs frame).mpr hfit
      rw [hreturn, Option.bind_some]
      exact (ih s' hw).mpr (hrest s' hexec)

theorem processCmd_hosted {frames : List Frame} {s : Oms (BacktestGateway ε)}
    (hs : s.gateway.Within) {t : Oms (Option (BacktestGateway ε))}
    (h : processCmd m ct (hosted s) frames = some t) : ∃ s', t = hosted s' ∧ s'.gateway.Within := by
  induction frames generalizing s with
  | nil =>
    cases h
    exact ⟨s, rfl, hs⟩
  | cons frame frames ih =>
    obtain ⟨t', ht', hrest⟩ := Option.bind_eq_some_iff.mp h
    rw [executeReturning_hosted s hs] at ht'
    obtain ⟨s', hs', rfl⟩ := Option.map_eq_some_iff.mp ht'
    exact ih (of_decide_eq_true (Option.filter_eq_some_iff.mp hs').2) hrest

theorem drain_within {count : ℕ} {s : Oms (BacktestGateway ε)} (hs : s.gateway.Within) :
    (drain (BacktestGateway.gateway m ct) ct count s).gateway.Within := by
  induction count generalizing s with
  | zero => exact hs
  | succ count ih =>
    cases hr : s.gateway.rspRb with
    | nil =>
      have hget : (BacktestGateway.gateway m ct).getOrderRsp s.gateway = none := by
        simp only [BacktestGateway.gateway, hr]
      simp only [drain, hget]
      exact hs
    | cons rsp rspRb =>
      have hget : (BacktestGateway.gateway m ct).getOrderRsp s.gateway =
          some (rsp, { s.gateway with rspRb }) := by
        simp only [BacktestGateway.gateway, hr]
      simp only [drain, hget]
      apply ih
      rw [visit_gateway]
      have hlen : (rsp :: rspRb).length ≤ kOrderRspCapacity := hr ▸ hs
      exact (Nat.le_succ _).trans hlen

theorem hosted_of_reaches {s : Oms (BacktestGateway ε)} (hs : s.gateway.Within)
    {t : Oms (Option (BacktestGateway ε))}
    (h : Execution.Reaches (turn m ct) (fun _ _ => True) (hosted s) t) :
    ∃ s', t = hosted s' ∧ s'.gateway.Within := by
  apply h.invariant (fun t => ∃ s', t = hosted s' ∧ s'.gateway.Within)
  · rintro _ frames t' ⟨s', rfl, hs'⟩ - ht
    obtain ⟨t'', hcmd, rfl⟩ := Option.map_eq_some_iff.mp ht
    obtain ⟨s'', rfl, hw⟩ := processCmd_hosted hs' hcmd
    exact ⟨_, drain_hosted 3 s'', drain_within hw⟩
  · exact ⟨s, rfl, hs⟩

end Turns

/-! With the simple engine every order that passes the checks and every cancel of
a live order puts one response, and a tick one for each order that it fills. -/

section Simple

theorem insert_reports_one {g : BacktestGateway SimpleMatchEngine} {order : OrderRequest}
    (h : g.checkOrder order = true) (e : SimpleMatchEngine) :
    (SimpleMatchEngine.insertOrder order e).2.1.length = 1 := by
  unfold SimpleMatchEngine.insertOrder
  cases htype : order.type with
  | kMarket => simp [BacktestGateway.checkOrder, htype] at h
  | kLimit =>
    simp only
    split_ifs <;> rfl
  | kBest =>
    simp only
    split_ifs <;> rfl
  | kFak =>
    simp only
    split_ifs <;> rfl
  | kFok =>
    simp only
    split_ifs <;> rfl
  | kUnknown => simp [BacktestGateway.checkOrder, htype] at h
  | kHkexMoAtCrossing => simp [BacktestGateway.checkOrder, htype] at h
  | kHkexLoAtCrossing => simp [BacktestGateway.checkOrder, htype] at h
  | kHkexLo => simp [BacktestGateway.checkOrder, htype] at h
  | kHkexElo => simp [BacktestGateway.checkOrder, htype] at h
  | kHkexSlo => simp [BacktestGateway.checkOrder, htype] at h

theorem cancel_reports_one (orderId tickerId : ℕ) (e : SimpleMatchEngine) :
    (SimpleMatchEngine.cancelOrder orderId tickerId e).2.1.length = 1 := by
  unfold SimpleMatchEngine.cancelOrder
  cases (e.book tickerId).find? orderId <;> rfl

theorem cancelReports_simple (orders : List Order) (e : SimpleMatchEngine) :
    cancelReports SimpleMatchEngine.engine orders e = some orders.length := by
  induction orders generalizing e with
  | nil => rfl
  | cons order orders ih =>
    simp only [cancelReports, SimpleMatchEngine.engine, Option.bind_some, cancel_reports_one]
    have hrest := ih (SimpleMatchEngine.cancelOrder order.req.orderId
      (order.privdata % 2 ^ 32) e).2.2
    simp only [SimpleMatchEngine.engine] at hrest
    rw [hrest, Option.map_some, List.length_cons, Nat.add_comm]

theorem feed_reports_fills (tick : TickData) (e : SimpleMatchEngine) :
    (SimpleMatchEngine.onNewTick tick e).1.length = ((e.book tick.tickerId).entries.filter
      fun entry => SimpleMatchEngine.crosses tick entry.2).length := by
  have hsweep : ∀ entries : List (ℕ × OrderRequest),
      (SimpleMatchEngine.sweep tick entries).1.length =
        (entries.filter fun entry => SimpleMatchEngine.crosses tick entry.2).length := by
    intro entries
    induction entries with
    | nil => rfl
    | cons entry entries ih =>
      simp only [SimpleMatchEngine.sweep]
      split_ifs with hc
      · simp [hc, ih]
      · simp [hc, ih]
  exact hsweep _

theorem length_liveOrders {iteration : List ℕ} {orderMap : OrderMap}
    (h : iteration.Perm orderMap.keys) (p : Order → Bool) :
    (liveOrders iteration p orderMap).length = (orderMap.values.filter p).length := by
  have hvalues : orderMap.keys.filterMap orderMap.find? = orderMap.values := by
    have hfind : ∀ entry ∈ orderMap.entries,
        (orderMap.find? ∘ Prod.fst) entry = (some ∘ Prod.snd) entry :=
      fun entry hentry => SortedMap.find?_eq_some.mpr hentry
    rw [SortedMap.keys, SortedMap.values, List.filterMap_map, List.filterMap_congr hfind]
    exact congrFun List.filterMap_eq_map _
  rw [liveOrders, ← hvalues]
  exact ((h.filterMap _).filter p).length_eq

def Takes (ct : ContractTable) (clock : ℕ → UInt64) (cmd : TraderCommand)
    (orderReq : TraderOrderReq) (mqId : ℕ) (s : Oms (BacktestGateway ε)) : Bool :=
  (ct.getByIndex orderReq.tickerId).any fun contract =>
    let order := newOrder contract cmd orderReq mqId s.nextOmsOrderId
    (checkOrder clock cmd.withoutCheck order s).1 = .kNoError ∧
      s.gateway.checkOrder order.req = true

def covered (cmd : TraderCmd) (orderMap : OrderMap) : List Order :=
  match cmd with
  | .kCancelOrder orderId => (orderMap.find? orderId).toList
  | .kCancelTicker tickerId =>
    orderMap.values.filter fun order => tickerId = order.req.contract.tickerId
  | .kCancelAll => orderMap.values
  | _ => []

def reached (g : BacktestGateway SimpleMatchEngine) : List (ℕ × OrderRequest) :=
  match g.dataFeed with
  | [] => []
  | tick :: _ => (g.matchEngine.book tick.tickerId).entries.filter fun entry =>
      SimpleMatchEngine.crosses tick entry.2

/-- What a command asks of the ring: one place for a new order that is taken, one for each live
order that a cancel covers and one for each resting order that the next tick reaches. -/
def demand (ct : ContractTable) (s : Oms (BacktestGateway SimpleMatchEngine)) (frame : Frame) : ℕ :=
  match frame.cmd with
  | none => 0
  | some cmd =>
    if cmd.magic ≠ kTradingCmdMagic then 0
    else match cmd.cmd with
      | .kNewOrder orderReq => if s.Takes ct frame.clock cmd orderReq frame.mqId then 1 else 0
      | .kNotify _ => (reached s.gateway).length
      | cancel => (covered cancel s.orderMap).length

def Room (ct : ContractTable) (s : Oms (BacktestGateway SimpleMatchEngine)) (frame : Frame) :
    Prop :=
  s.gateway.rspRb.length + demand ct s frame ≤ kOrderRspCapacity

instance (ct : ContractTable) (s : Oms (BacktestGateway SimpleMatchEngine)) (frame : Frame) :
    Decidable (Room ct s frame) :=
  inferInstanceAs (Decidable (_ ≤ _))

theorem orderReports_simple (clock : ℕ → UInt64) (cmd : TraderCommand) (orderReq : TraderOrderReq)
    (mqId : ℕ) (s : Oms (BacktestGateway SimpleMatchEngine)) :
    orderReports SimpleMatchEngine.engine ct clock cmd orderReq mqId s =
      if s.Takes ct clock cmd orderReq mqId then 1 else 0 := by
  unfold orderReports Takes
  cases ct.getByIndex orderReq.tickerId with
  | none => rfl
  | some contract =>
    simp only [Option.any_some, decide_eq_true_eq]
    split_ifs with htaken
    · exact insert_reports_one htaken.2 _
    · rfl

theorem reports_simple (s : Oms (BacktestGateway SimpleMatchEngine)) (frame : Frame) :
    reports SimpleMatchEngine.engine ct s frame = some (demand ct s frame) := by
  unfold reports demand
  cases frame.cmd with
  | none => rfl
  | some cmd =>
    simp only
    split_ifs
    · rfl
    · cases cmd.cmd with
      | kNewOrder orderReq => exact congrArg some (orderReports_simple _ _ _ _ s)
      | kCancelOrder orderId => exact cancelReports_simple _ _
      | kCancelTicker tickerId =>
        exact (cancelReports_simple _ _).trans
          (congrArg some (length_liveOrders (frame.iteration_perm _) _))
      | kCancelAll =>
        refine (cancelReports_simple _ _).trans (congrArg some ?_)
        rw [length_liveOrders (frame.iteration_perm _), List.filter_true]
        rfl
      | kNotify signal =>
        apply congrArg some
        unfold feedReports reached
        cases s.gateway.dataFeed with
        | nil => rfl
        | cons tick dataFeed => exact feed_reports_fills tick _
      | unknown => rfl

theorem fits_simple_iff {s : Oms (BacktestGateway SimpleMatchEngine)} {frame : Frame} :
    Fits SimpleMatchEngine.engine ct s frame ↔ Room ct s frame := by
  rw [Fits, reports_simple]
  constructor
  · rintro ⟨n, hn, hroom⟩
    cases hn
    exact hroom
  · intro hroom
    exact ⟨_, rfl, hroom⟩

/-- A call of `ProcessCmd` returns exactly when the ring has room for what each command of the
backlog asks of it in the state that it is read in. -/
theorem processCmd_returns_iff (ct : ContractTable) (engine : SimpleMatchEngine)
    (strategyConfigList : List String) (dataFeed : List TickData) (account : Account)
    (rules : List RiskRule) (t : Oms (Option (BacktestGateway SimpleMatchEngine)))
    (h : Execution.Reaches (turn SimpleMatchEngine.engine ct) (fun _ _ => True)
      (hosted (backtest engine strategyConfigList dataFeed account rules)) t) :
    ∃ s, t = hosted s ∧ ∀ frames, (processCmd SimpleMatchEngine.engine ct t frames).isSome ↔
      Execution.Along (executeFrame (BacktestGateway.gateway SimpleMatchEngine.engine ct) ct)
        (Room ct) s frames := by
  obtain ⟨s, rfl, hs⟩ := hosted_of_reaches (Nat.zero_le _) h
  refine ⟨s, rfl, fun frames => ?_⟩
  have hfits : (Fits SimpleMatchEngine.engine ct) = Room ct := by
    funext s frame
    exact propext fits_simple_iff
  rw [processCmd_hosted_iff frames s hs, hfits]

end Simple

def submitFrame : Frame where
  cmd := some { cmd := .kNewOrder ⟨7, 1, .kBuy, .kOpen, .kLimit, 1, 100, .kNone⟩, strategyId := "strategy" }
  iteration_perm := fun _ => List.Perm.refl _

def cancelFrame (orderId : ℕ) : Frame where
  cmd := some { cmd := .kCancelOrder orderId, strategyId := "strategy" }
  iteration_perm := fun _ => List.Perm.refl _

def tradingDay : Oms (BacktestGateway SimpleMatchEngine) :=
  backtest {} ["strategy"] [] { cash := 1000 } []

theorem processCmd_returns_iff_submitted :
    (processCmd SimpleMatchEngine.engine (.ofList [ticker001]) (hosted tradingDay)
      [submitFrame, cancelFrame 1]).isSome := by
  obtain ⟨s, hs, hiff⟩ := processCmd_returns_iff (.ofList [ticker001]) {} ["strategy"] []
    { cash := 1000 } [] (hosted tradingDay) (.refl _)
  rw [hiff, ← hosted_injective hs]
  refine ⟨by decide +kernel, fun s' hs' => ?_⟩
  cases hs'
  exact ⟨by decide +kernel, fun _ _ => trivial⟩

theorem cancel_live {ct : ContractTable} {orderId : ℕ} {order : Order}
    {s : Oms (BacktestGateway SimpleMatchEngine)} (hf : s.orderMap.find? orderId = some order) :
    reports SimpleMatchEngine.engine ct s (cancelFrame orderId) = some 1 ∧
      ∃ s', executeFrame (BacktestGateway.gateway SimpleMatchEngine.engine ct) ct s
          (cancelFrame orderId) = some s' ∧ s'.orderMap = s.orderMap ∧
        s'.gateway.rspRb.length = s.gateway.rspRb.length + 1 := by
  constructor
  · simp only [reports, cancelFrame, hf, Option.toList_some, cancelReports_simple]
    rfl
  · have hexec : executeFrame (BacktestGateway.gateway SimpleMatchEngine.engine ct) ct s
        (cancelFrame orderId) =
          doCancelOrder (BacktestGateway.gateway SimpleMatchEngine.engine ct) order false s := by
      simp [executeFrame, cancelFrame, executeCmd, cancelOrder, hf]
    rw [hexec, doCancelOrder_eq]
    refine ⟨_, rfl, rfl, ?_⟩
    rw [BacktestGateway.listen_rspRb]
    exact congrArg (s.gateway.rspRb.length + ·) (cancel_reports_one _ _ _)

theorem cancels_need_room {ct : ContractTable} {orderId : ℕ} {order : Order} (n : ℕ)
    {s : Oms (BacktestGateway SimpleMatchEngine)} (hf : s.orderMap.find? orderId = some order)
    (h : Execution.Along (executeFrame (BacktestGateway.gateway SimpleMatchEngine.engine ct) ct)
      (Fits SimpleMatchEngine.engine ct) s (List.replicate (n + 1) (cancelFrame orderId))) :
    s.gateway.rspRb.length + (n + 1) ≤ kOrderRspCapacity := by
  induction n generalizing s with
  | zero =>
    obtain ⟨⟨k, hk, hroom⟩, -⟩ := h
    rw [(cancel_live hf).1] at hk
    cases hk
    exact hroom
  | succ n ih =>
    obtain ⟨-, s', hs', hmap, hlen⟩ := @cancel_live ct orderId order s hf
    have hrest := ih (hmap ▸ hf) (h.2 s' hs')
    omega

def restingSubmitted : Oms (BacktestGateway SimpleMatchEngine) :=
  (executeFrame (BacktestGateway.gateway SimpleMatchEngine.engine (.ofList [ticker001]))
    (.ofList [ticker001]) tradingDay submitFrame).getD tradingDay

/-- One resting order and 1024 cancels of it in one backlog. -/
theorem repeated_cancels_block :
    processCmd SimpleMatchEngine.engine (.ofList [ticker001]) (hosted tradingDay)
      (submitFrame :: List.replicate 1024 (cancelFrame 1)) = none := by
  rw [← Option.not_isSome_iff_eq_none, processCmd_hosted_iff _ _ (Nat.zero_le _)]
  intro h
  have hlive : (restingSubmitted.orderMap.find? 1).isSome := by decide +kernel
  obtain ⟨order, hf⟩ := Option.isSome_iff_exists.mp hlive
  have hlen : restingSubmitted.gateway.rspRb.length = 1 := by decide +kernel
  have hroom := cancels_need_room 1023 hf (h.2 restingSubmitted rfl)
  rw [hlen] at hroom
  exact absurd hroom (by decide)

end Oms

end FlareTrader
