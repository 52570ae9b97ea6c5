import FlareTrader.TargetPosEngine
import FlareTrader.OmsResponses

/-! An engine together with the orders it has sent. Each order is followed from
the command in the queue to the response that completes it; what the engine
hears are the responses that the order management system writes for it. -/

open MachineInt (int32)

namespace FlareTrader

structure Outstanding where
  cmd : TraderCommand
  orderReq : TraderOrderReq
  /-- The record of the order management system, once it has executed the command. -/
  order : Option Order := none

def Outstanding.unfilled (o : Outstanding) : ℤ :=
  o.orderReq.volume - o.order.elim 0 Order.tradedVolume

theorem Outstanding.unfilled_eq {o : Outstanding} {order : Order} (h : o.order = some order) :
    o.unfilled = o.orderReq.volume - order.tradedVolume := by
  rw [unfilled, h, Option.elim_some]

structure Order.Records (order : Order) (req : TraderOrderReq) : Prop where
  clientOrderId : order.clientOrderId = req.clientOrderId
  tickerId : order.req.contract.tickerId = req.tickerId
  direction : order.req.direction = req.direction
  offset : order.req.offset = req.offset
  volume : order.req.volume = req.volume
  open_ : order.tradedVolume + order.canceledVolume ≠ order.req.volume

structure OrderResponse.Answers (r : OrderResponse) (req : TraderOrderReq) : Prop where
  clientOrderId : r.clientOrderId = req.clientOrderId
  tickerId : r.tickerId = req.tickerId
  direction : r.direction = req.direction
  offset : r.offset = req.offset

structure Order.Renews (order' order : Order) : Prop where
  req : order'.req = order.req
  clientOrderId : order'.clientOrderId = order.clientOrderId

theorem Order.Records.response_answers {order order' : Order} {req : TraderOrderReq}
    (h : order.Records req) (hr : order'.Renews order) (thisTraded : ℤ) (price : ℚ)
    (errorCode : ErrorCode) : (order'.response thisTraded price errorCode).Answers req where
  clientOrderId := hr.clientOrderId.trans h.clientOrderId
  tickerId := by
    rw [← h.tickerId, ← hr.req]
    rfl
  direction := by
    rw [← h.direction, ← hr.req]
    rfl
  offset := by
    rw [← h.offset, ← hr.req]
    rfl

theorem Order.Records.renew {order order' : Order} {req : TraderOrderReq} (h : order.Records req)
    (hr : order'.Renews order)
    (hopen : order'.tradedVolume + order'.canceledVolume ≠ order'.req.volume) :
    order'.Records req where
  clientOrderId := hr.clientOrderId.trans h.clientOrderId
  tickerId := by rw [hr.req, h.tickerId]
  direction := by rw [hr.req, h.direction]
  offset := by rw [hr.req, h.offset]
  volume := by rw [hr.req, h.volume]
  open_ := hopen

/-- A fill is announced by an acceptance: `OnSecondaryMarketTraded` writes the
one that is missing first, and that is an `accepted` of its own here. -/
def Order.emits (order : Order) : GatewayOrderResponse → Bool
  | .traded rsp => order.accepted ∧ 0 < rsp.volume
  | _ => true

structure Desk where
  engine : TargetPosEngine
  sent : ℕ := 0
  orders : SortedMap ℕ Outstanding (· < ·) := .empty

/-- What can happen next: calls of the strategy, and what the order management
system does with the order that was sent as the `k`-th. -/
inductive DeskEvent
  | setTargetPos (volume : ℤ)
  | tick (tick : TickData)
  | refused (k mqId orderId : ℕ) (errorCode : ErrorCode)
  | taken (k mqId orderId : ℕ)
  | reported (k : ℕ) (rsp : GatewayOrderResponse)

namespace Desk

def receive : Desk → List TraderCommand → Desk
  | desk, [] => desk
  | desk, cmd :: cmds =>
    match cmd.cmd with
    | .kNewOrder orderReq =>
      receive { desk with
        orders := desk.orders.insert desk.sent { cmd, orderReq }
        sent := desk.sent + 1 } cmds
    | _ => receive desk cmds

def onTick (tick : TickData) (desk : Desk) : Desk :=
  let r := desk.engine.onTick tick
  { desk with engine := r.2 }.receive r.1

def hear (rsps : List OrderResponse) (e : TargetPosEngine) : TargetPosEngine :=
  rsps.foldl (fun e rsp => e.onOrderResponse rsp) e

def put (k : ℕ) (o : Outstanding) : Option Order → SortedMap ℕ Outstanding (· < ·) →
    SortedMap ℕ Outstanding (· < ·)
  | none, orders => orders.erase k
  | some order, orders => orders.insert k { o with order := some order }

def answer (k : ℕ) (o : Outstanding) (order? : Option Order) (rsps : List OrderResponse)
    (desk : Desk) : Desk :=
  { desk with engine := hear rsps desk.engine, orders := put k o order? desk.orders }

def step (ct : ContractTable) (desk : Desk) : DeskEvent → Option Desk
  | .setTargetPos volume => some { desk with engine := desk.engine.setTargetPos volume }
  | .tick tick => some (desk.onTick tick)
  | .refused k mqId orderId errorCode =>
    (desk.orders.find? k).bind fun o =>
      (ct.getByIndex o.orderReq.tickerId).bind fun contract =>
        let order := Oms.newOrder contract o.cmd o.orderReq mqId orderId
        if o.order = none ∧ errorCode ≠ .kNoError then
          some (desk.answer k o none [order.response 0 0 errorCode])
        else none
  | .taken k mqId orderId =>
    (desk.orders.find? k).bind fun o =>
      (ct.getByIndex o.orderReq.tickerId).bind fun contract =>
        let order := Oms.newOrder contract o.cmd o.orderReq mqId orderId
        if o.order = none ∧ orderId ≠ 0 then some (desk.answer k o (some order) []) else none
  | .reported k rsp =>
    (desk.orders.find? k).bind fun o =>
      o.order.bind fun order =>
        if rsp.orderId = order.req.orderId ∧ order.emits rsp then
          some (desk.answer k o (order.after rsp) (order.written rsp))
        else none

def weigh (p : Direction → Offset → Bool) (desk : Desk) : ℤ :=
  desk.orders.sum fun _ o => if p o.orderReq.direction o.orderReq.offset then o.unfilled else 0

def unfilled (direction : Direction) (desk : Desk) : ℤ :=
  desk.weigh fun d _ => d = direction

def closing (direction : Direction) (desk : Desk) : ℤ :=
  desk.weigh fun d offset => d = direction ∧ isOffsetClose offset

theorem receive_append (desk : Desk) (as bs : List TraderCommand) :
    desk.receive (as ++ bs) = (desk.receive as).receive bs := by
  induction as generalizing desk with
  | nil => rfl
  | cons cmd as ih =>
    simp only [List.cons_append, receive]
    cases cmd.cmd with
    | kNewOrder orderReq => exact ih _
    | _ => exact ih desk

theorem receive_engine (desk : Desk) (cmds : List TraderCommand) :
    (desk.receive cmds).engine = desk.engine := by
  induction cmds generalizing desk with
  | nil => rfl
  | cons cmd cmds ih =>
    simp only [receive]
    cases cmd.cmd with
    | kNewOrder orderReq => exact ih _
    | _ => exact ih desk

theorem receive_cancels (desk : Desk) {cmds : List TraderCommand}
    (h : ∀ cmd ∈ cmds, ∃ orderId, cmd = AlgoOrderEngine.cancelOrder orderId) :
    desk.receive cmds = desk := by
  induction cmds with
  | nil => rfl
  | cons cmd cmds ih =>
    obtain ⟨orderId, rfl⟩ := h cmd List.mem_cons_self
    exact ih fun c hc => h c (List.mem_cons_of_mem _ hc)

end Desk

namespace TargetPosEngine

theorem cancelCrossed_cancels (e : TargetPosEngine) :
    ∀ cmd ∈ e.cancelCrossed, ∃ orderId, cmd = AlgoOrderEngine.cancelOrder orderId := by
  intro cmd hcmd
  obtain ⟨order, -, rfl⟩ := List.mem_map.mp hcmd
  exact ⟨order.orderId, rfl⟩

theorem withdraw_cancels (direction : Direction) (orders : List PendingOrder) (gap : ℤ) :
    ∀ cmd ∈ (withdraw direction orders gap).1, ∃ orderId, cmd = AlgoOrderEngine.cancelOrder orderId := by
  induction orders generalizing gap with
  | nil => simp [withdraw]
  | cons order orders ih =>
    simp only [withdraw]
    split_ifs
    · simp
    · intro cmd hcmd
      rcases List.mem_cons.mp hcmd with rfl | hcmd
      · exact ⟨order.orderId, rfl⟩
      · exact ih _ cmd hcmd
    · exact ih gap

theorem makeRoom_cancels (direction : Direction) (gap : ℤ) (e : TargetPosEngine) :
    ∀ cmd ∈ (e.makeRoom direction gap).1, ∃ orderId, cmd = AlgoOrderEngine.cancelOrder orderId := by
  unfold makeRoom
  split_ifs
  · exact withdraw_cancels _ _ _
  · simp

def Wants (e : TargetPosEngine) (direction : Direction) (gap : ℤ) : Prop :=
  int32 (e.longPos - e.shortPos) ≠ e.targetPos ∧
    ((direction = .kBuy ∧ 0 < e.gap ∧ 1 / 1000000 ≤ e.ask ∧ 0 < (e.makeRoom .kBuy e.gap).2 ∧
        gap = int32 (e.makeRoom .kBuy e.gap).2) ∨
      (direction = .kSell ∧ e.gap < 0 ∧ 1 / 1000000 ≤ e.bid ∧
        0 < (e.makeRoom .kSell (-e.gap)).2 ∧ gap = int32 (e.makeRoom .kSell (-e.gap)).2))

theorem Wants.side {e : TargetPosEngine} {direction : Direction} {gap : ℤ}
    (h : e.Wants direction gap) : direction = .kBuy ∨ direction = .kSell :=
  h.2.imp And.left And.left

theorem pursue_cases (e : TargetPosEngine) :
    ∃ cancels, (∀ cmd ∈ cancels, ∃ orderId, cmd = AlgoOrderEngine.cancelOrder orderId) ∧
      (e.pursue = (cancels, e) ∨ ∃ direction price gap, e.Wants direction gap ∧
        e.pursue = (cancels ++ (e.place direction price gap).1, (e.place direction price gap).2)) := by
  have hadjust : ∀ direction price gap,
      ((e.makeRoom direction gap).2 ≤ 0 ∧
          e.adjust direction price gap = ((e.makeRoom direction gap).1, e)) ∨
        (0 < (e.makeRoom direction gap).2 ∧ e.adjust direction price gap =
          ((e.makeRoom direction gap).1 ++
              (e.place direction price (int32 (e.makeRoom direction gap).2)).1,
            (e.place direction price (int32 (e.makeRoom direction gap).2)).2)) := by
    intro direction price gap
    by_cases h : 0 < (e.makeRoom direction gap).2
    · exact Or.inr ⟨h, adjust_of_room h price⟩
    · exact Or.inl ⟨not_lt.mp h, adjust_of_no_room h price⟩
  unfold pursue
  split_ifs with htarget hpos hask hneg hbid
  · exact ⟨[], by simp, Or.inl rfl⟩
  · exact ⟨[], by simp, Or.inl rfl⟩
  · refine ⟨_, makeRoom_cancels .kBuy e.gap e, ?_⟩
    rcases hadjust .kBuy (Binary64.round (e.ask + e.priceLimit)) e.gap with ⟨-, heq⟩ | ⟨hroom, heq⟩
    · exact Or.inl heq
    · exact Or.inr ⟨_, _, _, ⟨htarget, Or.inl ⟨rfl, hpos, not_lt.mp hask, hroom, rfl⟩⟩, heq⟩
  · exact ⟨[], by simp, Or.inl rfl⟩
  · refine ⟨_, makeRoom_cancels .kSell (-e.gap) e, ?_⟩
    rcases hadjust .kSell (Binary64.round (e.bid - e.priceLimit)) (-e.gap) with ⟨-, heq⟩ | ⟨hroom, heq⟩
    · exact Or.inl heq
    · exact Or.inr ⟨_, _, _, ⟨htarget, Or.inr ⟨rfl, hneg, not_lt.mp hbid, hroom, rfl⟩⟩, heq⟩
  · exact ⟨[], by simp, Or.inl rfl⟩

end TargetPosEngine

namespace Desk

def send (direction : Direction) (offset : Offset) (volume : ℤ) (price : ℚ) (desk : Desk) : Desk :=
  let r := desk.engine.sendOrder direction offset volume price
  { desk with engine := r.2 }.receive r.1

def place (direction : Direction) (price : ℚ) (gap : ℤ) (desk : Desk) : Desk :=
  let closeVol := desk.engine.closeVol direction gap
  let openVol := desk.engine.openVol direction gap
  let desk := { desk with
    engine := desk.engine.addPending direction (desk.engine.counted direction gap) }
  let desk := if 0 < closeVol then desk.send direction .kCloseToday closeVol price else desk
  if 0 < openVol then desk.send direction .kOpen openVol price else desk

theorem place_eq (direction : Direction) (price : ℚ) (gap : ℤ) (desk : Desk) :
    let r := desk.engine.place direction price gap
    { desk with engine := r.2 }.receive r.1 = desk.place direction price gap := by
  simp only [TargetPosEngine.place, place]
  split_ifs <;> rfl

theorem place_engine (direction : Direction) (price : ℚ) (gap : ℤ) (desk : Desk) :
    (desk.place direction price gap).engine = (desk.engine.place direction price gap).2 := by
  rw [← place_eq]
  exact receive_engine _ _

theorem onTick_cases (tick : TickData) (desk : Desk) :
    desk.onTick tick = { desk with engine := desk.engine.quoted tick } ∨
      ∃ direction price gap, (desk.engine.quoted tick).Wants direction gap ∧
        desk.onTick tick =
          { desk with engine := desk.engine.quoted tick }.place direction price gap := by
  obtain ⟨cancels, hcancels, heq | ⟨direction, price, gap, hwants, heq⟩⟩ :=
    (desk.engine.quoted tick).pursue_cases
  · left
    simp only [onTick, TargetPosEngine.onTick, heq]
    rw [receive_append, receive_cancels _ (TargetPosEngine.cancelCrossed_cancels _),
      receive_cancels _ hcancels]
  · refine Or.inr ⟨direction, price, gap, hwants, ?_⟩
    simp only [onTick, TargetPosEngine.onTick, heq]
    rw [receive_append, receive_append, receive_cancels _ (TargetPosEngine.cancelCrossed_cancels _),
      receive_cancels _ hcancels]
    exact place_eq direction price gap { desk with engine := desk.engine.quoted tick }

theorem step_cases {ct : ContractTable} {desk desk' : Desk} {event : DeskEvent}
    (h : step ct desk event = some desk') :
    (∃ volume, event = .setTargetPos volume ∧
        desk' = { desk with engine := desk.engine.setTargetPos volume }) ∨
      (∃ tick, event = .tick tick ∧ desk' = desk.onTick tick) ∨
      ∃ k o, desk.orders.find? k = some o ∧
        ((∃ contract mqId orderId, o.order = none ∧ contract.tickerId = o.orderReq.tickerId ∧
            let order := Oms.newOrder contract o.cmd o.orderReq mqId orderId
            ((∃ errorCode, event = .refused k mqId orderId errorCode ∧ errorCode ≠ .kNoError ∧
                desk' = desk.answer k o none [order.response 0 0 errorCode]) ∨
              event = .taken k mqId orderId ∧ orderId ≠ 0 ∧
                desk' = desk.answer k o (some order) [])) ∨
          ∃ order rsp, event = .reported k rsp ∧ o.order = some order ∧ order.emits rsp ∧
            desk' = desk.answer k o (order.after rsp) (order.written rsp)) := by
  cases event with
  | setTargetPos volume =>
    cases h
    exact Or.inl ⟨volume, rfl, rfl⟩
  | tick tick =>
    cases h
    exact Or.inr (Or.inl ⟨tick, rfl, rfl⟩)
  | refused k mqId orderId errorCode =>
    obtain ⟨o, ho, h⟩ := Option.bind_eq_some_iff.mp h
    obtain ⟨contract, hc, h⟩ := Option.bind_eq_some_iff.mp h
    simp only at h
    split_ifs at h with hok
    cases h
    exact Or.inr (Or.inr ⟨k, o, ho, Or.inl ⟨contract, mqId, orderId, hok.1,
      ContractTable.tickerId_of_getByIndex hc, Or.inl ⟨errorCode, rfl, hok.2, rfl⟩⟩⟩)
  | taken k mqId orderId =>
    obtain ⟨o, ho, h⟩ := Option.bind_eq_some_iff.mp h
    obtain ⟨contract, hc, h⟩ := Option.bind_eq_some_iff.mp h
    simp only at h
    split_ifs at h with hok
    cases h
    exact Or.inr (Or.inr ⟨k, o, ho, Or.inl ⟨contract, mqId, orderId, hok.1,
      ContractTable.tickerId_of_getByIndex hc, Or.inr ⟨rfl, hok.2, rfl⟩⟩⟩)
  | reported k rsp =>
    obtain ⟨o, ho, h⟩ := Option.bind_eq_some_iff.mp h
    obtain ⟨order, horder, h⟩ := Option.bind_eq_some_iff.mp h
    split_ifs at h with hok
    cases h
    exact Or.inr (Or.inr ⟨k, o, ho, Or.inr ⟨order, rsp, rfl, horder, hok.2, rfl⟩⟩)

theorem put_find? (k : ℕ) (o : Outstanding) (order? : Option Order)
    (orders : SortedMap ℕ Outstanding (· < ·)) (k' : ℕ) :
    (put k o order? orders).find? k' =
      if k' = k then order?.map fun order => { o with order := some order } else orders.find? k' := by
  cases order? with
  | none => exact SortedMap.find?_erase orders k k'
  | some order => exact SortedMap.find?_insert orders k k' _

theorem weigh_answer {desk : Desk} {k : ℕ} {o : Outstanding} (hk : desk.orders.find? k = some o)
    (order? : Option Order) (rsps : List OrderResponse) (p : Direction → Offset → Bool) :
    (desk.answer k o order? rsps).weigh p = desk.weigh p - if p o.orderReq.direction o.orderReq.offset then
      o.unfilled - order?.elim 0 (fun order => o.orderReq.volume - order.tradedVolume) else 0 := by
  have hsum := SortedMap.sum_of_find? (put_find? k o order? desk.orders)
    fun _ o => if p o.orderReq.direction o.orderReq.offset then o.unfilled else 0
  have hnew : (order?.map fun order => { o with order := some order }).elim 0
      (fun o => if p o.orderReq.direction o.orderReq.offset then o.unfilled else 0) =
      if p o.orderReq.direction o.orderReq.offset then
        order?.elim 0 (fun order => o.orderReq.volume - order.tradedVolume) else 0 := by
    cases order? with
    | none => simp
    | some order => rfl
  rw [weigh, answer, hsum, hnew, hk, Option.elim_some, ← weigh]
  split_ifs <;> omega

end Desk

structure Outstanding.Filed (tickerId : ℕ) (o : Outstanding) : Prop where
  ticker : o.orderReq.tickerId = tickerId
  side : o.orderReq.direction = .kBuy ∨ o.orderReq.direction = .kSell
  positive : 0 < o.orderReq.volume
  unfilled : 0 ≤ o.unfilled
  recorded : ∀ order, o.order = some order → order.Records o.orderReq

namespace Desk

structure Filed (desk : Desk) : Prop where
  key : ∀ k o, desk.orders.find? k = some o → k < desk.sent
  filed : ∀ k o, desk.orders.find? k = some o → o.Filed desk.engine.tickerId

theorem Filed.find?_sent {desk : Desk} (h : desk.Filed) : desk.orders.find? desk.sent = none := by
  cases hf : desk.orders.find? desk.sent with
  | none => rfl
  | some o => exact absurd (h.key _ o hf) (lt_irrefl _)

theorem Filed.weigh_nonneg {desk : Desk} (h : desk.Filed) (p : Direction → Offset → Bool) :
    0 ≤ desk.weigh p := by
  apply List.sum_nonneg
  intro x hx
  obtain ⟨⟨k, o⟩, hmem, rfl⟩ := List.mem_map.mp hx
  dsimp only
  split_ifs
  · exact (h.filed k o (SortedMap.find?_eq_some.mpr hmem)).unfilled
  · exact le_rfl

section Send

variable {desk : Desk} {direction : Direction} {offset : Offset} {volume : ℤ} {price : ℚ}

def request (direction : Direction) (offset : Offset) (volume : ℤ) (price : ℚ) (desk : Desk) :
    TraderOrderReq where
  clientOrderId := desk.engine.clientOrderId
  tickerId := desk.engine.tickerId
  direction := direction
  offset := offset
  type := .kLimit
  volume := volume
  price := price
  flags := desk.engine.orderSender.flags

theorem send_orders_find? (k : ℕ) :
    (desk.send direction offset volume price).orders.find? k =
      if k = desk.sent then some
        { cmd := desk.engine.orderSender.sendOrder desk.engine.tickerId volume direction offset
            .kLimit price desk.engine.clientOrderId
          orderReq := desk.request direction offset volume price }
      else desk.orders.find? k :=
  SortedMap.find?_insert desk.orders desk.sent k _

theorem weigh_send (h : desk.Filed) (p : Direction → Offset → Bool) :
    (desk.send direction offset volume price).weigh p =
      desk.weigh p + if p direction offset then volume else 0 := by
  have hsum := SortedMap.sum_of_find? (@send_orders_find? desk direction offset volume price)
    fun _ o => if p o.orderReq.direction o.orderReq.offset then o.unfilled else 0
  have hnew : ∀ cmd, Outstanding.unfilled
      { cmd, orderReq := desk.request direction offset volume price } = volume :=
    fun cmd => sub_zero volume
  rw [weigh, hsum, h.find?_sent, Option.elim_none, sub_zero, ← weigh, Option.elim_some, hnew]
  rfl

theorem Filed.send (h : desk.Filed) (hside : direction = .kBuy ∨ direction = .kSell)
    (hvolume : 0 < volume) : (desk.send direction offset volume price).Filed := by
  have hsent : (desk.send direction offset volume price).sent = desk.sent + 1 := rfl
  refine ⟨fun k o ho => ?_, fun k o ho => ?_⟩
  · rw [send_orders_find?] at ho
    rw [hsent]
    split_ifs at ho with hk
    · omega
    · exact Nat.lt_succ_of_lt (h.key k o ho)
  · rw [send_orders_find?] at ho
    split_ifs at ho with hk
    · cases ho
      refine ⟨rfl, hside, hvolume, ?_, fun order horder => by cases horder⟩
      simpa [Outstanding.unfilled, request] using hvolume.le
    · exact h.filed k o ho

theorem Filed.sendIf (h : desk.Filed) (hside : direction = .kBuy ∨ direction = .kSell) :
    (if 0 < volume then desk.send direction offset volume price else desk).Filed := by
  split_ifs with hvolume
  · exact h.send hside hvolume
  · exact h

theorem weigh_sendIf (h : desk.Filed) (p : Direction → Offset → Bool) :
    (if 0 < volume then desk.send direction offset volume price else desk).weigh p =
      desk.weigh p + if p direction offset then max volume 0 else 0 := by
  by_cases hvolume : 0 < volume
  · rw [if_pos hvolume, weigh_send h, max_eq_left hvolume.le]
  · rw [if_neg hvolume, max_eq_right (by omega)]
    simp

end Send

theorem Filed.of_engine {desk : Desk} (h : desk.Filed) {engine : TargetPosEngine}
    (ht : engine.tickerId = desk.engine.tickerId) : { desk with engine }.Filed :=
  ⟨h.key, fun k o ho => ht ▸ h.filed k o ho⟩

theorem Filed.raised {desk : Desk} (h : desk.Filed) (direction : Direction) (volume : ℤ) :
    { desk with engine := desk.engine.addPending direction volume }.Filed := by
  obtain ⟨longPending, shortPending, hadd⟩ := desk.engine.addPending_frame direction volume
  apply h.of_engine
  rw [hadd]

theorem Filed.place {desk : Desk} (h : desk.Filed) {direction : Direction}
    (hside : direction = .kBuy ∨ direction = .kSell) (price : ℚ) (gap : ℤ) :
    (desk.place direction price gap).Filed := by
  have hraised := h.raised direction (desk.engine.counted direction gap)
  exact (hraised.sendIf hside).sendIf hside

/-- The closing order has the closable volume, the opening order the rest. -/
theorem weigh_place {desk : Desk} (h : desk.Filed) {direction : Direction}
    (hside : direction = .kBuy ∨ direction = .kSell) (price : ℚ) (gap : ℤ)
    (p : Direction → Offset → Bool) :
    (desk.place direction price gap).weigh p = desk.weigh p +
      (if p direction .kCloseToday then max (desk.engine.closeVol direction gap) 0 else 0) +
      if p direction .kOpen then max (desk.engine.openVol direction gap) 0 else 0 := by
  have hraised := h.raised direction (desk.engine.counted direction gap)
  exact (weigh_sendIf (hraised.sendIf hside) p).trans
    (congrArg (· + _) (weigh_sendIf hraised p))

theorem hear_tickerId (rsps : List OrderResponse) (e : TargetPosEngine) :
    (hear rsps e).tickerId = e.tickerId := by
  induction rsps generalizing e with
  | nil => rfl
  | cons rsp rsps ih => exact (ih _).trans (e.onOrderResponse_tickerId rsp)

theorem Filed.answer {desk : Desk} (h : desk.Filed) {k : ℕ} {o : Outstanding}
    (hk : desk.orders.find? k = some o) {order? : Option Order}
    (hrecords : ∀ order, order? = some order → order.Records o.orderReq)
    (hopen : ∀ order, order? = some order → order.tradedVolume ≤ o.orderReq.volume)
    (rsps : List OrderResponse) : (desk.answer k o order? rsps).Filed := by
  have hfind : ∀ k', (desk.answer k o order? rsps).orders.find? k' =
      if k' = k then order?.map fun order => { o with order := some order }
      else desk.orders.find? k' := put_find? k o order? desk.orders
  have hticker : (desk.answer k o order? rsps).engine.tickerId = desk.engine.tickerId :=
    hear_tickerId rsps desk.engine
  refine ⟨fun k' o' ho' => ?_, fun k' o' ho' => ?_⟩
  · rw [hfind] at ho'
    split_ifs at ho' with heq
    · exact heq ▸ h.key k o hk
    · exact h.key k' o' ho'
  · rw [hfind] at ho'
    rw [hticker]
    split_ifs at ho' with heq
    · obtain ⟨order, horder, rfl⟩ := Option.map_eq_some_iff.mp ho'
      obtain ⟨ht, hside, hpos, -, -⟩ := h.filed k o hk
      have hle := hopen order horder
      refine ⟨ht, hside, hpos, ?_, fun _ heq => by cases heq; exact hrecords order horder⟩
      simp only [Outstanding.unfilled, Option.elim_some]
      omega
    · exact h.filed k' o' ho'

theorem Filed.dropped {desk : Desk} (h : desk.Filed) {k : ℕ} {o : Outstanding}
    (hk : desk.orders.find? k = some o) : (desk.answer k o none []).Filed :=
  h.answer hk (fun _ heq => by cases heq) (fun _ heq => by cases heq) []

def openDesk : Desk where
  engine :=
    { orderSender := { strategyId := "strategy" }
      tickerId := 1
      ticker := "ticker001"
      clientOrderId := 100100000 }

def quoteTick (ask bid : ℚ) : TickData where
  tickerId := 1
  ask := fun _ => ask
  bid := fun _ => bid

end Desk

end FlareTrader
