import FlareTrader.TargetPosOrders

/-! The closing orders of the engine against the position it holds. What counts
as closable is the position less the pending orders that would add to it, not
less the orders that are already closing it; the two agree only while the
closing orders are no more than those pending. -/

open MachineInt (int32 int32_eq int32_lt le_int32)

namespace FlareTrader

namespace TargetPosEngine

section Pending

variable {e : TargetPosEngine} {d : Direction} (h : e.pending d < 2 ^ 31)

include h

theorem pending_addPending_lt (direction : Direction) (volume : ℤ) :
    (e.addPending direction volume).pending d < 2 ^ 31 := by
  rw [pending_addPending]
  split_ifs
  · exact int32_lt _
  · exact h

theorem pending_onOrder_lt (order : OrderResponse) : (e.onOrder order).pending d < 2 ^ 31 := by
  by_cases ht : order.tickerId ≠ e.tickerId
  · rw [onOrder, if_pos ht]
    exact h
  · rw [onOrder, if_neg ht]
    cases e.orders.find? order.clientOrderId with
    | none => exact h
    | some pendingOrder =>
      simp only
      split_ifs
      · exact pending_addPending_lt h _ _
      · exact pending_addPending_lt h _ _
      · exact h
      · exact h

theorem pending_onOrderResponse_lt {rsp : OrderResponse} (ht : rsp.tickerId = e.tickerId)
    (hside : rsp.direction = .kBuy ∨ rsp.direction = .kSell) (hd : d = .kBuy ∨ d = .kSell) :
    (e.onOrderResponse rsp).pending d < 2 ^ 31 := by
  rw [pending_onOrderResponse ht hside hd]
  split_ifs
  · exact int32_lt _
  · exact pending_onOrder_lt h rsp

end Pending

end TargetPosEngine

namespace Desk

structure Covered (desk : Desk) : Prop where
  filed : desk.Filed
  held : ∀ d, d = .kBuy ∨ d = .kSell → desk.engine.held d < 2 ^ 31
  pending : ∀ d, d = .kBuy ∨ d = .kSell → desk.engine.pending d < 2 ^ 31
  closing : ∀ d, d = .kBuy ∨ d = .kSell →
    desk.closing d ≤ desk.engine.held (oppositeDirection d)

theorem closing_answer {desk : Desk} {k : ℕ} {o : Outstanding}
    (hk : desk.orders.find? k = some o) (order? : Option Order) (rsps : List OrderResponse)
    (d : Direction) :
    (desk.answer k o order? rsps).closing d = desk.closing d -
      if o.orderReq.direction = d ∧ isOffsetClose o.orderReq.offset = true then
        o.unfilled - order?.elim 0 (fun order => o.orderReq.volume - order.tradedVolume) else 0 := by
  simpa [Desk.closing] using
    weigh_answer hk order? rsps fun direction offset => direction = d ∧ isOffsetClose offset

theorem closing_place {desk : Desk} (h : desk.Filed) {direction : Direction}
    (hside : direction = .kBuy ∨ direction = .kSell) (price : ℚ) (gap : ℤ) (d : Direction) :
    (desk.place direction price gap).closing d = desk.closing d +
      if direction = d then max (desk.engine.closeVol direction gap) 0 else 0 := by
  have hweigh := weigh_place h hside price gap fun direction offset =>
    direction = d ∧ isOffsetClose offset
  have hclose : isOffsetClose .kCloseToday = true := by decide
  have hopen : isOffsetClose .kOpen = false := by decide
  simpa [Desk.closing, hclose, hopen] using hweigh

theorem held_place (e : TargetPosEngine) (direction : Direction) (price : ℚ) (gap : ℤ)
    (d : Direction) : (e.place direction price gap).2.held d = e.held d := by
  obtain ⟨orders, clientOrderId, hplaced⟩ := e.place_frame direction price gap
  obtain ⟨longPending, shortPending, hadd⟩ :=
    e.addPending_frame direction (e.counted direction gap)
  rw [hplaced, hadd]
  rfl

theorem oppositeDirection_side {d : Direction} (h : d = .kBuy ∨ d = .kSell) :
    (oppositeDirection d = .kBuy ∨ oppositeDirection d = .kSell) ∧
      oppositeDirection (oppositeDirection d) = d := by
  rcases h with rfl | rfl
  · exact ⟨Or.inr rfl, rfl⟩
  · exact ⟨Or.inl rfl, rfl⟩

theorem Covered.held_nonneg {desk : Desk} (h : desk.Covered) {d : Direction}
    (hd : d = .kBuy ∨ d = .kSell) : 0 ≤ desk.engine.held d := by
  obtain ⟨hopp, hself⟩ := oppositeDirection_side hd
  have hcovered := h.closing _ hopp
  rw [hself] at hcovered
  exact (h.filed.weigh_nonneg _).trans hcovered

theorem closing_place_le_iff {desk : Desk} (h : desk.Covered) {direction : Direction}
    (hside : direction = .kBuy ∨ direction = .kSell) (price : ℚ) (gap : ℤ) :
    (desk.place direction price gap).closing direction ≤
        (desk.place direction price gap).engine.held (oppositeDirection direction) ↔
      desk.closing direction + desk.engine.closable direction ≤
          desk.engine.held (oppositeDirection direction) ∨
        desk.closing direction + gap ≤ desk.engine.held (oppositeDirection direction) := by
  have hcovered := h.closing direction hside
  rw [closing_place h.filed hside, place_engine, held_place, if_pos rfl, TargetPosEngine.closeVol]
  omega

/-- The difference of a position and a pending counter can be too large for an `int`, not too
small. -/
theorem Covered.closable_le {desk : Desk} (h : desk.Covered) {direction : Direction}
    (hside : direction = .kBuy ∨ direction = .kSell) :
    desk.engine.closable direction ≤ desk.engine.held (oppositeDirection direction) -
      desk.engine.pending (oppositeDirection direction) := by
  obtain ⟨hopp, -⟩ := oppositeDirection_side hside
  have hheld := h.held_nonneg hopp
  have hpending := h.pending _ hopp
  rw [TargetPosEngine.closable]
  by_cases hlt : desk.engine.held (oppositeDirection direction) -
      desk.engine.pending (oppositeDirection direction) < 2 ^ 31
  · exact (int32_eq (by omega) hlt).le
  · exact (int32_lt _).le.trans (not_lt.mp hlt)

theorem Covered.place {desk : Desk} (h : desk.Covered) {direction : Direction}
    (hside : direction = .kBuy ∨ direction = .kSell) (price : ℚ) {gap : ℤ}
    (hroom : desk.closing direction ≤ desk.engine.pending (oppositeDirection direction) ∨
      desk.closing direction + gap ≤ desk.engine.held (oppositeDirection direction)) :
    (desk.place direction price gap).Covered := by
  refine ⟨h.filed.place hside price gap, fun d hd => ?_, fun d hd => ?_, fun d hd => ?_⟩
  · rw [place_engine, held_place]
    exact h.held d hd
  · obtain ⟨orders, clientOrderId, hplaced⟩ := desk.engine.place_frame direction price gap
    rw [place_engine, hplaced]
    exact TargetPosEngine.pending_addPending_lt (h.pending d hd) _ _
  · by_cases hsame : direction = d
    · subst hsame
      have hclosable := h.closable_le hside
      exact (closing_place_le_iff h hside price gap).mpr (hroom.imp_left fun hle => by omega)
    · rw [closing_place h.filed hside, if_neg hsame, add_zero, place_engine, held_place]
      exact h.closing d hd

section Answer

variable {desk : Desk} {k : ℕ} {o : Outstanding}

theorem Covered.answer (h : desk.Covered) (hk : desk.orders.find? k = some o)
    {order? : Option Order} (hrecords : ∀ order, order? = some order → order.Records o.orderReq)
    (hopen : ∀ order, order? = some order → order.tradedVolume ≤ o.orderReq.volume)
    {rsps : List OrderResponse} (thisTraded : ℤ) (hnonneg : 0 ≤ thisTraded)
    (hfits : isOffsetOpen o.orderReq.offset = true →
      desk.engine.held o.orderReq.direction + thisTraded < 2 ^ 31)
    (hpending : ∀ d, d = .kBuy ∨ d = .kSell → (hear rsps desk.engine).pending d < 2 ^ 31)
    (hheld : ∀ d, d = .kBuy ∨ d = .kSell → (hear rsps desk.engine).held d =
      desk.engine.held d + if isOffsetOpen o.orderReq.offset then
        (if o.orderReq.direction = d then thisTraded else 0)
        else -(if o.orderReq.direction = oppositeDirection d then thisTraded else 0))
    (htraded : thisTraded ≤
      o.unfilled - order?.elim 0 (fun order => o.orderReq.volume - order.tradedVolume)) :
    (desk.answer k o order? rsps).Covered := by
  refine ⟨h.filed.answer hk hrecords hopen rsps, fun d hd => ?_, hpending, fun d hd => ?_⟩
  · have hbefore := h.held d hd
    change (hear rsps desk.engine).held d < _
    rw [hheld d hd]
    split_ifs with hoffset hsame
    · rw [← hsame]
      exact hfits hoffset
    all_goals omega
  · have hcovered := h.closing d hd
    obtain ⟨hopp, hself⟩ := oppositeDirection_side hd
    rw [closing_answer hk]
    change _ ≤ (hear rsps desk.engine).held (oppositeDirection d)
    rw [hheld _ hopp, hself, isOffsetClose_eq]
    cases isOffsetOpen o.orderReq.offset with
    | true =>
      have hgain : 0 ≤ if o.orderReq.direction = oppositeDirection d then thisTraded else 0 := by
        split_ifs
        · exact hnonneg
        · exact le_rfl
      simp only [Bool.not_true, Bool.false_eq_true, and_false, if_false, if_true]
      omega
    | false =>
      simp only [Bool.not_false, and_true, Bool.false_eq_true, if_false]
      split_ifs
      · omega
      · omega

theorem Covered.unfilled_le (h : desk.Covered) (hk : desk.orders.find? k = some o)
    (hclose : isOffsetClose o.orderReq.offset = true) :
    o.unfilled ≤ desk.engine.held (oppositeDirection o.orderReq.direction) := by
  obtain ⟨-, hside, -, -, -⟩ := h.filed.filed k o hk
  have hrest := (h.filed.dropped hk).weigh_nonneg
    fun d offset => d = o.orderReq.direction ∧ isOffsetClose offset
  change 0 ≤ Desk.closing _ _ at hrest
  rw [closing_answer hk, if_pos ⟨rfl, hclose⟩, Option.elim_none, sub_zero] at hrest
  have hcovered := h.closing _ hside
  omega

theorem Covered.silent (h : desk.Covered) (hk : desk.orders.find? k = some o) {order : Order}
    (horder : order.Records o.orderReq)
    (hunfilled : o.orderReq.volume - order.tradedVolume = o.unfilled) :
    (desk.answer k o (some order) []).Covered := by
  obtain ⟨-, hside, -, hnonneg, -⟩ := h.filed.filed k o hk
  refine h.answer hk (fun _ heq => by cases heq; exact horder) (fun o' heq => ?_) 0 le_rfl
    (fun _ => by simpa using h.held _ hside) h.pending (fun d hd => ?_) ?_
  · cases heq
    omega
  · change desk.engine.held d = _
    simp
  · rw [Option.elim_some, hunfilled, sub_self]

theorem Covered.hear (h : desk.Covered) (hk : desk.orders.find? k = some o)
    {order? : Option Order} (hrecords : ∀ order, order? = some order → order.Records o.orderReq)
    (hopen : ∀ order, order? = some order → order.tradedVolume ≤ o.orderReq.volume)
    {r : OrderResponse} (hr : r.Answers o.orderReq) (hnonneg : 0 ≤ r.thisTraded)
    (hfits : isOffsetOpen o.orderReq.offset = true →
      desk.engine.held o.orderReq.direction + r.thisTraded < 2 ^ 31)
    (htraded : r.thisTraded ≤
      o.unfilled - order?.elim 0 (fun order => o.orderReq.volume - order.tradedVolume)) :
    (desk.answer k o order? [r]).Covered := by
  obtain ⟨hticker, hside, -, -, -⟩ := h.filed.filed k o hk
  have hrside : r.direction = .kBuy ∨ r.direction = .kSell := hr.direction ▸ hside
  have hleft : 0 ≤ order?.elim 0 (fun order => o.orderReq.volume - order.tradedVolume) := by
    cases order? with
    | none => exact le_rfl
    | some order => exact sub_nonneg.mpr (hopen order rfl)
  refine h.answer hk hrecords hopen r.thisTraded hnonneg hfits (fun d hd => ?_) (fun d hd => ?_)
    htraded
  · exact TargetPosEngine.pending_onOrderResponse_lt (h.pending d hd) (hr.tickerId.trans hticker)
      hrside hd
  · have hzero := h.held_nonneg hd
    have hlt := h.held d hd
    change (desk.engine.onOrderResponse r).held d = _
    rw [TargetPosEngine.held_onOrderResponse (hr.tickerId.trans hticker) hrside hd hnonneg
      (by omega) hlt, hr.offset, hr.direction]
    split_ifs with hoffset hsame hsame
    · subst hsame
      exact int32_eq (by omega) (hfits hoffset)
    · exact (add_zero _).symm
    · have hclose : isOffsetClose o.orderReq.offset = true := by
        rw [isOffsetClose_eq]
        simpa using hoffset
      have hcover := h.unfilled_le hk hclose
      rw [hsame, (oppositeDirection_side hd).2] at hcover
      rw [← sub_eq_add_neg]
      exact int32_eq (by omega) (by omega)
    · rw [neg_zero, add_zero]

theorem Covered.report (h : desk.Covered) (hk : desk.orders.find? k = some o) {order : Order}
    (ho : o.order = some order) (order' : Order) (hr : order'.Renews order) {thisTraded : ℤ}
    (hnonneg : 0 ≤ thisTraded) (htraded : order'.tradedVolume = order.tradedVolume + thisTraded)
    (hle : order'.tradedVolume ≤ order.req.volume)
    (hfits : isOffsetOpen order.req.offset = true →
      desk.engine.held order.req.direction + thisTraded < 2 ^ 31) (price : ℚ) :
    (desk.answer k o order'.unlessCompleted
      [order'.response thisTraded price .kNoError]).Covered := by
  have hrec := (h.filed.filed k o hk).recorded order ho
  have hunfilled := Outstanding.unfilled_eq ho
  have hvolume := hrec.volume
  refine h.hear hk (fun o' heq => ?_) (fun o' heq => ?_)
    (hrec.response_answers hr thisTraded price .kNoError) hnonneg ?_ ?_
  · obtain ⟨hne, rfl⟩ := Order.unlessCompleted_eq_some.mp heq
    exact hrec.renew hr hne
  · obtain ⟨-, rfl⟩ := Order.unlessCompleted_eq_some.mp heq
    omega
  · rw [← hrec.offset, ← hrec.direction]
    exact hfits
  · change thisTraded ≤ _
    cases hleft : order'.unlessCompleted with
    | none =>
      rw [Option.elim_none]
      omega
    | some left =>
      obtain ⟨-, rfl⟩ := Order.unlessCompleted_eq_some.mp hleft
      rw [Option.elim_some]
      omega

end Answer

/-- No order is filled beyond its volume or opens a position too large for an `int`, and when the
engine is about to send orders, those already closing a position are no more than the pending ones
that count against it, or leave room for the whole gap. -/
def Spares (desk : Desk) : DeskEvent → Prop
  | .tick tick => ∀ direction gap, (desk.engine.quoted tick).Wants direction gap →
      desk.closing direction ≤ desk.engine.pending (oppositeDirection direction) ∨
        desk.closing direction + gap ≤ desk.engine.held (oppositeDirection direction)
  | .reported k (.traded rsp) => ∀ o order, desk.orders.find? k = some o → o.order = some order →
      order.tradedVolume + rsp.volume ≤ order.req.volume ∧
        (isOffsetOpen order.req.offset = true →
          desk.engine.held order.req.direction + rsp.volume < 2 ^ 31)
  | _ => True

theorem Covered.preserved {ct : ContractTable} {desk desk' : Desk} {event : DeskEvent}
    (h : desk.Covered) (ht : desk.Spares event) (hs : step ct desk event = some desk') :
    desk'.Covered := by
  rcases step_cases hs with ⟨volume, rfl, rfl⟩ | ⟨tick, rfl, rfl⟩ |
    ⟨k, o, hk, ⟨contract, mqId, orderId, ho, hc, ⟨errorCode, rfl, he, rfl⟩ | ⟨rfl, -, rfl⟩⟩ |
      ⟨order, rsp, rfl, ho, hemits, rfl⟩⟩
  · exact ⟨h.filed.of_engine rfl, h.held, h.pending, h.closing⟩
  · have hquoted : { desk with engine := desk.engine.quoted tick }.Covered :=
      ⟨h.filed.of_engine rfl, h.held, h.pending, h.closing⟩
    rcases desk.onTick_cases tick with heq | ⟨direction, price, gap, hwants, heq⟩
    · rw [heq]
      exact hquoted
    · rw [heq]
      exact hquoted.place hwants.side price (ht direction gap hwants)
  · obtain ⟨-, hside, -, hnonneg, -⟩ := h.filed.filed k o hk
    refine h.hear hk (fun _ heq => by cases heq) (fun _ heq => by cases heq) ⟨rfl, hc, rfl, rfl⟩
      le_rfl (fun _ => ?_) ?_
    · change desk.engine.held _ + 0 < 2 ^ 31
      rw [add_zero]
      exact h.held _ hside
    · rw [Option.elim_none, sub_zero]
      exact hnonneg
  · obtain ⟨-, -, hpositive, -, -⟩ := h.filed.filed k o hk
    refine h.silent hk ⟨rfl, hc, rfl, rfl, rfl, hpositive.ne⟩ ?_
    rw [Outstanding.unfilled, ho]
    rfl
  · obtain ⟨-, hside, -, hnonneg, hrecorded⟩ := h.filed.filed k o hk
    have hrec := hrecorded order ho
    have hunfilled := Outstanding.unfilled_eq ho
    have hvolume := hrec.volume
    have hheld : isOffsetOpen order.req.offset = true →
        desk.engine.held order.req.direction + 0 < 2 ^ 31 := fun _ => by
      rw [add_zero, hrec.direction]
      exact h.held _ hside
    cases rsp with
    | accepted id =>
      by_cases haccepted : order.accepted = true
      · rw [Order.after, if_pos haccepted, Order.written, Order.acknowledged, if_pos haccepted]
        exact h.silent hk hrec hunfilled.symm
      · have hmarked : order.marked.unlessCompleted = some order.marked := if_neg hrec.open_
        rw [Order.after, if_neg haccepted, Order.written, Order.acknowledged, if_neg haccepted,
          ← hmarked]
        refine h.report hk ho order.marked ⟨rfl, rfl⟩ le_rfl (add_zero _).symm ?_ hheld 0
        change order.tradedVolume ≤ order.req.volume
        omega
    | traded rsp =>
      obtain ⟨haccepted, hpos⟩ := of_decide_eq_true hemits
      rw [Order.after, Order.written, Order.acknowledged, if_pos haccepted, List.nil_append]
      exact h.report hk ho (order.traded rsp.volume) ⟨rfl, rfl⟩ hpos.le rfl (ht o order hk ho).1
        (ht o order hk ho).2 rsp.price
    | rejected id reason =>
      refine h.hear hk (fun _ heq => by cases heq) (fun _ heq => by cases heq)
        (hrec.response_answers ⟨rfl, rfl⟩ 0 0 .kRejected) le_rfl ?_ ?_
      · rw [← hrec.offset, ← hrec.direction]
        exact hheld
      · change 0 ≤ o.unfilled - 0
        omega
    | canceled id volume =>
      refine h.report hk ho (order.canceled volume) ⟨rfl, rfl⟩ le_rfl (add_zero _).symm ?_ hheld 0
      change order.tradedVolume ≤ order.req.volume
      omega
    | cancelRejected id reason => exact h.silent hk hrec hunfilled.symm

def Position.Stored (pos : Position) : Prop := ∀ side,
  0 ≤ (pos.side side).holdings ∧ (pos.side side).holdings < 2 ^ 31

theorem Covered.start {ct : ContractTable} {orderSender : OrderSender} {tickerId : ℕ}
    {e : TargetPosEngine} (he : TargetPosEngine.create ct orderSender tickerId = some e)
    {getPosition : String → Position} (hpos : ∀ ticker, Position.Stored (getPosition ticker)) :
    Covered { engine := e.init getPosition } := by
  obtain ⟨contract, -, rfl⟩ := Option.map_eq_some_iff.mp he
  obtain ⟨hlong, hlonglt⟩ := hpos contract.ticker .long
  obtain ⟨hshort, hshortlt⟩ := hpos contract.ticker .short
  refine ⟨⟨fun k o ho => ?_, fun k o ho => ?_⟩, fun d hd => ?_, fun d hd => ?_, fun d hd => ?_⟩
  · cases ho
  · cases ho
  · rcases hd with rfl | rfl
    · exact hlonglt
    · exact hshortlt
  · rcases hd with rfl | rfl <;> exact (by decide : (0 : ℤ) < 2 ^ 31)
  · rcases hd with rfl | rfl
    · exact hshort
    · exact hlong

theorem closing_within_position (ct : ContractTable) (orderSender : OrderSender) (tickerId : ℕ)
    (e : TargetPosEngine) (he : TargetPosEngine.create ct orderSender tickerId = some e)
    (getPosition : String → Position) (hpos : ∀ ticker, Position.Stored (getPosition ticker))
    (desk : Desk) (h : Execution.Reaches (step ct) Spares { engine := e.init getPosition } desk) :
    desk.closing .kBuy ≤ desk.engine.shortPos ∧ desk.closing .kSell ≤ desk.engine.longPos := by
  have hcovered := h.invariant Covered (fun _ _ _ hc ht hs => hc.preserved ht hs) (.start he hpos)
  exact ⟨hcovered.closing .kBuy (Or.inl rfl), hcovered.closing .kSell (Or.inr rfl)⟩

def shortFive (ticker : String) : Position where
  shortPos := { holdings := if ticker = "ticker001" then 5 else 0 }

def shortDesk : Desk where
  engine := openDesk.engine.init shortFive

def coveringDesk : Desk :=
  { shortDesk with engine := shortDesk.engine.setTargetPos 0 }.onTick (quoteTick 100 99)

theorem closing_within_position_covering :
    coveringDesk.closing .kBuy ≤ coveringDesk.engine.shortPos ∧
      coveringDesk.closing .kSell ≤ coveringDesk.engine.longPos := by
  have hset : Execution.Reaches (step (.ofList [ticker001])) Spares shortDesk
      { shortDesk with engine := shortDesk.engine.setTargetPos 0 } :=
    (Execution.Reaches.refl shortDesk).tail (.setTargetPos 0) trivial rfl
  have hcovering : Execution.Reaches (step (.ofList [ticker001])) Spares shortDesk coveringDesk := by
    refine hset.tail (.tick (quoteTick 100 99)) (fun direction gap _ => Or.inl ?_) rfl
    cases direction <;> exact le_rfl
  refine closing_within_position (.ofList [ticker001]) { strategyId := "strategy" } 1
    openDesk.engine rfl shortFive (fun ticker side => ?_) coveringDesk hcovering
  cases side with
  | long => exact ⟨le_rfl, (by decide : (0 : ℤ) < 2 ^ 31)⟩
  | short =>
    change 0 ≤ (if ticker = "ticker001" then (5 : ℤ) else 0) ∧
      (if ticker = "ticker001" then (5 : ℤ) else 0) < 2 ^ 31
    split_ifs <;> decide

/-- While five are being bought back, a new target buys back three more. -/
theorem closes_more_than_held : ∃ desk,
    Execution.run (step (.ofList [ticker001])) shortDesk
      [.setTargetPos 0, .tick (quoteTick 100 99), .taken 0 0 1, .reported 0 (.accepted 1),
        .setTargetPos 3, .tick (quoteTick 100 99)] = some desk ∧
      desk.engine.shortPos = 5 ∧ desk.closing .kBuy = 8 := by
  have h : (Execution.run (step (.ofList [ticker001])) shortDesk
      [.setTargetPos 0, .tick (quoteTick 100 99), .taken 0 0 1, .reported 0 (.accepted 1),
        .setTargetPos 3, .tick (quoteTick 100 99)]).map
      (fun desk => (desk.engine.shortPos, desk.closing .kBuy)) = some (5, 8) := by
    decide +kernel
  obtain ⟨desk, hrun, hdesk⟩ := Option.map_eq_some_iff.mp h
  exact ⟨desk, hrun, congrArg Prod.fst hdesk, congrArg Prod.snd hdesk⟩

end Desk

end FlareTrader
