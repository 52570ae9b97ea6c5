import FlareTrader.TargetPosOrders

/-! The pending counters of the engine against its outstanding orders. They
agree as long as the engine is told how each order ended in a way it knows, and
as long as it sends what it has counted. -/

open MachineInt (int32 int32_eq int32_int32_sub int32_lt)

namespace FlareTrader

structure PendingOrder.StandsFor (p : PendingOrder) (o : Outstanding) : Prop where
  direction : p.direction = o.orderReq.direction
  volume : p.volume = o.orderReq.volume
  unknown : o.order = none → p.orderId = 0
  known : ∀ order, o.order = some order → order.accepted = true → p.orderId = order.req.orderId

def TargetPosEngine.Knows (e : TargetPosEngine) (order : Order) : Prop :=
  ∃ p, e.orders.find? order.clientOrderId = some p ∧ p.orderId = order.req.orderId

namespace Desk

structure Linked (desk : Desk) : Prop where
  filed : desk.Filed
  distinct : ∀ k k' o o', desk.orders.find? k = some o → desk.orders.find? k' = some o' →
    o.orderReq.clientOrderId = o'.orderReq.clientOrderId → k = k'
  entry : ∀ k o, desk.orders.find? k = some o →
    ∃ p, desk.engine.orders.find? o.orderReq.clientOrderId = some p ∧ p.StandsFor o

theorem Linked.of_engine {desk : Desk} (h : desk.Linked) {engine : TargetPosEngine}
    (ht : engine.tickerId = desk.engine.tickerId) (ho : engine.orders = desk.engine.orders) :
    { desk with engine }.Linked :=
  ⟨h.filed.of_engine ht, h.distinct, fun k o hk => ho ▸ h.entry k o hk⟩

section Send

variable {desk : Desk} {direction : Direction} {offset : Offset} {volume : ℤ} {price : ℚ}

theorem Linked.send (h : desk.Linked) (hside : direction = .kBuy ∨ direction = .kSell)
    (hvolume : 0 < volume) (hfree : desk.engine.orders.find? desk.engine.clientOrderId = none) :
    (desk.send direction offset volume price).Linked := by
  have hengine : (desk.send direction offset volume price).engine.orders =
      desk.engine.orders.insert desk.engine.clientOrderId
        ⟨0, direction, offset, desk.engine.ask, volume⟩ :=
    SortedMap.emplace_of_find?_none hfree _
  have hother : ∀ k o, desk.orders.find? k = some o →
      o.orderReq.clientOrderId ≠ desk.engine.clientOrderId := by
    intro k o ho heq
    obtain ⟨p, hp, -⟩ := h.entry k o ho
    rw [heq, hfree] at hp
    cases hp
  refine ⟨h.filed.send hside hvolume, fun k k' o o' ho ho' heq => ?_, fun k o ho => ?_⟩
  · rw [send_orders_find?] at ho ho'
    split_ifs at ho ho' with hk hk'
    · exact hk.trans hk'.symm
    · cases ho
      exact absurd heq.symm (hother k' o' ho')
    · cases ho'
      exact absurd heq (hother k o ho)
    · exact h.distinct k k' o o' ho ho' heq
  · rw [send_orders_find?] at ho
    rw [hengine]
    split_ifs at ho with hk
    · cases ho
      refine ⟨_, SortedMap.find?_insert_self _ _ _, ⟨rfl, rfl, fun _ => rfl, fun order ho => ?_⟩⟩
      cases ho
    · rw [SortedMap.find?_insert_of_ne _ (hother k o ho)]
      exact h.entry k o ho

theorem Linked.sendIf (h : desk.Linked) (hside : direction = .kBuy ∨ direction = .kSell)
    (hfree : 0 < volume → desk.engine.orders.find? desk.engine.clientOrderId = none) :
    (if 0 < volume then desk.send direction offset volume price else desk).Linked := by
  split_ifs with hvolume
  · exact h.send hside hvolume (hfree hvolume)
  · exact h

theorem send_free
    (hnext : desk.engine.orders.find? ((desk.engine.clientOrderId + 1) % 2 ^ 32) = none) :
    (desk.send direction offset volume price).engine.orders.find?
      (desk.send direction offset volume price).engine.clientOrderId = none := by
  change (desk.engine.orders.emplace _ _).find? ((desk.engine.clientOrderId + 1) % 2 ^ 32) = none
  rw [SortedMap.find?_emplace_of_ne _ (by omega)]
  exact hnext

end Send

theorem Linked.answer {desk : Desk} (h : desk.Linked) {k : ℕ} {o : Outstanding}
    (hk : desk.orders.find? k = some o) {order? : Option Order} {rsps : List OrderResponse}
    (p? : Option PendingOrder) (hrecords : ∀ order, order? = some order → order.Records o.orderReq)
    (hopen : ∀ order, order? = some order → order.tradedVolume ≤ o.orderReq.volume)
    (horders : ∀ c, (hear rsps desk.engine).orders.find? c =
      if c = o.orderReq.clientOrderId then p? else desk.engine.orders.find? c)
    (hstands : ∀ order, order? = some order →
      ∃ p, p? = some p ∧ p.StandsFor { o with order := some order }) :
    (desk.answer k o order? rsps).Linked := by
  have hfind : ∀ k', (desk.answer k o order? rsps).orders.find? k' =
      if k' = k then order?.map fun order => { o with order := some order }
      else desk.orders.find? k' := put_find? k o order? desk.orders
  have hreq : ∀ k' o', (desk.answer k o order? rsps).orders.find? k' = some o' →
      ∃ o₀, desk.orders.find? k' = some o₀ ∧ o₀.orderReq = o'.orderReq := by
    intro k' o' ho'
    rw [hfind] at ho'
    split_ifs at ho' with heq
    · obtain ⟨order, -, rfl⟩ := Option.map_eq_some_iff.mp ho'
      exact ⟨o, heq ▸ hk, rfl⟩
    · exact ⟨o', ho', rfl⟩
  refine ⟨h.filed.answer hk hrecords hopen rsps, fun k₁ k₂ o₁ o₂ h₁ h₂ heq => ?_, fun k' o' ho' => ?_⟩
  · obtain ⟨o₁', h₁', heq₁⟩ := hreq k₁ o₁ h₁
    obtain ⟨o₂', h₂', heq₂⟩ := hreq k₂ o₂ h₂
    exact h.distinct k₁ k₂ o₁' o₂' h₁' h₂' (by rw [heq₁, heq₂, heq])
  · rw [hfind] at ho'
    change ∃ p, (hear rsps desk.engine).orders.find? _ = some p ∧ _
    split_ifs at ho' with heq
    · obtain ⟨order, horder, rfl⟩ := Option.map_eq_some_iff.mp ho'
      obtain ⟨p, hp, hstand⟩ := hstands order horder
      exact ⟨p, by rw [horders, if_pos rfl, hp], hstand⟩
    · have hne : o'.orderReq.clientOrderId ≠ o.orderReq.clientOrderId :=
        fun hc => heq (h.distinct k' k o' o ho' hk hc)
      rw [horders, if_neg hne]
      exact h.entry k' o' ho'

/-- The pending counters are the unfilled volumes of the outstanding orders. -/
structure Balanced (desk : Desk) : Prop where
  linked : desk.Linked
  pending : ∀ d, d = .kBuy ∨ d = .kSell → desk.engine.pending d = desk.unfilled d
  fits : ∀ d, d = .kBuy ∨ d = .kSell → desk.unfilled d < 2 ^ 31

theorem unfilled_answer {desk : Desk} {k : ℕ} {o : Outstanding}
    (hk : desk.orders.find? k = some o) (order? : Option Order) (rsps : List OrderResponse)
    (d : Direction) :
    (desk.answer k o order? rsps).unfilled d = desk.unfilled d -
      if o.orderReq.direction = d then
        o.unfilled - order?.elim 0 (fun order => o.orderReq.volume - order.tradedVolume) else 0 := by
  simpa [Desk.unfilled] using weigh_answer hk order? rsps fun direction _ => direction = d

theorem int32_settled {pending left traded : ℤ} (hnonneg : 0 ≤ traded)
    (hlow : 0 ≤ pending - (left + traded)) (hlt : pending - (left + traded) < 2 ^ 31) :
    (if 0 < traded then int32 (int32 (pending - left) - traded) else int32 (pending - left)) =
      pending - (left + traded) := by
  split_ifs with hpos
  · rw [int32_int32_sub, sub_sub]
    exact int32_eq (by omega) hlt
  · have hzero : traded = 0 := by omega
    rw [hzero, add_zero] at hlow hlt ⊢
    exact int32_eq (by omega) hlt

section Report

variable {desk : Desk} {k : ℕ} {o : Outstanding} {r : OrderResponse}

theorem Balanced.unfilled_lt (h : desk.Balanced) (hk : desk.orders.find? k = some o) :
    o.unfilled < 2 ^ 31 := by
  obtain ⟨-, hside, -, -, -⟩ := h.linked.filed.filed k o hk
  have hrest := (h.linked.filed.dropped hk).weigh_nonneg fun d _ => d = o.orderReq.direction
  have hsplit := unfilled_answer hk none [] o.orderReq.direction
  rw [if_pos rfl, Option.elim_none, sub_zero] at hsplit
  change 0 ≤ Desk.unfilled _ _ at hrest
  have hfits := h.fits _ hside
  omega

theorem Balanced.answer (h : desk.Balanced) (hk : desk.orders.find? k = some o)
    {order? : Option Order} {rsps : List OrderResponse}
    (hlinked : (desk.answer k o order? rsps).Linked)
    (hless : order?.elim 0 (fun order => o.orderReq.volume - order.tradedVolume) ≤ o.unfilled)
    (hpending : ∀ d, d = .kBuy ∨ d = .kSell → 0 ≤ (desk.answer k o order? rsps).unfilled d →
      (desk.answer k o order? rsps).unfilled d < 2 ^ 31 →
        (hear rsps desk.engine).pending d = (desk.answer k o order? rsps).unfilled d) :
    (desk.answer k o order? rsps).Balanced := by
  have hfits : ∀ d, d = .kBuy ∨ d = .kSell →
      (desk.answer k o order? rsps).unfilled d < 2 ^ 31 := by
    intro d hd
    have hbefore := h.fits d hd
    rw [unfilled_answer hk]
    split_ifs <;> omega
  exact ⟨hlinked, fun d hd => hpending d hd (hlinked.filed.weigh_nonneg _) (hfits d hd), hfits⟩

theorem Balanced.settle (h : desk.Balanced) (hk : desk.orders.find? k = some o)
    (hr : r.Answers o.orderReq) (hnonneg : 0 ≤ r.thisTraded) {left : ℤ}
    (hengine : desk.engine.onOrder r =
      desk.engine.completeOrder r.clientOrderId o.orderReq.direction left)
    (hleft : left + r.thisTraded = o.unfilled) : (desk.answer k o none [r]).Balanced := by
  obtain ⟨hticker, hside, -, hunfilled, -⟩ := h.linked.filed.filed k o hk
  refine h.answer hk (h.linked.answer hk none (fun _ heq => by cases heq)
    (fun _ heq => by cases heq) (fun c => ?_) fun _ heq => by cases heq) hunfilled
      fun d hd hlow hlt => ?_
  · change (desk.engine.onOrderResponse r).orders.find? c = _
    rw [TargetPosEngine.orders_onOrderResponse, hengine, TargetPosEngine.orders_completeOrder,
      SortedMap.find?_erase, hr.clientOrderId]
  · rw [unfilled_answer hk, ← h.pending d hd, Option.elim_none, sub_zero, ← hleft] at hlow hlt ⊢
    change (desk.engine.onOrderResponse r).pending d = _
    rw [TargetPosEngine.pending_onOrderResponse (hr.tickerId.trans hticker) (hr.direction ▸ hside)
      hd, hengine, TargetPosEngine.pending_completeOrder _ hside hd, hr.direction]
    by_cases hsame : o.orderReq.direction = d
    · simp only [hsame, and_true, if_true] at hlow hlt ⊢
      exact int32_settled hnonneg hlow hlt
    · simp [hsame]

theorem Balanced.follow (h : desk.Balanced) (hk : desk.orders.find? k = some o) {order : Order}
    (horder : order.Records o.orderReq) (hopen : order.tradedVolume ≤ o.orderReq.volume)
    (hr : r.Answers o.orderReq) (hnonneg : 0 ≤ r.thisTraded)
    (hcompleted : r.completed = false) (hid : r.orderId = order.req.orderId)
    (hleft : o.orderReq.volume - order.tradedVolume + r.thisTraded = o.unfilled) :
    (desk.answer k o (some order) [r]).Balanced := by
  obtain ⟨hticker, hside, -, -, -⟩ := h.linked.filed.filed k o hk
  obtain ⟨p, hp, hstand⟩ := h.linked.entry k o hk
  rw [← hr.clientOrderId] at hp
  have hengine := TargetPosEngine.onOrder_incomplete (hr.tickerId.trans hticker) hp hcompleted
  refine h.answer hk (h.linked.answer hk (some { p with orderId := r.orderId })
    (fun o' heq => ?_) (fun o' heq => ?_) (fun c => ?_) fun o' heq => ?_)
      (show o.orderReq.volume - order.tradedVolume ≤ _ by omega) fun d hd hlow hlt => ?_
  · cases heq
    exact horder
  · cases heq
    exact hopen
  · change (desk.engine.onOrderResponse r).orders.find? c = _
    rw [TargetPosEngine.orders_onOrderResponse, hengine, SortedMap.find?_insert, hr.clientOrderId]
  · cases heq
    refine ⟨_, rfl, hstand.direction, hstand.volume, fun heq => (by cases heq), fun o' heq _ => ?_⟩
    cases heq
    exact hid
  · have hdiff : o.unfilled - (o.orderReq.volume - order.tradedVolume) = r.thisTraded := by omega
    rw [unfilled_answer hk, ← h.pending d hd, Option.elim_some, hdiff] at hlow hlt ⊢
    change (desk.engine.onOrderResponse r).pending d = _
    rw [TargetPosEngine.pending_onOrderResponse (hr.tickerId.trans hticker) (hr.direction ▸ hside)
      hd, hengine, hr.direction]
    change (if _ then int32 (desk.engine.pending d - _) else desk.engine.pending d) = _
    by_cases hsame : o.orderReq.direction = d
    · simp only [hsame, and_true, if_true] at hlow hlt ⊢
      split_ifs with hpos
      · exact int32_eq (by omega) hlt
      · omega
    · simp [hsame]

/-- What is written for an order without an error keeps the balance, unless it
completes an order that the engine does not know. -/
theorem Balanced.report (h : desk.Balanced) (hk : desk.orders.find? k = some o)
    {order : Order} (ho : o.order = some order) (order' : Order) (hr : order'.Renews order)
    {thisTraded : ℤ}
    (hnonneg : 0 ≤ thisTraded) (htraded : order'.tradedVolume = order.tradedVolume + thisTraded)
    (hle : order'.tradedVolume ≤ order.req.volume)
    (price : ℚ) (hknows : order'.unlessCompleted = none → desk.engine.Knows order) :
    (desk.answer k o order'.unlessCompleted
      [order'.response thisTraded price .kNoError]).Balanced := by
  obtain ⟨hticker, hside, hpositive, -, hrecorded⟩ := h.linked.filed.filed k o hk
  have hrec := hrecorded order ho
  have hanswers := hrec.response_answers hr thisTraded price .kNoError
  have hunfilled := Outstanding.unfilled_eq ho
  have hrecorded := hrec.volume
  have hvolume : order'.req.volume = o.orderReq.volume := by rw [hr.req, hrecorded]
  have hid : (order'.response thisTraded price .kNoError).orderId = order.req.orderId := by
    rw [← hr.req]
    rfl
  have hthis : (order'.response thisTraded price .kNoError).thisTraded = thisTraded := rfl
  by_cases hd : order'.tradedVolume + order'.canceledVolume = order'.req.volume
  · have hnone : order'.unlessCompleted = none := if_pos hd
    have hcompleted : (order'.response thisTraded price .kNoError).completed = true := by
      simp [Order.response, add_comm order'.canceledVolume, hd]
    obtain ⟨p, hp, hstand⟩ := h.linked.entry k o hk
    obtain ⟨p', hp', hknown⟩ := hknows hnone
    rw [hrec.clientOrderId, hp] at hp'
    cases hp'
    rw [← hanswers.clientOrderId] at hp
    have hengine := TargetPosEngine.onOrder_completed (hanswers.tickerId.trans hticker) hp hcompleted
      rfl (hknown.trans hid.symm)
    rw [hstand.direction] at hengine
    rw [hnone]
    refine h.settle hk hanswers hnonneg hengine ?_
    change int32 (order'.req.volume - order'.tradedVolume) + thisTraded = _
    have hsmall := h.unfilled_lt hk
    rw [int32_eq (by omega) (by omega)]
    omega
  · have hsome : order'.unlessCompleted = some order' := if_neg hd
    have hcompleted : (order'.response thisTraded price .kNoError).completed = false := by
      simp [Order.response, add_comm order'.canceledVolume, hd]
    rw [hsome]
    refine h.follow hk (hrec.renew hr hd) (by omega) hanswers hnonneg hcompleted rfl ?_
    omega

end Report

end Desk

namespace TargetPosEngine

structure CanPlace (e : TargetPosEngine) (direction : Direction) (gap : ℤ) : Prop where
  positive : 0 < gap
  fits : e.pending direction + gap < 2 ^ 31
  closable : 0 ≤ e.closable direction
  first : e.orders.find? e.clientOrderId = none
  second : 0 < e.closable direction → e.closable direction < gap →
    e.orders.find? ((e.clientOrderId + 1) % 2 ^ 32) = none

def Understands (e : TargetPosEngine) (order : Order) : GatewayOrderResponse → Prop
  | .rejected _ _ => False
  | .canceled _ volume => order.tradedVolume + volume = order.req.volume → e.Knows order
  | .traded rsp => order.tradedVolume + rsp.volume ≤ order.req.volume
  | _ => True

theorem pending_place {e : TargetPosEngine} {direction d : Direction}
    (hside : direction = .kBuy ∨ direction = .kSell) (hd : d = .kBuy ∨ d = .kSell) (price : ℚ)
    {gap : ℤ} (hcounted : e.counted direction gap = gap) :
    (e.place direction price gap).2.pending d =
      if direction = d then int32 (e.pending d + gap) else e.pending d := by
  obtain ⟨orders, clientOrderId, hplaced⟩ := e.place_frame direction price gap
  rw [hplaced, hcounted]
  change (e.addPending direction gap).pending d = _
  rw [pending_addPending]
  rcases hside with rfl | rfl <;> rcases hd with rfl | rfl <;> simp

end TargetPosEngine

namespace Desk

theorem Linked.place {desk : Desk} (h : desk.Linked) {direction : Direction}
    (hside : direction = .kBuy ∨ direction = .kSell) (price : ℚ) {gap : ℤ} (hlt : gap < 2 ^ 31)
    (hcan : desk.engine.CanPlace direction gap) : (desk.place direction price gap).Linked := by
  generalize hvolume : desk.engine.counted direction gap = volume
  obtain ⟨longPending, shortPending, hadd⟩ := desk.engine.addPending_frame direction volume
  have hid : (desk.engine.addPending direction volume).clientOrderId =
      desk.engine.clientOrderId := by
    rw [hadd]
  have horders : (desk.engine.addPending direction volume).orders = desk.engine.orders := by
    rw [hadd]
  have hraised : { desk with engine := desk.engine.addPending direction volume }.Linked :=
    ⟨h.filed.raised direction volume, h.distinct, fun k o hk => horders ▸ h.entry k o hk⟩
  have hfirst : (desk.engine.addPending direction volume).orders.find?
      (desk.engine.addPending direction volume).clientOrderId = none := by
    rw [hid, horders]
    exact hcan.first
  obtain ⟨hopenVol, -⟩ := TargetPosEngine.closeVol_add_openVol hcan.closable hcan.positive hlt
  simp only [Desk.place, hvolume]
  refine (hraised.sendIf hside fun _ => hfirst).sendIf hside fun hopen => ?_
  split_ifs with hclose
  · apply send_free
    rw [hid, horders]
    rw [hopenVol, TargetPosEngine.closeVol] at hopen
    exact hcan.second (lt_of_lt_of_le hclose (min_le_left _ _)) (by omega)
  · exact hfirst

theorem Balanced.place {desk : Desk} (h : desk.Balanced) {direction : Direction}
    (hside : direction = .kBuy ∨ direction = .kSell) (price : ℚ) {gap : ℤ}
    (hcan : desk.engine.CanPlace direction gap) : (desk.place direction price gap).Balanced := by
  have hpending := h.pending direction hside
  have hunfilled : 0 ≤ desk.unfilled direction := h.linked.filed.weigh_nonneg _
  have hfits := hcan.fits
  have hlt : gap < 2 ^ 31 := by omega
  obtain ⟨hopen, hcounted⟩ :=
    TargetPosEngine.closeVol_add_openVol hcan.closable hcan.positive hlt
  have hsum (d : Direction) : (desk.place direction price gap).unfilled d =
      desk.unfilled d + if direction = d then gap else 0 := by
    have hweigh := weigh_place h.linked.filed hside price gap fun direction _ => direction = d
    have hclose : 0 ≤ desk.engine.closeVol direction gap ∧
        desk.engine.closeVol direction gap ≤ gap :=
      ⟨le_min hcan.closable hcan.positive.le, min_le_right _ _⟩
    simp only [decide_eq_true_eq, hopen] at hweigh
    rw [Desk.unfilled, Desk.unfilled, hweigh]
    split_ifs
    · omega
    · omega
  refine ⟨h.linked.place hside price hlt hcan, fun d hd => ?_, fun d hd => ?_⟩
  · rw [place_engine, TargetPosEngine.pending_place hside hd price hcounted, h.pending d hd, hsum]
    split_ifs with hsame
    · subst hsame
      have hpositive := hcan.positive
      exact int32_eq (by omega) (by omega)
    · exact (add_zero _).symm
  · have hbefore := h.fits d hd
    rw [hsum]
    split_ifs with hsame
    · subst hsame
      omega
    · omega

/-- The engine takes note of every response that completes an order, no order is filled beyond its
volume, and the orders it sends add up to what it counts. -/
def Told (desk : Desk) : DeskEvent → Prop
  | .tick tick => ∀ direction gap, (desk.engine.quoted tick).Wants direction gap →
      desk.engine.CanPlace direction gap
  | .refused _ _ _ errorCode => errorCode ≠ .kRejected
  | .reported k rsp => ∀ o order, desk.orders.find? k = some o → o.order = some order →
      desk.engine.Understands order rsp
  | _ => True

theorem Balanced.of_engine {desk : Desk} (h : desk.Balanced) {engine : TargetPosEngine}
    (ht : engine.tickerId = desk.engine.tickerId) (ho : engine.orders = desk.engine.orders)
    (hp : engine.pending = desk.engine.pending) : { desk with engine }.Balanced :=
  ⟨h.linked.of_engine ht ho, fun d hd => (congrFun hp d).trans (h.pending d hd), h.fits⟩

theorem Balanced.tick {desk : Desk} (h : desk.Balanced) {tick : TickData}
    (ht : desk.Told (.tick tick)) : (desk.onTick tick).Balanced := by
  have hquoted : { desk with engine := desk.engine.quoted tick }.Balanced :=
    h.of_engine rfl rfl rfl
  rcases desk.onTick_cases tick with heq | ⟨direction, price, gap, hwants, heq⟩
  · rw [heq]
    exact hquoted
  · have hcan := ht direction gap hwants
    rw [heq]
    exact hquoted.place hwants.side price
      ⟨hcan.positive, hcan.fits, hcan.closable, hcan.first, hcan.second⟩

theorem Balanced.refuse {desk : Desk} (h : desk.Balanced) {k : ℕ} {o : Outstanding}
    (hk : desk.orders.find? k = some o) (ho : o.order = none) {contract : Contract}
    (hc : contract.tickerId = o.orderReq.tickerId) (mqId orderId : ℕ) {errorCode : ErrorCode}
    (he : errorCode ≠ .kNoError) (hsend : errorCode ≠ .kRejected) :
    (desk.answer k o none
      [(Oms.newOrder contract o.cmd o.orderReq mqId orderId).response 0 0 errorCode]).Balanced := by
  obtain ⟨hticker, -, -, -, -⟩ := h.linked.filed.filed k o hk
  obtain ⟨p, hp, hstand⟩ := h.linked.entry k o hk
  have hcompleted : ((Oms.newOrder contract o.cmd o.orderReq mqId orderId).response 0 0
      errorCode).completed = true := by simp [Order.response, he]
  have hengine := TargetPosEngine.onOrder_refused (hc.trans hticker) hp hcompleted he hsend
    (hstand.unknown ho)
  rw [hstand.direction, hstand.volume] at hengine
  refine h.settle hk ⟨rfl, hc, rfl, rfl⟩ le_rfl hengine ?_
  rw [Outstanding.unfilled, ho]
  rfl

theorem Balanced.silent {desk : Desk} (h : desk.Balanced) {k : ℕ} {o : Outstanding}
    (hk : desk.orders.find? k = some o) {order : Order} (horder : order.Records o.orderReq)
    (hstands : ∀ p : PendingOrder, p.StandsFor o → p.StandsFor { o with order := some order })
    (hunfilled : o.orderReq.volume - order.tradedVolume = o.unfilled) :
    (desk.answer k o (some order) []).Balanced := by
  obtain ⟨p, hp, hstand⟩ := h.linked.entry k o hk
  have hnonneg := (h.linked.filed.filed k o hk).unfilled
  refine h.answer hk (h.linked.answer hk (some p) (fun o' heq => ?_) (fun o' heq => ?_)
    (fun c => ?_) fun o' heq => ?_) (show o.orderReq.volume - order.tradedVolume ≤ _ by omega)
      fun d hd _ _ => ?_
  · cases heq
    exact horder
  · cases heq
    omega
  · change desk.engine.orders.find? c = _
    split_ifs with hc
    · rw [hc, hp]
    · rfl
  · cases heq
    exact ⟨p, rfl, hstands p hstand⟩
  · rw [unfilled_answer hk, Option.elim_some, hunfilled, sub_self, ite_self, sub_zero]
    exact h.pending d hd

theorem Balanced.take {desk : Desk} (h : desk.Balanced) {k : ℕ} {o : Outstanding}
    (hk : desk.orders.find? k = some o) (ho : o.order = none) {contract : Contract}
    (hc : contract.tickerId = o.orderReq.tickerId) (mqId orderId : ℕ) :
    (desk.answer k o (some (Oms.newOrder contract o.cmd o.orderReq mqId orderId)) []).Balanced := by
  obtain ⟨-, -, hpositive, -, -⟩ := h.linked.filed.filed k o hk
  refine h.silent hk ⟨rfl, hc, rfl, rfl, rfl, hpositive.ne⟩ (fun p hstand => ?_) ?_
  · refine ⟨hstand.direction, hstand.volume, fun heq => (by cases heq), fun order heq hacc => ?_⟩
    cases heq
    cases hacc
  · rw [Outstanding.unfilled, ho]
    rfl

theorem Balanced.keep {desk : Desk} (h : desk.Balanced) {k : ℕ} {o : Outstanding}
    (hk : desk.orders.find? k = some o) {order : Order} (ho : o.order = some order) :
    (desk.answer k o (some order) []).Balanced := by
  have hsame : { o with order := some order } = o := by rw [← ho]
  refine h.silent hk ((h.linked.filed.filed k o hk).recorded order ho)
    (fun p hstand => hsame ▸ hstand) ?_
  rw [Outstanding.unfilled, ho, Option.elim_some]

theorem Balanced.knows {desk : Desk} (h : desk.Balanced) {k : ℕ} {o : Outstanding}
    (hk : desk.orders.find? k = some o) {order : Order} (ho : o.order = some order)
    (haccepted : order.accepted = true) : desk.engine.Knows order := by
  obtain ⟨p, hp, hstand⟩ := h.linked.entry k o hk
  have hclient := ((h.linked.filed.filed k o hk).recorded order ho).clientOrderId
  exact ⟨p, by rw [hclient, hp], hstand.known order ho haccepted⟩

theorem Balanced.preserved {ct : ContractTable} {desk desk' : Desk} {event : DeskEvent}
    (h : desk.Balanced) (ht : desk.Told event) (hs : step ct desk event = some desk') :
    desk'.Balanced := by
  rcases step_cases hs with ⟨volume, rfl, rfl⟩ | ⟨tick, rfl, rfl⟩ |
    ⟨k, o, hk, ⟨contract, mqId, orderId, ho, hc, ⟨errorCode, rfl, he, rfl⟩ | ⟨rfl, -, rfl⟩⟩ |
      ⟨order, rsp, rfl, ho, hemits, rfl⟩⟩
  · exact h.of_engine rfl rfl rfl
  · exact h.tick ht
  · exact h.refuse hk ho hc mqId orderId he ht
  · exact h.take hk ho hc mqId orderId
  · have hunderstands := ht o order hk ho
    have hrec := (h.linked.filed.filed k o hk).recorded order ho
    have hopen := hrec.open_
    have hnonneg := (h.linked.filed.filed k o hk).unfilled
    rw [Outstanding.unfilled_eq ho, ← hrec.volume] at hnonneg
    have hwithin : order.tradedVolume ≤ order.req.volume := by omega
    cases rsp with
    | accepted id =>
      by_cases haccepted : order.accepted = true
      · rw [Order.after, if_pos haccepted, Order.written, Order.acknowledged, if_pos haccepted]
        exact h.keep hk ho
      · have hmarked : order.marked.unlessCompleted = some order.marked := if_neg hopen
        rw [Order.after, if_neg haccepted, Order.written, Order.acknowledged, if_neg haccepted,
          ← hmarked]
        refine h.report hk ho order.marked ⟨rfl, rfl⟩ le_rfl (add_zero _).symm hwithin 0
          fun hnone => ?_
        rw [hmarked] at hnone
        cases hnone
    | traded rsp =>
      obtain ⟨haccepted, hpos⟩ := of_decide_eq_true hemits
      rw [Order.after, Order.written, Order.acknowledged, if_pos haccepted, List.nil_append]
      exact h.report hk ho (order.traded rsp.volume) ⟨rfl, rfl⟩ hpos.le rfl hunderstands rsp.price
        fun _ => h.knows hk ho haccepted
    | rejected id reason => exact absurd hunderstands not_false
    | canceled id volume =>
      refine h.report hk ho (order.canceled volume) ⟨rfl, rfl⟩ le_rfl (add_zero _).symm hwithin 0
        fun hnone => ?_
      apply hunderstands
      by_contra hne
      have hstay : (order.canceled volume).unlessCompleted = some (order.canceled volume) :=
        if_neg hne
      rw [hstay] at hnone
      cases hnone
    | cancelRejected id reason => exact h.keep hk ho

theorem Balanced.start {ct : ContractTable} {orderSender : OrderSender} {tickerId : ℕ}
    {e : TargetPosEngine} (he : TargetPosEngine.create ct orderSender tickerId = some e)
    (getPosition : String → Position) : Balanced { engine := e.init getPosition } := by
  obtain ⟨contract, -, rfl⟩ := Option.map_eq_some_iff.mp he
  refine ⟨⟨⟨fun k o ho => ?_, fun k o ho => ?_⟩, fun k k' o o' ho => ?_, fun k o ho => ?_⟩,
    fun d hd => ?_, fun d hd => ?_⟩
  · cases ho
  · cases ho
  · cases ho
  · cases ho
  · rcases hd with rfl | rfl <;> rfl
  · change (0 : ℤ) < 2 ^ 31
    decide

theorem pending_is_outstanding (ct : ContractTable) (orderSender : OrderSender) (tickerId : ℕ)
    (e : TargetPosEngine) (he : TargetPosEngine.create ct orderSender tickerId = some e)
    (getPosition : String → Position) (desk : Desk)
    (h : Execution.Reaches (step ct) Told { engine := e.init getPosition } desk) :
    desk.engine.longPending = desk.unfilled .kBuy ∧
      desk.engine.shortPending = desk.unfilled .kSell ∧
      (desk.orders = .empty → desk.engine.longPending = 0 ∧ desk.engine.shortPending = 0) := by
  have hbalanced := h.invariant Balanced (fun _ _ _ hb ht hs => hb.preserved ht hs)
    (.start he getPosition)
  have hlong : desk.engine.longPending = desk.unfilled .kBuy :=
    hbalanced.pending .kBuy (Or.inl rfl)
  have hshort : desk.engine.shortPending = desk.unfilled .kSell :=
    hbalanced.pending .kSell (Or.inr rfl)
  refine ⟨hlong, hshort, fun hempty => ?_⟩
  rw [hlong, hshort, Desk.unfilled, Desk.unfilled, weigh, weigh, hempty]
  exact ⟨rfl, rfl⟩

def boughtDesk : Desk :=
  { openDesk with engine := openDesk.engine.setTargetPos 5 }.onTick (quoteTick 100 99)

theorem pending_is_outstanding_bought :
    boughtDesk.engine.longPending = boughtDesk.unfilled .kBuy ∧
      boughtDesk.engine.shortPending = boughtDesk.unfilled .kSell ∧
      (boughtDesk.orders = .empty →
        boughtDesk.engine.longPending = 0 ∧ boughtDesk.engine.shortPending = 0) := by
  have hset : Execution.Reaches (step (.ofList [ticker001])) Told openDesk
      { openDesk with engine := openDesk.engine.setTargetPos 5 } :=
    (Execution.Reaches.refl openDesk).tail (.setTargetPos 5) trivial rfl
  have hbought : Execution.Reaches (step (.ofList [ticker001])) Told openDesk boughtDesk := by
    refine hset.tail (.tick (quoteTick 100 99)) ?_ rfl
    rintro direction gap ⟨-, ⟨rfl, -, -, -, rfl⟩ | ⟨-, hneg, -⟩⟩
    · exact ⟨by decide +kernel, by decide +kernel, by decide, rfl, fun _ _ => rfl⟩
    · exact absurd hneg (by decide +kernel)
  exact pending_is_outstanding (.ofList [ticker001]) { strategyId := "strategy" } 1 openDesk.engine
    rfl (fun _ => {}) boughtDesk hbought

def rejectedFive : List DeskEvent :=
  [.setTargetPos 5, .tick (quoteTick 100 99), .taken 0 0 1, .reported 0 (.rejected 1 "")]

/-- A rejected order stays in the pending counter for good. -/
theorem rejected_stays_pending : ∃ desk,
    Execution.run (step (.ofList [ticker001])) openDesk rejectedFive = some desk ∧
      desk.orders.entries.length = 0 ∧ desk.engine.longPending = 5 := by
  have h : (Execution.run (step (.ofList [ticker001])) openDesk rejectedFive).map
      (fun desk => (desk.orders.entries.length, desk.engine.longPending)) = some (0, 5) := by
    decide +kernel
  obtain ⟨desk, hrun, hdesk⟩ := Option.map_eq_some_iff.mp h
  exact ⟨desk, hrun, congrArg Prod.fst hdesk, congrArg Prod.snd hdesk⟩

end Desk

end FlareTrader
