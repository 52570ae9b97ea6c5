import FlareTrader.TargetPosOrders
import FlareTrader.TargetPosTicks

/-! The cancels at the start of `OnTick`. They are meant for orders whose limit
price has fallen behind the quote, but what they look at is the price that
`SendOrder` wrote down. An engine is followed here together with the requests it
has sent, so that the two prices can be compared when the next quote comes. -/

namespace FlareTrader

structure Submission where
  orderReq : TraderOrderReq
  ask : ℚ
  bid : ℚ
  priceLimit : ℚ
  deriving DecidableEq

def Submission.limit (s : Submission) : ℚ :=
  if s.orderReq.direction = .kBuy then Binary64.round (s.ask + s.priceLimit)
  else Binary64.round (s.bid - s.priceLimit)

/-- The entry of the engine's map was made as this request was sent. -/
structure Submission.Explains (s : Submission) (order : PendingOrder) : Prop where
  direction : order.direction = s.orderReq.direction
  price : order.price = s.ask
  limit : s.orderReq.price = s.limit

namespace TargetPosEngine

def note (e : TargetPosEngine) (submitted : ℕ → Option Submission) (cmd : TraderCommand) :
    ℕ → Option Submission :=
  match cmd.cmd with
  | .kNewOrder orderReq =>
    if e.orders.contains orderReq.clientOrderId then submitted
    else Function.update submitted orderReq.clientOrderId
      (some { orderReq, ask := e.ask, bid := e.bid, priceLimit := e.priceLimit })
  | _ => submitted

def Explained (e : TargetPosEngine) (submitted : ℕ → Option Submission) : Prop :=
  ∀ id order, e.orders.find? id = some order → ∃ s, submitted id = some s ∧ s.Explains order

def Passed (e : TargetPosEngine) (direction : Direction) (price : ℚ) : Prop :=
  (direction = .kBuy ∧ price < e.ask) ∨ (direction = .kSell ∧ e.bid < price)

theorem crossed_iff {e : TargetPosEngine} {order : PendingOrder} :
    e.crossed order ↔ order.orderId ≠ 0 ∧ e.Passed order.direction order.price := by
  simp only [crossed, Passed, decide_eq_true_eq]
  tauto

theorem mem_cancelCrossed {e : TargetPosEngine} {orderId : ℕ} :
    OrderSender.cancelOrder orderId ∈ e.cancelCrossed ↔
      ∃ id order, e.orders.find? id = some order ∧ e.crossed order ∧
        order.orderId % 2 ^ 32 = orderId := by
  have hinj : ∀ {a b : ℕ}, OrderSender.cancelOrder a = OrderSender.cancelOrder b ↔ a = b := by
    intro a b
    simp [OrderSender.cancelOrder]
  rw [cancelCrossed, List.mem_map]
  constructor
  · rintro ⟨order, hmem, heq⟩
    obtain ⟨hvalue, hcrossed⟩ := List.mem_filter.mp hmem
    obtain ⟨⟨id, order⟩, hentry, rfl⟩ := List.mem_map.mp hvalue
    exact ⟨id, order, SortedMap.find?_eq_some.mpr hentry, hcrossed, hinj.mp heq⟩
  · rintro ⟨id, order, hf, hcrossed, hid⟩
    have hvalue : order ∈ e.orders.values :=
      List.mem_map.mpr ⟨(id, order), SortedMap.find?_eq_some.mp hf, rfl⟩
    exact ⟨order, List.mem_filter.mpr ⟨hvalue, hcrossed⟩, hinj.mpr hid⟩

theorem note_cancels (e : TargetPosEngine) (submitted : ℕ → Option Submission)
    {cmds : List TraderCommand}
    (h : ∀ cmd ∈ cmds, ∃ orderId, cmd = AlgoOrderEngine.cancelOrder orderId) :
    cmds.foldl e.note submitted = submitted := by
  induction cmds with
  | nil => rfl
  | cons cmd cmds ih =>
    obtain ⟨orderId, rfl⟩ := h cmd List.mem_cons_self
    exact ih fun c hc => h c (List.mem_cons_of_mem _ hc)

section Send

variable {e e₀ : TargetPosEngine} {submitted : ℕ → Option Submission} {direction : Direction}
  {offset : Offset} {volume : ℤ} {price : ℚ}

theorem Explained.send (h : e.Explained submitted) (hask : e.ask = e₀.ask)
    (hprice : price = if direction = .kBuy then Binary64.round (e₀.ask + e₀.priceLimit)
      else Binary64.round (e₀.bid - e₀.priceLimit))
    (hid : e₀.orders.find? e.clientOrderId = e.orders.find? e.clientOrderId) :
    (e.sendOrder direction offset volume price).2.Explained
      ((e.sendOrder direction offset volume price).1.foldl e₀.note submitted) := by
  have hsame : e₀.orders.contains e.clientOrderId = e.orders.contains e.clientOrderId :=
    congrArg Option.isSome hid
  intro id order horder
  change (e.orders.emplace e.clientOrderId _).find? id = some order at horder
  change ∃ s, (if e₀.orders.contains e.clientOrderId then submitted else _) id = some s ∧ _
  rw [hsame]
  by_cases htaken : e.orders.contains e.clientOrderId = true
  · rw [SortedMap.emplace, if_pos htaken] at horder
    rw [if_pos htaken]
    exact h id order horder
  · rw [if_neg htaken]
    rw [SortedMap.emplace, if_neg htaken, SortedMap.find?_insert] at horder
    by_cases heq : id = e.clientOrderId
    · rw [if_pos heq] at horder
      cases horder
      rw [heq]
      exact ⟨_, Function.update_self _ _ _, rfl, hask, hprice⟩
    · rw [if_neg heq] at horder
      obtain ⟨s, hs, hexplains⟩ := h id order horder
      exact ⟨s, (Function.update_of_ne heq _ _).trans hs, hexplains⟩

theorem Explained.sendIf (h : e.Explained submitted) (hask : e.ask = e₀.ask)
    (hprice : price = if direction = .kBuy then Binary64.round (e₀.ask + e₀.priceLimit)
      else Binary64.round (e₀.bid - e₀.priceLimit))
    (hid : e₀.orders.find? e.clientOrderId = e.orders.find? e.clientOrderId) :
    let r := if 0 < volume then e.sendOrder direction offset volume price else ([], e)
    r.2.Explained (r.1.foldl e₀.note submitted) := by
  by_cases hvolume : 0 < volume
  · simp only [if_pos hvolume]
    exact h.send hask hprice hid
  · simp only [if_neg hvolume]
    exact h

theorem Explained.place (h : e.Explained submitted)
    (hprice : price = if direction = .kBuy then Binary64.round (e.ask + e.priceLimit)
      else Binary64.round (e.bid - e.priceLimit))
    (gap : ℤ) :
    (e.place direction price gap).2.Explained
      ((e.place direction price gap).1.foldl e.note submitted) := by
  have hraised : ∀ raised, (e.addPending direction raised).orders = e.orders ∧
      (e.addPending direction raised).ask = e.ask := by
    intro raised
    obtain ⟨longPending, shortPending, hadd⟩ := e.addPending_frame direction raised
    rw [hadd]
    exact ⟨rfl, rfl⟩
  obtain ⟨horders, hask⟩ := hraised (e.counted direction gap)
  simp only [TargetPosEngine.place]
  generalize e.closeVol direction gap = closeVol
  generalize e.openVol direction gap = openVol
  generalize e.addPending direction (e.counted direction gap) = r at horders hask
  have hr : r.Explained submitted := fun id order => horders ▸ h id order
  rw [List.foldl_append]
  by_cases hclose : 0 < closeVol
  · have hclosed : (r.sendOrder direction .kCloseToday closeVol price).2.Explained
        ((r.sendOrder direction .kCloseToday closeVol price).1.foldl e.note submitted) :=
      hr.send hask hprice (by rw [horders])
    simp only [if_pos hclose]
    apply hclosed.sendIf hask hprice
    have hnext : (r.clientOrderId + 1) % 2 ^ 32 ≠ r.clientOrderId := by omega
    change e.orders.find? ((r.clientOrderId + 1) % 2 ^ 32) =
      (r.orders.emplace r.clientOrderId _).find? ((r.clientOrderId + 1) % 2 ^ 32)
    rw [SortedMap.find?_emplace_of_ne r.orders hnext, horders]
  · simp only [if_neg hclose]
    exact hr.sendIf hask hprice (by rw [horders])

theorem Explained.adjust (h : e.Explained submitted)
    (hprice : price = if direction = .kBuy then Binary64.round (e.ask + e.priceLimit)
      else Binary64.round (e.bid - e.priceLimit))
    (gap : ℤ) :
    (e.adjust direction price gap).2.Explained
      ((e.adjust direction price gap).1.foldl e.note submitted) := by
  have hcancels := e.note_cancels submitted (makeRoom_cancels direction gap e)
  by_cases hroom : 0 < (e.makeRoom direction gap).2
  · rw [adjust_of_room hroom, List.foldl_append, hcancels]
    exact h.place hprice _
  · rw [adjust_of_no_room hroom, hcancels]
    exact h

theorem Explained.pursue (h : e.Explained submitted) :
    e.pursue.2.Explained (e.pursue.1.foldl e.note submitted) := by
  unfold TargetPosEngine.pursue
  split_ifs
  · exact h
  · exact h
  · exact h.adjust rfl _
  · exact h
  · exact h.adjust rfl _
  · exact h

theorem Explained.onTick (h : e.Explained submitted) (tick : TickData) :
    (e.onTick tick).2.Explained ((e.onTick tick).1.foldl (e.quoted tick).note submitted) := by
  have hquoted : (e.quoted tick).Explained submitted := h
  simp only [TargetPosEngine.onTick]
  rw [List.foldl_append, note_cancels _ _ (cancelCrossed_cancels _)]
  exact hquoted.pursue

theorem onOrder_find? {order : OrderResponse} {id : ℕ} {p : PendingOrder}
    (h : (e.onOrder order).orders.find? id = some p) :
    ∃ p', e.orders.find? id = some p' ∧ p.direction = p'.direction ∧ p.price = p'.price := by
  have hkept : e.orders.find? id = some p → ∃ p', e.orders.find? id = some p' ∧
      p.direction = p'.direction ∧ p.price = p'.price := fun hp => ⟨p, hp, rfl, rfl⟩
  have herased : ∀ direction volume,
      (e.completeOrder order.clientOrderId direction volume).orders.find? id = some p →
      e.orders.find? id = some p := by
    intro direction volume hp
    rw [orders_completeOrder, SortedMap.find?_erase] at hp
    split_ifs at hp
    exact hp
  by_cases ht : order.tickerId ≠ e.tickerId
  · rw [TargetPosEngine.onOrder, if_pos ht] at h
    exact hkept h
  · rw [TargetPosEngine.onOrder, if_neg ht] at h
    cases hf : e.orders.find? order.clientOrderId with
    | none =>
      rw [hf] at h
      exact hkept h
    | some pendingOrder =>
      simp only [hf] at h
      split_ifs at h
      · exact hkept (herased _ _ h)
      · exact hkept (herased _ _ h)
      · exact hkept h
      · rw [SortedMap.find?_insert] at h
        split_ifs at h with heq
        · cases h
          exact ⟨pendingOrder, heq ▸ hf, rfl, rfl⟩
        · exact hkept h

theorem Explained.onOrderResponse (h : e.Explained submitted) (rsp : OrderResponse) :
    (e.onOrderResponse rsp).Explained submitted := by
  intro id p hp
  rw [orders_onOrderResponse] at hp
  obtain ⟨p', hp', hdirection, hprice⟩ := onOrder_find? hp
  obtain ⟨s, hs, hexplains⟩ := h id p' hp'
  exact ⟨s, hs, hdirection.trans hexplains.direction, hprice.trans hexplains.price, hexplains.limit⟩

end Send

def facing (e : TargetPosEngine) : EngineEvent → TargetPosEngine
  | .tick tick => e.quoted tick
  | _ => e

end TargetPosEngine

structure WatchedEngine where
  engine : TargetPosEngine
  submitted : ℕ → Option Submission := fun _ => none

namespace WatchedEngine

def step (w : WatchedEngine) (event : EngineEvent) : WatchedEngine where
  engine := (w.engine.step event).2
  submitted := (w.engine.step event).1.foldl (w.engine.facing event).note w.submitted

def run (w : WatchedEngine) (events : List EngineEvent) : WatchedEngine := events.foldl step w

def Explained (w : WatchedEngine) : Prop := w.engine.Explained w.submitted

theorem Explained.step {w : WatchedEngine} (h : w.Explained) (event : EngineEvent) :
    (w.step event).Explained := by
  cases event with
  | setTargetPos volume => exact h
  | setPriceLimit contract priceLimit => exact h
  | tick tick => exact h.onTick tick
  | response rsp => exact h.onOrderResponse rsp

theorem Explained.run {w : WatchedEngine} (h : w.Explained) (events : List EngineEvent) :
    (w.run events).Explained := by
  induction events generalizing w with
  | nil => exact h
  | cons event events ih => exact ih (h.step event)

structure Accepted (w : WatchedEngine) (id : ℕ) (order : PendingOrder) (s : Submission) : Prop where
  entry : w.engine.orders.find? id = some order
  orderId : order.orderId ≠ 0
  submitted : w.submitted id = some s

/-- The loop at the start of `OnTick` cancels the orders whose limit price has
fallen behind the quote, and no others. -/
def Refreshes (w : WatchedEngine) (tick : TickData) : Prop :=
  ∀ id order s, w.Accepted id order s →
    (OrderSender.cancelOrder order.orderId ∈ (w.engine.quoted tick).cancelCrossed ↔
      (w.engine.quoted tick).Passed s.orderReq.direction s.orderReq.price)

/-- An order's limit price has been passed just if the ask price has been at which an order was
sent whose id comes to that of the order in 32 bits. -/
def MarkedAlike (w : WatchedEngine) (tick : TickData) : Prop :=
  ∀ id order s, w.Accepted id order s →
    ((w.engine.quoted tick).Passed s.orderReq.direction s.limit ↔
      ∃ id' order' s', w.Accepted id' order' s' ∧ order'.orderId % 2 ^ 32 = order.orderId ∧
        (w.engine.quoted tick).Passed s'.orderReq.direction s'.ask)

structure Identified (w : WatchedEngine) : Prop where
  fits : ∀ id order s, w.Accepted id order s → order.orderId < 2 ^ 32
  distinct : ∀ id order s id' order' s', w.Accepted id order s → w.Accepted id' order' s' →
    order.orderId = order'.orderId → id = id'

structure Unparted (w : WatchedEngine) (tick : TickData) : Prop where
  buy : ∀ id order s, w.Accepted id order s → s.orderReq.direction = .kBuy →
    (w.engine.quoted tick).ask ∉ Set.uIoc s.ask s.limit
  sell : ∀ id order s, w.Accepted id order s → s.orderReq.direction = .kSell →
    (w.engine.quoted tick).bid ∉ Set.Ico (min s.ask s.limit) (max s.ask s.limit)

section Compared

variable {w : WatchedEngine} {tick : TickData} {id : ℕ} {order : PendingOrder} {s : Submission}

theorem Explained.explains (h : w.Explained) (ha : w.Accepted id order s) : s.Explains order := by
  obtain ⟨s', hs', hexplains⟩ := h id order ha.entry
  cases ha.submitted.symm.trans hs'
  exact hexplains

theorem Explained.mem_cancelCrossed (h : w.Explained) {orderId : ℕ} :
    OrderSender.cancelOrder orderId ∈ (w.engine.quoted tick).cancelCrossed ↔
      ∃ id order s, w.Accepted id order s ∧ order.orderId % 2 ^ 32 = orderId ∧
        (w.engine.quoted tick).Passed s.orderReq.direction s.ask := by
  rw [TargetPosEngine.mem_cancelCrossed]
  constructor
  · rintro ⟨id, order, hentry, hcrossed, hid⟩
    obtain ⟨hne, hpassed⟩ := TargetPosEngine.crossed_iff.mp hcrossed
    obtain ⟨s, hs, he⟩ := h id order hentry
    rw [he.direction, he.price] at hpassed
    exact ⟨id, order, s, ⟨hentry, hne, hs⟩, hid, hpassed⟩
  · rintro ⟨id, order, s, ha, hid, hpassed⟩
    have he := h.explains ha
    rw [← he.direction, ← he.price] at hpassed
    exact ⟨id, order, ha.entry, TargetPosEngine.crossed_iff.mpr ⟨ha.orderId, hpassed⟩, hid⟩

theorem Explained.refreshes_iff (h : w.Explained) (tick : TickData) :
    w.Refreshes tick ↔ w.MarkedAlike tick := by
  refine forall₄_congr fun id order s ha => ?_
  rw [h.mem_cancelCrossed, (h.explains ha).limit]
  exact Iff.comm

theorem Identified.marked_iff (hid : w.Identified) (ha : w.Accepted id order s) :
    (∃ id' order' s', w.Accepted id' order' s' ∧ order'.orderId % 2 ^ 32 = order.orderId ∧
        (w.engine.quoted tick).Passed s'.orderReq.direction s'.ask) ↔
      (w.engine.quoted tick).Passed s.orderReq.direction s.ask := by
  constructor
  · rintro ⟨id', order', s', ha', heq, hpassed⟩
    rw [Nat.mod_eq_of_lt (hid.fits id' order' s' ha')] at heq
    obtain rfl := hid.distinct _ _ _ _ _ _ ha' ha heq
    cases ha'.submitted.symm.trans ha.submitted
    exact hpassed
  · intro hpassed
    exact ⟨id, order, s, ha, Nat.mod_eq_of_lt (hid.fits id order s ha), hpassed⟩

theorem lt_iff_lt_iff_notMem_uIoc {a b c : ℚ} : (b < c ↔ a < c) ↔ c ∉ Set.uIoc a b := by
  rw [Set.notMem_uIoc]
  constructor
  · intro h
    rcases lt_or_ge a c with hac | hca
    · exact Or.inr ⟨h.mpr hac, hac⟩
    · exact Or.inl ⟨hca, not_lt.mp fun hbc => absurd (h.mp hbc) hca.not_gt⟩
  · rintro (⟨hca, hcb⟩ | ⟨hbc, hac⟩)
    · exact iff_of_false hcb.not_gt hca.not_gt
    · exact iff_of_true hbc hac

theorem gt_iff_gt_iff_notMem_Ico {a b c : ℚ} :
    (c < b ↔ c < a) ↔ c ∉ Set.Ico (min a b) (max a b) := by
  rw [Set.mem_Ico, min_le_iff, lt_max_iff]
  constructor
  · rintro h ⟨hle, hlt⟩
    have hboth : c < a ∧ c < b := hlt.elim (fun hca => ⟨hca, h.mpr hca⟩) fun hcb => ⟨h.mp hcb, hcb⟩
    exact hle.elim (fun hac => hac.not_gt hboth.1) fun hbc => hbc.not_gt hboth.2
  · intro h
    constructor
    · intro hcb
      exact not_le.mp fun hac => h ⟨Or.inl hac, Or.inr hcb⟩
    · intro hca
      exact not_le.mp fun hbc => h ⟨Or.inr hbc, Or.inl hca⟩

end Compared

theorem Identified.markedAlike_iff {w : WatchedEngine} (hid : w.Identified) (tick : TickData) :
    w.MarkedAlike tick ↔ w.Unparted tick := by
  have halike : w.MarkedAlike tick ↔ ∀ id order s, w.Accepted id order s →
      ((w.engine.quoted tick).Passed s.orderReq.direction s.limit ↔
        (w.engine.quoted tick).Passed s.orderReq.direction s.ask) :=
    forall₄_congr fun id order s ha => by rw [hid.marked_iff ha]
  rw [halike]
  constructor
  · intro h
    refine ⟨fun id order s ha hs => ?_, fun id order s ha hs => ?_⟩
    · have hsame := h id order s ha
      simp only [TargetPosEngine.Passed, hs, true_and, reduceCtorEq, false_and, or_false] at hsame
      exact lt_iff_lt_iff_notMem_uIoc.mp hsame
    · have hsame := h id order s ha
      simp only [TargetPosEngine.Passed, hs, true_and, reduceCtorEq, false_and, false_or] at hsame
      exact gt_iff_gt_iff_notMem_Ico.mp hsame
  · rintro ⟨hbuy, hsell⟩ id order s ha
    cases hs : s.orderReq.direction with
    | kBuy =>
      simp only [TargetPosEngine.Passed, true_and, reduceCtorEq, false_and, or_false]
      exact lt_iff_lt_iff_notMem_uIoc.mpr (hbuy id order s ha hs)
    | kSell =>
      simp only [TargetPosEngine.Passed, true_and, reduceCtorEq, false_and, false_or]
      exact gt_iff_gt_iff_notMem_Ico.mpr (hsell id order s ha hs)
    | kUnknown => simp only [TargetPosEngine.Passed, reduceCtorEq, false_and, or_self]

/-- Along every run of a new engine in which 32 bits tell the order ids apart, the orders that
have fallen behind a quote are the ones cancelled exactly if the quote parts no order's limit
price from the ask price of the time it was sent. -/
theorem cancels_behind_quote_iff (e : TargetPosEngine) (hnew : e.orders = .empty)
    (events : List EngineEvent) (tick : TickData) :
    ((run { engine := e } events).Refreshes tick ↔
        (run { engine := e } events).MarkedAlike tick) ∧
      ((run { engine := e } events).Identified →
        ((run { engine := e } events).Refreshes tick ↔
          (run { engine := e } events).Unparted tick)) := by
  have hstart : Explained { engine := e } := by
    intro id order horder
    rw [hnew] at horder
    cases horder
  have hiff := (hstart.run events).refreshes_iff tick
  exact ⟨hiff, fun hid => hiff.trans (hid.markedAlike_iff tick)⟩

def acceptance (direction : Direction) : OrderResponse where
  clientOrderId := 100100000
  orderId := 7
  tickerId := 1
  direction := direction
  offset := .kOpen
  price := 100
  originalVolume := 5
  tradedVolume := 0
  completed := false
  errorCode := .kNoError
  thisTraded := 0
  thisTradedPrice := 0

def acceptedFive (direction : Direction) (volume : ℤ) : WatchedEngine :=
  run { engine := TargetPosEngine.flatEngine } [.setTargetPos volume,
    .tick (Desk.quoteTick 101 100), .response (acceptance direction)]

def submittedFive (direction : Direction) (price : ℚ) : Submission where
  orderReq :=
    { clientOrderId := 100100000, tickerId := 1, direction, offset := .kOpen, type := .kLimit
      volume := 5, price }
  ask := 101
  bid := 100
  priceLimit := 0

theorem Accepted.eq_submittedFive {id : ℕ} {order : PendingOrder} {s : Submission}
    (h : (acceptedFive .kBuy 5).Accepted id order s) :
    id = 100100000 ∧ order.orderId = 7 ∧ s = submittedFive .kBuy 101 := by
  have hentries : (acceptedFive .kBuy 5).engine.orders.entries =
      [(100100000, ⟨7, .kBuy, .kOpen, 101, 5⟩)] := by decide +kernel
  have hsubmitted : (acceptedFive .kBuy 5).submitted 100100000 =
      some (submittedFive .kBuy 101) := by decide +kernel
  have hmem := SortedMap.find?_eq_some.mp h.entry
  rw [hentries, List.mem_singleton] at hmem
  cases hmem
  exact ⟨rfl, rfl, Option.some_inj.mp (h.submitted.symm.trans hsubmitted)⟩

theorem identified_acceptedFive : (acceptedFive .kBuy 5).Identified where
  fits _ _ _ ha := by
    rw [ha.eq_submittedFive.2.1]
    decide
  distinct _ _ _ _ _ _ ha ha' _ := ha.eq_submittedFive.1.trans ha'.eq_submittedFive.1.symm

theorem cancels_behind_quote_buy :
    (acceptedFive .kBuy 5).Refreshes (Desk.quoteTick 102 101) := by
  apply ((cancels_behind_quote_iff TargetPosEngine.flatEngine rfl _ _).2
    identified_acceptedFive).mpr
  constructor
  · intro id order s ha _
    have hlimit : s.limit = s.ask := by
      rw [ha.eq_submittedFive.2.2]
      decide +kernel
    rw [hlimit]
    exact lt_iff_lt_iff_notMem_uIoc.mp Iff.rfl
  · intro id order s ha hsell
    rw [ha.eq_submittedFive.2.2] at hsell
    cases hsell

/-- A sale at the bid is cancelled by the next tick although nothing has moved. -/
theorem standing_sell_is_cancelled :
    ¬ (acceptedFive .kSell (-5)).Refreshes (Desk.quoteTick 101 100) := by
  intro h
  have hsell := h 100100000 ⟨7, .kSell, .kOpen, 101, 5⟩ (submittedFive .kSell 100)
    ⟨by decide +kernel, by decide, by decide +kernel⟩
  have hcancelled := hsell.mp (TargetPosEngine.mem_cancelCrossed.mpr
    ⟨100100000, ⟨7, .kSell, .kOpen, 101, 5⟩, by decide +kernel, by decide +kernel, rfl⟩)
  rcases hcancelled with ⟨hbuy, -⟩ | ⟨-, hbehind⟩
  · cases hbuy
  · exact absurd hbehind (by decide +kernel)

end WatchedEngine

end FlareTrader
