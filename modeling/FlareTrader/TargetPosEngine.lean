import FlareTrader.Binary64
import FlareTrader.MachineInt
import FlareTrader.Oms

/-! The target position engine of a strategy. On a tick it cancels orders that
have fallen behind the quote and sends orders for the gap to the target; the
responses of the order management system move its position and pending
counters. What it writes are the commands of its order sender. -/

open MachineInt (int32 int32_eq int32_int32_sub int32_add_ne le_int32 int32_lt)

namespace FlareTrader

/-- The numbering of the error codes: up to `kSendFailed` the order has not left. -/
def ErrorCode.code : ErrorCode → ℕ
  | .kNoError => 0
  | .kSelfTrade => 1
  | .kPositionNotEnough => 2
  | .kFundNotEnough => 3
  | .kExceedThrottleRateRisk => 4
  | .kSendFailed => 5
  | .kRejected => 6

structure OrderSender where
  strategyId : String
  flags : OrderFlag := .kNone

namespace OrderSender

def sendOrder (sender : OrderSender) (tickerId : ℕ) (volume : ℤ) (direction : Direction)
    (offset : Offset) (type : OrderType) (price : ℚ) (clientOrderId : ℕ) : TraderCommand where
  cmd := .kNewOrder
    { clientOrderId, tickerId, direction, offset, type, volume, price, flags := sender.flags }
  strategyId := sender.strategyId

def cancelOrder (orderId : ℕ) : TraderCommand where
  cmd := .kCancelOrder orderId
  strategyId := ""

end OrderSender

/-- The order id passes through 32 bits. -/
def AlgoOrderEngine.cancelOrder (orderId : ℕ) : TraderCommand :=
  OrderSender.cancelOrder (orderId % 2 ^ 32)

structure PendingOrder where
  orderId : ℕ
  direction : Direction
  offset : Offset
  price : ℚ
  volume : ℤ
  deriving DecidableEq, Repr

structure TargetPosEngine where
  orderSender : OrderSender
  tickerId : ℕ
  ticker : String
  clientOrderId : ℕ
  targetPos : ℤ := 0
  longPos : ℤ := 0
  shortPos : ℤ := 0
  longPending : ℤ := 0
  shortPending : ℤ := 0
  priceLimit : ℚ := 0
  bid : ℚ := 0
  ask : ℚ := 0
  orders : SortedMap ℕ PendingOrder (· < ·) := .empty

namespace TargetPosEngine

/-- The constructor throws for an unknown ticker. -/
def create (ct : ContractTable) (orderSender : OrderSender) (tickerId : ℕ) :
    Option TargetPosEngine :=
  (ct.getByIndex tickerId).map fun contract =>
    { orderSender, tickerId
      ticker := contract.ticker
      clientOrderId := (100000000 + tickerId * 100000) % 2 ^ 32 }

def init (getPosition : String → Position) (e : TargetPosEngine) : TargetPosEngine :=
  let current := getPosition e.ticker
  { e with
    longPos := current.longPos.holdings
    shortPos := current.shortPos.holdings
    targetPos := int32 (current.longPos.holdings - current.shortPos.holdings) }

def setPriceLimit (contract : Contract) (priceLimit : ℚ) (e : TargetPosEngine) : TargetPosEngine :=
  let priceTickNum := ⌊Binary64.round (priceLimit / contract.priceTick)⌋
  { e with priceLimit := Binary64.round (priceTickNum * contract.priceTick) }

def setTargetPos (volume : ℤ) (e : TargetPosEngine) : TargetPosEngine := { e with targetPos := volume }

def held (e : TargetPosEngine) (direction : Direction) : ℤ :=
  if direction = .kBuy then e.longPos else e.shortPos

def pending (e : TargetPosEngine) (direction : Direction) : ℤ :=
  if direction = .kBuy then e.longPending else e.shortPending

def addPending (direction : Direction) (volume : ℤ) (e : TargetPosEngine) : TargetPosEngine :=
  if direction = .kBuy then { e with longPending := int32 (e.longPending + volume) }
  else { e with shortPending := int32 (e.shortPending + volume) }

def quoted (tick : TickData) (e : TargetPosEngine) : TargetPosEngine :=
  { e with
    ask := if 0 < tick.ask firstLevel then tick.ask firstLevel else e.ask
    bid := if 0 < tick.bid firstLevel then tick.bid firstLevel else e.bid }

def crossed (e : TargetPosEngine) (order : PendingOrder) : Bool :=
  (order.direction = .kBuy ∧ order.orderId ≠ 0 ∧ order.price < e.ask) ∨
    (order.direction = .kSell ∧ order.orderId ≠ 0 ∧ e.bid < order.price)

def cancelCrossed (e : TargetPosEngine) : List TraderCommand :=
  (e.orders.values.filter e.crossed).map fun order => AlgoOrderEngine.cancelOrder order.orderId

def gap (e : TargetPosEngine) : ℤ :=
  int32 (e.targetPos - (e.longPos + e.longPending - e.shortPos - e.shortPending))

/-- The size of a gap after an order of the direction is cancelled. The source counts a gap to
be sold, which buys are cancelled for, as a negative number. -/
def narrowed (direction : Direction) (gap volume : ℤ) : ℤ :=
  if direction = .kBuy then -int32 (volume - gap) else int32 (gap - volume)

/-- Orders of the direction are cancelled, if their ids are known, until they make
up for the gap. -/
def withdraw (direction : Direction) : List PendingOrder → ℤ → List TraderCommand × ℤ
  | [], gap => ([], gap)
  | order :: orders, gap =>
    if order.direction = direction ∧ order.orderId ≠ 0 then
      let gap := narrowed direction gap order.volume
      if gap ≤ 0 then ([AlgoOrderEngine.cancelOrder order.orderId], gap)
      else
        let r := withdraw direction orders gap
        (AlgoOrderEngine.cancelOrder order.orderId :: r.1, r.2)
    else withdraw direction orders gap

def makeRoom (direction : Direction) (gap : ℤ) (e : TargetPosEngine) : List TraderCommand × ℤ :=
  if 0 < e.pending (oppositeDirection direction) then
    withdraw (oppositeDirection direction) e.orders.values gap
  else ([], gap)

def closable (direction : Direction) (e : TargetPosEngine) : ℤ :=
  int32 (e.held (oppositeDirection direction) - e.pending (oppositeDirection direction))

def closeVol (direction : Direction) (gap : ℤ) (e : TargetPosEngine) : ℤ :=
  min (e.closable direction) gap

def openVol (direction : Direction) (gap : ℤ) (e : TargetPosEngine) : ℤ :=
  max (int32 (gap - e.closeVol direction gap)) 0

def counted (direction : Direction) (gap : ℤ) (e : TargetPosEngine) : ℤ :=
  int32 (e.closeVol direction gap + e.openVol direction gap)

def sendOrder (direction : Direction) (offset : Offset) (volume : ℤ) (price : ℚ)
    (e : TargetPosEngine) : List TraderCommand × TargetPosEngine :=
  ([e.orderSender.sendOrder e.tickerId volume direction offset .kLimit price e.clientOrderId],
    { e with
      orders := e.orders.emplace e.clientOrderId ⟨0, direction, offset, e.ask, volume⟩
      clientOrderId := (e.clientOrderId + 1) % 2 ^ 32 })

def place (direction : Direction) (price : ℚ) (gap : ℤ) (e : TargetPosEngine) :
    List TraderCommand × TargetPosEngine :=
  let closeVol := e.closeVol direction gap
  let openVol := e.openVol direction gap
  let e := e.addPending direction (e.counted direction gap)
  let closing := if 0 < closeVol then e.sendOrder direction .kCloseToday closeVol price else ([], e)
  let opening := if 0 < openVol then closing.2.sendOrder direction .kOpen openVol price
    else ([], closing.2)
  (closing.1 ++ opening.1, opening.2)

/-- The branches for a positive and for a negative gap; `gap` is its size, which an `int` may not
hold if the gap is negative. -/
def adjust (direction : Direction) (price : ℚ) (gap : ℤ) (e : TargetPosEngine) :
    List TraderCommand × TargetPosEngine :=
  let room := e.makeRoom direction gap
  if 0 < room.2 then
    let placed := e.place direction price (int32 room.2)
    (room.1 ++ placed.1, placed.2)
  else (room.1, e)

def pursue (e : TargetPosEngine) : List TraderCommand × TargetPosEngine :=
  if int32 (e.longPos - e.shortPos) = e.targetPos then ([], e)
  else if 0 < e.gap then
    if e.ask < 1 / 1000000 then ([], e)
    else e.adjust .kBuy (Binary64.round (e.ask + e.priceLimit)) e.gap
  else if e.gap < 0 then
    if e.bid < 1 / 1000000 then ([], e)
    else e.adjust .kSell (Binary64.round (e.bid - e.priceLimit)) (-e.gap)
  else ([], e)

/-- The tick is taken for one of the engine's ticker, whatever its own ticker is. -/
def onTick (tick : TickData) (e : TargetPosEngine) : List TraderCommand × TargetPosEngine :=
  let e := e.quoted tick
  let r := e.pursue
  (e.cancelCrossed ++ r.1, r.2)

def completeOrder (clientOrderId : ℕ) (direction : Direction) (volume : ℤ) (e : TargetPosEngine) :
    TargetPosEngine :=
  let e := e.addPending direction (-volume)
  { e with orders := e.orders.erase clientOrderId }

def onOrder (order : OrderResponse) (e : TargetPosEngine) : TargetPosEngine :=
  if order.tickerId ≠ e.tickerId then e
  else match e.orders.find? order.clientOrderId with
    | none => e
    | some pendingOrder =>
      if order.completed then
        if order.errorCode ≠ .kNoError ∧ order.errorCode.code ≤ ErrorCode.kSendFailed.code ∧
            pendingOrder.orderId = 0 then
          e.completeOrder order.clientOrderId pendingOrder.direction pendingOrder.volume
        else if order.errorCode = .kNoError ∧ pendingOrder.orderId = order.orderId then
          e.completeOrder order.clientOrderId pendingOrder.direction
            (int32 (order.originalVolume - order.tradedVolume))
        else e
      else
        { e with
          orders := e.orders.insert order.clientOrderId { pendingOrder with orderId := order.orderId } }

def onTrade (trade : OrderResponse) (e : TargetPosEngine) : TargetPosEngine :=
  if trade.tickerId ≠ e.tickerId then e
  else match trade.direction with
    | .kBuy =>
      let e := if isOffsetOpen trade.offset then
          { e with longPos := int32 (e.longPos + trade.thisTraded) }
        else { e with shortPos := int32 (e.shortPos - trade.thisTraded) }
      { e with longPending := int32 (e.longPending - trade.thisTraded) }
    | .kSell =>
      let e := if isOffsetOpen trade.offset then
          { e with shortPos := int32 (e.shortPos + trade.thisTraded) }
        else { e with longPos := int32 (e.longPos - trade.thisTraded) }
      { e with shortPending := int32 (e.shortPending - trade.thisTraded) }
    | .kUnknown => e

def onOrderResponse (rsp : OrderResponse) (e : TargetPosEngine) : TargetPosEngine :=
  let e := e.onOrder rsp
  if 0 < rsp.thisTraded then e.onTrade rsp else e

section Frames

variable {e : TargetPosEngine} {direction : Direction}

theorem pending_addPending (e : TargetPosEngine) (direction d : Direction) (volume : ℤ) :
    (e.addPending direction volume).pending d =
      if direction = .kBuy ↔ d = .kBuy then int32 (e.pending d + volume) else e.pending d := by
  unfold addPending pending
  split_ifs with h₁ h₂ h₃ <;> simp_all

theorem addPending_frame (direction : Direction) (volume : ℤ) (e : TargetPosEngine) :
    ∃ longPending shortPending,
      e.addPending direction volume = { e with longPending, shortPending } := by
  unfold addPending
  split_ifs
  · exact ⟨_, _, rfl⟩
  · exact ⟨_, _, rfl⟩

theorem closeVol_add_openVol {gap : ℤ} (hclosable : 0 ≤ e.closable direction) (hpos : 0 < gap)
    (hlt : gap < 2 ^ 31) :
    e.openVol direction gap = gap - e.closeVol direction gap ∧ e.counted direction gap = gap := by
  have hclose : 0 ≤ e.closeVol direction gap ∧ e.closeVol direction gap ≤ gap :=
    ⟨le_min hclosable hpos.le, min_le_right _ _⟩
  have hopen : e.openVol direction gap = gap - e.closeVol direction gap := by
    rw [openVol, int32_eq (by omega) (by omega), max_eq_left (by omega)]
  refine ⟨hopen, ?_⟩
  rw [counted, hopen, add_sub_cancel, int32_eq (by omega) hlt]

theorem place_frame (e : TargetPosEngine) (direction : Direction) (price : ℚ) (gap : ℤ) :
    ∃ orders clientOrderId,
      (e.place direction price gap).2 =
        { e.addPending direction (e.counted direction gap) with orders, clientOrderId } := by
  simp only [place]
  split_ifs
  all_goals exact ⟨_, _, rfl⟩

theorem completeOrder_frame (clientOrderId : ℕ) (direction : Direction) (volume : ℤ)
    (e : TargetPosEngine) :
    e.completeOrder clientOrderId direction volume =
      { e.addPending direction (-volume) with orders := e.orders.erase clientOrderId } := by
  simp only [completeOrder, addPending]
  split_ifs <;> rfl

theorem pending_completeOrder {direction d : Direction} (clientOrderId : ℕ)
    (hside : direction = .kBuy ∨ direction = .kSell) (hd : d = .kBuy ∨ d = .kSell) (volume : ℤ)
    (e : TargetPosEngine) :
    (e.completeOrder clientOrderId direction volume).pending d =
      if direction = d then int32 (e.pending d - volume) else e.pending d := by
  rw [completeOrder_frame]
  change (e.addPending direction (-volume)).pending d = _
  rw [pending_addPending]
  rcases hside with rfl | rfl <;> rcases hd with rfl | rfl <;> simp [sub_eq_add_neg]

theorem orders_completeOrder (clientOrderId : ℕ) (direction : Direction) (volume : ℤ)
    (e : TargetPosEngine) :
    (e.completeOrder clientOrderId direction volume).orders = e.orders.erase clientOrderId := by
  rw [completeOrder_frame]

theorem onOrder_frame (order : OrderResponse) (e : TargetPosEngine) :
    ∃ longPending shortPending orders,
      e.onOrder order = { e with longPending, shortPending, orders } := by
  have hcomplete : ∀ id direction volume, ∃ longPending shortPending orders,
      e.completeOrder id direction volume = { e with longPending, shortPending, orders } := by
    intro id direction volume
    obtain ⟨longPending, shortPending, hadd⟩ := e.addPending_frame direction (-volume)
    rw [completeOrder_frame, hadd]
    exact ⟨longPending, shortPending, _, rfl⟩
  by_cases ht : order.tickerId ≠ e.tickerId
  · exact ⟨_, _, _, if_pos ht⟩
  · rw [onOrder, if_neg ht]
    cases e.orders.find? order.clientOrderId with
    | none => exact ⟨_, _, _, rfl⟩
    | some pendingOrder =>
      simp only
      split_ifs
      · exact hcomplete _ _ _
      · exact hcomplete _ _ _
      · exact ⟨_, _, _, rfl⟩
      · exact ⟨_, _, _, rfl⟩

theorem onTrade_frame (trade : OrderResponse) (e : TargetPosEngine) :
    ∃ longPos shortPos longPending shortPending,
      e.onTrade trade = { e with longPos, shortPos, longPending, shortPending } := by
  by_cases ht : trade.tickerId ≠ e.tickerId
  · exact ⟨_, _, _, _, if_pos ht⟩
  · rw [onTrade, if_neg ht]
    cases trade.direction with
    | kBuy => cases isOffsetOpen trade.offset <;> exact ⟨_, _, _, _, rfl⟩
    | kSell => cases isOffsetOpen trade.offset <;> exact ⟨_, _, _, _, rfl⟩
    | kUnknown => exact ⟨_, _, _, _, rfl⟩

theorem onOrder_tickerId (order : OrderResponse) (e : TargetPosEngine) :
    (e.onOrder order).tickerId = e.tickerId := by
  obtain ⟨_, _, _, horder⟩ := e.onOrder_frame order
  rw [horder]

theorem onOrderResponse_tickerId (rsp : OrderResponse) (e : TargetPosEngine) :
    (e.onOrderResponse rsp).tickerId = e.tickerId := by
  obtain ⟨_, _, _, _, htrade⟩ := (e.onOrder rsp).onTrade_frame rsp
  simp only [onOrderResponse]
  split_ifs
  · rw [htrade, onOrder_tickerId]
  · exact onOrder_tickerId rsp e

theorem orders_onOrderResponse (rsp : OrderResponse) (e : TargetPosEngine) :
    (e.onOrderResponse rsp).orders = (e.onOrder rsp).orders := by
  obtain ⟨_, _, _, _, htrade⟩ := (e.onOrder rsp).onTrade_frame rsp
  simp only [onOrderResponse]
  split_ifs
  · rw [htrade]
  · rfl

theorem held_onOrder (order : OrderResponse) (e : TargetPosEngine) (d : Direction) :
    (e.onOrder order).held d = e.held d := by
  obtain ⟨_, _, _, horder⟩ := e.onOrder_frame order
  rw [horder]
  rfl

section Trade

variable {trade : OrderResponse} {d : Direction}

theorem pending_onTrade (ht : trade.tickerId = e.tickerId)
    (hside : trade.direction = .kBuy ∨ trade.direction = .kSell) (hd : d = .kBuy ∨ d = .kSell) :
    (e.onTrade trade).pending d =
      if trade.direction = d then int32 (e.pending d - trade.thisTraded) else e.pending d := by
  rw [onTrade, if_neg (not_not.mpr ht)]
  rcases hside with hs | hs <;> rcases hd with rfl | rfl <;> rw [hs] <;>
    cases isOffsetOpen trade.offset <;> simp [pending]

theorem held_onTrade (ht : trade.tickerId = e.tickerId)
    (hside : trade.direction = .kBuy ∨ trade.direction = .kSell) (hd : d = .kBuy ∨ d = .kSell) :
    (e.onTrade trade).held d = if isOffsetOpen trade.offset then
      (if trade.direction = d then int32 (e.held d + trade.thisTraded) else e.held d)
      else (if trade.direction = oppositeDirection d then int32 (e.held d - trade.thisTraded)
        else e.held d) := by
  rw [onTrade, if_neg (not_not.mpr ht)]
  rcases hside with hs | hs <;> rcases hd with rfl | rfl <;> rw [hs] <;>
    cases isOffsetOpen trade.offset <;> simp [held, oppositeDirection]

theorem pending_onOrderResponse (ht : trade.tickerId = e.tickerId)
    (hside : trade.direction = .kBuy ∨ trade.direction = .kSell) (hd : d = .kBuy ∨ d = .kSell) :
    (e.onOrderResponse trade).pending d = if 0 < trade.thisTraded ∧ trade.direction = d then
      int32 ((e.onOrder trade).pending d - trade.thisTraded) else (e.onOrder trade).pending d := by
  by_cases hpos : 0 < trade.thisTraded
  · simp only [onOrderResponse, hpos, true_and]
    exact pending_onTrade (ht.trans (onOrder_tickerId trade e).symm) hside hd
  · simp only [onOrderResponse, hpos, false_and, if_false]

theorem held_onOrderResponse (ht : trade.tickerId = e.tickerId)
    (hside : trade.direction = .kBuy ∨ trade.direction = .kSell) (hd : d = .kBuy ∨ d = .kSell)
    (hnonneg : 0 ≤ trade.thisTraded) (hlow : -2 ^ 31 ≤ e.held d) (hlt : e.held d < 2 ^ 31) :
    (e.onOrderResponse trade).held d = if isOffsetOpen trade.offset then
      (if trade.direction = d then int32 (e.held d + trade.thisTraded) else e.held d)
      else (if trade.direction = oppositeDirection d then int32 (e.held d - trade.thisTraded)
        else e.held d) := by
  by_cases hpos : 0 < trade.thisTraded
  · simp only [onOrderResponse, if_pos hpos]
    rw [held_onTrade (ht.trans (onOrder_tickerId trade e).symm) hside hd, held_onOrder]
  · have hzero : trade.thisTraded = 0 := by omega
    simp [onOrderResponse, hzero, held_onOrder, int32_eq hlow hlt]

end Trade

section Answered

variable {order : OrderResponse} {pendingOrder : PendingOrder}

theorem onOrder_incomplete (ht : order.tickerId = e.tickerId)
    (hf : e.orders.find? order.clientOrderId = some pendingOrder) (hc : order.completed = false) :
    e.onOrder order = { e with
      orders := e.orders.insert order.clientOrderId { pendingOrder with orderId := order.orderId } } := by
  simp [onOrder, ht, hf, hc]

theorem onOrder_refused (ht : order.tickerId = e.tickerId)
    (hf : e.orders.find? order.clientOrderId = some pendingOrder) (hc : order.completed = true)
    (he : order.errorCode ≠ .kNoError) (hsend : order.errorCode ≠ .kRejected)
    (hid : pendingOrder.orderId = 0) :
    e.onOrder order =
      e.completeOrder order.clientOrderId pendingOrder.direction pendingOrder.volume := by
  have hcode : order.errorCode.code ≤ ErrorCode.kSendFailed.code := by
    cases hk : order.errorCode with
    | kRejected => exact absurd hk hsend
    | _ => decide
  simp [onOrder, ht, hf, hc, he, hcode, hid]

theorem onOrder_completed (ht : order.tickerId = e.tickerId)
    (hf : e.orders.find? order.clientOrderId = some pendingOrder) (hc : order.completed = true)
    (he : order.errorCode = .kNoError) (hid : pendingOrder.orderId = order.orderId) :
    e.onOrder order = e.completeOrder order.clientOrderId pendingOrder.direction
      (int32 (order.originalVolume - order.tradedVolume)) := by
  simp [onOrder, ht, hf, hc, he, hid]

end Answered

theorem withdraw_nil {orders : List PendingOrder} {gap : ℤ}
    (h : (withdraw direction orders gap).1 = []) : (withdraw direction orders gap).2 = gap := by
  induction orders with
  | nil => rfl
  | cons order orders ih =>
    simp only [withdraw] at h ⊢
    split_ifs at h ⊢
    exact ih h

theorem makeRoom_nil {gap : ℤ} (h : (e.makeRoom direction gap).1 = []) :
    (e.makeRoom direction gap).2 = gap := by
  unfold makeRoom at h ⊢
  split_ifs at h ⊢
  · exact withdraw_nil h
  · rfl

end Frames

theorem adjust_of_room {e : TargetPosEngine} {direction : Direction} {gap : ℤ}
    (h : 0 < (e.makeRoom direction gap).2) (price : ℚ) :
    e.adjust direction price gap =
      ((e.makeRoom direction gap).1 ++
          (e.place direction price (int32 (e.makeRoom direction gap).2)).1,
        (e.place direction price (int32 (e.makeRoom direction gap).2)).2) :=
  if_pos h

theorem adjust_of_no_room {e : TargetPosEngine} {direction : Direction} {gap : ℤ}
    (h : ¬ 0 < (e.makeRoom direction gap).2) (price : ℚ) :
    e.adjust direction price gap = ((e.makeRoom direction gap).1, e) :=
  if_neg h

section Idle

variable {e : TargetPosEngine} {direction : Direction} {price : ℚ} {gap : ℤ}

theorem place_nil (h : (e.place direction price gap).1 = []) :
    e.closeVol direction gap ≤ 0 ∧ e.openVol direction gap = 0 := by
  simp only [place] at h
  obtain ⟨hclosing, hopening⟩ := List.append_eq_nil_iff.mp h
  have hclose : ¬ 0 < e.closeVol direction gap := by
    intro hpos
    rw [if_pos hpos] at hclosing
    cases hclosing
  have hopen : ¬ 0 < e.openVol direction gap := by
    intro hpos
    rw [if_pos hpos] at hopening
    cases hopening
  exact ⟨not_lt.mp hclose, le_antisymm (not_lt.mp hopen) (le_max_right _ _)⟩

theorem place_ne (hgap : gap ≠ 0) (hlow : -2 ^ 31 ≤ gap) (hlt : gap < 2 ^ 31) :
    e.place direction price gap ≠ ([], e) := by
  intro heq
  obtain ⟨hclose, hopen⟩ := place_nil (congrArg Prod.fst heq)
  have hbound : -2 ^ 31 ≤ e.closeVol direction gap := le_min (le_int32 _) hlow
  have hcounted : e.counted direction gap = e.closeVol direction gap := by
    rw [counted, hopen, add_zero, int32_eq hbound (by omega)]
  have hne : e.closeVol direction gap ≠ 0 := by
    intro hzero
    have hleft : max (int32 gap) 0 = 0 := by rwa [openVol, hzero, sub_zero] at hopen
    have hle : 0 ≤ gap := hzero.symm.le.trans (min_le_right _ _)
    rw [int32_eq hlow hlt, max_eq_left hle] at hleft
    exact hgap hleft
  obtain ⟨orders, clientOrderId, hplaced⟩ := e.place_frame direction price gap
  have hsame := congrArg (fun r => r.2.pending direction) heq
  simp only [hplaced] at hsame
  change (e.addPending direction _).pending direction = _ at hsame
  rw [pending_addPending, if_pos Iff.rfl, hcounted] at hsame
  exact int32_add_ne hne (by omega) (by omega) hsame

theorem adjust_ne (hpos : 0 < gap) (hle : gap ≤ 2 ^ 31) :
    e.adjust direction price gap ≠ ([], e) := by
  intro heq
  have hnil : (e.makeRoom direction gap).1 = [] := by
    by_cases hroom : 0 < (e.makeRoom direction gap).2
    · rw [adjust_of_room hroom] at heq
      exact (List.append_eq_nil_iff.mp (congrArg Prod.fst heq)).1
    · rw [adjust_of_no_room hroom] at heq
      exact congrArg Prod.fst heq
  have hroom : 0 < (e.makeRoom direction gap).2 := by rwa [makeRoom_nil hnil]
  rw [adjust_of_room hroom, hnil, makeRoom_nil hnil, List.nil_append] at heq
  refine place_ne (fun hzero => ?_) (le_int32 gap) (int32_lt gap) heq
  exact int32_add_ne (a := 0) hpos.ne' (by omega) (by omega) (by rw [zero_add, hzero])

end Idle

end TargetPosEngine

end FlareTrader
