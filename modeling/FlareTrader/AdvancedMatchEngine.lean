import FlareTrader.PriceLevels
import FlareTrader.SimpleMatchEngine

/-! The advanced match engine: price levels with queues, and an index from order
ids to levels for cancels. A tick fills resting orders by an estimate of the
volume traded on each side. -/

namespace FlareTrader

def TickData.bestAskVolume (tick : TickData) : ℤ := tick.askVolume firstLevel
def TickData.bestBidVolume (tick : TickData) : ℤ := tick.bidVolume firstLevel

/-- Fixed-point prices: 1e-8 units, rounded to 1e-4. -/
def u64Price (p : ℚ) : ℕ := (⌊p * 100000000⌋.toNat + 50) / 10000

structure OrderBook where
  bidLevels : Levels (· > ·) := .empty
  askLevels : Levels (· < ·) := .empty

structure AdvancedMatchEngine where
  orderbooks : SortedMap ℕ OrderBook (· < ·) := .empty
  idPriceMap : SortedMap ℕ ℕ (· < ·) := .empty
  ticks : ℕ → TickData := fun _ => {}

inductive CancelResult
  | returned (ok : Bool) (events : List Event) (engine : AdvancedMatchEngine)
  | aborted

namespace AdvancedMatchEngine

def book (e : AdvancedMatchEngine) (tickerId : ℕ) : OrderBook :=
  (e.orderbooks.find? tickerId).getD {}

def setBook (e : AdvancedMatchEngine) (tickerId : ℕ) (b : OrderBook) : AdvancedMatchEngine :=
  { e with orderbooks := e.orderbooks.insert tickerId b }

def crosses (tick : TickData) (order : OrderRequest) : Bool :=
  (order.direction = .kBuy ∧ 0 < tick.bestAskVolume ∧ tick.bestAsk ≤ order.price) ∨
    (order.direction = .kSell ∧ 0 < tick.bestBidVolume ∧ order.price ≤ tick.bestBid)

def displayedVolume (prices : Fin kMaxMarketLevel → ℚ) (volumes : Fin kMaxMarketLevel → ℤ)
    (price : ℚ) : ℤ :=
  ((List.finRange kMaxMarketLevel).find? fun level => isEqual (prices level) price).elim 0 volumes

def rest (inner : InnerOrder) (e : AdvancedMatchEngine) : AdvancedMatchEngine :=
  let order := inner.origOrder
  let price := u64Price order.price
  let b := e.book order.contract.tickerId
  let b := if order.direction = .kBuy then { b with bidLevels := b.bidLevels.push price inner }
    else { b with askLevels := b.askLevels.push price inner }
  { e.setBook order.contract.tickerId b with
    idPriceMap := e.idPriceMap.emplace order.orderId price }

def queueLimit (tick : TickData) (order : OrderRequest) : InnerOrder where
  origOrder := order
  queuePosition := if order.direction = .kBuy
    then displayedVolume tick.bid tick.bidVolume order.price
    else displayedVolume tick.ask tick.askVolume order.price

def queueBest (tick : TickData) (order : OrderRequest) : InnerOrder where
  origOrder := { order with price := SimpleMatchEngine.ownPrice tick order }
  queuePosition := if order.direction = .kBuy then tick.bestBidVolume else tick.bestAskVolume

def insertOrder (order : OrderRequest) (e : AdvancedMatchEngine) :
    Bool × List Event × AdvancedMatchEngine :=
  let tick := e.ticks order.contract.tickerId
  let fill := Event.traded order order.volume (SimpleMatchEngine.oppositePrice tick order)
    tick.exchangeTimestampUs
  match order.type with
  | .kLimit =>
    if crosses tick order then (true, [fill], e)
    else (true, [.accepted order], rest (queueLimit tick order) e)
  | .kBest =>
    if (order.direction = .kBuy ∧ tick.bestBidVolume = 0) ∨
        (order.direction = .kSell ∧ tick.bestAskVolume = 0) then
      (true, [.rejected order], e)
    else (true, [.accepted order], rest (queueBest tick order) e)
  | .kMarket =>
    let volume := if order.direction = .kBuy then tick.bestAskVolume else tick.bestBidVolume
    if volume = 0 then (true, [.canceled order order.volume], e) else (true, [fill], e)
  | .kFak | .kFok =>
    if crosses tick order then (true, [fill], e) else (true, [.canceled order order.volume], e)
  | _ => (false, [], e)

/-- The search loop of a cancel. Its iterator is never advanced, so a first order
with another id is looked at forever; `none` when the fuel runs out. -/
def search (orderId : ℕ) : ℕ → List InnerOrder → Option (Option (InnerOrder × List InnerOrder))
  | 0, _ => none
  | _ + 1, [] => some none
  | fuel + 1, order :: queue =>
    if order.origOrder.orderId = orderId then some (some (order, queue))
    else search orderId fuel (order :: queue)

def cancelIn (fuel orderId : ℕ) (queue : List InnerOrder)
    (setQueue : List InnerOrder → AdvancedMatchEngine) : Option CancelResult :=
  (search orderId fuel queue).map fun
    | none => .aborted
    | some (order, queue) =>
      .returned true [.canceled order.origOrder order.origOrder.volume] (setQueue queue)

def cancelOrder (fuel orderId tickerId : ℕ) (e : AdvancedMatchEngine) : Option CancelResult :=
  match e.idPriceMap.find? orderId with
  | none => some (.returned false [] e)
  | some price =>
    let e := { e with idPriceMap := e.idPriceMap.erase orderId }
    let b := e.book tickerId
    match b.bidLevels.find? price with
    | none =>
      match b.askLevels.find? price with
      | none => some .aborted
      | some queue => cancelIn fuel orderId queue fun queue =>
          e.setBook tickerId { b with askLevels := b.askLevels.setQueue price queue }
    | some queue => cancelIn fuel orderId queue fun queue =>
        e.setBook tickerId { b with bidLevels := b.bidLevels.setQueue price queue }

def estimateFills (ct : ContractTable) (prev tick : TickData) : ℤ × ℤ :=
  let deltaVolume : ℤ := (tick.volume - prev.volume).toNat
  if prev.bestAskVolume = 0 ∧ prev.bestBidVolume = 0 then (0, 0)
  else if prev.bestBidVolume = 0 then (0, deltaVolume)
  else if prev.bestAskVolume = 0 then (deltaVolume, 0)
  else
    let deltaTurnover : ℚ := (tick.turnover - prev.turnover).toNat
    let size := ((ct.getByIndex tick.tickerId).getD {}).size
    let avgPrice := deltaTurnover / (deltaVolume * size)
    if tick.bestAsk ≤ avgPrice then (0, deltaVolume)
    else if avgPrice ≤ tick.bestBid then (deltaVolume, 0)
    else
      let spread := tick.bestAsk - tick.bestBid
      let askFilled := round (deltaVolume * (avgPrice - tick.bestBid) / spread)
      (deltaVolume - askFilled, askFilled)

def displayedLevels (prices : Fin kMaxMarketLevel → ℚ) (volumes : Fin kMaxMarketLevel → ℤ) :
    List (ℕ × ℤ) :=
  (List.finRange kMaxMarketLevel).map fun level => (u64Price (prices level), volumes level)

def andThen {r : ℕ → ℕ → Prop} (f g : Levels r → List Event × Levels r) (levels : Levels r) :
    List Event × Levels r :=
  let first := f levels
  let second := g first.2
  (first.1 ++ second.1, second.2)

def onlyIf {r : ℕ → ℕ → Prop} (c : Bool) (f : Levels r → List Event × Levels r)
    (levels : Levels r) : List Event × Levels r :=
  if c then f levels else ([], levels)

def fillBids (tick : TickData) (filled : ℤ) : Levels (· > ·) → List Event × Levels (· > ·) :=
  onlyIf (0 < filled) (andThen
    (onlyIf (0 < tick.bestBidVolume)
      (Levels.sweep tick.exchangeTimestampUs fun price => u64Price tick.bestBid < price))
    (Levels.walkLevels tick.exchangeTimestampUs (displayedLevels tick.bid tick.bidVolume) filled))

/-- The asks filled by the estimated volume. The bound of the first loop is the
best bid here too. -/
def fillAsks (tick : TickData) (filled : ℤ) : Levels (· < ·) → List Event × Levels (· < ·) :=
  onlyIf (0 < filled) (andThen
    (onlyIf (0 < tick.bestAskVolume)
      (Levels.sweep tick.exchangeTimestampUs fun price => price < u64Price tick.bestBid))
    (Levels.walkLevels tick.exchangeTimestampUs (displayedLevels tick.ask tick.askVolume) filled))

def crossAsks (tick : TickData) : Levels (· < ·) → List Event × Levels (· < ·) :=
  onlyIf (0 < tick.bestBidVolume)
    (Levels.sweep tick.exchangeTimestampUs fun price => price ≤ u64Price tick.bestBid)

def crossBids (tick : TickData) : Levels (· > ·) → List Event × Levels (· > ·) :=
  onlyIf (0 < tick.bestAskVolume)
    (Levels.sweep tick.exchangeTimestampUs fun price => u64Price tick.bestAsk ≤ price)

def forget (events : List Event) (m : SortedMap ℕ ℕ (· < ·)) : SortedMap ℕ ℕ (· < ·) :=
  events.foldl (fun m e => (e.order?.map (·.orderId)).elim m m.erase) m

/-- Neither the first tick of a ticker nor a tick without traded volume is matched. -/
def Matched (prev tick : TickData) : Prop := prev.tickerId ≠ 0 ∧ tick.volume - prev.volume ≠ 0

instance (prev tick : TickData) : Decidable (Matched prev tick) :=
  inferInstanceAs (Decidable (_ ∧ _))

def onNewTickBy (estimate : TickData → TickData → ℤ × ℤ) (tick : TickData)
    (e : AdvancedMatchEngine) : List Event × AdvancedMatchEngine :=
  let prev := e.ticks tick.tickerId
  let ticks := Function.update e.ticks tick.tickerId tick
  if ¬ Matched prev tick then ([], { e with ticks })
  else
    let filled := estimate prev tick
    let b := e.book tick.tickerId
    let bids := fillBids tick filled.1 b.bidLevels
    let asks := fillAsks tick filled.2 b.askLevels
    let crossedAsks := crossAsks tick asks.2
    let crossedBids := crossBids tick bids.2
    let events := bids.1 ++ asks.1 ++ crossedAsks.1 ++ crossedBids.1
    (events, { e.setBook tick.tickerId ⟨crossedBids.2, crossedAsks.2⟩ with
      idPriceMap := forget events e.idPriceMap
      ticks })

def onNewTick (ct : ContractTable) : TickData → AdvancedMatchEngine →
    List Event × AdvancedMatchEngine :=
  onNewTickBy (estimateFills ct)

def engine (ct : ContractTable) (fuel : ℕ) : MatchEngine AdvancedMatchEngine where
  insertOrder := insertOrder
  cancelOrder := fun orderId tickerId e =>
    (cancelOrder fuel orderId tickerId e).bind fun
      | .returned ok events e' => some (ok, events, e')
      | .aborted => none
  onNewTick := onNewTick ct

end AdvancedMatchEngine

end FlareTrader
