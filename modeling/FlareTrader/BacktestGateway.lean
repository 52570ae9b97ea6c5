import FlareTrader.MatchEngine
import FlareTrader.Oms

/-! The backtest gateway over any match engine: it checks an order, freezes its
funds and its position, hands it to the engine, and books what the engine
reports back. Its responses wait in a ring until the order management system
takes them. -/

namespace FlareTrader

def TickData.marketQuote (tick : TickData) : ℚ :=
  let ask := tick.ask firstLevel
  let bid := tick.bid firstLevel
  if 0 < tick.lastPrice then tick.lastPrice
  else if 0 < ask then (if 0 < bid then (ask + bid) / 2 else ask)
  else bid

namespace FundCalculator

def checkFund (order : OrderRequest) (account : Account) : Bool :=
  !(isOffsetOpen order.offset ∧
    account.cash < intMul order.contract.size order.volume * order.price)

def updatePending (order : OrderRequest) (changed : ℤ) (account : Account) : Account :=
  if isOffsetOpen order.offset then
    let fundNeed := intMul order.contract.size changed * order.price
    { account with cash := account.cash - fundNeed, frozen := account.frozen + fundNeed }
  else account

def updateTraded (order : OrderRequest) (volume : ℤ) (price : ℚ) (currentTick : TickData)
    (account : Account) : Account :=
  let quantity : ℚ := intMul order.contract.size volume
  if isOffsetOpen order.offset then
    let fundReturn := quantity * order.price
    { account with
      frozen := account.frozen - fundReturn
      margin := account.margin + quantity * currentTick.marketQuote
      cash := account.cash + fundReturn - quantity * price }
  else
    { account with
      margin := account.margin - quantity * currentTick.marketQuote
      cash := account.cash + quantity * price }

/-- Only the contract of the position is looked up; the code asserts that it exists. -/
def updatePrice (ct : ContractTable) (pos : Position) (oldTick newTick : TickData)
    (account : Account) : Account :=
  let size := ((ct.getByIndex pos.tickerId).getD {}).size
  let totalPos := pos.longPos.holdings + pos.shortPos.holdings
  let marginChanged := intMul size totalPos * (newTick.marketQuote - oldTick.marketQuote)
  { account with
    margin := account.margin + marginChanged
    cash := account.cash - marginChanged }

end FundCalculator

structure BacktestGateway (ε : Type) where
  matchEngine : ε
  dataFeed : List TickData := []
  posCalculator : PositionCalculator := {}
  account : Account :=
    { totalAsset := 100000000, balance := 100000000, cash := 100000000 }
  currentTicks : ℕ → TickData := fun _ => {}
  rspRb : List GatewayOrderResponse := []

namespace BacktestGateway

variable {ε : Type}

def available (order : OrderRequest) (g : BacktestGateway ε) : ℤ :=
  match g.posCalculator.getPosition order.contract.tickerId with
  | none => 0
  | some pos =>
    let detail := if order.direction = .kSell then pos.longPos else pos.shortPos
    detail.holdings - detail.closePending

def checkOrder (order : OrderRequest) (g : BacktestGateway ε) : Bool :=
  if order.type ≠ .kLimit ∧ order.type ≠ .kBest ∧ order.type ≠ .kFak ∧ order.type ≠ .kFok then false
  else if order.price ≤ 1 / 100000 then false
  else if order.volume ≤ 0 then false
  else if !FundCalculator.checkFund order g.account then false
  else if isOffsetClose order.offset ∧ g.available order < order.volume then false
  else true

def updatePending (order : OrderRequest) (changed : ℤ) (g : BacktestGateway ε) :
    BacktestGateway ε :=
  { g with
    account := FundCalculator.updatePending order changed g.account
    posCalculator := g.posCalculator.updatePending order.contract.tickerId order.direction
      order.offset changed }

def putRsp (rsp : GatewayOrderResponse) (g : BacktestGateway ε) : BacktestGateway ε :=
  { g with rspRb := g.rspRb ++ [rsp] }

def onAccepted (order : OrderRequest) (g : BacktestGateway ε) : BacktestGateway ε :=
  putRsp (.accepted order.orderId) g

def onRejected (order : OrderRequest) (g : BacktestGateway ε) : BacktestGateway ε :=
  putRsp (.rejected order.orderId "") (updatePending order (-order.volume) g)

def onTraded (ct : ContractTable) (order : OrderRequest) (volume : ℤ) (price : ℚ)
    (timestampUs : ℕ) (g : BacktestGateway ε) : BacktestGateway ε :=
  putRsp (.traded ⟨timestampUs, order.orderId, price, volume⟩)
    { g with
      account := FundCalculator.updateTraded order volume price
        (g.currentTicks order.contract.tickerId) g.account
      posCalculator := (g.posCalculator.updateTraded ct order.contract.tickerId order.direction
        order.offset volume price).2 }

def onCanceled (order : OrderRequest) (canceledVolume : ℤ) (g : BacktestGateway ε) :
    BacktestGateway ε :=
  putRsp (.canceled order.orderId canceledVolume) (updatePending order (-canceledVolume) g)

def onCancelRejected (orderId : ℕ) (g : BacktestGateway ε) : BacktestGateway ε :=
  putRsp (.cancelRejected orderId "") g

def onEvent (ct : ContractTable) (g : BacktestGateway ε) : Event → BacktestGateway ε
  | .accepted order => onAccepted order g
  | .rejected order => onRejected order g
  | .traded order volume price timestampUs => onTraded ct order volume price timestampUs g
  | .canceled order canceledVolume => onCanceled order canceledVolume g
  | .cancelRejected orderId => onCancelRejected orderId g

def listen (ct : ContractTable) (events : List Event) (g : BacktestGateway ε) : BacktestGateway ε :=
  events.foldl (onEvent ct) g

/-- The result, the private data of the order (untouched when the check fails)
and the gateway afterwards. -/
def sendOrder (m : MatchEngine ε) (ct : ContractTable) (order : OrderRequest)
    (g : BacktestGateway ε) : Bool × ℕ × BacktestGateway ε :=
  if !g.checkOrder order then (false, 0, g)
  else
    let g := updatePending order order.volume g
    let r := m.insertOrder order g.matchEngine
    let g := listen ct r.2.1 { g with matchEngine := r.2.2 }
    if r.1 then (true, order.contract.tickerId, g)
    else (false, order.contract.tickerId, updatePending order (-order.volume) g)

/-- The private data is cut to the 32 bits of a ticker id. -/
def cancelOrder (m : MatchEngine ε) (ct : ContractTable) (orderId privdata : ℕ)
    (g : BacktestGateway ε) : Option (Bool × BacktestGateway ε) :=
  (m.cancelOrder orderId (privdata % 2 ^ 32) g.matchEngine).map fun r =>
    (r.1, listen ct r.2.1 { g with matchEngine := r.2.2 })

def revalue (ct : ContractTable) (tick : TickData) (g : BacktestGateway ε) : BacktestGateway ε :=
  match g.posCalculator.getPosition tick.tickerId with
  | none => g
  | some pos =>
    if 0 < pos.longPos.holdings ∨ 0 < pos.shortPos.holdings then
      { g with
        account := FundCalculator.updatePrice ct pos (g.currentTicks tick.tickerId) tick g.account }
    else g

def onDataFeed (m : MatchEngine ε) (ct : ContractTable) (tick : TickData) (g : BacktestGateway ε) :
    BacktestGateway ε :=
  let g := revalue ct tick g
  let g := { g with currentTicks := Function.update g.currentTicks tick.tickerId tick }
  let r := m.onNewTick tick g.matchEngine
  listen ct r.1 { g with matchEngine := r.2 }

/-- Any notification feeds the next tick, if there is one. -/
def onNotify (m : MatchEngine ε) (ct : ContractTable) (g : BacktestGateway ε) : BacktestGateway ε :=
  match g.dataFeed with
  | [] => g
  | tick :: dataFeed => onDataFeed m ct tick { g with dataFeed }

def gateway (m : MatchEngine ε) (ct : ContractTable) : Gateway (BacktestGateway ε) where
  sendOrder := sendOrder m ct
  cancelOrder := cancelOrder m ct
  onNotify := fun _ g => some (onNotify m ct g)
  getOrderRsp := fun g =>
    match g.rspRb with
    | [] => none
    | rsp :: rspRb => some (rsp, { g with rspRb })

end BacktestGateway

namespace Event

def response : Event → GatewayOrderResponse
  | .accepted order => .accepted order.orderId
  | .rejected order => .rejected order.orderId ""
  | .traded order volume price timestampUs => .traded ⟨timestampUs, order.orderId, price, volume⟩
  | .canceled order canceledVolume => .canceled order.orderId canceledVolume
  | .cancelRejected orderId => .cancelRejected orderId ""

def bookFund (ticks : ℕ → TickData) : Event → Account → Account
  | .rejected order => FundCalculator.updatePending order (-order.volume)
  | .traded order volume price _ =>
    FundCalculator.updateTraded order volume price (ticks order.contract.tickerId)
  | .canceled order canceledVolume => FundCalculator.updatePending order (-canceledVolume)
  | _ => id

def bookPosition (ct : ContractTable) : Event → PositionCalculator → PositionCalculator
  | .rejected order =>
    .updatePending order.contract.tickerId order.direction order.offset (-order.volume)
  | .traded order volume price _ => fun c =>
    (c.updateTraded ct order.contract.tickerId order.direction order.offset volume price).2
  | .canceled order canceledVolume =>
    .updatePending order.contract.tickerId order.direction order.offset (-canceledVolume)
  | _ => id

end Event

namespace BacktestGateway

variable {ε : Type}

theorem listen_eq (ct : ContractTable) (events : List Event) (g : BacktestGateway ε) :
    listen ct events g = { g with
      account := events.foldl (fun account e => e.bookFund g.currentTicks account) g.account
      posCalculator := events.foldl (fun c e => e.bookPosition ct c) g.posCalculator
      rspRb := g.rspRb ++ events.map Event.response } := by
  induction events generalizing g with
  | nil => simp [listen]
  | cons e events ih =>
    have hstep : onEvent ct g e = { g with
        account := e.bookFund g.currentTicks g.account
        posCalculator := e.bookPosition ct g.posCalculator
        rspRb := g.rspRb ++ [e.response] } := by
      cases e <;> rfl
    have hcons : listen ct (e :: events) g = listen ct events (onEvent ct g e) := rfl
    rw [hcons, ih, hstep]
    simp

end BacktestGateway

end FlareTrader
