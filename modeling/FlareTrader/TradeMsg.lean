import FlareTrader.SortedMap

/-! The message and record types shared by the order management system, the
risk rules and the backtest gateway. A C++ `double` is an exact rational and
an `int` an integer; where the code multiplies two ints, the product is taken
in 32 bits. -/

namespace FlareTrader

/-- The product of two `int`s, in 32-bit two's complement. -/
def intMul (a b : ℤ) : ℤ := (a * b).bmod (2 ^ 32)

theorem intMul_eq_mul {a b : ℤ} (h : |a * b| < 2 ^ 31) : intMul a b = a * b := by
  rw [abs_lt] at h
  exact Int.bmod_eq_of_le (by omega) (by omega)

theorem intMul_lt (a b : ℤ) : intMul a b < 2 ^ 31 := Int.bmod_lt (by decide)

theorem intMul_eq_mul_iff {a b : ℤ} (h : 0 ≤ a * b) : intMul a b = a * b ↔ a * b < 2 ^ 31 := by
  constructor
  · intro heq
    rw [← heq]
    exact intMul_lt a b
  · intro hlt
    exact intMul_eq_mul (abs_lt.mpr ⟨by omega, hlt⟩)

@[simp] theorem intMul_zero (a : ℤ) : intMul a 0 = 0 := by simp [intMul]

def isEqual (lhs rhs : ℚ) : Bool := rhs - 1 / 100000 ≤ lhs ∧ lhs ≤ rhs + 1 / 100000

inductive Direction
  | kBuy
  | kSell
  | kUnknown
  deriving DecidableEq, Repr

def oppositeDirection (direction : Direction) : Direction :=
  if direction = .kBuy then .kSell else .kBuy

inductive Offset
  | kOpen
  | kClose
  | kCloseToday
  | kCloseYesterday
  | kOffsetNone
  | kUnknown
  deriving DecidableEq, Repr

def Offset.code : Offset → ℕ
  | .kOpen => 1
  | .kClose => 2
  | .kCloseToday => 4
  | .kCloseYesterday => 8
  | .kOffsetNone => 9
  | .kUnknown => 10

def isOffsetOpen (offset : Offset) : Bool := offset = .kOpen

def isOffsetClose (offset : Offset) : Bool :=
  offset.code &&& (Offset.kClose.code ||| Offset.kCloseToday.code ||| Offset.kCloseYesterday.code) ≠ 0

/-- The codes 9 and 10 share a bit with the close mask: every offset but
`kOpen` is handled as a close. -/
theorem isOffsetClose_eq (offset : Offset) : isOffsetClose offset = !isOffsetOpen offset := by
  cases offset <;> decide

inductive OrderType
  | kMarket
  | kLimit
  | kBest
  | kFak
  | kFok
  | kUnknown
  | kHkexMoAtCrossing
  | kHkexLoAtCrossing
  | kHkexLo
  | kHkexElo
  | kHkexSlo
  deriving DecidableEq, Repr

inductive OrderFlag
  | kNone
  | kHedge
  deriving DecidableEq, Repr

inductive OrderStatus
  | kSubmitting
  | kRejected
  | kAccepted
  | kPartTraded
  | kAllTraded
  | kCanceled
  deriving DecidableEq, Repr

inductive ErrorCode
  | kNoError
  | kSelfTrade
  | kPositionNotEnough
  | kFundNotEnough
  | kExceedThrottleRateRisk
  | kSendFailed
  | kRejected
  deriving DecidableEq, Repr

inductive ProductType
  | kFutures
  | kOptions
  | kStock
  | kFund
  | kUnknown
  deriving DecidableEq, Repr

structure Contract where
  ticker : String := ""
  exchange : String := ""
  name : String := ""
  productType : ProductType := .kFutures
  size : ℤ := 0
  priceTick : ℚ := 0
  longMarginRate : ℚ := 0
  shortMarginRate : ℚ := 0
  maxMarketOrderVolume : ℤ := 0
  minMarketOrderVolume : ℤ := 0
  maxLimitOrderVolume : ℤ := 0
  minLimitOrderVolume : ℤ := 0
  deliveryYear : ℤ := 0
  deliveryMonth : ℤ := 0
  tickerId : ℕ := 0
  deriving DecidableEq, Repr

/-- `Init` numbers the loaded contracts from 1 in file order. -/
structure ContractTable where
  contracts : List Contract
  numbered : ∀ i (h : i < contracts.length), contracts[i].tickerId = i + 1

def ContractTable.ofList (contracts : List Contract) : ContractTable where
  contracts := contracts.mapIdx fun i contract => { contract with tickerId := i + 1 }
  numbered := fun i h => by simp

def ContractTable.getByIndex (ct : ContractTable) (tickerId : ℕ) : Option Contract :=
  if tickerId = 0 then none else ct.contracts[tickerId - 1]?

theorem ContractTable.tickerId_of_getByIndex {ct : ContractTable} {t : ℕ} {c : Contract}
    (h : ct.getByIndex t = some c) : c.tickerId = t := by
  unfold ContractTable.getByIndex at h
  split_ifs at h with ht
  obtain ⟨hi, rfl⟩ := List.getElem?_eq_some_iff.mp h
  have hn := ct.numbered (t - 1) hi
  omega

structure Account where
  accountId : ℕ := 0
  totalAsset : ℚ := 0
  balance : ℚ := 0
  cash : ℚ := 0
  margin : ℚ := 0
  frozen : ℚ := 0
  floatingPnl : ℚ := 0
  deriving DecidableEq, Repr

/-- The counts are `int`s in the source and not bounded here. Where their range matters, a result
has the condition under which they stay in it, or says that they do. -/
structure PositionDetail where
  ydHoldings : ℤ := 0
  holdings : ℤ := 0
  frozen : ℤ := 0
  openPending : ℤ := 0
  closePending : ℤ := 0
  costPrice : ℚ := 0
  floatPnl : ℚ := 0
  deriving DecidableEq, Repr

structure Position where
  tickerId : ℕ := 0
  longPos : PositionDetail := {}
  shortPos : PositionDetail := {}
  deriving DecidableEq, Repr

def kMaxMarketLevel : ℕ := 5

def firstLevel : Fin kMaxMarketLevel := ⟨0, by decide⟩

structure TickData where
  tickerId : ℕ := 0
  exchangeTimestampUs : ℕ := 0
  lastPrice : ℚ := 0
  volume : UInt64 := 0
  turnover : UInt64 := 0
  ask : Fin kMaxMarketLevel → ℚ := fun _ => 0
  bid : Fin kMaxMarketLevel → ℚ := fun _ => 0
  askVolume : Fin kMaxMarketLevel → ℤ := fun _ => 0
  bidVolume : Fin kMaxMarketLevel → ℤ := fun _ => 0

structure OrderRequest where
  contract : Contract
  orderId : ℕ
  type : OrderType
  direction : Direction
  offset : Offset
  volume : ℤ
  price : ℚ
  flags : OrderFlag := .kNone
  deriving DecidableEq, Repr

structure Order where
  req : OrderRequest
  clientOrderId : ℕ
  mqId : ℕ
  accepted : Bool := false
  tradedVolume : ℤ := 0
  canceledVolume : ℤ := 0
  status : OrderStatus
  privdata : ℕ := 0
  strategyId : String
  deriving DecidableEq, Repr

structure OrderTradedRsp where
  timestampUs : ℕ
  orderId : ℕ
  price : ℚ
  volume : ℤ
  deriving DecidableEq, Repr

inductive GatewayOrderResponse
  | accepted (orderId : ℕ)
  | traded (rsp : OrderTradedRsp)
  | rejected (orderId : ℕ) (reason : String)
  | canceled (orderId : ℕ) (canceledVolume : ℤ)
  | cancelRejected (orderId : ℕ) (reason : String)
  deriving DecidableEq, Repr

structure TraderOrderReq where
  clientOrderId : ℕ
  tickerId : ℕ
  direction : Direction
  offset : Offset
  type : OrderType
  volume : ℤ
  price : ℚ
  flags : OrderFlag := .kNone
  deriving DecidableEq, Repr

def kTradingCmdMagic : ℕ := 0x1709394

inductive TraderCmd
  | kNewOrder (orderReq : TraderOrderReq)
  | kCancelOrder (orderId : ℕ)
  | kCancelTicker (tickerId : ℕ)
  | kCancelAll
  | kNotify (signal : ℕ)
  | unknown
  deriving DecidableEq, Repr

structure TraderCommand where
  magic : ℕ := kTradingCmdMagic
  cmd : TraderCmd
  withoutCheck : Bool := false
  strategyId : String
  deriving DecidableEq, Repr

def TraderCommand.Submits (cmd : TraderCommand) (orderReq : TraderOrderReq) : Prop :=
  cmd.magic = kTradingCmdMagic ∧ cmd.cmd = .kNewOrder orderReq

structure OrderResponse where
  clientOrderId : ℕ
  orderId : ℕ
  tickerId : ℕ
  direction : Direction
  offset : Offset
  price : ℚ
  originalVolume : ℤ
  tradedVolume : ℤ
  completed : Bool
  errorCode : ErrorCode
  thisTraded : ℤ
  thisTradedPrice : ℚ
  deriving DecidableEq, Repr

end FlareTrader
