import FlareTrader.RecordLayout
import FlareTrader.TargetPosEngine

/-! The messages between the strategies and the order management system as they lie in the
frames of the journals, and the commands that a strategy sends. -/

namespace FlareTrader

open RecordLayout

/-- How a `double` is kept in eight bytes; the rational is the one it stands for. -/
structure Doubles where
  bits : ℚ → ℕ
  value : ℕ → ℚ

def Doubles.layout (doubles : Doubles) : Layout ℚ :=
  (Layout.natural 8).via doubles.bits doubles.value
    (fun q => doubles.bits q < 256 ^ 8 ∧ doubles.value (doubles.bits q) = q) fun _ h => h

namespace Direction

def toByte : Direction → UInt8
  | .kBuy => 1
  | .kSell => 2
  | .kUnknown => 6

/-- A byte that names no direction counts as `kUnknown`. -/
def ofByte (b : UInt8) : Direction :=
  if b = 1 then .kBuy else if b = 2 then .kSell else .kUnknown

def layout : Layout Direction := .code toByte ofByte fun d => by cases d <;> rfl

end Direction

namespace Offset

def toByte (offset : Offset) : UInt8 := .ofNat offset.code

def ofByte (b : UInt8) : Offset :=
  if b = 1 then .kOpen else if b = 2 then .kClose else if b = 4 then .kCloseToday
  else if b = 8 then .kCloseYesterday else if b = 9 then .kOffsetNone else .kUnknown

def layout : Layout Offset := .code toByte ofByte fun o => by cases o <;> rfl

end Offset

namespace OrderType

def toByte : OrderType → UInt8
  | .kMarket => 1
  | .kLimit => 2
  | .kBest => 3
  | .kFak => 4
  | .kFok => 5
  | .kUnknown => 6
  | .kHkexMoAtCrossing => 10
  | .kHkexLoAtCrossing => 11
  | .kHkexLo => 12
  | .kHkexElo => 13
  | .kHkexSlo => 14

def ofByte (b : UInt8) : OrderType :=
  if b = 1 then .kMarket else if b = 2 then .kLimit else if b = 3 then .kBest
  else if b = 4 then .kFak else if b = 5 then .kFok else if b = 10 then .kHkexMoAtCrossing
  else if b = 11 then .kHkexLoAtCrossing else if b = 12 then .kHkexLo
  else if b = 13 then .kHkexElo else if b = 14 then .kHkexSlo else .kUnknown

def layout : Layout OrderType := .code toByte ofByte fun t => by cases t <;> rfl

end OrderType

namespace OrderFlag

def toByte : OrderFlag → UInt8
  | .kNone => 0
  | .kHedge => 1

def ofByte (b : UInt8) : OrderFlag := if b = 1 then .kHedge else .kNone

def layout : Layout OrderFlag := .code toByte ofByte fun f => by cases f <;> rfl

end OrderFlag

namespace ErrorCode

def toInt : ErrorCode → ℤ
  | .kNoError => 0
  | .kSelfTrade => 1
  | .kPositionNotEnough => 2
  | .kFundNotEnough => 3
  | .kExceedThrottleRateRisk => 4
  | .kSendFailed => 5
  | .kRejected => 6

def ofInt (n : ℤ) : ErrorCode :=
  if n = 0 then .kNoError else if n = 1 then .kSelfTrade else if n = 2 then .kPositionNotEnough
  else if n = 3 then .kFundNotEnough else if n = 4 then .kExceedThrottleRateRisk
  else if n = 5 then .kSendFailed else .kRejected

def layout : Layout ErrorCode :=
  Layout.int32.via toInt ofInt (fun _ => True) fun e _ => by
    cases e <;> exact ⟨⟨by decide, by decide⟩, rfl⟩

end ErrorCode

structure TraderOrderReq.Typed (doubles : Doubles) (r : TraderOrderReq) : Prop where
  clientOrderId : r.clientOrderId < 2 ^ 32
  tickerId : r.tickerId < 2 ^ 32
  volume : -2 ^ 31 ≤ r.volume ∧ r.volume < 2 ^ 31
  price : doubles.layout.Fits r.price

def TraderOrderReq.layout (doubles : Doubles) : Layout TraderOrderReq :=
  ((Layout.natural 4).pair <| (Layout.natural 4).pair <| Direction.layout.pair <|
    Offset.layout.pair <| (OrderType.layout.padded 1).pair <| Layout.int32.pair <|
    doubles.layout.pair <| OrderFlag.layout.padded 7).via
  (fun r => (r.clientOrderId, r.tickerId, r.direction, r.offset, r.type, r.volume, r.price,
    r.flags))
  (fun (clientOrderId, tickerId, direction, offset, type, volume, price, flags) =>
    { clientOrderId, tickerId, direction, offset, type, volume, price, flags })
  (TraderOrderReq.Typed doubles)
  fun _ h => ⟨⟨h.clientOrderId, h.tickerId, trivial, trivial, trivial, h.volume, h.price, trivial⟩,
    rfl⟩

namespace TraderCmd

variable (doubles : Doubles)

def type : TraderCmd → ℕ
  | .kNewOrder _ => 1
  | .kCancelOrder _ => 2
  | .kCancelTicker _ => 3
  | .kCancelAll => 4
  | .kNotify _ => 5
  | .unknown => 0

def numberLayout (count : ℕ) : Layout ℕ := (Layout.natural count).padded (32 - count)

def union : TraderCmd → List UInt8
  | .kNewOrder orderReq => (TraderOrderReq.layout doubles).put orderReq
  | .kCancelOrder orderId => (numberLayout 8).put orderId
  | .kCancelTicker tickerId => (numberLayout 4).put tickerId
  | .kNotify signal => (numberLayout 8).put signal
  | .kCancelAll => List.replicate 32 0
  | .unknown => List.replicate 32 0

def ofUnion (type : ℕ) (bs : List UInt8) : TraderCmd :=
  match type with
  | 1 => .kNewOrder ((TraderOrderReq.layout doubles).get bs)
  | 2 => .kCancelOrder ((numberLayout 8).get bs)
  | 3 => .kCancelTicker ((numberLayout 4).get bs)
  | 4 => .kCancelAll
  | 5 => .kNotify ((numberLayout 8).get bs)
  | _ => .unknown

def Typed : TraderCmd → Prop
  | .kNewOrder orderReq => orderReq.Typed doubles
  | .kCancelOrder orderId => orderId < 2 ^ 64
  | .kCancelTicker tickerId => tickerId < 2 ^ 32
  | .kNotify signal => signal < 2 ^ 64
  | .kCancelAll => True
  | .unknown => True

variable {doubles}

theorem length_union (cmd : TraderCmd) : (cmd.union doubles).length = 32 := by
  cases cmd with
  | kNewOrder orderReq =>
    rw [union, Layout.length_put]
    rfl
  | kCancelOrder orderId =>
    rw [union, Layout.length_put]
    rfl
  | kCancelTicker tickerId =>
    rw [union, Layout.length_put]
    rfl
  | kNotify signal =>
    rw [union, Layout.length_put]
    rfl
  | kCancelAll => rfl
  | unknown => rfl

theorem ofUnion_union {cmd : TraderCmd} (h : cmd.Typed doubles) :
    ofUnion doubles cmd.type (cmd.union doubles) = cmd := by
  cases cmd with
  | kNewOrder orderReq =>
    rw [type, union, ofUnion, Layout.get_put _ _ h]
  | kCancelOrder orderId =>
    rw [type, union, ofUnion, Layout.get_put _ _ h]
  | kCancelTicker tickerId =>
    rw [type, union, ofUnion, Layout.get_put _ _ h]
  | kNotify signal =>
    rw [type, union, ofUnion, Layout.get_put _ _ h]
  | kCancelAll => rfl
  | unknown => rfl

theorem type_lt (cmd : TraderCmd) : cmd.type < 256 ^ 4 := by
  cases cmd <;> exact Nat.lt_of_le_of_lt (by rw [type]; omega) (by decide : 6 < 256 ^ 4)

end TraderCmd

namespace TraderCommand

structure Typed (doubles : Doubles) (c : TraderCommand) : Prop where
  magic : c.magic < 2 ^ 32
  cmd : c.cmd.Typed doubles
  strategyId : (Layout.chars 16).Fits c.strategyId

/-- A command, 72 bytes. Its time stamp is written and not read. -/
def layout (doubles : Doubles) (timestampUs : ℕ) : Layout TraderCommand :=
  ((Layout.natural 4).pair <| (Layout.natural 4).pair <| (Layout.natural 8).pair <|
    Layout.bool.pair <| ((Layout.chars 16).padded 7).pair <| Layout.raw 32).via
  (fun c => (c.magic, c.cmd.type, timestampUs % 2 ^ 64, c.withoutCheck, c.strategyId,
    c.cmd.union doubles))
  (fun (magic, type, _, withoutCheck, strategyId, union) =>
    { magic, cmd := .ofUnion doubles type union, withoutCheck, strategyId })
  (Typed doubles)
  fun c h => by
    refine ⟨⟨h.magic, c.cmd.type_lt, Nat.mod_lt _ (by decide), trivial, h.strategyId,
      c.cmd.length_union⟩, ?_⟩
    dsimp only
    rw [TraderCmd.ofUnion_union h.cmd]

end TraderCommand

namespace OrderResponse

structure Typed (doubles : Doubles) (rsp : OrderResponse) : Prop where
  clientOrderId : rsp.clientOrderId < 2 ^ 32
  orderId : rsp.orderId < 2 ^ 64
  tickerId : rsp.tickerId < 2 ^ 32
  price : doubles.layout.Fits rsp.price
  originalVolume : -2 ^ 31 ≤ rsp.originalVolume ∧ rsp.originalVolume < 2 ^ 31
  tradedVolume : -2 ^ 31 ≤ rsp.tradedVolume ∧ rsp.tradedVolume < 2 ^ 31
  thisTraded : 0 ≤ rsp.thisTraded ∧ rsp.thisTraded < 2 ^ 32
  thisTradedPrice : doubles.layout.Fits rsp.thisTradedPrice

/-- A response, 64 bytes. The `int` of this trade is kept unsigned. -/
def layout (doubles : Doubles) : Layout OrderResponse :=
  (((Layout.natural 4).padded 4).pair <| (Layout.natural 8).pair <| (Layout.natural 4).pair <|
    Direction.layout.pair <| (Offset.layout.padded 2).pair <| doubles.layout.pair <|
    Layout.int32.pair <| Layout.int32.pair <| (Layout.bool.padded 3).pair <|
    ErrorCode.layout.pair <| ((Layout.natural 4).padded 4).pair <| doubles.layout).via
  (fun rsp => (rsp.clientOrderId, rsp.orderId, rsp.tickerId, rsp.direction, rsp.offset, rsp.price,
    rsp.originalVolume, rsp.tradedVolume, rsp.completed, rsp.errorCode,
    (rsp.thisTraded % 2 ^ 32).toNat, rsp.thisTradedPrice))
  (fun (clientOrderId, orderId, tickerId, direction, offset, price, originalVolume, tradedVolume,
      completed, errorCode, thisTraded, thisTradedPrice) =>
    { clientOrderId, orderId, tickerId, direction, offset, price, originalVolume, tradedVolume,
      completed, errorCode, thisTraded, thisTradedPrice })
  (Typed doubles)
  fun rsp h => by
    obtain ⟨hpos, hlt⟩ := h.thisTraded
    have hsame : rsp.thisTraded % 2 ^ 32 = rsp.thisTraded := Int.emod_eq_of_lt hpos hlt
    refine ⟨⟨h.clientOrderId, h.orderId, h.tickerId, trivial, trivial, h.price, h.originalVolume,
      h.tradedVolume, trivial, trivial, ?_, h.thisTradedPrice⟩, ?_⟩
    · change (rsp.thisTraded % 2 ^ 32).toNat < 256 ^ 4
      omega
    · dsimp only
      rw [hsame, Int.toNat_of_nonneg hpos]

end OrderResponse

inductive OrderSender.Call
  | sendOrder (tickerId : ℕ) (volume : ℤ) (direction : Direction) (offset : Offset)
      (type : OrderType) (price : ℚ) (clientOrderId : ℕ)
  | cancelOrder (orderId : ℕ)
  | cancelForTicker (tickerId : ℕ)
  | cancelAll
  | sendNotification (signal : ℕ)

namespace OrderSender

def cancelForTicker (tickerId : ℕ) : TraderCommand where
  cmd := .kCancelTicker tickerId
  strategyId := ""

def cancelAll : TraderCommand where
  cmd := .kCancelAll
  strategyId := ""

def sendNotification (signal : ℕ) : TraderCommand where
  cmd := .kNotify signal
  strategyId := ""

namespace Call

def buyOpen (tickerId : ℕ) (volume : ℤ) (price : ℚ) (type : OrderType) (clientOrderId : ℕ) : Call :=
  .sendOrder tickerId volume .kBuy .kOpen type price clientOrderId

def buyClose (tickerId : ℕ) (volume : ℤ) (price : ℚ) (type : OrderType) (clientOrderId : ℕ) :
    Call :=
  .sendOrder tickerId volume .kBuy .kCloseToday type price clientOrderId

def sellOpen (tickerId : ℕ) (volume : ℤ) (price : ℚ) (type : OrderType) (clientOrderId : ℕ) :
    Call :=
  .sendOrder tickerId volume .kSell .kOpen type price clientOrderId

def sellClose (tickerId : ℕ) (volume : ℤ) (price : ℚ) (type : OrderType) (clientOrderId : ℕ) :
    Call :=
  .sendOrder tickerId volume .kSell .kCloseToday type price clientOrderId

def Typed (doubles : Doubles) : Call → Prop
  | .sendOrder tickerId volume _ _ _ price clientOrderId =>
    clientOrderId < 2 ^ 32 ∧ tickerId < 2 ^ 32 ∧ (-2 ^ 31 ≤ volume ∧ volume < 2 ^ 31) ∧
      doubles.layout.Fits price
  | .cancelOrder orderId => orderId < 2 ^ 64
  | .cancelForTicker tickerId => tickerId < 2 ^ 32
  | .cancelAll => True
  | .sendNotification signal => signal < 2 ^ 64

end Call

/-- The command that is written for a call; only orders carry the strategy's name. -/
def command (sender : OrderSender) : Call → TraderCommand
  | .sendOrder tickerId volume direction offset type price clientOrderId =>
    sender.sendOrder tickerId volume direction offset type price clientOrderId
  | .cancelOrder orderId => OrderSender.cancelOrder orderId
  | .cancelForTicker tickerId => OrderSender.cancelForTicker tickerId
  | .cancelAll => OrderSender.cancelAll
  | .sendNotification signal => OrderSender.sendNotification signal

theorem command_typed {doubles : Doubles} {sender : OrderSender}
    (hid : (Layout.chars 16).Fits sender.strategyId) {call : Call} (h : call.Typed doubles) :
    (sender.command call).Typed doubles := by
  have hmagic : kTradingCmdMagic < 2 ^ 32 := by decide
  have hempty : (Layout.chars 16).Fits "" := by
    constructor <;> simp
  cases call with
  | sendOrder => exact ⟨hmagic, ⟨h.1, h.2.1, h.2.2.1, h.2.2.2⟩, hid⟩
  | cancelOrder orderId => exact ⟨hmagic, h, hempty⟩
  | cancelForTicker tickerId => exact ⟨hmagic, h, hempty⟩
  | cancelAll => exact ⟨hmagic, h, hempty⟩
  | sendNotification signal => exact ⟨hmagic, h, hempty⟩

end OrderSender

end FlareTrader
