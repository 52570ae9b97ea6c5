import FlareTrader.BacktestFunds
import FlareTrader.BacktestPositions

/-! What one step of the backtest gateway books, and the invariant of its runs:
the position calculator covers the resting orders, each the kept copy of an
order that was sent. -/

namespace FlareTrader

namespace BacktestGateway

variable {ε : Type} {m : MatchEngine ε} {ct : ContractTable}

/-- An order that passed the check is booked as pending and then with the events
of its insertion. An insertion that fails is booked as a cancellation that is
not reported. -/
structure Submitted (ct : ContractTable) (L : m.Lawful) (order : OrderRequest)
    (bookings : List Event) (g g' : BacktestGateway ε) : Prop where
  inv : L.inv g'.matchEngine
  inserted : ∃ touch, Inserted order (order.kept touch) (L.resting g.matchEngine) true bookings
    (L.resting g'.matchEngine)
  account : g'.account = bookings.foldl (fun account e => e.bookFund g.currentTicks account)
    (FundCalculator.updatePending order order.volume g.account)
  posCalculator : g'.posCalculator = bookings.foldl (fun c e => e.bookPosition ct c)
    (g.posCalculator.updatePending order.contract.tickerId order.direction order.offset order.volume)
  currentTicks : g'.currentTicks = g.currentTicks
  rspRb : ∃ reported : List Event, g'.rspRb = g.rspRb ++ reported.map Event.response ∧
    (reported = bookings ∨ reported = [] ∧ bookings = [.canceled order order.volume])
  source : bookings = (m.insertOrder order g.matchEngine).2.1 ∨
    bookings = [.canceled order order.volume]

theorem submitted (L : m.Lawful) {g : BacktestGateway ε} {order : OrderRequest}
    (hinv : L.inv g.matchEngine) (hid : order.orderId ∉ orderIds (L.resting g.matchEngine))
    (hcheck : g.checkOrder order = true) :
    ∃ bookings, Submitted ct L order bookings g (g.sendOrder m ct order).2.2 := by
  obtain ⟨hinv', hins⟩ := L.insert_spec order g.matchEngine hinv hid
  have heng : (g.updatePending order order.volume).matchEngine = g.matchEngine := rfl
  simp only [sendOrder, hcheck, Bool.not_true, Bool.false_eq_true, if_false, heng]
  generalize hx : m.insertOrder order g.matchEngine = x at hinv' hins ⊢
  obtain ⟨ok, events, e'⟩ := x
  cases ok with
  | true =>
    refine ⟨events, ?_⟩
    simp only [if_true, listen_eq]
    exact ⟨hinv', ⟨_, hins⟩, rfl, rfl, rfl, ⟨events, rfl, Or.inl rfl⟩, Or.inl (by rw [hx])⟩
  | false =>
    have hbook : L.resting e' = L.resting g.matchEngine ∧ events = [] := by
      generalize hr : L.resting e' = book' at hins
      simp only at hins
      cases hins
      exact ⟨rfl, rfl⟩
    obtain ⟨hbook, rfl⟩ := hbook
    refine ⟨[.canceled order order.volume], ?_⟩
    refine ⟨hinv', ⟨0, ?_⟩, rfl, rfl, rfl, ⟨[], ?_, Or.inr ⟨rfl, rfl⟩⟩, Or.inr rfl⟩
    · have hrest : L.resting e' = L.resting g.matchEngine := hbook
      simp only [Bool.false_eq_true, if_false, listen_eq, updatePending]
      rw [hrest]
      exact .canceled
    · exact (List.append_nil _).symm

theorem sendOrder_refused {g : BacktestGateway ε} {order : OrderRequest}
    (hcheck : ¬g.checkOrder order = true) : (g.sendOrder m ct order).2.2 = g := by
  simp [sendOrder, hcheck]

structure Cleared (ct : ContractTable) (L : m.Lawful) (events : List Event)
    (g g' : BacktestGateway ε) : Prop where
  inv : L.inv g'.matchEngine
  closes : Closes (L.resting g.matchEngine) events (L.resting g'.matchEngine)
  account : g'.account = events.foldl (fun account e => e.bookFund g.currentTicks account) g.account
  posCalculator : g'.posCalculator = events.foldl (fun c e => e.bookPosition ct c) g.posCalculator
  currentTicks : g'.currentTicks = g.currentTicks
  rspRb : g'.rspRb = g.rspRb ++ events.map Event.response

theorem cleared_cancel (L : m.Lawful) {g : BacktestGateway ε} (hinv : L.inv g.matchEngine)
    {orderId privdata : ℕ} {x : Bool × BacktestGateway ε}
    (hx : g.cancelOrder m ct orderId privdata = some x) :
    ∃ y, m.cancelOrder orderId (privdata % 2 ^ 32) g.matchEngine = some y ∧
      Cleared ct L y.2.1 g x.2 := by
  obtain ⟨y, hy, rfl⟩ := Option.map_eq_some_iff.mp hx
  obtain ⟨hinv', hc⟩ := L.cancel_spec _ _ _ y hinv hy
  refine ⟨y, hy, ?_⟩
  rw [listen_eq]
  exact ⟨hinv', hc, rfl, rfl, rfl, rfl⟩

def remark (ct : ContractTable) (tick : TickData) (g : BacktestGateway ε) : BacktestGateway ε :=
  { revalue ct tick g with currentTicks := Function.update g.currentTicks tick.tickerId tick }

theorem remark_eq (ct : ContractTable) (tick : TickData) (g : BacktestGateway ε) :
    g.remark ct tick = { g with
      account := (g.revalue ct tick).account
      currentTicks := Function.update g.currentTicks tick.tickerId tick } := by
  obtain ⟨account, h⟩ := g.revalue_eq ct tick
  rw [remark, h]

@[simp] theorem remark_matchEngine (tick : TickData) (g : BacktestGateway ε) :
    (g.remark ct tick).matchEngine = g.matchEngine := by
  rw [remark_eq]

@[simp] theorem remark_posCalculator (tick : TickData) (g : BacktestGateway ε) :
    (g.remark ct tick).posCalculator = g.posCalculator := by
  rw [remark_eq]

@[simp] theorem remark_rspRb (tick : TickData) (g : BacktestGateway ε) :
    (g.remark ct tick).rspRb = g.rspRb := by
  rw [remark_eq]

theorem cleared_feed (L : m.Lawful) {g : BacktestGateway ε} (hinv : L.inv g.matchEngine)
    (tick : TickData) :
    Cleared ct L (m.onNewTick tick g.matchEngine).1 (g.remark ct tick) (g.onDataFeed m ct tick) := by
  obtain ⟨hinv', hc⟩ := L.tick_spec tick g.matchEngine hinv
  obtain ⟨account, h⟩ := g.revalue_eq ct tick
  rw [remark, onDataFeed, h, listen_eq]
  exact ⟨hinv', hc, rfl, rfl, rfl, rfl⟩

end BacktestGateway

namespace GatewayRun

variable {ε : Type} {m : MatchEngine ε} {ct : ContractTable}

def Regular (ct : ContractTable) (r : GatewayRun ε) : GatewayAction → Prop
  | .send order => (∀ o ∈ r.sent, o.orderId ≠ order.orderId) ∧
      ct.getByIndex order.contract.tickerId = some order.contract ∧
      (order.direction = .kBuy ∨ order.direction = .kSell)
  | _ => True

structure Kept (ct : ContractTable) (L : m.Lawful) (r : GatewayRun ε) : Prop where
  balanced : r.gateway.Balanced ct L
  resting_sent : ∀ k ∈ L.resting r.gateway.matchEngine, ∃ o ∈ r.sent, ∃ touch, k = o.kept touch

namespace Kept

variable {L : m.Lawful} {r : GatewayRun ε}

theorem fresh (h : Kept ct L r) {order : OrderRequest}
    (hfresh : ∀ o ∈ r.sent, o.orderId ≠ order.orderId) :
    order.orderId ∉ orderIds (L.resting r.gateway.matchEngine) := by
  intro hid
  obtain ⟨k, hk, hkid⟩ := Multiset.mem_map.mp hid
  obtain ⟨o, ho, touch, rfl⟩ := h.resting_sent k hk
  exact hfresh o ho ((o.kept_orderId touch).symm.trans hkid)

theorem pend (h : Kept ct L r) {order : OrderRequest}
    (hcheck : r.gateway.checkOrder order = true)
    (hd : isOffsetClose order.offset = true → order.direction = .kBuy ∨ order.direction = .kSell) :
    Booked ct (r.gateway.posCalculator.updatePending order.contract.tickerId order.direction
      order.offset order.volume) (order ::ₘ L.resting r.gateway.matchEngine) := by
  obtain ⟨hv, hclose⟩ := BacktestGateway.checkOrder_spec hcheck
  apply h.balanced.booked.sent hv
  intro hc
  rw [← BacktestGateway.available_eq order r.gateway (hd hc) hc]
  exact hclose hc

theorem submit (h : Kept ct L r) {order : OrderRequest} {bookings : List Event}
    {g : BacktestGateway ε}
    (ht : ct.getByIndex order.contract.tickerId = some order.contract)
    (hpend : Booked ct (r.gateway.posCalculator.updatePending order.contract.tickerId
      order.direction order.offset order.volume) (order ::ₘ L.resting r.gateway.matchEngine))
    (hs : BacktestGateway.Submitted ct L order bookings r.gateway g) :
    Kept ct L ⟨g, r.sent ++ [order]⟩ := by
  obtain ⟨touch, hins⟩ := hs.inserted
  refine ⟨⟨hs.inv, fun k hk => ?_, ?_⟩, fun k hk => ?_⟩
  · rcases hins.mem hk with rfl | hk
    · rwa [OrderRequest.kept_contract]
    · exact h.balanced.listed k hk
  · rw [hs.posCalculator]
    exact (booked_inserted hins ht hpend).1
  · rcases hins.mem hk with rfl | hk
    · exact ⟨order, List.mem_append_right _ (List.mem_singleton_self order), touch, rfl⟩
    · obtain ⟨o, ho, hrest⟩ := h.resting_sent k hk
      exact ⟨o, List.mem_append_left _ ho, hrest⟩

theorem refuse (h : Kept ct L r) (order : OrderRequest) :
    Kept ct L ⟨r.gateway, r.sent ++ [order]⟩ := by
  refine ⟨h.balanced, fun k hk => ?_⟩
  obtain ⟨o, ho, hrest⟩ := h.resting_sent k hk
  exact ⟨o, List.mem_append_left _ ho, hrest⟩

theorem clear (h : Kept ct L r) {events : List Event} {g g' : BacktestGateway ε}
    (heng : g.matchEngine = r.gateway.matchEngine) (hpos : g.posCalculator = r.gateway.posCalculator)
    (hc : BacktestGateway.Cleared ct L events g g') : Kept ct L ⟨g', r.sent⟩ := by
  have hcloses := hc.closes
  rw [heng] at hcloses
  refine ⟨⟨hc.inv, fun k hk => ?_, ?_⟩, fun k hk => ?_⟩
  · exact h.balanced.listed k (Multiset.mem_of_le hcloses.le hk)
  · rw [hc.posCalculator, hpos]
    exact (booked_closes hcloses h.balanced.listed h.balanced.booked).1
  · exact h.resting_sent k (Multiset.mem_of_le hcloses.le hk)

theorem preserved (h : Kept ct L r) {a : GatewayAction} {r' : GatewayRun ε}
    (ha : r.Regular ct a) (hs : step m ct r a = some r') : Kept ct L r' := by
  cases a with
  | send order =>
    cases hs
    obtain ⟨hfresh, ht, hd⟩ := ha
    by_cases hcheck : r.gateway.checkOrder order = true
    · obtain ⟨bookings, hsub⟩ := BacktestGateway.submitted L h.balanced.inv
        (h.fresh hfresh) hcheck
      exact h.submit ht (h.pend hcheck fun _ => hd) hsub
    · rw [BacktestGateway.sendOrder_refused hcheck]
      exact h.refuse order
  | cancel orderId privdata =>
    obtain ⟨x, hx, rfl⟩ := Option.map_eq_some_iff.mp hs
    obtain ⟨y, -, hc⟩ := BacktestGateway.cleared_cancel L h.balanced.inv hx
    exact h.clear rfl rfl hc
  | feed tick =>
    cases hs
    exact h.clear (BacktestGateway.remark_matchEngine tick r.gateway)
      (BacktestGateway.remark_posCalculator tick r.gateway)
      (BacktestGateway.cleared_feed L h.balanced.inv tick)

theorem start (L : m.Lawful) {g : BacktestGateway ε} (hinv : L.inv g.matchEngine)
    (hresting : L.resting g.matchEngine = 0) (hpos : g.posCalculator = {}) :
    Kept ct L { gateway := g } := by
  refine ⟨⟨hinv, fun k hk => ?_, ?_⟩, fun k hk => ?_⟩
  · rw [hresting] at hk
    exact absurd hk (Multiset.notMem_zero k)
  · rw [hresting, hpos]
    exact Booked.empty
  · rw [hresting] at hk
    exact absurd hk (Multiset.notMem_zero k)

end Kept

end GatewayRun

def Side.opener : Side → Direction
  | .long => .kBuy
  | .short => .kSell

def Side.closer : Side → Direction
  | .long => .kSell
  | .short => .kBuy

def openVolume (book : RestingBook) (t : ℕ) (s : Side) : ℤ :=
  ((book.filter fun k => k.contract.tickerId = t ∧ isOffsetOpen k.offset = true ∧
    k.direction = s.opener).map OrderRequest.volume).sum

def closeVolume (book : RestingBook) (t : ℕ) (s : Side) : ℤ :=
  ((book.filter fun k => k.contract.tickerId = t ∧ isOffsetOpen k.offset = false ∧
    k.direction = s.closer).map OrderRequest.volume).sum

theorem OrderRequest.side_eq_iff {k : OrderRequest}
    (hd : k.direction = .kBuy ∨ k.direction = .kSell) (s : Side) :
    s = k.side ↔ k.direction = if isOffsetOpen k.offset then s.opener else s.closer := by
  rw [OrderRequest.side, bookedSide, isOffsetClose_eq]
  rcases hd with hd | hd <;> cases s <;> cases isOffsetOpen k.offset <;>
    simp [hd, sideOf, oppositeDirection, Side.opener, Side.closer]

section Volumes

variable {k : OrderRequest} (hd : k.direction = .kBuy ∨ k.direction = .kSell) (t : ℕ) (s : Side)

include hd

theorem OrderRequest.pending_openPending : (k.pending t s).openPending =
    if k.contract.tickerId = t ∧ isOffsetOpen k.offset = true ∧ k.direction = s.opener
    then k.volume else 0 := by
  simp only [OrderRequest.pending_apply, k.side_eq_iff hd, pendingEntry, isOffsetClose_eq,
    @eq_comm _ t]
  cases isOffsetOpen k.offset with
  | true => by_cases hat : k.contract.tickerId = t ∧ k.direction = s.opener <;> simp [hat, Entry.openPending]
  | false =>
    simp only [Entry.openPending]
    split_ifs <;> simp_all

theorem OrderRequest.pending_closePending : (k.pending t s).closePending =
    if k.contract.tickerId = t ∧ isOffsetOpen k.offset = false ∧ k.direction = s.closer
    then k.volume else 0 := by
  simp only [OrderRequest.pending_apply, k.side_eq_iff hd, pendingEntry, isOffsetClose_eq,
    @eq_comm _ t]
  cases isOffsetOpen k.offset with
  | false => by_cases hat : k.contract.tickerId = t ∧ k.direction = s.closer <;> simp [hat, Entry.closePending]
  | true =>
    simp only [Entry.closePending]
    split_ifs <;> simp_all

end Volumes

section Books

variable {book : RestingBook} (hd : ∀ k ∈ book, k.direction = .kBuy ∨ k.direction = .kSell)
  (t : ℕ) (s : Side)

include hd

theorem openVolume_eq : openVolume book t s = (pendings book t s).openPending := by
  induction book using Multiset.induction_on with
  | empty => rfl
  | cons k book ih =>
    have hrest := ih fun k' hk' => hd k' (Multiset.mem_cons_of_mem hk')
    rw [pendings_cons, Pi.add_apply, Pi.add_apply, Entry.openPending_add, ← hrest,
      OrderRequest.pending_openPending (hd k (Multiset.mem_cons_self k book)), openVolume,
      openVolume, Multiset.filter_cons]
    split_ifs <;> simp

theorem closeVolume_eq : closeVolume book t s = (pendings book t s).closePending := by
  induction book using Multiset.induction_on with
  | empty => rfl
  | cons k book ih =>
    have hrest := ih fun k' hk' => hd k' (Multiset.mem_cons_of_mem hk')
    rw [pendings_cons, Pi.add_apply, Pi.add_apply, Entry.closePending_add, ← hrest,
      OrderRequest.pending_closePending (hd k (Multiset.mem_cons_self k book)), closeVolume,
      closeVolume, Multiset.filter_cons]
    split_ifs <;> simp

end Books

namespace GatewayRun

theorem directed_step {ε : Type} {m : MatchEngine ε} {ct : ContractTable} {r r' : GatewayRun ε}
    {a : GatewayAction} (h : ∀ o ∈ r.sent, o.direction = .kBuy ∨ o.direction = .kSell)
    (ha : r.Regular ct a) (hs : step m ct r a = some r') :
    ∀ o ∈ r'.sent, o.direction = .kBuy ∨ o.direction = .kSell := by
  cases a with
  | send order =>
    cases hs
    intro o ho
    rcases List.mem_append.mp ho with ho | ho
    · exact h o ho
    · rw [List.mem_singleton.mp ho]
      exact ha.2.2
  | cancel orderId privdata =>
    obtain ⟨x, -, rfl⟩ := Option.map_eq_some_iff.mp hs
    exact h
  | feed tick =>
    cases hs
    exact h

end GatewayRun

theorem positions_match_resting (ct : ContractTable) (dataFeed : List TickData)
    (r : GatewayRun SimpleMatchEngine)
    (h : Execution.Reaches (GatewayRun.step SimpleMatchEngine.engine ct)
      (GatewayRun.Regular ct) { gateway := { matchEngine := {}, dataFeed } } r) :
    (∀ t s,
      (r.gateway.posCalculator.ledger t s).openPending =
          openVolume (SimpleMatchEngine.resting r.gateway.matchEngine) t s ∧
        (r.gateway.posCalculator.ledger t s).closePending =
          closeVolume (SimpleMatchEngine.resting r.gateway.matchEngine) t s ∧
        0 ≤ (r.gateway.posCalculator.ledger t s).closePending ∧
        (r.gateway.posCalculator.ledger t s).closePending ≤
          (r.gateway.posCalculator.ledger t s).holdings) ∧
      r.gateway.posCalculator.assertsHold = true ∧
      (ct.SizesPositive → r.gateway.posCalculator.sizesHold = true) := by
  have hk : GatewayRun.Kept ct SimpleMatchEngine.lawful r :=
    h.invariant (GatewayRun.Kept ct SimpleMatchEngine.lawful) (fun _ _ _ hk ha hs =>
      hk.preserved ha hs) (.start _ SimpleMatchEngine.filed_empty rfl rfl)
  have hsent : ∀ o ∈ r.sent, o.direction = .kBuy ∨ o.direction = .kSell := by
    apply h.invariant (fun r => ∀ o ∈ r.sent, o.direction = .kBuy ∨ o.direction = .kSell)
    · exact fun _ _ _ hk ha hs => GatewayRun.directed_step hk ha hs
    · simp
  have hd : ∀ k ∈ SimpleMatchEngine.resting r.gateway.matchEngine,
      k.direction = .kBuy ∨ k.direction = .kSell := by
    intro k hmem
    obtain ⟨o, ho, touch, rfl⟩ := hk.resting_sent k hmem
    rw [OrderRequest.kept_direction]
    exact hsent o ho
  have hcovers := hk.balanced.booked.covers
  refine ⟨fun t s => ⟨?_, ?_, (hcovers.sound t s).2.1, hcovers.closable t s⟩,
    hk.balanced.booked.asserts, hk.balanced.booked.sizes⟩
  · rw [openVolume_eq hd, hcovers.openPending]
    rfl
  · rw [closeVolume_eq hd, hcovers.closePending]
    rfl

def limitOrder (orderId : ℕ) (direction : Direction) (offset : Offset) (volume : ℤ) (price : ℚ) :
    OrderRequest where
  contract := ticker001
  orderId := orderId
  type := .kLimit
  direction := direction
  offset := offset
  volume := volume
  price := price

def halfOffered : BacktestGateway SimpleMatchEngine :=
  let ct := ContractTable.ofList [ticker001]
  let g : BacktestGateway SimpleMatchEngine := { matchEngine := {} }
  let g := g.onDataFeed SimpleMatchEngine.engine ct quoteTick
  let g := (g.sendOrder SimpleMatchEngine.engine ct (limitOrder 1 .kBuy .kOpen 2 101)).2.2
  (g.sendOrder SimpleMatchEngine.engine ct (limitOrder 2 .kSell .kClose 1 110)).2.2

theorem positions_match_resting_halfOffered :
    halfOffered.posCalculator.ledger 1 .long = (2, 0, 1) ∧
      (halfOffered.posCalculator.ledger 1 .long).closePending =
        closeVolume (SimpleMatchEngine.resting halfOffered.matchEngine) 1 .long := by
  have hstart : Execution.Reaches (GatewayRun.step SimpleMatchEngine.engine (.ofList [ticker001]))
      (GatewayRun.Regular (.ofList [ticker001]))
      { gateway := { matchEngine := {}, dataFeed := [] } }
      { gateway := { matchEngine := {}, dataFeed := [] } } := .refl _
  have hfeed := hstart.tail (.feed quoteTick) trivial rfl
  have hbuy := hfeed.tail (.send (limitOrder 1 .kBuy .kOpen 2 101))
    ⟨by simp, rfl, Or.inl rfl⟩ rfl
  have hsell := hbuy.tail (.send (limitOrder 2 .kSell .kClose 1 110))
    ⟨by simp [limitOrder], rfl, Or.inr rfl⟩ rfl
  exact ⟨by decide +kernel, ((positions_match_resting (.ofList [ticker001]) [] _ hsell).1 1 .long).2.1⟩

end FlareTrader
