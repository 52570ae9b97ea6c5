import FlareTrader.BacktestGateway
import FlareTrader.LedgerCover

/-! Positions under the bookings of an order's life: a calculator that covers the
live orders covers them after an order is sent, filled or withdrawn. The
gateway's own calculator covers the orders that rest in its match engine. -/

namespace FlareTrader

def ContractTable.SizesPositive (ct : ContractTable) : Prop :=
  ∀ t contract, ct.getByIndex t = some contract → 0 < contract.size

def Listed (ct : ContractTable) (book : RestingBook) : Prop :=
  ∀ k ∈ book, ct.getByIndex k.contract.tickerId = some k.contract

/-- A calculator whose ledger covers the live orders and whose assertions held,
that about contract sizes if the table has none below one. -/
structure Booked (ct : ContractTable) (c : PositionCalculator) (live : RestingBook) : Prop where
  covers : Covers c.ledger live
  asserts : c.assertsHold = true
  sizes : ct.SizesPositive → c.sizesHold = true

namespace Booked

variable {ct : ContractTable} {c : PositionCalculator} {live : RestingBook} {order : OrderRequest}

theorem empty : Booked ct {} 0 := ⟨Covers.empty, rfl, fun _ => rfl⟩

theorem sent (h : Booked ct c live) (hv : 0 < order.volume)
    (hclose : isOffsetClose order.offset = true → order.volume ≤
      (c.ledger order.contract.tickerId order.side).holdings -
        (c.ledger order.contract.tickerId order.side).closePending) :
    Booked ct (c.updatePending order.contract.tickerId order.direction order.offset order.volume)
      (order ::ₘ live) := by
  have hcovers : Covers (c.updatePending order.contract.tickerId order.direction order.offset
      order.volume).ledger (order ::ₘ live) := by
    rw [PositionCalculator.ledger_updatePending]
    exact h.covers.send hv hclose
  refine ⟨hcovers, ?_, fun hs => ?_⟩
  · exact PositionCalculator.assertsHold_updatePending h.asserts (hcovers.sound _ _)
  · exact (PositionCalculator.sizesHold_updatePending _ _ _ _ c).trans (h.sizes hs)

theorem withdrawn (h : Booked ct c (order ::ₘ live)) :
    Booked ct (c.updatePending order.contract.tickerId order.direction order.offset
      (-order.volume)) live := by
  have hcovers : Covers (c.updatePending order.contract.tickerId order.direction order.offset
      (-order.volume)).ledger live := by
    rw [PositionCalculator.ledger_updatePending]
    exact h.covers.withdraw
  refine ⟨hcovers, ?_, fun hs => ?_⟩
  · exact PositionCalculator.assertsHold_updatePending h.asserts (hcovers.sound _ _)
  · exact (PositionCalculator.sizesHold_updatePending _ _ _ _ c).trans (h.sizes hs)

theorem traded (h : Booked ct c (order ::ₘ live))
    (ht : ct.getByIndex order.contract.tickerId = some order.contract) (price : ℚ) :
    Booked ct (c.updateTraded ct order.contract.tickerId order.direction order.offset order.volume
      price).2 live := by
  have hv := h.covers.volume_pos order (Multiset.mem_cons_self order live)
  have hcovers : Covers (c.updateTraded ct order.contract.tickerId order.direction order.offset
      order.volume price).2.ledger live := by
    rw [PositionCalculator.ledger_updateTraded ht order.direction order.offset hv]
    exact h.covers.fill
  refine ⟨hcovers, ?_, fun hs => ?_⟩
  · exact PositionCalculator.assertsHold_updateTraded ht hv h.asserts (hcovers.sound _ _)
  · rw [PositionCalculator.sizesHold_updateTraded ht _ _ hv, h.sizes hs]
    exact decide_eq_true (hs _ _ ht)

end Booked

namespace Event

def delta : Event → Ledger
  | .rejected order => order.withdrawn
  | .traded order volume _ _ =>
    tradedDelta order.contract.tickerId order.direction order.offset volume
  | .canceled order canceledVolume =>
    pendingDelta order.contract.tickerId order.direction order.offset (-canceledVolume)
  | _ => 0

end Event

theorem Booked.kept {ct : ContractTable} {c : PositionCalculator} {live : RestingBook}
    {order : OrderRequest} (h : Booked ct c (order ::ₘ live)) (touch : ℚ) :
    Booked ct c (order.kept touch ::ₘ live) := by
  obtain ⟨price, hp⟩ := order.kept_eq touch
  have hpend : pendings (order.kept touch ::ₘ live) = pendings (order ::ₘ live) := by
    rw [pendings_cons, pendings_cons, hp]
    rfl
  refine ⟨⟨fun o ho => ?_, ?_, ?_, h.covers.closable⟩, h.asserts, h.sizes⟩
  · rcases Multiset.mem_cons.mp ho with rfl | ho
    · rw [OrderRequest.kept_volume]
      exact h.covers.volume_pos order (Multiset.mem_cons_self order live)
    · exact h.covers.volume_pos o (Multiset.mem_cons_of_mem ho)
  · rw [hpend]
    exact h.covers.openPending
  · rw [hpend]
    exact h.covers.closePending

theorem booked_inserted {ct : ContractTable} {order : OrderRequest} {touch : ℚ}
    {book book' : RestingBook} {events : List Event}
    (h : Inserted order (order.kept touch) book true events book')
    (ht : ct.getByIndex order.contract.tickerId = some order.contract) {c : PositionCalculator}
    (hb : Booked ct c (order ::ₘ book)) :
    Booked ct (events.foldl (fun c e => e.bookPosition ct c) c) book' ∧
      (events.foldl (fun c e => e.bookPosition ct c) c).ledger =
        c.ledger + (events.map Event.delta).sum := by
  have hv := hb.covers.volume_pos order (Multiset.mem_cons_self order book)
  cases h with
  | rested => exact ⟨hb.kept touch, (add_zero _).symm⟩
  | rejected =>
    refine ⟨hb.withdrawn, ?_⟩
    rw [List.map_singleton, List.sum_singleton]
    exact PositionCalculator.ledger_updatePending _ _ _ _ c
  | traded price ts =>
    refine ⟨hb.traded ht price, ?_⟩
    rw [List.map_singleton, List.sum_singleton]
    exact PositionCalculator.ledger_updateTraded ht _ _ hv price c
  | canceled =>
    refine ⟨hb.withdrawn, ?_⟩
    rw [List.map_singleton, List.sum_singleton]
    exact PositionCalculator.ledger_updatePending _ _ _ _ c

theorem booked_closes {ct : ContractTable} {book book' : RestingBook} {events : List Event}
    (h : Closes book events book') (hl : Listed ct book) {c : PositionCalculator}
    (hb : Booked ct c book) :
    Booked ct (events.foldl (fun c e => e.bookPosition ct c) c) book' ∧
      (events.foldl (fun c e => e.bookPosition ct c) c).ledger =
        c.ledger + (events.map Event.delta).sum := by
  induction h generalizing c with
  | nil book => exact ⟨hb, by simp⟩
  | cancelRejected id rest ih =>
    obtain ⟨hbook, hledger⟩ := ih hl hb
    refine ⟨hbook, hledger.trans ?_⟩
    have hdelta : (Event.cancelRejected id).delta = 0 := rfl
    rw [List.map_cons, List.sum_cons, hdelta, zero_add]
  | traded order price ts rest ih =>
    have ht := hl order (Multiset.mem_cons_self order _)
    have hv := hb.covers.volume_pos order (Multiset.mem_cons_self order _)
    obtain ⟨hbook, hledger⟩ := ih (fun k hk => hl k (Multiset.mem_cons_of_mem hk))
      (hb.traded ht price)
    refine ⟨hbook, hledger.trans ?_⟩
    rw [PositionCalculator.ledger_updateTraded ht order.direction order.offset hv, List.map_cons,
      List.sum_cons, ← add_assoc]
    rfl
  | canceled order rest ih =>
    obtain ⟨hbook, hledger⟩ := ih (fun k hk => hl k (Multiset.mem_cons_of_mem hk)) hb.withdrawn
    refine ⟨hbook, hledger.trans ?_⟩
    rw [PositionCalculator.ledger_updatePending, List.map_cons, List.sum_cons, ← add_assoc]
    rfl

namespace BacktestGateway

variable {ε : Type} {m : MatchEngine ε} {ct : ContractTable}

structure Balanced (ct : ContractTable) (L : m.Lawful) (g : BacktestGateway ε) : Prop where
  inv : L.inv g.matchEngine
  listed : Listed ct (L.resting g.matchEngine)
  booked : Booked ct g.posCalculator (L.resting g.matchEngine)

structure Moved (L : m.Lawful) (events : List Event) (g g' : BacktestGateway ε) : Prop where
  closes : Closes (L.resting g.matchEngine) events (L.resting g'.matchEngine)
  rspRb : g'.rspRb = g.rspRb ++ events.map Event.response
  ledger : g'.posCalculator.ledger = g.posCalculator.ledger + (events.map Event.delta).sum

theorem Balanced.moved {L : m.Lawful} {g : BacktestGateway ε} (h : Balanced ct L g)
    (g' : BacktestGateway ε) {events : List Event} (hinv : L.inv g'.matchEngine)
    (hpos : g'.posCalculator = g.posCalculator)
    (hrsp : g'.rspRb = g.rspRb)
    (hc : Closes (L.resting g.matchEngine) events (L.resting g'.matchEngine)) :
    Balanced ct L (g'.listen ct events) ∧ Moved L events g (g'.listen ct events) := by
  obtain ⟨hbooked, hledger⟩ := booked_closes hc h.listed h.booked
  rw [listen_eq, hpos, hrsp]
  exact ⟨⟨hinv, fun k hk => h.listed k (Multiset.mem_of_le hc.le hk), hbooked⟩, ⟨hc, rfl, hledger⟩⟩

theorem Balanced.cancel {L : m.Lawful} {g : BacktestGateway ε} (h : Balanced ct L g)
    {orderId privdata : ℕ} {x : Bool × BacktestGateway ε}
    (hx : g.cancelOrder m ct orderId privdata = some x) :
    Balanced ct L x.2 ∧ ∃ events, Moved L events g x.2 := by
  obtain ⟨y, hy, rfl⟩ := Option.map_eq_some_iff.mp hx
  obtain ⟨hinv, hc⟩ := L.cancel_spec _ _ _ y h.inv hy
  have hlisten : Balanced ct L (listen ct y.2.1 { g with matchEngine := y.2.2 }) ∧
      Moved L y.2.1 g (listen ct y.2.1 { g with matchEngine := y.2.2 }) :=
    h.moved { g with matchEngine := y.2.2 } hinv rfl rfl hc
  exact ⟨hlisten.1, y.2.1, hlisten.2⟩

theorem revalue_eq (ct : ContractTable) (tick : TickData) (g : BacktestGateway ε) :
    ∃ account, g.revalue ct tick = { g with account } := by
  unfold revalue
  cases g.posCalculator.getPosition tick.tickerId with
  | none => exact ⟨g.account, rfl⟩
  | some pos =>
    simp only
    split_ifs
    · exact ⟨_, rfl⟩
    · exact ⟨g.account, rfl⟩

theorem Balanced.feed {L : m.Lawful} {g : BacktestGateway ε} (h : Balanced ct L g)
    (tick : TickData) :
    Balanced ct L (g.onDataFeed m ct tick) ∧ ∃ events, Moved L events g (g.onDataFeed m ct tick) := by
  obtain ⟨account, hrev⟩ := g.revalue_eq ct tick
  obtain ⟨hinv, hc⟩ := L.tick_spec tick g.matchEngine h.inv
  have heq : g.onDataFeed m ct tick = listen ct (m.onNewTick tick g.matchEngine).1
      { g with
        account := account
        currentTicks := Function.update g.currentTicks tick.tickerId tick
        matchEngine := (m.onNewTick tick g.matchEngine).2 } := by
    unfold onDataFeed
    rw [hrev]
  rw [heq]
  have hmoved := h.moved { g with
    account := account
    currentTicks := Function.update g.currentTicks tick.tickerId tick
    matchEngine := (m.onNewTick tick g.matchEngine).2 } hinv rfl rfl hc
  exact ⟨hmoved.1, _, hmoved.2⟩

theorem available_eq (order : OrderRequest) (g : BacktestGateway ε)
    (hd : order.direction = .kBuy ∨ order.direction = .kSell)
    (hclose : isOffsetClose order.offset = true) :
    g.available order = (g.posCalculator.ledger order.contract.tickerId order.side).holdings -
      (g.posCalculator.ledger order.contract.tickerId order.side).closePending := by
  unfold available PositionCalculator.ledger OrderRequest.side bookedSide
  rw [if_pos hclose]
  cases g.posCalculator.getPosition order.contract.tickerId with
  | none => rfl
  | some pos =>
    rcases hd with hd | hd
    · simp [hd, oppositeDirection, sideOf, Position.side, PositionDetail.entry, Entry.holdings,
        Entry.closePending]
    · simp [hd, oppositeDirection, sideOf, Position.side, PositionDetail.entry, Entry.holdings,
        Entry.closePending]

theorem checkOrder_spec {order : OrderRequest} {g : BacktestGateway ε}
    (h : g.checkOrder order = true) : 0 < order.volume ∧
      (isOffsetClose order.offset = true → order.volume ≤ g.available order) := by
  unfold checkOrder at h
  split_ifs at h with htype hprice hvolume hfund hclose
  refine ⟨not_le.mp hvolume, fun hc => ?_⟩
  by_contra hlt
  exact hclose ⟨hc, not_le.mp hlt⟩

theorem Balanced.send {L : m.Lawful} {g : BacktestGateway ε} (h : Balanced ct L g)
    {order : OrderRequest} (hid : order.orderId ∉ orderIds (L.resting g.matchEngine))
    (ht : ct.getByIndex order.contract.tickerId = some order.contract)
    (hd : order.direction = .kBuy ∨ order.direction = .kSell)
    (hok : (g.sendOrder m ct order).1 = true) :
    0 < order.volume ∧ Balanced ct L (g.sendOrder m ct order).2.2 ∧ ∃ events touch,
      Inserted order (order.kept touch) (L.resting g.matchEngine) true events
        (L.resting (g.sendOrder m ct order).2.2.matchEngine) ∧
      (g.sendOrder m ct order).2.2.rspRb = g.rspRb ++ events.map Event.response ∧
      (g.sendOrder m ct order).2.2.posCalculator.ledger =
        g.posCalculator.ledger + order.pending + (events.map Event.delta).sum := by
  obtain ⟨hinv, hins⟩ := L.insert_spec order g.matchEngine h.inv hid
  by_cases hcheck : g.checkOrder order = true
  · obtain ⟨hv, hclose⟩ := checkOrder_spec hcheck
    have hsent : Booked ct (g.updatePending order order.volume).posCalculator
        (order ::ₘ L.resting g.matchEngine) :=
      h.booked.sent hv fun hc => available_eq order g hd hc ▸ hclose hc
    have hledger : (g.updatePending order order.volume).posCalculator.ledger =
        g.posCalculator.ledger + order.pending := PositionCalculator.ledger_updatePending _ _ _ _ _
    have heng : (g.updatePending order order.volume).matchEngine = g.matchEngine := rfl
    have hrsp : (g.updatePending order order.volume).rspRb = g.rspRb := rfl
    simp only [sendOrder, hcheck, Bool.not_true, Bool.false_eq_true, if_false, heng] at hok ⊢
    generalize m.insertOrder order g.matchEngine = x at *
    obtain ⟨ok, events, e'⟩ := x
    cases ok with
    | false => cases hok
    | true =>
      obtain ⟨hbooked, hevents⟩ := booked_inserted hins ht hsent
      simp only [if_true, listen_eq]
      refine ⟨hv, ⟨hinv, fun k hk => ?_, hbooked⟩, events, _, hins, ?_, ?_⟩
      · rcases hins.mem hk with rfl | hk
        · rwa [OrderRequest.kept_contract]
        · exact h.listed k hk
      · rw [hrsp]
      · rw [hevents, hledger]
  · simp [sendOrder, hcheck] at hok

end BacktestGateway

end FlareTrader
