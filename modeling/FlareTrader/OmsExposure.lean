import FlareTrader.MachineInt
import FlareTrader.OmsBacktest

/-! The range of the ledgers. What a side holds and may still open grows by new orders only, so
the counts stay `int`s while each opening order leaves it below `2 ^ 31`; an order beyond that
wraps the pending count. -/

open MachineInt (IsInt32 int32)

namespace FlareTrader

namespace Entry

def exposure (e : Entry) : ℤ := e.holdings + e.openPending

structure Ints (e : Entry) : Prop where
  holdings : IsInt32 e.holdings
  openPending : IsInt32 e.openPending
  closePending : IsInt32 e.closePending

theorem exposure_add (a b : Entry) : (a + b).exposure = a.exposure + b.exposure := by
  simp only [exposure, holdings_add, openPending_add]
  ring

theorem Sound.exposure_nonneg {e : Entry} (h : e.Sound) : 0 ≤ e.exposure := by
  obtain ⟨hopen, hclose, hle⟩ := h
  unfold exposure
  omega

theorem Sound.ints {e : Entry} (h : e.Sound) (hlt : e.exposure < 2 ^ 31) : e.Ints := by
  obtain ⟨hopen, hclose, hle⟩ := h
  unfold exposure at hlt
  exact ⟨⟨by omega, by omega⟩, ⟨by omega, by omega⟩, ⟨by omega, by omega⟩⟩

end Entry

theorem exposure_pending (req : OrderRequest) (t : ℕ) (side : Side) :
    (req.pending t side).exposure =
      if (t = req.contract.tickerId ∧ side = req.side) ∧ isOffsetClose req.offset = false then
        req.volume else 0 := by
  rw [req.pending_apply, pendingEntry]
  by_cases hside : t = req.contract.tickerId ∧ side = req.side
  · cases isOffsetClose req.offset <;>
      simp [hside, Entry.exposure, Entry.holdings, Entry.openPending]
  · simp [hside, Entry.exposure]

/-- A fill moves pending volume to the holdings, or takes volume from both. -/
theorem exposure_effect_nonpos {req : OrderRequest} {rsp : GatewayOrderResponse}
    (hs : rsp.Settles req) (hv : 0 < req.volume) (t : ℕ) (side : Side) :
    (req.effect rsp t side).exposure ≤ 0 := by
  have hsingle : ∀ tickerId side' (e : Entry), e.exposure ≤ 0 →
      (Ledger.single tickerId side' e t side).exposure ≤ 0 := by
    intro tickerId side' e he
    unfold Ledger.single
    split_ifs
    · exact he
    · exact le_rfl
  have hpending : ∀ volume : ℤ, 0 ≤ volume →
      (pendingEntry req.offset (0 - volume)).exposure ≤ 0 := by
    intro volume hvolume
    unfold pendingEntry
    split_ifs <;> simp [Entry.exposure, Entry.holdings, Entry.openPending, hvolume]
  cases rsp with
  | traded rsp =>
    have hvolume : rsp.volume = req.volume := hs
    apply hsingle
    unfold tradedEntry
    split_ifs <;> simp [Entry.exposure, Entry.holdings, Entry.openPending, hvolume, hv.le]
  | rejected id reason => exact hsingle _ _ _ (hpending _ hv.le)
  | canceled id volume =>
    have hvolume : volume = req.volume := hs
    exact hsingle _ _ _ (hpending _ (hvolume ▸ hv.le))
  | accepted id => cases hs
  | cancelRejected id reason => cases hs

theorem PositionManager.exposure_le_total {m : PositionManager}
    (h : ∀ key t side, (m.ledgerOf key t side).Sound) (key : String) (t : ℕ) (side : Side) :
    (m.ledgerOf key t side).exposure ≤ (m.total t side).exposure := by
  have hrest : ∀ entries : List (String × PositionCalculator),
      (∀ entry ∈ entries, m.stPosCalculators.find? entry.1 = some entry.2) →
      0 ≤ ((entries.map fun entry => entry.2.ledger).sum t side).exposure := by
    intro entries hentries
    induction entries with
    | nil => exact le_rfl
    | cons entry entries ih =>
      have hown := h entry.1 t side
      rw [ledgerOf, calculator, hentries entry List.mem_cons_self, Option.getD_some] at hown
      rw [List.map_cons, List.sum_cons, Pi.add_apply, Pi.add_apply, Entry.exposure_add]
      exact add_nonneg hown.exposure_nonneg
        (ih fun entry' hmem => hentries entry' (List.mem_cons_of_mem _ hmem))
  have hothers : 0 ≤ ((m.stPosCalculators.erase key).sum (fun _ c => c.ledger) t side).exposure :=
    hrest _ fun entry hmem => SortedMap.find?_eq_some.mpr (List.mem_of_mem_filter hmem)
  rw [total, SortedMap.sum_eq_add m.stPosCalculators key, Pi.add_apply, Pi.add_apply,
    Entry.exposure_add, ledgerOf, calculator]
  cases m.stPosCalculators.find? key with
  | none => exact add_nonneg (le_refl (0 : ℤ)) hothers
  | some c => exact le_add_of_nonneg_right hothers

namespace Oms

variable {ε : Type} {m : MatchEngine ε} {ct : ContractTable} {L : m.Lawful}
  {s s' : Oms (BacktestGateway ε)}

def Bounded (s : Oms (BacktestGateway ε)) : Prop :=
  ∀ t side, (s.params.posManager.total t side).exposure < 2 ^ 31

/-- An opening order leaves what all strategies together hold and may open on its side below
`2 ^ 31`. -/
def RoomToOpen (s : Oms (BacktestGateway ε)) : BacktestAction → Prop
  | .command cmd _ _ _ => ∀ orderReq, cmd.Submits orderReq →
      isOffsetClose orderReq.offset = false →
      (s.params.posManager.total orderReq.tickerId
        (bookedSide orderReq.direction orderReq.offset)).exposure + orderReq.volume < 2 ^ 31
  | _ => True

theorem Reconciled.total_visit (h : Reconciled ct L s) {rsp : GatewayOrderResponse}
    {rspRb : List GatewayOrderResponse} (hring : s.gateway.rspRb = rsp :: rspRb) :
    (visit ct { s with gateway := { s.gateway with rspRb } } rsp).params.posManager.total =
      s.params.posManager.total + effect s.orderMap rsp := by
  cases hf : rsp.IsFinal with
  | true =>
    obtain ⟨order, hfind, hsettles⟩ := h.settles rsp (hring ▸ List.mem_cons_self) hf
    obtain ⟨-, -, hu⟩ := h.live _ order hfind
    have hnow : { s with gateway := { s.gateway with rspRb } }.orderMap.find? rsp.orderId =
        some order := hfind
    rw [(visit_became ct hnow).posManager, h.positionRule, Function.iterate_one,
      effect_of_find? hfind]
    exact Order.booked_total hsettles hu.volume_pos hu.listed
  | false =>
    rw [effect_of_not_final _ hf, add_zero]
    cases hfind : s.orderMap.find? rsp.orderId with
    | none =>
      have hnow : { s with gateway := { s.gateway with rspRb } }.orderMap.find? rsp.orderId =
          none := hfind
      rw [visit_of_find?_none ct hnow]
    | some order =>
      have hnow : { s with gateway := { s.gateway with rspRb } }.orderMap.find? rsp.orderId =
          some order := hfind
      rw [(visit_became ct hnow).posManager, Order.booked_of_not_final hf, Function.iterate_id]
      rfl

theorem Reconciled.exposure_effect (h : Reconciled ct L s) {rsp : GatewayOrderResponse}
    (hrsp : rsp ∈ s.gateway.rspRb) (t : ℕ) (side : Side) :
    (effect s.orderMap rsp t side).exposure ≤ 0 := by
  cases hf : rsp.IsFinal with
  | true =>
    obtain ⟨order, hfind, hsettles⟩ := h.settles rsp hrsp hf
    obtain ⟨-, -, hu⟩ := h.live _ order hfind
    rw [effect_of_find? hfind]
    exact exposure_effect_nonpos hsettles hu.volume_pos t side
  | false =>
    rw [effect_of_not_final _ hf]
    exact le_rfl

theorem Reconciled.exposure_inFlight (h : Reconciled ct L s) (t : ℕ) (side : Side) :
    (inFlight s t side).exposure ≤ 0 := by
  have hall : ∀ rsps : List GatewayOrderResponse, (∀ rsp ∈ rsps, rsp ∈ s.gateway.rspRb) →
      ((rsps.map (effect s.orderMap)).sum t side).exposure ≤ 0 := by
    intro rsps hrsps
    induction rsps with
    | nil => exact le_rfl
    | cons rsp rsps ih =>
      rw [List.map_cons, List.sum_cons, Pi.add_apply, Pi.add_apply, Entry.exposure_add]
      exact add_nonpos (h.exposure_effect (hrsps rsp List.mem_cons_self) t side)
        (ih fun rsp' hrsp' => hrsps rsp' (List.mem_cons_of_mem _ hrsp'))
  exact hall _ fun _ hrsp => hrsp

theorem Bounded.drained (hb : s.Bounded) (h : Reconciled ct L s) (count : ℕ) :
    (drain (BacktestGateway.gateway m ct) ct count s).Bounded := by
  induction count generalizing s with
  | zero => exact hb
  | succ count ih =>
    cases hring : s.gateway.rspRb with
    | nil => simpa only [drain, BacktestGateway.gateway, hring] using hb
    | cons rsp rspRb =>
      have hvisited : (visit ct { s with gateway := { s.gateway with rspRb } } rsp).Bounded := by
        intro t side
        rw [h.total_visit hring, Pi.add_apply, Pi.add_apply, Entry.exposure_add]
        have heffect := h.exposure_effect (hring ▸ List.mem_cons_self) t side
        have hbefore := hb t side
        omega
      have hrest := ih hvisited (h.visited hring)
      simpa only [drain, BacktestGateway.gateway, hring] using hrest

theorem total_orderSent (order : Order)
    (hrule : (s.rules.map RiskRule.kind).count .position = 1) :
    (orderSent order s).params.posManager.total =
      s.params.posManager.total + order.req.pending := by
  have hsent : (orderSent order s).params.posManager =
      PositionRisk.onOrderSent order s.params.posManager := by
    apply (RiskManagementSystem.onOrderSent_posManager order s.rules _).trans
    rw [hrule]
    rfl
  rw [hsent]
  exact PositionManager.total_updatePending _ _ _ _ _ _

theorem Bounded.submitted (hb : s.Bounded) (h : Reconciled ct L s) {cmd : TraderCommand}
    {mqId : ℕ} {clock : ℕ → UInt64} {iteration : List ℕ}
    (htaken : OrdersTaken m ct s (.command cmd mqId clock iteration))
    (hroom : s.RoomToOpen (.command cmd mqId clock iteration)) {orderReq : TraderOrderReq}
    (hcmd : cmd.Submits orderReq) :
    (sendOrder (BacktestGateway.gateway m ct) ct clock cmd orderReq mqId s).2.Bounded := by
  cases hc : ct.getByIndex orderReq.tickerId with
  | none => simpa only [sendOrder, hc] using hb
  | some contract =>
    obtain ⟨hcheck, -, hok⟩ := htaken orderReq contract hcmd hc
    obtain ⟨order, rules, rfl, hk, hcase⟩ :=
      sendOrder_cases (BacktestGateway.gateway m ct) clock cmd mqId s hc
    rw [hcheck] at hcase
    rcases hcase with ⟨-, hs⟩ | ⟨hpass, hs⟩
    · rw [hs]
      exact hb
    · obtain ⟨privdata, gateway, -, ⟨-, hsub⟩ | ⟨hfalse, -⟩⟩ := submit_cases
        (BacktestGateway.gateway m ct) (newOrder contract cmd orderReq mqId s.nextOmsOrderId)
        { s with nextOmsOrderId := s.nextOmsOrderId + 1, rules }
      · rw [hs, hsub]
        intro t side
        have hbefore := hb t side
        rw [total_orderSent _ (by rw [hk, h.positionRule]), Pi.add_apply, Pi.add_apply,
          Entry.exposure_add, exposure_pending]
        split_ifs with hopens
        · obtain ⟨⟨rfl, rfl⟩, hopen⟩ := hopens
          have hspace := hroom orderReq hcmd hopen
          have hticker : orderReq.tickerId = contract.tickerId :=
            (ContractTable.tickerId_of_getByIndex hc).symm
          rw [hticker] at hspace
          exact hspace
        · rw [add_zero]
          exact hbefore
      · exact absurd ((hok hpass).symm.trans hfalse) (by decide)

theorem Bounded.preserved (hb : s.Bounded) (h : Reconciled ct L s) {a : BacktestAction}
    (htaken : OrdersTaken m ct s a) (hroom : s.RoomToOpen a)
    (hs : backtestStep m ct s a = some s') : s'.Bounded := by
  cases a with
  | tick tick =>
    cases hs
    exact hb
  | processRsp =>
    cases hs
    exact hb.drained h 3
  | command cmd mqId clock iteration =>
    simp only [backtestStep, step] at hs
    split_ifs at hs
    rcases executeCmd_invariant (fun _ => True) (fun _ _ _ _ _ _ => trivial)
      (fun _ _ _ _ _ => trivial) hs with ⟨orderReq, hcmd, rfl⟩ | ⟨hmoved, -⟩
    · exact hb.submitted h htaken hroom hcmd
    · rw [hmoved]
      exact hb

def buyAtAsk : TraderOrderReq := ⟨7, 1, .kBuy, .kOpen, .kLimit, 1, 100, .kNone⟩

def buyAtAskCmd : TraderCommand where
  cmd := .kNewOrder buyAtAsk
  strategyId := "strategy"

def boughtAtAsk : Oms (BacktestGateway SimpleMatchEngine) :=
  (sendOrder (BacktestGateway.gateway SimpleMatchEngine.engine (.ofList [ticker001]))
    (.ofList [ticker001]) (fun _ => 0) buyAtAskCmd buyAtAsk 0 marketOpen).2

def hugeBuy : TraderOrderReq := ⟨7, 1, .kBuy, .kOpen, .kLimit, 2147483647, 1, .kNone⟩

def hugeBuyCmd : TraderCommand where
  cmd := .kNewOrder hugeBuy
  strategyId := "strategy"

def afterHugeBuy (s : Oms (BacktestGateway SimpleMatchEngine)) :
    Oms (BacktestGateway SimpleMatchEngine) :=
  (sendOrder (BacktestGateway.gateway SimpleMatchEngine.engine (.ofList [ticker001]))
    (.ofList [ticker001]) (fun _ => 0) hugeBuyCmd hugeBuy 0 s).2

end Oms

end FlareTrader
