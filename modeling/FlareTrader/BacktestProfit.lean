import FlareTrader.BacktestMargin

/-! Profit and loss of the backtest gateway with the simple engine. Cash and
frozen funds together move by what a fill pays or earns only when the fill
opens with a buy and closes with a sell, and when no tick revalues a holding. -/

namespace FlareTrader

namespace Event

def value (direction : Direction) : Event → ℚ
  | .traded order volume price _ =>
    if order.direction = direction then order.contract.size * volume * price else 0
  | _ => 0

def profit (e : Event) : ℚ := e.value .kSell - e.value .kBuy

def RightSided : Event → Prop
  | .traded order _ _ _ => order.direction = if isOffsetOpen order.offset then .kBuy else .kSell
  | _ => True

/-- The fill is of a sent order, or of the copy the book kept of it. -/
def Known (sent : List OrderRequest) : Event → Prop
  | .traded order _ _ _ => ∃ o ∈ sent, ∃ touch, order = o.kept touch
  | _ => True

-- only fills can fail either
theorem rightSided_of_traded {e : Event} (h : ∀ order volume price ts,
    e = .traded order volume price ts →
      order.direction = if isOffsetOpen order.offset then .kBuy else .kSell) : e.RightSided := by
  cases e with
  | traded order volume price ts => exact h order volume price ts rfl
  | accepted _ => trivial
  | rejected _ => trivial
  | canceled _ _ => trivial
  | cancelRejected _ => trivial

theorem known_of_traded {sent : List OrderRequest} {e : Event} (h : ∀ order volume price ts,
    e = .traded order volume price ts → ∃ o ∈ sent, ∃ touch, order = o.kept touch) :
    e.Known sent := by
  cases e with
  | traded order volume price ts => exact h order volume price ts rfl
  | accepted _ => trivial
  | rejected _ => trivial
  | canceled _ _ => trivial
  | cancelRejected _ => trivial

end Event

def GatewayOrderResponse.value (sent : List OrderRequest) (direction : Direction) :
    GatewayOrderResponse → ℚ
  | .traded rsp => (sent.find? fun o => o.orderId = rsp.orderId).elim 0 fun o =>
      if o.direction = direction then o.contract.size * rsp.volume * rsp.price else 0
  | _ => 0

def GatewayRun.tradedValue {ε : Type} (direction : Direction) (r : GatewayRun ε) : ℚ :=
  (r.gateway.rspRb.map (GatewayOrderResponse.value r.sent direction)).sum

def Account.liquid (account : Account) : ℚ := account.cash + account.frozen

section Liquid

variable {ct : ContractTable}

theorem FundCalculator.liquid_updatePending (order : OrderRequest) (changed : ℤ)
    (account : Account) :
    (FundCalculator.updatePending order changed account).liquid = account.liquid := by
  unfold FundCalculator.updatePending Account.liquid
  split_ifs
  · ring
  · rfl

theorem Event.liquid_bookFund {e : Event} (hp : e.Priced ct) (hr : e.RightSided)
    (ticks : ℕ → TickData) (account : Account) :
    (e.bookFund ticks account).liquid = account.liquid + e.profit := by
  cases e with
  | accepted order => simp [bookFund, profit, value]
  | cancelRejected id => simp [bookFund, profit, value]
  | rejected order =>
    simp only [profit, value, sub_zero, add_zero]
    exact FundCalculator.liquid_updatePending order _ account
  | canceled order canceledVolume =>
    simp only [profit, value, sub_zero, add_zero]
    exact FundCalculator.liquid_updatePending order _ account
  | traded order volume price ts =>
    have hproduct := intMul_eq_mul hp.2
    unfold RightSided at hr
    simp only [bookFund, FundCalculator.updateTraded, Account.liquid, profit, value, hproduct]
    cases hopen : isOffsetOpen order.offset with
    | true =>
      simp only [hopen, if_true] at hr
      simp only [hr, if_true, reduceCtorEq, if_false]
      push_cast
      ring
    | false =>
      simp only [hopen, Bool.false_eq_true, if_false] at hr
      simp only [hr, if_true, reduceCtorEq, if_false, Bool.false_eq_true]
      push_cast
      ring

theorem liquid_foldl {events : List Event} (hp : ∀ e ∈ events, e.Priced ct)
    (hr : ∀ e ∈ events, e.RightSided) (ticks : ℕ → TickData) (account : Account) :
    (events.foldl (fun account e => e.bookFund ticks account) account).liquid =
      account.liquid + (events.map Event.profit).sum := by
  induction events generalizing account with
  | nil => simp
  | cons e events ih =>
    have hrest := ih (fun e' he' => hp e' (List.mem_cons_of_mem _ he'))
      (fun e' he' => hr e' (List.mem_cons_of_mem _ he')) (e.bookFund ticks account)
    rw [List.foldl_cons, hrest,
      Event.liquid_bookFund (hp e List.mem_cons_self) (hr e List.mem_cons_self), List.map_cons,
      List.sum_cons, add_assoc]

theorem Event.short_delta {e : Event} (hr : e.RightSided) (t : ℕ) :
    (e.delta t .short).holdings = 0 := by
  cases e with
  | accepted order => rfl
  | cancelRejected id => rfl
  | rejected order => exact holdings_pendingDelta _ _ _ _ _ _
  | canceled order canceledVolume => exact holdings_pendingDelta _ _ _ _ _ _
  | traded order volume price ts =>
    have hside : bookedSide order.direction order.offset = .long := by
      unfold RightSided at hr
      rw [bookedSide, isOffsetClose_eq, hr]
      cases isOffsetOpen order.offset <;> rfl
    rw [delta, tradedDelta, hside]
    simp [Ledger.single]

theorem short_deltas {events : List Event} (hr : ∀ e ∈ events, e.RightSided) (t : ℕ) :
    ((events.map Event.delta).sum t .short).holdings = 0 := by
  induction events with
  | nil => rfl
  | cons e events ih =>
    have hrest := ih fun e' he' => hr e' (List.mem_cons_of_mem _ he')
    rw [List.map_cons, List.sum_cons, Pi.add_apply, Pi.add_apply, Entry.holdings_add, hrest,
      Event.short_delta (hr e List.mem_cons_self), add_zero]

end Liquid

section Reports

variable {sent : List OrderRequest}

theorem find?_sent (hn : (sent.map (·.orderId)).Nodup) {o : OrderRequest} (ho : o ∈ sent) :
    sent.find? (fun o' => o'.orderId = o.orderId) = some o := by
  cases h : sent.find? (fun o' => o'.orderId = o.orderId) with
  | none =>
    have hno := List.find?_eq_none.mp h o ho
    simp at hno
  | some o' =>
    have hmem := List.mem_of_find?_eq_some h
    have hid : o'.orderId = o.orderId := by simpa using List.find?_some h
    rw [List.inj_on_of_nodup_map hn hmem ho hid]

theorem value_response (hn : (sent.map (·.orderId)).Nodup) {e : Event} (he : e.Known sent)
    (direction : Direction) : e.response.value sent direction = e.value direction := by
  cases e with
  | traded order volume price ts =>
    obtain ⟨o, ho, touch, rfl⟩ := he
    simp only [Event.response, GatewayOrderResponse.value, Event.value,
      OrderRequest.kept_orderId, OrderRequest.kept_direction, OrderRequest.kept_contract]
    rw [find?_sent hn ho]
    rfl
  | accepted order => rfl
  | rejected order => rfl
  | canceled order canceledVolume => rfl
  | cancelRejected id => rfl

theorem value_sent_append {rsp : GatewayOrderResponse} (order : OrderRequest)
    (h : ∀ t, rsp = .traded t → ∃ o ∈ sent, o.orderId = t.orderId) (direction : Direction) :
    rsp.value (sent ++ [order]) direction = rsp.value sent direction := by
  cases rsp with
  | traded t =>
    obtain ⟨o, ho, hid⟩ := h t rfl
    have hsome : (sent.find? fun o => o.orderId = t.orderId).isSome := by
      rw [List.find?_isSome]
      exact ⟨o, ho, by simpa using hid⟩
    simp only [GatewayOrderResponse.value, List.find?_append]
    rw [Option.or_of_isSome hsome]
  | accepted _ => rfl
  | rejected _ _ => rfl
  | canceled _ _ => rfl
  | cancelRejected _ _ => rfl

end Reports

namespace SimpleMatchEngine

theorem directed_of_crosses {tick : TickData} {order : OrderRequest}
    (h : crosses tick order = true) : order.direction = .kBuy ∨ order.direction = .kSell := by
  rcases of_decide_eq_true h with h | h
  · exact Or.inl h.1
  · exact Or.inr h.1

theorem crosses_of_insert {order k : OrderRequest} {e : SimpleMatchEngine} {volume : ℤ} {price : ℚ}
    {ts : ℕ} (h : .traded k volume price ts ∈ (insertOrder order e).2.1)
    (hm : order.type ≠ .kMarket) : k = order ∧ order.type ≠ .kBest ∧
      crosses (e.ticks order.contract.tickerId) order = true := by
  have hfill : ∀ {events : List Event},
      .traded k volume price ts ∈ (if crosses (e.ticks order.contract.tickerId) order
        then [.traded order order.volume
          (oppositePrice (e.ticks order.contract.tickerId) order) e.curTimestampUs] else events) →
      Event.traded k volume price ts ∉ events →
      k = order ∧ crosses (e.ticks order.contract.tickerId) order = true := by
    intro events hmem hno
    split_ifs at hmem with hc
    · cases List.mem_singleton.mp hmem
      exact ⟨rfl, hc⟩
    · exact absurd hmem hno
  unfold insertOrder at h
  cases htype : order.type with
  | kMarket => exact absurd htype hm
  | kLimit =>
    simp only [htype, apply_ite Prod.fst, apply_ite Prod.snd] at h
    obtain ⟨hk, hc⟩ := hfill h (by simp)
    exact ⟨hk, by simp, hc⟩
  | kFak =>
    simp only [htype, apply_ite Prod.fst, apply_ite Prod.snd] at h
    obtain ⟨hk, hc⟩ := hfill h (by simp)
    exact ⟨hk, by simp, hc⟩
  | kFok =>
    simp only [htype, apply_ite Prod.fst, apply_ite Prod.snd] at h
    obtain ⟨hk, hc⟩ := hfill h (by simp)
    exact ⟨hk, by simp, hc⟩
  | kBest =>
    simp only [htype] at h
    split_ifs at h <;> simp at h
  | kUnknown => simp [htype] at h
  | kHkexMoAtCrossing => simp [htype] at h
  | kHkexLoAtCrossing => simp [htype] at h
  | kHkexLo => simp [htype] at h
  | kHkexElo => simp [htype] at h
  | kHkexSlo => simp [htype] at h

theorem crosses_of_sweep {tick : TickData} {k : OrderRequest} {volume : ℤ} {price : ℚ} {ts : ℕ}
    {entries : List (ℕ × OrderRequest)} (h : .traded k volume price ts ∈ (sweep tick entries).1) :
    (∃ id, (id, k) ∈ entries) ∧ crosses tick k = true := by
  induction entries with
  | nil => cases h
  | cons entry entries ih =>
    obtain ⟨id, order⟩ := entry
    simp only [sweep] at h
    split_ifs at h with hc
    · rcases List.mem_cons.mp h with heq | h
      · cases heq
        exact ⟨⟨id, List.mem_cons_self⟩, hc⟩
      · obtain ⟨⟨id', hmem⟩, hk⟩ := ih h
        exact ⟨⟨id', List.mem_cons_of_mem _ hmem⟩, hk⟩
    · obtain ⟨⟨id', hmem⟩, hk⟩ := ih h
      exact ⟨⟨id', List.mem_cons_of_mem _ hmem⟩, hk⟩

theorem crosses_of_tick {e : SimpleMatchEngine} (he : e.Filed) {tick : TickData} {k : OrderRequest}
    {volume : ℤ} {price : ℚ} {ts : ℕ} (h : .traded k volume price ts ∈ (onNewTick tick e).1) :
    k.contract.tickerId = tick.tickerId ∧ crosses tick k = true := by
  obtain ⟨⟨id, hmem⟩, hc⟩ := crosses_of_sweep h
  refine ⟨?_, hc⟩
  have hfind : (e.book tick.tickerId).find? id = some k := SortedMap.find?_eq_some.mpr hmem
  exact (he tick.tickerId id k hfind).2

theorem not_traded_of_cancel {orderId tickerId : ℕ} {e : SimpleMatchEngine} {k : OrderRequest}
    {volume : ℤ} {price : ℚ} {ts : ℕ} :
    .traded k volume price ts ∉ (cancelOrder orderId tickerId e).2.1 := by
  unfold cancelOrder
  cases (e.book tickerId).find? orderId <;> simp

end SimpleMatchEngine

theorem BacktestGateway.account_revalue {ε : Type} {ct : ContractTable} {g : BacktestGateway ε}
    {tick : TickData} (h : (∃ s, 0 < (g.posCalculator.ledger tick.tickerId s).holdings) →
      tick.marketQuote = (g.currentTicks tick.tickerId).marketQuote) :
    (g.revalue ct tick).account = g.account := by
  unfold revalue
  unfold PositionCalculator.ledger at h
  cases hp : g.posCalculator.getPosition tick.tickerId with
  | none => rfl
  | some pos =>
    simp only [hp, Option.elim_some] at h
    simp only
    split_ifs with hheld
    · have hquote : tick.marketQuote = (g.currentTicks tick.tickerId).marketQuote := by
        apply h
        rcases hheld with hheld | hheld
        · exact ⟨.long, hheld⟩
        · exact ⟨.short, hheld⟩
      simp [FundCalculator.updatePrice, hquote]
    · rfl

namespace GatewayRun

variable {ct : ContractTable}

def OnTable (ct : ContractTable) {ε : Type} (_ : GatewayRun ε) : GatewayAction → Prop
  | .send order => ct.getByIndex order.contract.tickerId = some order.contract
  | _ => True

/-- No opening sell is filled, at once or from rest, and no tick revalues a
holding to another quote. -/
def BookedRight (r : GatewayRun SimpleMatchEngine) : GatewayAction → Prop
  | .send order => r.gateway.checkOrder order = true → order.type ≠ .kBest →
      isOffsetOpen order.offset = true → order.direction = .kSell →
      SimpleMatchEngine.crosses (r.gateway.matchEngine.ticks order.contract.tickerId) order = false
  | .cancel _ _ => True
  | .feed tick =>
    (∀ k ∈ SimpleMatchEngine.resting r.gateway.matchEngine, k.contract.tickerId = tick.tickerId →
      isOffsetOpen k.offset = true → k.direction = .kSell →
      SimpleMatchEngine.crosses tick k = false) ∧
    ((∃ s, 0 < (r.gateway.posCalculator.ledger tick.tickerId s).holdings) →
      tick.marketQuote = (r.gateway.currentTicks tick.tickerId).marketQuote)

structure TradesBooked (ct : ContractTable) (cash : ℚ) (r : GatewayRun SimpleMatchEngine) :
    Prop where
  marked : Marked ct SimpleMatchEngine.lawful r
  funds : FundsKept SimpleMatchEngine.lawful r
  noShort : ∀ t, (r.gateway.posCalculator.ledger t .short).holdings = 0
  closing : ∀ k ∈ SimpleMatchEngine.resting r.gateway.matchEngine,
    isOffsetOpen k.offset = false → k.direction = .kSell
  answered : ∀ t, .traded t ∈ r.gateway.rspRb → ∃ o ∈ r.sent, o.orderId = t.orderId
  profit : r.gateway.account.liquid = cash + (r.tradedValue .kSell - r.tradedValue .kBuy)

namespace TradesBooked

variable {cash : ℚ} {r : GatewayRun SimpleMatchEngine}

theorem closing_sells (h : TradesBooked ct cash r) {order : OrderRequest}
    (hcheck : r.gateway.checkOrder order = true) (hclose : isOffsetOpen order.offset = false) :
    order.direction = .kSell := by
  obtain ⟨hv, hroom⟩ := BacktestGateway.checkOrder_spec hcheck
  have hroom' := hroom (by rw [isOffsetClose_eq, hclose]; rfl)
  by_contra hd
  have hholdings := h.noShort order.contract.tickerId
  have hpending := (h.marked.kept.balanced.booked.covers.sound order.contract.tickerId .short).2.1
  unfold BacktestGateway.available at hroom'
  unfold PositionCalculator.ledger at hholdings hpending
  cases hp : r.gateway.posCalculator.getPosition order.contract.tickerId with
  | none =>
    simp only [hp] at hroom'
    omega
  | some pos =>
    simp only [hp, if_neg hd, Option.elim_some, Position.side, PositionDetail.entry, Entry.holdings,
      Entry.closePending] at hroom' hholdings hpending
    omega

theorem rightSided_of_crosses {tick : TickData} {k : OrderRequest}
    (hc : SimpleMatchEngine.crosses tick k = true)
    (hopen : isOffsetOpen k.offset = true → k.direction ≠ .kSell)
    (hclose : isOffsetOpen k.offset = false → k.direction = .kSell) :
    k.direction = if isOffsetOpen k.offset then .kBuy else .kSell := by
  cases h : isOffsetOpen k.offset with
  | true => exact (SimpleMatchEngine.directed_of_crosses hc).resolve_right (hopen h)
  | false => exact hclose h

theorem rightSided_submitted (h : TradesBooked ct cash r) {order : OrderRequest}
    {bookings : List Event} {g : BacktestGateway SimpleMatchEngine}
    (hright : r.BookedRight (.send order)) (hcheck : r.gateway.checkOrder order = true)
    (hsub : BacktestGateway.Submitted ct SimpleMatchEngine.lawful order bookings r.gateway g) :
    ∀ e ∈ bookings, e.RightSided := by
  have hmarket : order.type ≠ .kMarket := by
    intro htype
    simp [BacktestGateway.checkOrder, htype] at hcheck
  intro e he
  apply Event.rightSided_of_traded
  rintro k volume price ts rfl
  rcases hsub.source with hsource | hsource
  · rw [hsource] at he
    obtain ⟨rfl, hbest, hcross⟩ := SimpleMatchEngine.crosses_of_insert he hmarket
    apply rightSided_of_crosses hcross ?_ (h.closing_sells hcheck)
    intro hopen hsell
    rw [hright hcheck hbest hopen hsell] at hcross
    cases hcross
  · rw [hsource] at he
    simp at he

theorem tradedValue_append {r : GatewayRun SimpleMatchEngine} {g : BacktestGateway SimpleMatchEngine}
    {sent : List OrderRequest} {reported : List Event} (direction : Direction)
    (hrsp : g.rspRb = r.gateway.rspRb ++ reported.map Event.response)
    (hold : ∀ rsp ∈ r.gateway.rspRb, rsp.value sent direction = rsp.value r.sent direction)
    (hnew : ∀ e ∈ reported, e.response.value sent direction = e.value direction) :
    tradedValue direction ⟨g, sent⟩ =
      r.tradedValue direction + (reported.map (Event.value direction)).sum := by
  rw [tradedValue, hrsp, List.map_append, List.sum_append, List.map_map, tradedValue]
  congr 2
  · exact List.map_congr_left hold
  · exact List.map_congr_left hnew

theorem profit_sum (events : List Event) : (events.map Event.profit).sum =
    (events.map (Event.value .kSell)).sum - (events.map (Event.value .kBuy)).sum := by
  induction events with
  | nil => simp
  | cons e events ih =>
    simp only [List.map_cons, List.sum_cons, ih, Event.profit]
    ring

theorem profit_append (h : TradesBooked ct cash r) {g : BacktestGateway SimpleMatchEngine}
    {sent : List OrderRequest} {events reported : List Event} {account : Account}
    {ticks : ℕ → TickData}
    (hp : ∀ e ∈ events, e.Priced ct) (hr : ∀ e ∈ events, e.RightSided)
    (hliquid : account.liquid = r.gateway.account.liquid)
    (haccount : g.account = events.foldl (fun account e => e.bookFund ticks account) account)
    (hrsp : g.rspRb = r.gateway.rspRb ++ reported.map Event.response)
    (hsame : (reported.map Event.profit).sum = (events.map Event.profit).sum)
    (hold : ∀ rsp ∈ r.gateway.rspRb, ∀ d, rsp.value sent d = rsp.value r.sent d)
    (hnew : ∀ e ∈ reported, ∀ d, e.response.value sent d = e.value d) :
    g.account.liquid = cash + (tradedValue .kSell ⟨g, sent⟩ - tradedValue .kBuy ⟨g, sent⟩) := by
  rw [haccount, liquid_foldl hp hr, hliquid, h.profit, ← hsame, profit_sum,
    tradedValue_append .kSell hrsp (fun rsp hm => hold rsp hm _) (fun e he => hnew e he _),
    tradedValue_append .kBuy hrsp (fun rsp hm => hold rsp hm _) (fun e he => hnew e he _)]
  ring

theorem answered_append {r : GatewayRun SimpleMatchEngine} {sent : List OrderRequest}
    {reported : List Event} (hold : ∀ t, .traded t ∈ r.gateway.rspRb →
      ∃ o ∈ sent, o.orderId = t.orderId) (hk : ∀ e ∈ reported, e.Known sent) :
    ∀ t, .traded t ∈ r.gateway.rspRb ++ reported.map Event.response →
      ∃ o ∈ sent, o.orderId = t.orderId := by
  intro t ht
  rcases List.mem_append.mp ht with ht | ht
  · exact hold t ht
  · obtain ⟨e, he, hrsp⟩ := List.mem_map.mp ht
    have hknown := hk e he
    cases e with
    | traded k volume price ts =>
      cases hrsp
      obtain ⟨o, ho, touch, rfl⟩ := hknown
      exact ⟨o, ho, (o.kept_orderId touch).symm⟩
    | accepted _ => cases hrsp
    | rejected _ => cases hrsp
    | canceled _ _ => cases hrsp
    | cancelRejected _ => cases hrsp

theorem submit (h : TradesBooked ct cash r) {order : OrderRequest}
    (hfresh : r.Fresh (.send order)) (ht : r.OnTable ct (.send order))
    (hright : r.BookedRight (.send order)) (htouch : r.AtTouch SimpleMatchEngine.lawful (.send order))
    (hcheck : r.gateway.checkOrder order = true) :
    TradesBooked ct cash
      ⟨(r.gateway.sendOrder SimpleMatchEngine.engine ct order).2.2, r.sent ++ [order]⟩ := by
  have hsubmitted : ∃ bookings, BacktestGateway.Submitted ct SimpleMatchEngine.lawful order bookings
      r.gateway (r.gateway.sendOrder SimpleMatchEngine.engine ct order).2.2 :=
    BacktestGateway.submitted SimpleMatchEngine.lawful h.marked.kept.balanced.inv
      (h.marked.kept.fresh hfresh.1) hcheck
  obtain ⟨bookings, hsub⟩ := hsubmitted
  have hfunds : FundsKept SimpleMatchEngine.lawful
      ⟨(r.gateway.sendOrder SimpleMatchEngine.engine ct order).2.2, r.sent ++ [order]⟩ :=
    h.funds.send hfresh htouch
  have hclosing := h.closing_sells hcheck
  have hpend := h.marked.kept.pend hcheck fun hc => by
    rw [isOffsetClose_eq, Bool.not_eq_true'] at hc
    exact Or.inr (hclosing hc)
  obtain ⟨touch, hins⟩ := hsub.inserted
  have hpriced := priced_inserted hins ht hfresh.2
  have hsided := h.rightSided_submitted hright hcheck hsub
  have hknown : ∀ e ∈ bookings, e.Known (r.sent ++ [order]) := by
    intro e he
    apply Event.known_of_traded
    rintro k volume price ts rfl
    obtain ⟨rfl, -⟩ := hins.eq_of_traded he
    exact ⟨k, List.mem_append_right _ (List.mem_singleton_self k), k.price, k.kept_price.symm⟩
  obtain ⟨reported, hrsp, hreported⟩ := hsub.rspRb
  have hsubset : ∀ e ∈ reported, e ∈ bookings := by
    intro e he
    rcases hreported with rfl | ⟨rfl, -⟩
    · exact he
    · cases he
  have hsame : (reported.map Event.profit).sum = (bookings.map Event.profit).sum := by
    rcases hreported with rfl | ⟨rfl, rfl⟩
    · rfl
    · simp [Event.profit, Event.value]
  refine ⟨h.marked.submit ht hfresh.2 hpend hsub, hfunds, fun t => ?_, fun k hk => ?_, ?_, ?_⟩
  · rw [hsub.posCalculator, (booked_inserted hins ht hpend).2,
      PositionCalculator.ledger_updatePending]
    simp only [Pi.add_apply, Entry.holdings_add, h.noShort, holdings_pendingDelta,
      short_deltas hsided, add_zero]
  · rcases hins.mem hk with rfl | hk
    · rw [OrderRequest.kept_offset, OrderRequest.kept_direction]
      exact hclosing
    · exact h.closing k hk
  · simp only [hrsp]
    apply answered_append
    · intro t ht'
      obtain ⟨o, ho, hid⟩ := h.answered t ht'
      exact ⟨o, List.mem_append_left _ ho, hid⟩
    · exact fun e he => hknown e (hsubset e he)
  · apply h.profit_append hpriced hsided (FundCalculator.liquid_updatePending _ _ _) hsub.account
      hrsp hsame
    · intro rsp hm d
      apply value_sent_append
      rintro t rfl
      exact h.answered t hm
    · exact fun e he d => value_response hfunds.sent_nodup (hknown e (hsubset e he)) d

theorem refuse (h : TradesBooked ct cash r) {order : OrderRequest}
    (hfresh : r.Fresh (.send order)) (htouch : r.AtTouch SimpleMatchEngine.lawful (.send order))
    (hcheck : ¬r.gateway.checkOrder order = true) :
    TradesBooked ct cash ⟨r.gateway, r.sent ++ [order]⟩ := by
  have hfunds : FundsKept SimpleMatchEngine.lawful
      ⟨(r.gateway.sendOrder SimpleMatchEngine.engine ct order).2.2, r.sent ++ [order]⟩ :=
    h.funds.send hfresh htouch
  rw [BacktestGateway.sendOrder_refused hcheck] at hfunds
  refine ⟨h.marked.refuse hfresh.2, hfunds, h.noShort, h.closing, fun t ht => ?_, ?_⟩
  · obtain ⟨o, ho, hid⟩ := h.answered t ht
    exact ⟨o, List.mem_append_left _ ho, hid⟩
  · have hsame : ∀ d, tradedValue d ⟨r.gateway, r.sent ++ [order]⟩ = r.tradedValue d := by
      intro d
      have hold : ∀ rsp ∈ r.gateway.rspRb,
          rsp.value (r.sent ++ [order]) d = rsp.value r.sent d := by
        intro rsp hm
        refine value_sent_append order ?_ d
        rintro t rfl
        exact h.answered t hm
      rw [tradedValue, tradedValue, List.map_congr_left hold]
    rw [hsame, hsame]
    exact h.profit

theorem clear (h : TradesBooked ct cash r) {events : List Event}
    {g g' : BacktestGateway SimpleMatchEngine}
    (heng : g.matchEngine = r.gateway.matchEngine) (hpos : g.posCalculator = r.gateway.posCalculator)
    (hrsp : g.rspRb = r.gateway.rspRb) (haccount : g.account.liquid = r.gateway.account.liquid)
    (hmarked : Marked ct SimpleMatchEngine.lawful ⟨g', r.sent⟩)
    (hfunds : FundsKept SimpleMatchEngine.lawful ⟨g', r.sent⟩)
    (hsided : ∀ e ∈ events, e.RightSided)
    (hc : BacktestGateway.Cleared ct SimpleMatchEngine.lawful events g g') :
    TradesBooked ct cash ⟨g', r.sent⟩ := by
  have hcloses := hc.closes
  rw [heng] at hcloses
  have hbook := h.marked.kept.balanced
  have hpriced := priced_closes hcloses hbook.listed h.marked.small_resting
  have hknown : ∀ e ∈ events, e.Known r.sent := by
    intro e he
    apply Event.known_of_traded
    rintro k volume price ts rfl
    exact h.marked.kept.resting_sent k (hcloses.mem_of_traded he).1
  have hreport : g'.rspRb = r.gateway.rspRb ++ events.map Event.response := by
    rw [hc.rspRb, hrsp]
  refine ⟨hmarked, hfunds, fun t => ?_, fun k hk => ?_, ?_, ?_⟩
  · rw [hc.posCalculator, hpos, (booked_closes hcloses hbook.listed hbook.booked).2]
    simp only [Pi.add_apply, Entry.holdings_add, h.noShort, short_deltas hsided, add_zero]
  · exact h.closing k (Multiset.mem_of_le hcloses.le hk)
  · simp only [hreport]
    exact answered_append h.answered hknown
  · apply h.profit_append hpriced hsided haccount hc.account hreport rfl (fun _ _ _ => rfl)
    exact fun e he d => value_response h.funds.sent_nodup (hknown e he) d

theorem preserved (h : TradesBooked ct cash r) {a : GatewayAction}
    {r' : GatewayRun SimpleMatchEngine} (hfresh : r.Fresh a) (ht : r.OnTable ct a)
    (ho : r.NoOverflow ct a) (hright : r.BookedRight a) (htouch : r.AtTouch SimpleMatchEngine.lawful a)
    (hs : step SimpleMatchEngine.engine ct r a = some r') : TradesBooked ct cash r' := by
  have hfunds := h.funds.preserved hfresh htouch hs
  have hinv := h.marked.kept.balanced.inv
  cases a with
  | send order =>
    cases hs
    by_cases hcheck : r.gateway.checkOrder order = true
    · exact h.submit hfresh ht hright htouch hcheck
    · rw [BacktestGateway.sendOrder_refused hcheck]
      exact h.refuse hfresh htouch hcheck
  | cancel orderId privdata =>
    have hregular : r.Regular ct (.cancel orderId privdata) := trivial
    have hmarked := h.marked.preserved hregular ho hs
    have hstep : (r.gateway.cancelOrder SimpleMatchEngine.engine ct orderId privdata).map
        (fun x => (⟨x.2, r.sent⟩ : GatewayRun SimpleMatchEngine)) = some r' := hs
    obtain ⟨x, hx, rfl⟩ := Option.map_eq_some_iff.mp hstep
    have hcleared : ∃ y, SimpleMatchEngine.engine.cancelOrder orderId (privdata % 2 ^ 32)
        r.gateway.matchEngine = some y ∧ BacktestGateway.Cleared ct SimpleMatchEngine.lawful y.2.1
          r.gateway x.2 := BacktestGateway.cleared_cancel SimpleMatchEngine.lawful hinv hx
    obtain ⟨y, hy, hc⟩ := hcleared
    cases hy
    apply h.clear rfl rfl rfl rfl hmarked hfunds ?_ hc
    intro e he
    apply Event.rightSided_of_traded
    rintro k volume price ts rfl
    exact absurd he SimpleMatchEngine.not_traded_of_cancel
  | feed tick =>
    have hregular : r.Regular ct (.feed tick) := trivial
    have hmarked := h.marked.preserved hregular ho hs
    cases hs
    have hc : BacktestGateway.Cleared ct SimpleMatchEngine.lawful
        (SimpleMatchEngine.onNewTick tick r.gateway.matchEngine).1 (r.gateway.remark ct tick)
        (r.gateway.onDataFeed SimpleMatchEngine.engine ct tick) :=
      BacktestGateway.cleared_feed SimpleMatchEngine.lawful hinv tick
    refine h.clear (BacktestGateway.remark_matchEngine tick r.gateway)
      (BacktestGateway.remark_posCalculator tick r.gateway)
      (BacktestGateway.remark_rspRb tick r.gateway) ?_ hmarked hfunds ?_ hc
    · rw [BacktestGateway.remark_eq]
      exact congrArg Account.liquid (BacktestGateway.account_revalue hright.2)
    · intro e he
      apply Event.rightSided_of_traded
      rintro k volume price ts rfl
      have hmem := (hc.closes.mem_of_traded he).1
      rw [BacktestGateway.remark_matchEngine] at hmem
      obtain ⟨hticker, hcross⟩ := SimpleMatchEngine.crosses_of_tick hinv he
      apply rightSided_of_crosses hcross ?_ (h.closing k hmem)
      intro hopen hsell
      rw [hright.1 k hmem hticker hopen hsell] at hcross
      cases hcross

theorem start (ct : ContractTable) (dataFeed : List TickData) :
    TradesBooked ct 100000000 { gateway := { matchEngine := {}, dataFeed } } := by
  refine ⟨.start _ SimpleMatchEngine.filed_empty rfl rfl rfl, ?_, fun t => rfl, ?_, ?_, ?_⟩
  · exact .start _ SimpleMatchEngine.filed_empty rfl rfl
  · intro k hk
    exact absurd hk (Multiset.notMem_zero k)
  · intro t ht
    cases ht
  · simp [Account.liquid, tradedValue]

end TradesBooked

end GatewayRun

def BacktestGateway.Flat {ε : Type} (ct : ContractTable) (g : BacktestGateway ε) : Prop :=
  ∀ c ∈ ct.contracts, ∀ s, (g.posCalculator.ledger c.tickerId s).holdings = 0

theorem marketValue_flat {ε : Type} {ct : ContractTable} {g : BacktestGateway ε} (h : g.Flat ct)
    (ticks : ℕ → TickData) : marketValue ct g.posCalculator.ledger ticks = 0 := by
  apply List.sum_eq_zero
  intro x hx
  obtain ⟨c, hc, rfl⟩ := List.mem_map.mp hx
  simp [h c hc]

theorem profit_booked (ct : ContractTable) (dataFeed : List TickData)
    (r : GatewayRun SimpleMatchEngine)
    (h : Execution.Reaches (GatewayRun.step SimpleMatchEngine.engine ct)
      (fun r a => (r.Fresh a ∧ r.OnTable ct a ∧ r.NoOverflow ct a) ∧
        r.BookedRight a ∧ r.AtTouch SimpleMatchEngine.lawful a)
      { gateway := { matchEngine := {}, dataFeed } } r)
    (hrest : SimpleMatchEngine.resting r.gateway.matchEngine = 0) (hflat : r.gateway.Flat ct) :
    r.gateway.account.margin = 0 ∧ r.gateway.account.frozen = 0 ∧
      r.gateway.account.cash - 100000000 = r.tradedValue .kSell - r.tradedValue .kBuy := by
  have hk : GatewayRun.TradesBooked ct 100000000 r :=
    h.invariant (GatewayRun.TradesBooked ct 100000000)
      (fun _ _ _ hk ha hs => hk.preserved ha.1.1 ha.1.2.1 ha.1.2.2 ha.2.1 ha.2.2 hs)
      (.start ct dataFeed)
  have hmargin : r.gateway.account.margin = 0 := by
    rw [hk.marked.margin, marketValue_flat hflat]
  have hfrozen : r.gateway.account.frozen = 0 := by
    have hresting : SimpleMatchEngine.lawful.resting r.gateway.matchEngine = 0 := hrest
    rw [hk.funds.frozen, hresting]
    rfl
  refine ⟨hmargin, hfrozen, ?_⟩
  have hprofit := hk.profit
  rw [Account.liquid, hfrozen] at hprofit
  linarith

def spreadPaid : GatewayRun SimpleMatchEngine :=
  let ct := ContractTable.ofList [ticker001]
  let buy := limitOrder 1 .kBuy .kOpen 1 101
  let sell := limitOrder 2 .kSell .kClose 1 99
  let g : BacktestGateway SimpleMatchEngine := { matchEngine := {} }
  let g := g.onDataFeed SimpleMatchEngine.engine ct quoteTick
  let g := (g.sendOrder SimpleMatchEngine.engine ct buy).2.2
  let g := (g.sendOrder SimpleMatchEngine.engine ct sell).2.2
  ⟨g, [buy, sell]⟩

theorem profit_booked_spreadPaid :
    spreadPaid.gateway.account.cash - 100000000 = -20 ∧
      spreadPaid.gateway.account.cash - 100000000 =
        spreadPaid.tradedValue .kSell - spreadPaid.tradedValue .kBuy := by
  have hstart : Execution.Reaches (GatewayRun.step SimpleMatchEngine.engine (.ofList [ticker001]))
      (fun r a => (r.Fresh a ∧ r.OnTable (.ofList [ticker001]) a ∧
        r.NoOverflow (.ofList [ticker001]) a) ∧
        r.BookedRight a ∧ r.AtTouch SimpleMatchEngine.lawful a)
      { gateway := { matchEngine := {}, dataFeed := [] } }
      { gateway := { matchEngine := {}, dataFeed := [] } } := .refl _
  have hfeed := hstart.tail (.feed quoteTick)
    ⟨⟨trivial, trivial, fun c hc => by cases hc; decide⟩,
      ⟨fun k hk => absurd hk (Multiset.notMem_zero k), fun hheld => by
        obtain ⟨s, hs⟩ := hheld
        exact absurd hs (by cases s <;> decide)⟩, trivial⟩ rfl
  have hbuy := hfeed.tail (.send (limitOrder 1 .kBuy .kOpen 1 101))
    ⟨⟨⟨by simp, by decide⟩, rfl, show OrderRequest.IsSmall _ by decide⟩,
      (fun _ _ _ hsell => by cases hsell), (fun _ hbest => by cases hbest)⟩ rfl
  have hsell := hbuy.tail (.send (limitOrder 2 .kSell .kClose 1 99))
    ⟨⟨⟨by simp [limitOrder], by decide⟩, rfl, show OrderRequest.IsSmall _ by decide⟩,
      (fun _ _ hopen => by cases hopen), (fun _ hbest => by cases hbest)⟩ rfl
  have hflat : spreadPaid.gateway.Flat (.ofList [ticker001]) := by
    intro c hc s
    cases List.mem_singleton.mp hc
    cases s <;> decide +kernel
  exact ⟨by decide +kernel,
    (profit_booked (.ofList [ticker001]) [] _ hsell (by decide +kernel) hflat).2.2⟩

def levelTick (price : ℚ) : TickData where
  tickerId := 1
  lastPrice := price
  ask := fun _ => price
  bid := fun _ => price

/-- Bought at 100 and sold at 110, ten a lot: the gain of 100 is nowhere. -/
theorem risingMarket_gains_nothing :
    ∃ r, Execution.Reaches (GatewayRun.step SimpleMatchEngine.engine (.ofList [ticker001]))
        (fun r a => r.Fresh a ∧ r.OnTable (.ofList [ticker001]) a ∧
          r.NoOverflow (.ofList [ticker001]) a)
        { gateway := { matchEngine := {} } } r ∧
      SimpleMatchEngine.resting r.gateway.matchEngine = 0 ∧
      r.gateway.Flat (.ofList [ticker001]) ∧
      r.gateway.account.cash - 100000000 = 0 ∧
      r.tradedValue .kSell - r.tradedValue .kBuy = 100 := by
  have hstart : Execution.Reaches (GatewayRun.step SimpleMatchEngine.engine (.ofList [ticker001]))
      (fun r a => r.Fresh a ∧ r.OnTable (.ofList [ticker001]) a ∧
        r.NoOverflow (.ofList [ticker001]) a)
      { gateway := { matchEngine := {} } } { gateway := { matchEngine := {} } } := .refl _
  have hfeed := hstart.tail (.feed (levelTick 100))
    ⟨trivial, trivial, fun c hc => by cases hc; decide⟩ rfl
  have hbuy := hfeed.tail (.send (limitOrder 1 .kBuy .kOpen 1 100))
    ⟨⟨by simp, by decide⟩, rfl, show OrderRequest.IsSmall _ by decide⟩ rfl
  have hrise := hbuy.tail (.feed (levelTick 110))
    ⟨trivial, trivial, fun c hc => by cases hc; decide +kernel⟩ rfl
  have hsell := hrise.tail (.send (limitOrder 2 .kSell .kClose 1 110))
    ⟨⟨by simp [limitOrder], by decide⟩, rfl, show OrderRequest.IsSmall _ by decide⟩ rfl
  refine ⟨_, hsell, by decide +kernel, ?_, by decide +kernel, by decide +kernel⟩
  intro c hc s
  cases List.mem_singleton.mp hc
  cases s <;> decide +kernel

end FlareTrader
