import FlareTrader.GatewayRuns

/-! The margin of the backtest gateway. A fill moves the margin by the market
value of what it adds to the holdings, and a tick revalues what is held, so the
margin stays the market value of the holdings at the latest ticks. -/

namespace FlareTrader

def marketValue (ct : ContractTable) (holdings : Ledger) (ticks : ℕ → TickData) : ℚ :=
  (ct.contracts.map fun c => c.size *
    ((holdings c.tickerId .long).holdings + (holdings c.tickerId .short).holdings) *
      (ticks c.tickerId).marketQuote).sum

section Tables

variable {ct : ContractTable} {t : ℕ} {contract : Contract}

theorem ContractTable.mem_of_getByIndex (h : ct.getByIndex t = some contract) :
    contract ∈ ct.contracts := by
  unfold ContractTable.getByIndex at h
  split_ifs at h with ht
  exact List.mem_of_getElem? h

theorem ContractTable.getByIndex_of_mem (h : contract ∈ ct.contracts) :
    ct.getByIndex contract.tickerId = some contract := by
  obtain ⟨i, hi, rfl⟩ := List.mem_iff_getElem.mp h
  rw [ct.numbered i hi, ContractTable.getByIndex, if_neg (Nat.succ_ne_zero i), Nat.add_sub_cancel]
  exact List.getElem?_eq_getElem hi

theorem ContractTable.contracts_nodup (ct : ContractTable) : ct.contracts.Nodup := by
  rw [List.nodup_iff_injective_get]
  intro i j hij
  have hi := ct.numbered i i.isLt
  have hj := ct.numbered j j.isLt
  have hij' : ct.contracts[i.1] = ct.contracts[j.1] := hij
  rw [hij', hj] at hi
  omega

theorem ContractTable.sum_eq_single (ct : ContractTable) (t : ℕ) {f : Contract → ℚ}
    (hf : ∀ c, c.tickerId ≠ t → f c = 0) :
    (ct.contracts.map f).sum = (ct.getByIndex t).elim 0 f := by
  cases h : ct.getByIndex t with
  | some contract =>
    have hid := ContractTable.tickerId_of_getByIndex h
    have hone := List.count_eq_one_of_mem ct.contracts_nodup (ContractTable.mem_of_getByIndex h)
    rw [List.sum_map_eq_nsmul_single contract f, hone, one_smul]
    · rfl
    · intro c hne hc
      apply hf
      rintro rfl
      rw [ContractTable.getByIndex_of_mem hc] at h
      exact hne (Option.some.inj h)
  | none =>
    apply List.sum_eq_zero
    intro x hx
    obtain ⟨c, hc, rfl⟩ := List.mem_map.mp hx
    apply hf
    rintro rfl
    rw [ContractTable.getByIndex_of_mem hc] at h
    cases h

theorem marketValue_add (holdings d : Ledger) (ticks : ℕ → TickData) :
    marketValue ct (holdings + d) ticks = marketValue ct holdings ticks + marketValue ct d ticks := by
  unfold marketValue
  rw [← List.sum_map_add]
  apply congrArg
  apply List.map_congr_left
  intro c hc
  simp only [Pi.add_apply, Entry.holdings_add]
  push_cast
  ring

theorem marketValue_zero (ticks : ℕ → TickData) : marketValue ct 0 ticks = 0 := by
  apply List.sum_eq_zero
  intro x hx
  obtain ⟨c, hc, rfl⟩ := List.mem_map.mp hx
  simp

theorem marketValue_single (ht : ct.getByIndex t = some contract) (s : Side) (e : Entry)
    (ticks : ℕ → TickData) : marketValue ct (Ledger.single t s e) ticks =
      contract.size * e.holdings * (ticks t).marketQuote := by
  have hid := ContractTable.tickerId_of_getByIndex ht
  rw [marketValue, ct.sum_eq_single t, ht]
  · cases s <;> simp [Ledger.single, hid]
  · intro c hc
    simp [Ledger.single, hc]

theorem marketValue_update (holdings : Ledger) (ticks : ℕ → TickData) (tick : TickData) :
    marketValue ct holdings (Function.update ticks tick.tickerId tick) =
      marketValue ct holdings ticks + (ct.getByIndex tick.tickerId).elim 0 fun c => c.size *
        ((holdings tick.tickerId .long).holdings + (holdings tick.tickerId .short).holdings) *
          (tick.marketQuote - (ticks tick.tickerId).marketQuote) := by
  have hdiff : marketValue ct holdings (Function.update ticks tick.tickerId tick) =
      marketValue ct holdings ticks + (ct.contracts.map fun c => c.size *
        ((holdings c.tickerId .long).holdings + (holdings c.tickerId .short).holdings) *
          ((Function.update ticks tick.tickerId tick c.tickerId).marketQuote -
            (ticks c.tickerId).marketQuote)).sum := by
    rw [marketValue, marketValue, ← List.sum_map_add]
    apply congrArg
    apply List.map_congr_left
    intro c hc
    ring
  rw [ct.sum_eq_single tick.tickerId] at hdiff
  · rw [hdiff]
    cases h : ct.getByIndex tick.tickerId with
    | none => rfl
    | some c =>
      have hid := ContractTable.tickerId_of_getByIndex h
      simp [hid]
  · intro c hc
    simp [Function.update_of_ne hc]

end Tables

namespace Event

def Priced (ct : ContractTable) : Event → Prop
  | .traded order volume _ _ => ct.getByIndex order.contract.tickerId = some order.contract ∧
      |order.contract.size * volume| < 2 ^ 31
  | _ => True

end Event

section Margin

variable {ct : ContractTable}

theorem margin_updatePending (order : OrderRequest) (changed : ℤ) (account : Account) :
    (FundCalculator.updatePending order changed account).margin = account.margin := by
  unfold FundCalculator.updatePending
  split_ifs <;> rfl

theorem marketValue_pending (t : ℕ) (direction : Direction) (offset : Offset) (changed : ℤ)
    (ticks : ℕ → TickData) :
    marketValue ct (pendingDelta t direction offset changed) ticks = 0 := by
  apply List.sum_eq_zero
  intro x hx
  obtain ⟨c, hc, rfl⟩ := List.mem_map.mp hx
  simp

theorem margin_bookFund {e : Event} (he : e.Priced ct) (ticks : ℕ → TickData) (account : Account) :
    (e.bookFund ticks account).margin = account.margin + marketValue ct e.delta ticks := by
  cases e with
  | accepted order => exact (add_eq_left.mpr (marketValue_zero ticks)).symm
  | cancelRejected id => exact (add_eq_left.mpr (marketValue_zero ticks)).symm
  | rejected order =>
    rw [Event.delta, OrderRequest.withdrawn, marketValue_pending, add_zero]
    exact margin_updatePending order _ account
  | canceled order canceledVolume =>
    rw [Event.delta, marketValue_pending, add_zero]
    exact margin_updatePending order _ account
  | traded order volume price ts =>
    obtain ⟨ht, hsmall⟩ := he
    have hproduct := intMul_eq_mul hsmall
    rw [Event.delta, tradedDelta, marketValue_single ht]
    unfold tradedEntry
    rw [isOffsetClose_eq]
    simp only [Event.bookFund, FundCalculator.updateTraded, hproduct]
    cases isOffsetOpen order.offset with
    | true => simp [Entry.holdings]
    | false =>
      simp only [Bool.false_eq_true, if_false, Bool.not_false, if_true, Entry.holdings]
      push_cast
      ring

theorem margin_foldl {events : List Event} (he : ∀ e ∈ events, e.Priced ct)
    (ticks : ℕ → TickData) (account : Account) :
    (events.foldl (fun account e => e.bookFund ticks account) account).margin =
      account.margin + marketValue ct (events.map Event.delta).sum ticks := by
  induction events generalizing account with
  | nil => simp [marketValue_zero]
  | cons e events ih =>
    have hrest := ih (fun e' he' => he e' (List.mem_cons_of_mem _ he')) (e.bookFund ticks account)
    rw [List.foldl_cons, hrest, margin_bookFund (he e List.mem_cons_self), List.map_cons,
      List.sum_cons, marketValue_add, add_assoc]

end Margin

namespace PositionCalculator

def Numbered (c : PositionCalculator) : Prop :=
  ∀ t pos, c.getPosition t = some pos → pos.tickerId = t

variable {c : PositionCalculator}

theorem Numbered.empty : Numbered {} := by
  intro t pos h
  cases h

theorem Numbered.modify (h : c.Numbered) (t : ℕ) (s : Side) (f : PositionDetail → PositionDetail)
    (a : PositionDetail → Bool) : (c.modify t s f a).Numbered := by
  intro t' pos hpos
  rw [getPosition_modify] at hpos
  split_ifs at hpos with ht
  · cases hpos
    cases s <;> exact ht.symm
  · exact h t' pos hpos

theorem Numbered.updatePending (h : c.Numbered) (t : ℕ) (direction : Direction) (offset : Offset)
    (changed : ℤ) : (c.updatePending t direction offset changed).Numbered := by
  unfold PositionCalculator.updatePending
  split_ifs
  · exact h
  · exact h.modify t _ _ _

theorem Numbered.updateTraded (h : c.Numbered) (ct : ContractTable) (t : ℕ) (direction : Direction)
    (offset : Offset) (traded : ℤ) (price : ℚ) :
    (c.updateTraded ct t direction offset traded price).2.Numbered := by
  unfold PositionCalculator.updateTraded
  split_ifs
  · exact h
  · cases ct.getByIndex t with
    | none => exact h
    | some contract =>
      apply Numbered.modify
      exact h

theorem Numbered.foldl (h : c.Numbered) (ct : ContractTable) (events : List Event) :
    (events.foldl (fun c e => e.bookPosition ct c) c).Numbered := by
  induction events generalizing c with
  | nil => exact h
  | cons e events ih =>
    apply ih
    cases e with
    | accepted order => exact h
    | rejected order => exact h.updatePending _ _ _ _
    | traded order volume price ts => exact h.updateTraded ct _ _ _ _ _
    | canceled order canceledVolume => exact h.updatePending _ _ _ _
    | cancelRejected id => exact h

end PositionCalculator

namespace GatewayRun

variable {ε : Type} {m : MatchEngine ε} {ct : ContractTable}

/-- Neither an order's value nor the revalued position overflows an `int`. -/
def NoOverflow (ct : ContractTable) (r : GatewayRun ε) : GatewayAction → Prop
  | .send order => order.IsSmall
  | .cancel _ _ => True
  | .feed tick => ∀ contract, ct.getByIndex tick.tickerId = some contract →
      |contract.size * ((r.gateway.posCalculator.ledger tick.tickerId .long).holdings +
        (r.gateway.posCalculator.ledger tick.tickerId .short).holdings)| < 2 ^ 31

structure Marked (ct : ContractTable) (L : m.Lawful) (r : GatewayRun ε) : Prop where
  kept : Kept ct L r
  small : ∀ o ∈ r.sent, o.IsSmall
  numbered : r.gateway.posCalculator.Numbered
  margin : r.gateway.account.margin =
    marketValue ct r.gateway.posCalculator.ledger r.gateway.currentTicks

theorem priced_inserted {order kept : OrderRequest} {book book' : RestingBook} {ok : Bool}
    {events : List Event} (h : Inserted order kept book ok events book')
    (ht : ct.getByIndex order.contract.tickerId = some order.contract) (hs : order.IsSmall) :
    ∀ e ∈ events, e.Priced ct := by
  intro e he
  cases e with
  | traded k volume price ts =>
    obtain ⟨rfl, rfl⟩ := h.eq_of_traded he
    exact ⟨ht, hs⟩
  | accepted _ => trivial
  | rejected _ => trivial
  | canceled _ _ => trivial
  | cancelRejected _ => trivial

theorem priced_closes {book book' : RestingBook} {events : List Event}
    (h : Closes book events book') (hl : Listed ct book) (hs : ∀ k ∈ book, k.IsSmall) :
    ∀ e ∈ events, e.Priced ct := by
  intro e he
  cases e with
  | traded k volume price ts =>
    obtain ⟨hk, rfl⟩ := h.mem_of_traded he
    exact ⟨hl k hk, hs k hk⟩
  | accepted _ => trivial
  | rejected _ => trivial
  | canceled _ _ => trivial
  | cancelRejected _ => trivial

theorem margin_revalue {g : BacktestGateway ε} (hn : g.posCalculator.Numbered)
    (hh : ∀ t s, 0 ≤ (g.posCalculator.ledger t s).holdings) (tick : TickData)
    (hs : ∀ contract, ct.getByIndex tick.tickerId = some contract →
      |contract.size * ((g.posCalculator.ledger tick.tickerId .long).holdings +
        (g.posCalculator.ledger tick.tickerId .short).holdings)| < 2 ^ 31) :
    (g.revalue ct tick).account.margin = g.account.margin +
      (ct.getByIndex tick.tickerId).elim 0 fun c => c.size *
        ((g.posCalculator.ledger tick.tickerId .long).holdings +
          (g.posCalculator.ledger tick.tickerId .short).holdings) *
          (tick.marketQuote - (g.currentTicks tick.tickerId).marketQuote) := by
  have hlong := hh tick.tickerId .long
  have hshort := hh tick.tickerId .short
  unfold BacktestGateway.revalue
  unfold PositionCalculator.ledger at hlong hshort hs ⊢
  cases hp : g.posCalculator.getPosition tick.tickerId with
  | none => cases ct.getByIndex tick.tickerId <;> simp
  | some pos =>
    have hid := hn _ pos hp
    simp only [hp, Option.elim_some, Position.side, PositionDetail.entry, Entry.holdings] at hlong hshort hs ⊢
    split_ifs with hheld
    · simp only [FundCalculator.updatePrice, hid]
      cases hc : ct.getByIndex tick.tickerId with
      | none => simp [intMul]
      | some c =>
        simp only [Option.getD_some, Option.elim_some, intMul_eq_mul (hs c hc)]
        push_cast
        ring
    · have hl0 : pos.longPos.holdings = 0 := by omega
      have hs0 : pos.shortPos.holdings = 0 := by omega
      cases ct.getByIndex tick.tickerId <;> simp [hl0, hs0]

namespace Marked

variable {L : m.Lawful} {r : GatewayRun ε}

theorem small_resting (h : Marked ct L r) : ∀ k ∈ L.resting r.gateway.matchEngine, k.IsSmall := by
  intro k hk
  obtain ⟨o, ho, touch, rfl⟩ := h.kept.resting_sent k hk
  have hs := h.small o ho
  rwa [OrderRequest.IsSmall, ← o.kept_contract touch, ← o.kept_volume touch] at hs

theorem small_sent (h : Marked ct L r) {order : OrderRequest} (hs : order.IsSmall) :
    ∀ o ∈ r.sent ++ [order], o.IsSmall := by
  intro o ho
  rcases List.mem_append.mp ho with ho | ho
  · exact h.small o ho
  · rwa [List.mem_singleton.mp ho]

theorem submit (h : Marked ct L r) {order : OrderRequest}
    (ht : ct.getByIndex order.contract.tickerId = some order.contract) (hs : order.IsSmall)
    (hpend : Booked ct (r.gateway.posCalculator.updatePending order.contract.tickerId
      order.direction order.offset order.volume) (order ::ₘ L.resting r.gateway.matchEngine))
    {bookings : List Event} {g : BacktestGateway ε}
    (hsub : BacktestGateway.Submitted ct L order bookings r.gateway g) :
    Marked ct L ⟨g, r.sent ++ [order]⟩ := by
  obtain ⟨touch, hins⟩ := hsub.inserted
  refine ⟨h.kept.submit ht hpend hsub, h.small_sent hs, ?_, ?_⟩
  · rw [hsub.posCalculator]
    exact (h.numbered.updatePending _ _ _ _).foldl ct bookings
  · rw [hsub.account, margin_foldl (priced_inserted hins ht hs), margin_updatePending, h.margin,
      hsub.posCalculator, (booked_inserted hins ht hpend).2,
      PositionCalculator.ledger_updatePending, marketValue_add, marketValue_add,
      marketValue_pending, add_zero, hsub.currentTicks]

theorem refuse (h : Marked ct L r) {order : OrderRequest} (hs : order.IsSmall) :
    Marked ct L ⟨r.gateway, r.sent ++ [order]⟩ :=
  ⟨h.kept.refuse order, h.small_sent hs, h.numbered, h.margin⟩

theorem clear (h : Marked ct L r) {events : List Event} {g g' : BacktestGateway ε}
    (heng : g.matchEngine = r.gateway.matchEngine) (hpos : g.posCalculator = r.gateway.posCalculator)
    (hmargin : g.account.margin = marketValue ct g.posCalculator.ledger g.currentTicks)
    (hc : BacktestGateway.Cleared ct L events g g') : Marked ct L ⟨g', r.sent⟩ := by
  have hcloses := hc.closes
  rw [heng] at hcloses
  have hledger := (booked_closes hcloses h.kept.balanced.listed h.kept.balanced.booked).2
  refine ⟨h.kept.clear heng hpos hc, h.small, ?_, ?_⟩
  · rw [hc.posCalculator, hpos]
    exact h.numbered.foldl ct events
  · rw [hc.account, margin_foldl (priced_closes hcloses h.kept.balanced.listed h.small_resting),
      hmargin, hc.posCalculator, hpos, hledger, marketValue_add, hc.currentTicks]

theorem feed (h : Marked ct L r) {tick : TickData} (ho : r.NoOverflow ct (.feed tick)) :
    Marked ct L ⟨r.gateway.onDataFeed m ct tick, r.sent⟩ := by
  refine h.clear (BacktestGateway.remark_matchEngine tick r.gateway)
    (BacktestGateway.remark_posCalculator tick r.gateway) ?_
    (BacktestGateway.cleared_feed L h.kept.balanced.inv tick)
  have hholdings : ∀ t s, 0 ≤ (r.gateway.posCalculator.ledger t s).holdings := by
    intro t s
    have hsound := h.kept.balanced.booked.covers.sound t s
    exact hsound.2.1.trans hsound.2.2
  rw [BacktestGateway.remark_eq]
  simp only
  rw [margin_revalue h.numbered hholdings tick ho, marketValue_update, h.margin]

theorem preserved (h : Marked ct L r) {a : GatewayAction} {r' : GatewayRun ε}
    (ha : r.Regular ct a) (ho : r.NoOverflow ct a) (hs : step m ct r a = some r') :
    Marked ct L r' := by
  cases a with
  | send order =>
    cases hs
    obtain ⟨hfresh, ht, hd⟩ := ha
    by_cases hcheck : r.gateway.checkOrder order = true
    · obtain ⟨bookings, hsub⟩ := BacktestGateway.submitted L h.kept.balanced.inv
        (h.kept.fresh hfresh) hcheck
      exact h.submit ht ho (h.kept.pend hcheck fun _ => hd) hsub
    · rw [BacktestGateway.sendOrder_refused hcheck]
      exact h.refuse ho
  | cancel orderId privdata =>
    obtain ⟨x, hx, rfl⟩ := Option.map_eq_some_iff.mp hs
    obtain ⟨y, -, hc⟩ := BacktestGateway.cleared_cancel L h.kept.balanced.inv hx
    exact h.clear rfl rfl h.margin hc
  | feed tick =>
    cases hs
    exact h.feed ho

theorem start (L : m.Lawful) {g : BacktestGateway ε} (hinv : L.inv g.matchEngine)
    (hresting : L.resting g.matchEngine = 0) (hpos : g.posCalculator = {})
    (hmargin : g.account.margin = 0) : Marked ct L { gateway := g } := by
  refine ⟨.start L hinv hresting hpos, by simp, ?_, ?_⟩
  · rw [hpos]
    exact PositionCalculator.Numbered.empty
  · rw [hpos, hmargin, PositionCalculator.ledger_empty, marketValue_zero]

end Marked

theorem margin_of_reaches (L : m.Lawful) (g : BacktestGateway ε) (hinv : L.inv g.matchEngine)
    (hresting : L.resting g.matchEngine = 0) (hpos : g.posCalculator = {})
    (hmargin : g.account.margin = 0) {r : GatewayRun ε}
    (h : Execution.Reaches (step m ct) (fun r a => r.Regular ct a ∧ r.NoOverflow ct a)
      { gateway := g } r) :
    r.gateway.account.margin =
      marketValue ct r.gateway.posCalculator.ledger r.gateway.currentTicks := by
  apply Marked.margin (L := L)
  exact h.invariant (Marked ct L) (fun _ _ _ hk ha hs => hk.preserved ha.1 ha.2 hs)
    (.start L hinv hresting hpos hmargin)

end GatewayRun

theorem margin_marked_to_market (ct : ContractTable) (dataFeed : List TickData) :
    (∀ r, Execution.Reaches (GatewayRun.step SimpleMatchEngine.engine ct)
        (fun r a => r.Regular ct a ∧ r.NoOverflow ct a)
        { gateway := { matchEngine := {}, dataFeed } } r →
      r.gateway.account.margin =
        marketValue ct r.gateway.posCalculator.ledger r.gateway.currentTicks) ∧
      ∀ fuel r, Execution.Reaches (GatewayRun.step (AdvancedMatchEngine.engine ct fuel) ct)
        (fun r a => r.Regular ct a ∧ r.NoOverflow ct a)
        { gateway := { matchEngine := {}, dataFeed } } r →
      r.gateway.account.margin =
        marketValue ct r.gateway.posCalculator.ledger r.gateway.currentTicks := by
  constructor
  · intro r h
    exact GatewayRun.margin_of_reaches SimpleMatchEngine.lawful { matchEngine := {}, dataFeed }
      SimpleMatchEngine.filed_empty rfl rfl rfl h
  · intro fuel r h
    exact GatewayRun.margin_of_reaches (AdvancedMatchEngine.lawful ct fuel)
      { matchEngine := {}, dataFeed } AdvancedMatchEngine.indexed_empty rfl rfl rfl h

def tradeTick (price : ℚ) : TickData where
  tickerId := 1
  lastPrice := price

def boughtThenUp : BacktestGateway SimpleMatchEngine :=
  let ct := ContractTable.ofList [ticker001]
  let g : BacktestGateway SimpleMatchEngine := { matchEngine := {} }
  let g := g.onDataFeed SimpleMatchEngine.engine ct quoteTick
  let g := (g.sendOrder SimpleMatchEngine.engine ct (limitOrder 1 .kBuy .kOpen 2 101)).2.2
  g.onDataFeed SimpleMatchEngine.engine ct (tradeTick 105)

theorem margin_marked_to_market_boughtThenUp :
    boughtThenUp.account.margin = 2100 ∧ boughtThenUp.account.margin =
      marketValue (.ofList [ticker001]) boughtThenUp.posCalculator.ledger
        boughtThenUp.currentTicks := by
  have hstart : Execution.Reaches (GatewayRun.step SimpleMatchEngine.engine (.ofList [ticker001]))
      (fun r a => r.Regular (.ofList [ticker001]) a ∧ r.NoOverflow (.ofList [ticker001]) a)
      { gateway := { matchEngine := {}, dataFeed := [] } }
      { gateway := { matchEngine := {}, dataFeed := [] } } := .refl _
  have hfeed := hstart.tail (.feed quoteTick) ⟨trivial, fun c hc => by cases hc; decide⟩ rfl
  have hbuy := hfeed.tail (.send (limitOrder 1 .kBuy .kOpen 2 101))
    ⟨⟨by simp, rfl, Or.inl rfl⟩, show OrderRequest.IsSmall _ by decide⟩ rfl
  have hup := hbuy.tail (.feed (tradeTick 105))
    ⟨trivial, fun c hc => by cases hc; decide +kernel⟩ rfl
  exact ⟨by decide +kernel, (margin_marked_to_market (.ofList [ticker001]) []).1 _ hup⟩

end FlareTrader
