import FlareTrader.InFlight

/-! The positions of the strategies under the bookings of an order's life: the
calculator an order is booked on covers the live orders of its strategies. -/

namespace FlareTrader

section Bookings

variable {ct : ContractTable} {order : Order} {pm : PositionManager} {key : String}
  {live : RestingBook}

theorem PositionManager.calculator_updatePending (strategy : String) (t : ℕ)
    (direction : Direction) (offset : Offset) (changed : ℤ) (key : String) (pm : PositionManager) :
    (pm.updatePending strategy t direction offset changed).calculator key =
      if pm.findCalculator strategy = key
      then (pm.calculator key).updatePending t direction offset changed else pm.calculator key := by
  rw [updatePending, calculator_put]
  by_cases h : key = pm.findCalculator strategy
  · rw [if_pos h, if_pos h.symm, h]
  · rw [if_neg h, if_neg (Ne.symm h)]

theorem PositionManager.calculator_updateTraded (ct : ContractTable) (strategy : String) (t : ℕ)
    (direction : Direction) (offset : Offset) (traded : ℤ) (price : ℚ) (key : String)
    (pm : PositionManager) :
    (pm.updateTraded ct strategy t direction offset traded price).2.calculator key =
      if pm.findCalculator strategy = key
      then ((pm.calculator key).updateTraded ct t direction offset traded price).2
      else pm.calculator key := by
  rw [updateTraded, calculator_put]
  by_cases h : key = pm.findCalculator strategy
  · rw [if_pos h, if_pos h.symm, h]
  · rw [if_neg h, if_neg (Ne.symm h)]

theorem PositionRisk.available_eq {pos : Position}
    (h : pm.getPosition order.strategyId order.req.contract.tickerId = some pos)
    (hclose : isOffsetClose order.req.offset = true) :
    PositionRisk.available pm order =
      (pos.side order.req.side).entry.holdings - (pos.side order.req.side).entry.closePending := by
  simp only [PositionRisk.available, h, OrderRequest.side, bookedSide, hclose, if_true]
  by_cases hbuy : order.req.direction = .kBuy
  · simp only [hbuy, if_true]
    rfl
  · rw [if_neg hbuy]
    have hlong : sideOf (oppositeDirection order.req.direction) = .long := by
      simp [sideOf, oppositeDirection, hbuy]
    rw [hlong]
    rfl

/-- The position rule leaves room for a close in the calculator it is booked on. -/
theorem PositionRisk.room_of_check (hv : 0 < order.req.volume)
    (h : PositionRisk.checkOrderRequest pm order = .kNoError)
    (hclose : isOffsetClose order.req.offset = true) :
    order.req.volume ≤ ((pm.calculator (pm.findCalculator order.strategyId)).ledger
        order.req.contract.tickerId order.req.side).holdings -
      ((pm.calculator (pm.findCalculator order.strategyId)).ledger
        order.req.contract.tickerId order.req.side).closePending := by
  have hroom : order.req.volume ≤ PositionRisk.available pm order := by
    by_contra hlt
    rw [PositionRisk.checkOrderRequest, if_pos ⟨hclose, not_le.mp hlt⟩] at h
    cases h
  cases hpos : pm.getPosition order.strategyId order.req.contract.tickerId with
  | none =>
    simp only [PositionRisk.available, hpos] at hroom
    omega
  | some pos =>
    have hkey : pm.findCalculator order.strategyId = order.strategyId := by
      obtain ⟨c, hc, -⟩ := Option.bind_eq_some_iff.mp hpos
      rw [PositionManager.findCalculator, SortedMap.contains, hc]
      rfl
    rw [PositionRisk.available_eq hpos hclose] at hroom
    rw [PositionManager.getPosition_eq] at hpos
    rw [hkey, PositionCalculator.ledger, hpos]
    exact hroom

theorem PositionRisk.booked_sent (h : Booked ct (pm.calculator key) live)
    (hv : 0 < order.req.volume) (hcheck : PositionRisk.checkOrderRequest pm order = .kNoError) :
    Booked ct ((PositionRisk.onOrderSent order pm).calculator key)
      (if pm.findCalculator order.strategyId = key then order.req ::ₘ live else live) := by
  rw [PositionRisk.onOrderSent, PositionRisk.updatePending,
    PositionManager.calculator_updatePending]
  split_ifs with hkey
  · subst hkey
    exact h.sent hv (PositionRisk.room_of_check hv hcheck)
  · exact h

theorem Order.booked_settled {rsp : GatewayOrderResponse} (hs : rsp.Settles order.req)
    (ht : ct.getByIndex order.req.contract.tickerId = some order.req.contract)
    (h : Booked ct (pm.calculator key)
      (if pm.findCalculator order.strategyId = key then order.req ::ₘ live else live)) :
    Booked ct ((order.booked ct rsp pm).calculator key) live := by
  cases rsp with
  | traded rsp =>
    have hv : rsp.volume = order.req.volume := hs
    simp only [Order.booked, PositionRisk.onOrderTraded, PositionManager.calculator_updateTraded, hv]
    split_ifs at h ⊢
    · exact h.traded ht rsp.price
    · exact h
  | rejected id reason =>
    simp only [Order.booked, PositionRisk.onOrderRejected, PositionRisk.updatePending,
      PositionManager.calculator_updatePending, zero_sub]
    split_ifs at h ⊢
    · exact h.withdrawn
    · exact h
  | canceled id canceledVolume =>
    have hv : canceledVolume = order.req.volume := hs
    simp only [Order.booked, PositionRisk.onOrderCanceled, PositionRisk.updatePending,
      PositionManager.calculator_updatePending, zero_sub, hv]
    split_ifs at h ⊢
    · exact h.withdrawn
    · exact h
  | accepted id => cases hs
  | cancelRejected id reason => cases hs

theorem Order.booked_total {rsp : GatewayOrderResponse} (hs : rsp.Settles order.req)
    (hv : 0 < order.req.volume)
    (ht : ct.getByIndex order.req.contract.tickerId = some order.req.contract) :
    (order.booked ct rsp pm).total = pm.total + order.req.effect rsp := by
  cases rsp with
  | traded rsp =>
    have hvolume : rsp.volume = order.req.volume := hs
    exact PositionManager.total_updateTraded pm _ _ _ _ ht (hvolume ▸ hv) rsp.price
  | rejected id reason => exact PositionManager.total_updatePending pm _ _ _ _ _
  | canceled id canceledVolume => exact PositionManager.total_updatePending pm _ _ _ _ _
  | accepted id => cases hs
  | cancelRejected id reason => cases hs

theorem Order.booked_findCalculator (rsp : GatewayOrderResponse) (strategy : String) :
    (order.booked ct rsp pm).findCalculator strategy = pm.findCalculator strategy := by
  cases rsp with
  | traded rsp => exact PositionManager.findCalculator_updateTraded pm _ _ _ _ ct _ _ strategy
  | rejected id reason => exact PositionManager.findCalculator_updatePending pm _ _ _ _ _ strategy
  | canceled id volume => exact PositionManager.findCalculator_updatePending pm _ _ _ _ _ strategy
  | accepted id => rfl
  | cancelRejected id reason => rfl

end Bookings

section Live

variable {pm pm' : PositionManager} {m : OrderMap} {id : ℕ} {order order' : Order}

def liveOf (pm : PositionManager) (m : OrderMap) (key : String) : RestingBook :=
  m.sum fun _ order => if pm.findCalculator order.strategyId = key then {order.req} else 0

theorem liveOf_congr (h : ∀ strategy, pm'.findCalculator strategy = pm.findCalculator strategy)
    (m : OrderMap) (key : String) : liveOf pm' m key = liveOf pm m key := by
  apply SortedMap.sum_congr m
  intro k order _
  rw [h]

theorem liveOf_eq (h : m.find? id = some order) (key : String) : liveOf pm m key =
    if pm.findCalculator order.strategyId = key then order.req ::ₘ liveOf pm (m.erase id) key
    else liveOf pm (m.erase id) key := by
  rw [liveOf, SortedMap.sum_eq_add m id, h, Option.elim_some]
  split_ifs
  · exact Multiset.singleton_add _ _
  · exact zero_add _

theorem liveOf_insert (m : OrderMap) (id : ℕ) (order : Order) (key : String) :
    liveOf pm (m.insert id order) key =
      if pm.findCalculator order.strategyId = key then order.req ::ₘ liveOf pm (m.erase id) key
      else liveOf pm (m.erase id) key := by
  rw [liveOf, SortedMap.sum_insert_eq_add]
  split_ifs
  · exact Multiset.singleton_add _ _
  · exact zero_add _

theorem liveOf_update (h : m.find? id = some order) (hreq : order'.req = order.req)
    (howner : order'.strategyId = order.strategyId) (key : String) :
    liveOf pm (m.insert id order') key = liveOf pm m key := by
  rw [liveOf_insert, liveOf_eq h, hreq, howner]

end Live

section Init

theorem PositionManager.find?_init (strategyConfigList : List String) {key : String}
    {c : PositionCalculator} (h : (init strategyConfigList).stPosCalculators.find? key = some c) :
    c = {} := by
  have hemplace : ∀ (m : SortedMap String PositionCalculator (· < ·)) (name : String),
      (∀ key c, m.find? key = some c → c = {}) →
      ∀ key c, (m.emplace name {}).find? key = some c → c = {} := by
    intro m name hm key c hc
    unfold SortedMap.emplace at hc
    split_ifs at hc
    · exact hm key c hc
    · rw [SortedMap.find?_insert] at hc
      split_ifs at hc
      · exact (Option.some.inj hc).symm
      · exact hm key c hc
  have hfold : ∀ (names : List String) (m : SortedMap String PositionCalculator (· < ·)),
      (∀ key c, m.find? key = some c → c = {}) →
      ∀ key c, (names.foldl (fun m name => m.emplace name {}) m).find? key = some c → c = {} := by
    intro names
    induction names with
    | nil => exact fun m hm => hm
    | cons name names ih => exact fun m hm => ih _ (hemplace m name hm)
  exact hemplace _ _ (hfold strategyConfigList _ fun key c hc => by cases hc) key c h

theorem PositionManager.calculator_init (strategyConfigList : List String) (key : String) :
    (init strategyConfigList).calculator key = {} := by
  unfold calculator
  cases h : (init strategyConfigList).stPosCalculators.find? key with
  | none => rfl
  | some c => exact find?_init strategyConfigList h

theorem PositionManager.contains_init_iff {strategyConfigList : List String} {name : String} :
    (init strategyConfigList).stPosCalculators.contains name = true ↔
      name ∈ strategyConfigList ∨ name = kCommonPosPool := by
  have hfold : ∀ (names : List String) (m : SortedMap String PositionCalculator (· < ·)),
      (names.foldl (fun m name => m.emplace name {}) m).contains name = true ↔
        m.contains name = true ∨ name ∈ names := by
    intro names
    induction names with
    | nil => simp
    | cons name' names ih =>
      intro m
      rw [List.foldl_cons, ih, SortedMap.contains_emplace_iff, List.mem_cons, or_assoc]
  have hempty : (SortedMap.empty : SortedMap String PositionCalculator (· < ·)).contains name =
      false := rfl
  rw [init, SortedMap.contains_emplace_iff, hfold, hempty]
  simp

theorem PositionManager.total_init (strategyConfigList : List String) :
    (init strategyConfigList).total = 0 := by
  have hzero : (init strategyConfigList).total =
      (init strategyConfigList).stPosCalculators.sum fun _ _ => 0 :=
    SortedMap.sum_congr _ fun key c h => by rw [find?_init strategyConfigList h]; rfl
  rw [hzero, SortedMap.sum, List.map_const', List.sum_replicate, smul_zero]

end Init

end FlareTrader
