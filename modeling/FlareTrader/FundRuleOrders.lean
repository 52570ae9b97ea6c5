import FlareTrader.OmsFunds

/-! One order against the fund rule: whether the check compares what the rule then
freezes and releases, and whether closing a position gives back the margin that
opening it took. -/

namespace FlareTrader

def Order.unitMargin (order : Order) (price : ℚ) : ℚ :=
  order.req.contract.size * price * order.marginRate

theorem Order.margin_eq_mul {order : Order} {volume : ℤ} (h : order.Fits volume) (price : ℚ) :
    order.margin volume price = volume * order.unitMargin price := by
  rw [Order.margin_eq h, Order.unitMargin]
  ring

theorem Order.Fits.of_le {order : Order} {volume taken : ℤ} (hsize : 0 < order.req.contract.size)
    (h : order.Fits volume) (hpos : 0 ≤ taken) (hle : taken ≤ volume) : order.Fits taken := by
  have hmul := mul_le_mul_of_nonneg_left hle hsize.le
  have hnonneg := mul_nonneg hsize.le hpos
  rw [Order.Fits, abs_lt] at h ⊢
  constructor
  · omega
  · omega

theorem Order.hold_add (order : Order) (v w : ℤ) :
    order.hold (v + w) = order.hold v + order.hold w := by
  have hsub := order.hold_sub (v + w) w
  rw [add_sub_cancel_right] at hsub
  rw [hsub, sub_add_cancel]

namespace FundRisk

section Check

def estimated (order : Order) : ℚ :=
  order.req.price * order.req.volume * order.req.contract.size * order.marginRate

/-- The responses take the whole volume of the order, each a part of it. -/
structure Partitions (order : Order) (rsps : List GatewayOrderResponse) : Prop where
  nonneg : ∀ rsp ∈ rsps, 0 ≤ order.taken rsp
  total : (rsps.map order.taken).sum = order.req.volume

structure ChecksWhatItFreezes (order : Order) : Prop where
  check : ∀ account, checkOrderRequest account order =
    if account.cash * (11 / 10) < estimated order then .kFundNotEnough else .kNoError
  sent : ∀ account, onOrderSent order account =
    { account with
      cash := account.cash - estimated order
      frozen := account.frozen + estimated order }
  released : ∀ account rsps, Partitions order rsps →
    (rsps.foldl (fun account rsp => order.funded rsp account) account).frozen =
      account.frozen - estimated order

structure PositiveOpen (order : Order) : Prop where
  opens : isOffsetOpen order.req.offset = true
  trades : order.req.direction = .kBuy ∨ order.req.direction = .kSell
  volume_pos : 0 < order.req.volume
  size_pos : 0 < order.req.contract.size
  price_pos : 0 < order.req.price
  long_pos : 0 < order.req.contract.longMarginRate
  short_pos : 0 < order.req.contract.shortMarginRate

variable {order : Order}

theorem check_eq_estimated (h : PositiveOpen order) (account : Account) :
    checkOrderRequest account order =
      if account.cash * (11 / 10) < estimated order then .kFundNotEnough else .kNoError := by
  have hdirection : ¬ (order.req.direction ≠ .kBuy ∧ order.req.direction ≠ .kSell) := by
    rintro ⟨hbuy, hsell⟩
    exact h.trades.elim hbuy hsell
  have hclose : ¬ isOffsetClose order.req.offset = true := by
    simp [isOffsetClose_eq, h.opens]
  simp only [checkOrderRequest, if_neg hdirection, if_neg hclose, estimated]
  rfl

theorem frozen_foldl_funded {rsps : List GatewayOrderResponse}
    (hfits : ∀ rsp ∈ rsps, order.Fits (order.taken rsp)) (account : Account) :
    (rsps.foldl (fun account rsp => order.funded rsp account) account).frozen =
      account.frozen - order.hold (rsps.map order.taken).sum := by
  induction rsps generalizing account with
  | nil => simp
  | cons rsp rsps ih =>
    have hrest : ∀ rsp' ∈ rsps, order.Fits (order.taken rsp') :=
      fun rsp' hrsp' => hfits rsp' (List.mem_cons_of_mem _ hrsp')
    rw [List.foldl_cons, ih hrest, Order.frozen_funded (hfits rsp List.mem_cons_self),
      List.map_cons, List.sum_cons, sub_sub, ← Order.hold_add]

theorem fits_of_partitions {rsps : List GatewayOrderResponse} (h : Partitions order rsps)
    (hsize : 0 < order.req.contract.size) (hfits : order.Fits order.req.volume) :
    ∀ rsp ∈ rsps, order.Fits (order.taken rsp) := by
  intro rsp hrsp
  refine hfits.of_le hsize (h.nonneg rsp hrsp) ?_
  rw [← h.total]
  exact List.single_le_sum (by simpa using h.nonneg) _ (List.mem_map_of_mem hrsp)

theorem hold_volume (h : PositiveOpen order) :
    order.hold order.req.volume = estimated order := by
  rw [Order.hold, if_pos h.opens, estimated]
  ring

theorem marginRate_pos (h : PositiveOpen order) : 0 < order.marginRate := by
  unfold Order.marginRate
  split_ifs
  · exact h.long_pos
  · exact h.short_pos

theorem margin_eq_estimated_iff (h : PositiveOpen order) :
    order.margin order.req.volume order.req.price = estimated order ↔
      order.req.contract.size * order.req.volume < 2 ^ 31 := by
  have hfactor : order.req.price * order.marginRate ≠ 0 :=
    (mul_pos h.price_pos (marginRate_pos h)).ne'
  have hestimated : estimated order = ((order.req.contract.size * order.req.volume : ℤ) : ℚ) *
      (order.req.price * order.marginRate) := by
    rw [estimated]
    push_cast
    ring
  rw [Order.margin, hestimated, mul_assoc, mul_left_inj' hfactor, Int.cast_inj,
    intMul_eq_mul_iff (mul_pos h.size_pos h.volume_pos).le]

theorem checks_what_it_freezes_iff (h : PositiveOpen order) :
    ChecksWhatItFreezes order ↔ order.req.contract.size * order.req.volume < 2 ^ 31 := by
  have hamount := margin_eq_estimated_iff h
  constructor
  · intro hc
    have hsent := congrArg Account.frozen (hc.sent {})
    simp only [onOrderSent, if_pos h.opens, zero_add] at hsent
    exact hamount.mp hsent
  · intro hlt
    have hmul := mul_pos h.size_pos h.volume_pos
    have hfits : order.Fits order.req.volume := abs_lt.mpr ⟨by omega, hlt⟩
    refine ⟨check_eq_estimated h, fun account => ?_, fun account rsps hrsps => ?_⟩
    · simp only [onOrderSent, if_pos h.opens, hamount.mpr hlt]
    · rw [frozen_foldl_funded (fits_of_partitions hrsps h.size_pos hfits), hrsps.total,
        hold_volume h]

def openingBuy (volume : ℤ) : Order where
  req := {
    contract := { size := 300, longMarginRate := 1 / 10, shortMarginRate := 1 / 10, tickerId := 1 }
    orderId := 1
    type := .kLimit
    direction := .kBuy
    offset := .kOpen
    volume := volume
    price := 4000 }
  clientOrderId := 1
  mqId := 0
  status := .kSubmitting
  strategyId := "strategy"

theorem positiveOpen_openingBuy (volume : ℤ) (h : 0 < volume) : PositiveOpen (openingBuy volume) where
  opens := rfl
  trades := Or.inl rfl
  volume_pos := h
  size_pos := by norm_num [openingBuy]
  price_pos := by norm_num [openingBuy]
  long_pos := by norm_num [openingBuy]
  short_pos := by norm_num [openingBuy]

theorem checks_what_it_freezes_two :
    ChecksWhatItFreezes (openingBuy 2) ∧ estimated (openingBuy 2) = 240000 ∧
      (onOrderSent (openingBuy 2) {}).frozen = 240000 ∧
      ¬ ChecksWhatItFreezes (openingBuy 8000000) := by
  refine ⟨?_, by decide +kernel, by decide +kernel, fun hc => ?_⟩
  · exact (checks_what_it_freezes_iff (positiveOpen_openingBuy 2 (by decide))).mpr
      (by norm_num [openingBuy])
  · have hlt := (checks_what_it_freezes_iff (positiveOpen_openingBuy 8000000 (by decide))).mp hc
    norm_num [openingBuy] at hlt

/-- Eight million times 300 wraps around: a negative amount is frozen. -/
theorem large_order_freezes_negative_amount :
    PositiveOpen (openingBuy 8000000) ∧ ¬ ChecksWhatItFreezes (openingBuy 8000000) ∧
      estimated (openingBuy 8000000) = 960000000000 ∧
      (onOrderSent (openingBuy 8000000) {}).frozen = -757986918400 := by
  have hpositive := positiveOpen_openingBuy 8000000 (by decide)
  have hestimated : estimated (openingBuy 8000000) = 960000000000 := by decide +kernel
  have hfrozen : (onOrderSent (openingBuy 8000000) {}).frozen = -757986918400 := by decide +kernel
  refine ⟨hpositive, fun hc => ?_, hestimated, hfrozen⟩
  have hsent := hc.sent {}
  rw [hsent, hestimated] at hfrozen
  norm_num at hfrozen

end Check

section Close

def filled (order : Order) (trades : List OrderTradedRsp) (account : Account) : Account :=
  trades.foldl (fun account trade => onOrderTraded order trade account) (onOrderSent order account)

structure FillsAt (volume : ℤ) (price : ℚ) (trades : List OrderTradedRsp) : Prop where
  positive : ∀ trade ∈ trades, 0 < trade.volume
  price_eq : ∀ trade ∈ trades, trade.price = price
  total : (trades.map (·.volume)).sum = volume

structure RoundTrip (openOrder closeOrder : Order) (price : ℚ)
    (opens closes : List OrderTradedRsp) : Prop where
  opens_offset : isOffsetOpen openOrder.req.offset = true
  closes_offset : isOffsetClose closeOrder.req.offset = true
  trades : openOrder.req.direction = .kBuy ∨ openOrder.req.direction = .kSell
  opposite : closeOrder.req.direction = oppositeDirection openOrder.req.direction
  same_contract : closeOrder.req.contract = openOrder.req.contract
  same_volume : closeOrder.req.volume = openOrder.req.volume
  limit : openOrder.req.price = price
  size_pos : 0 < openOrder.req.contract.size
  volume_pos : 0 < openOrder.req.volume
  fits : openOrder.Fits openOrder.req.volume
  opened : FillsAt openOrder.req.volume price opens
  closed : FillsAt openOrder.req.volume price closes

/-- Both rates are one, and the first closing fill does not take the margin below zero. -/
def GivesBack (contract : Contract) (volume : ℤ) (price : ℚ) (closes : List OrderTradedRsp)
    (margin : ℚ) : Prop :=
  (price = 0 ∨ contract.longMarginRate = contract.shortMarginRate) ∧
    ∀ first, closes.head? = some first →
      0 ≤ margin + contract.size * (volume - first.volume) * price * contract.longMarginRate

variable {order openOrder closeOrder : Order} {price : ℚ} {opens closes trades : List OrderTradedRsp}

theorem foldl_traded_open (h : isOffsetOpen order.req.offset = true)
    (hfits : ∀ trade ∈ trades, order.Fits trade.volume)
    (hprice : ∀ trade ∈ trades, trade.price = order.req.price) (account : Account) :
    trades.foldl (fun account trade => onOrderTraded order trade account) account =
      { account with
        frozen := account.frozen -
          (trades.map (·.volume)).sum * order.unitMargin order.req.price
        margin := account.margin +
          (trades.map (·.volume)).sum * order.unitMargin order.req.price } := by
  induction trades generalizing account with
  | nil => simp
  | cons trade trades ih =>
    have hmargin := Order.margin_eq_mul (hfits trade List.mem_cons_self) order.req.price
    have hrest := fun trade' h' => hfits trade' (List.mem_cons_of_mem _ h')
    have hrestPrice := fun trade' h' => hprice trade' (List.mem_cons_of_mem _ h')
    rw [List.foldl_cons, ih hrest hrestPrice, List.map_cons, List.sum_cons]
    simp only [onOrderTraded, if_pos h, hprice trade List.mem_cons_self, hmargin, sub_self,
      add_zero, Account.mk.injEq, true_and, and_true]
    push_cast
    constructor
    · ring
    · ring

def marginLeft (unit margin : ℚ) (volume : ℤ) : ℚ := max 0 (margin - volume * unit)

theorem foldl_traded_close (h : isOffsetClose order.req.offset = true)
    (hfits : ∀ trade ∈ trades, order.Fits trade.volume)
    (hprice : ∀ trade ∈ trades, trade.price = price) (account : Account) :
    trades.foldl (fun account trade => onOrderTraded order trade account) account =
      { account with
        margin := (trades.map (·.volume)).foldl (marginLeft (order.unitMargin price)) account.margin
        cash := account.cash + (trades.map (·.volume)).sum * order.unitMargin price } := by
  have hopen : ¬ isOffsetOpen order.req.offset = true := by
    rw [isOffsetClose_eq] at h
    simpa using h
  induction trades generalizing account with
  | nil => simp
  | cons trade trades ih =>
    have hmargin := Order.margin_eq_mul (hfits trade List.mem_cons_self) price
    have hrest := fun trade' h' => hfits trade' (List.mem_cons_of_mem _ h')
    have hrestPrice := fun trade' h' => hprice trade' (List.mem_cons_of_mem _ h')
    have hleft : ∀ left : ℚ, (if left < 0 then 0 else left) = max 0 left := by
      intro left
      split_ifs with hneg
      · exact (max_eq_left hneg.le).symm
      · exact (max_eq_right (not_lt.mp hneg)).symm
    rw [List.foldl_cons, ih hrest hrestPrice, List.map_cons, List.sum_cons, List.foldl_cons]
    simp only [onOrderTraded, if_neg hopen, if_pos h, hprice trade List.mem_cons_self, hmargin,
      hleft, marginLeft, Account.mk.injEq, true_and, and_true]
    push_cast
    ring

section Margin

variable {unit margin : ℚ} {volumes : List ℤ}

theorem foldl_marginLeft_of_nonneg (hunit : 0 ≤ unit) (hpos : ∀ v ∈ volumes, 0 < v)
    (h : 0 ≤ margin - volumes.sum * unit) :
    volumes.foldl (marginLeft unit) margin = margin - volumes.sum * unit := by
  induction volumes generalizing margin with
  | nil => simp
  | cons v volumes ih =>
    have hrest : ∀ v' ∈ volumes, 0 < v' := fun v' hv' => hpos v' (List.mem_cons_of_mem _ hv')
    have hsum : (0 : ℚ) ≤ volumes.sum := by
      exact_mod_cast List.sum_nonneg fun v' hv' => (hrest v' hv').le
    have hsplit : margin - (v :: volumes).sum * unit = margin - v * unit - volumes.sum * unit := by
      rw [List.sum_cons]
      push_cast
      ring
    rw [hsplit] at h ⊢
    have hleft : marginLeft unit margin v = margin - v * unit :=
      max_eq_right (le_trans (mul_nonneg hsum hunit) (sub_nonneg.mp h))
    rw [List.foldl_cons, hleft]
    exact ih hrest h

theorem foldl_marginLeft_of_nonpos (hunit : unit ≤ 0) (hpos : ∀ v ∈ volumes, 0 < v)
    (h : 0 ≤ margin) : volumes.foldl (marginLeft unit) margin = margin - volumes.sum * unit := by
  induction volumes generalizing margin with
  | nil => simp
  | cons v volumes ih =>
    have hv : (0 : ℚ) ≤ v := by exact_mod_cast (hpos v List.mem_cons_self).le
    have hnonneg : 0 ≤ margin - v * unit :=
      sub_nonneg.mpr (le_trans (mul_nonpos_of_nonneg_of_nonpos hv hunit) h)
    have hleft : marginLeft unit margin v = margin - v * unit := max_eq_right hnonneg
    rw [List.foldl_cons, hleft, ih (fun v' hv' => hpos v' (List.mem_cons_of_mem _ hv')) hnonneg,
      List.sum_cons]
    push_cast
    ring

/-- Once the first volume leaves what is due, so do the others. -/
theorem foldl_marginLeft_eq_iff {v : ℤ} (hpos : ∀ v' ∈ v :: volumes, 0 < v') (hmargin : 0 ≤ margin) :
    (v :: volumes).foldl (marginLeft unit) (margin + (v :: volumes).sum * unit) = margin ↔
      0 ≤ margin + volumes.sum * unit := by
  have hrest : ∀ v' ∈ volumes, 0 < v' := fun v' hv' => hpos v' (List.mem_cons_of_mem _ hv')
  have hsum : (0 : ℚ) ≤ volumes.sum := by
    exact_mod_cast List.sum_nonneg fun v' hv' => (hrest v' hv').le
  have hfirst : margin + (v :: volumes).sum * unit - v * unit = margin + volumes.sum * unit := by
    rw [List.sum_cons]
    push_cast
    ring
  rw [List.foldl_cons, marginLeft, hfirst]
  rcases le_total 0 unit with hunit | hunit
  · have hnonneg : 0 ≤ margin + volumes.sum * unit := add_nonneg hmargin (mul_nonneg hsum hunit)
    rw [max_eq_right hnonneg, foldl_marginLeft_of_nonneg hunit hrest (by rwa [add_sub_cancel_right]),
      add_sub_cancel_right]
    exact iff_of_true rfl hnonneg
  · rw [foldl_marginLeft_of_nonpos hunit hrest (le_max_left _ _)]
    constructor
    · intro heq
      have hle := le_max_right 0 (margin + volumes.sum * unit)
      by_contra hneg
      rw [max_eq_left (not_le.mp hneg).le] at heq
      linarith
    · intro hnonneg
      rw [max_eq_right hnonneg, add_sub_cancel_right]

end Margin

theorem FillsAt.fits {volume : ℤ} (h : FillsAt volume price trades)
    (hsize : 0 < order.req.contract.size) (hfits : order.Fits volume) :
    ∀ trade ∈ trades, order.Fits trade.volume := by
  intro trade htrade
  refine hfits.of_le hsize (h.positive trade htrade).le ?_
  rw [← h.total]
  have hnonneg : ∀ v ∈ trades.map (·.volume), 0 ≤ v := by
    intro v hv
    obtain ⟨trade', htrade', rfl⟩ := List.mem_map.mp hv
    exact (h.positive trade' htrade').le
  exact List.single_le_sum hnonneg _ (List.mem_map_of_mem htrade)

namespace RoundTrip

variable (h : RoundTrip openOrder closeOrder price opens closes)

include h

theorem filled_open (account : Account) : filled openOrder opens account =
    { account with
      cash := account.cash - openOrder.req.volume * openOrder.unitMargin price
      margin := account.margin + openOrder.req.volume * openOrder.unitMargin price } := by
  have hprice := h.opened.price_eq
  rw [← h.limit] at hprice
  rw [filled, foldl_traded_open h.opens_offset (h.opened.fits h.size_pos h.fits) hprice,
    h.opened.total, h.limit]
  simp only [onOrderSent, if_pos h.opens_offset, Order.margin_eq_mul h.fits, h.limit,
    add_sub_cancel_right]

theorem filled_close (account : Account) : filled closeOrder closes account =
    { account with
      margin := (closes.map (·.volume)).foldl (marginLeft (closeOrder.unitMargin price))
        account.margin
      cash := account.cash + openOrder.req.volume * closeOrder.unitMargin price } := by
  have hopen : ¬ isOffsetOpen closeOrder.req.offset = true := by
    have hclose := h.closes_offset
    rw [isOffsetClose_eq] at hclose
    simpa using hclose
  have hsize : 0 < closeOrder.req.contract.size := h.same_contract ▸ h.size_pos
  have hfits : closeOrder.Fits openOrder.req.volume := by
    rw [Order.Fits, h.same_contract]
    exact h.fits
  rw [filled, foldl_traded_close h.closes_offset (h.closed.fits hsize hfits) h.closed.price_eq,
    h.closed.total, onOrderSent, if_neg hopen]

theorem unitMargin_eq_iff : closeOrder.unitMargin price = openOrder.unitMargin price ↔
    price = 0 ∨
      openOrder.req.contract.longMarginRate = openOrder.req.contract.shortMarginRate := by
  have hsize : (openOrder.req.contract.size : ℚ) ≠ 0 := by exact_mod_cast h.size_pos.ne'
  have hrates : closeOrder.marginRate = openOrder.marginRate ↔
      openOrder.req.contract.longMarginRate = openOrder.req.contract.shortMarginRate := by
    rw [Order.marginRate, Order.marginRate, h.opposite, h.same_contract]
    rcases h.trades with hbuy | hsell
    · simp [hbuy, oppositeDirection, eq_comm]
    · simp [hsell, oppositeDirection]
  rw [Order.unitMargin, Order.unitMargin, h.same_contract, mul_eq_mul_left_iff, hrates, mul_eq_zero,
    or_comm, or_iff_right hsize]

theorem unitMargin_open : openOrder.unitMargin price = closeOrder.unitMargin price →
    openOrder.unitMargin price =
      openOrder.req.contract.size * price * openOrder.req.contract.longMarginRate := by
  intro heq
  rcases h.unitMargin_eq_iff.mp heq.symm with rfl | hrates
  · simp [Order.unitMargin]
  · rw [Order.unitMargin, Order.marginRate]
    split_ifs
    · rfl
    · rw [hrates]

end RoundTrip

/-- The round trip gives back cash, frozen and margin exactly when the margin rates of the two
directions agree (the close is priced by its own direction) and the clamp at zero is not met. -/
theorem close_gives_back_iff (h : RoundTrip openOrder closeOrder price opens closes)
    (account : Account) (hmargin : 0 ≤ account.margin) :
    ((filled closeOrder closes (filled openOrder opens account)).cash = account.cash ∧
      (filled closeOrder closes (filled openOrder opens account)).frozen = account.frozen ∧
      (filled closeOrder closes (filled openOrder opens account)).margin = account.margin) ↔
    GivesBack openOrder.req.contract openOrder.req.volume price closes account.margin := by
  have hvolume : (openOrder.req.volume : ℚ) ≠ 0 := by exact_mod_cast h.volume_pos.ne'
  have hcash : account.cash - openOrder.req.volume * openOrder.unitMargin price +
      openOrder.req.volume * closeOrder.unitMargin price = account.cash ↔
      closeOrder.unitMargin price = openOrder.unitMargin price := by
    rw [sub_add, sub_eq_self, sub_eq_zero, mul_right_inj' hvolume, eq_comm]
  rw [h.filled_open, h.filled_close]
  simp only [true_and]
  rw [hcash, GivesBack, ← h.unitMargin_eq_iff]
  refine and_congr_right fun hunit => ?_
  rw [hunit]
  cases hcloses : closes with
  | nil =>
    have htotal := h.closed.total
    rw [hcloses] at htotal
    exact absurd htotal h.volume_pos.ne
  | cons first rest =>
    have hpos : ∀ v ∈ first.volume :: rest.map (·.volume), 0 < v := by
      intro v hv
      rw [← List.map_cons (f := fun t : OrderTradedRsp => t.volume), ← hcloses] at hv
      obtain ⟨trade, htrade, rfl⟩ := List.mem_map.mp hv
      exact h.closed.positive trade htrade
    have htotal := h.closed.total
    rw [hcloses, List.map_cons] at htotal
    have hrest : (rest.map (·.volume)).sum = openOrder.req.volume - first.volume := by
      rw [← htotal, List.sum_cons, add_sub_cancel_left]
    have hleft : ((openOrder.req.volume - first.volume : ℤ) : ℚ) * openOrder.unitMargin price =
        openOrder.req.contract.size * (openOrder.req.volume - first.volume) * price *
          openOrder.req.contract.longMarginRate := by
      rw [h.unitMargin_open hunit.symm]
      push_cast
      ring
    rw [List.map_cons, ← htotal, foldl_marginLeft_eq_iff hpos hmargin, htotal, hrest, hleft]
    simp only [List.head?_cons, Option.some.injEq, forall_eq']

def twoLots (shortMarginRate : ℚ) (direction : Direction) (offset : Offset) : Order where
  req := {
    contract := { size := 10, longMarginRate := 1 / 10, shortMarginRate, tickerId := 1 }
    orderId := 1
    type := .kLimit
    direction := direction
    offset := offset
    volume := 2
    price := 100 }
  clientOrderId := 1
  mqId := 0
  status := .kSubmitting
  strategyId := "strategy"

def oneByOne : List OrderTradedRsp := [⟨0, 1, 100, 1⟩, ⟨0, 1, 100, 1⟩]

theorem roundTrip_twoLots (shortMarginRate : ℚ) :
    RoundTrip (twoLots shortMarginRate .kBuy .kOpen) (twoLots shortMarginRate .kSell .kClose) 100
      oneByOne oneByOne := by
  have hfills : FillsAt 2 100 oneByOne :=
    ⟨by simp [oneByOne], by simp [oneByOne], by simp [oneByOne]⟩
  constructor
  case opened => exact hfills
  case closed => exact hfills
  case trades => exact Or.inl rfl
  case size_pos => norm_num [twoLots]
  case closes_offset => exact isOffsetClose_eq .kClose
  case volume_pos => exact two_pos
  case fits => simp [Order.Fits, twoLots]
  all_goals rfl

def fundedAccount : Account := { cash := 1000, margin := 50 }

theorem close_gives_back_even_rates :
    (filled (twoLots (1 / 10) .kBuy .kOpen) oneByOne fundedAccount).cash = 800 ∧
      (filled (twoLots (1 / 10) .kBuy .kOpen) oneByOne fundedAccount).margin = 250 ∧
      (filled (twoLots (1 / 10) .kSell .kClose) oneByOne
        (filled (twoLots (1 / 10) .kBuy .kOpen) oneByOne fundedAccount)).cash = 1000 ∧
      ¬ GivesBack (twoLots (1 / 5) .kBuy .kOpen).req.contract 2 100 oneByOne 50 := by
  have hgives : GivesBack (twoLots (1 / 10) .kBuy .kOpen).req.contract 2 100 oneByOne 50 := by
    refine ⟨Or.inr rfl, fun first hfirst => ?_⟩
    cases hfirst
    norm_num [twoLots]
  refine ⟨by decide +kernel, by decide +kernel, ?_, fun huneven => ?_⟩
  · exact ((close_gives_back_iff (roundTrip_twoLots (1 / 10)) fundedAccount
      (by norm_num [fundedAccount])).mpr hgives).1
  · have hcash := ((close_gives_back_iff (roundTrip_twoLots (1 / 5)) fundedAccount
      (by norm_num [fundedAccount])).mpr huneven).1
    revert hcash
    decide +kernel

theorem close_at_other_rate_adds_cash :
    RoundTrip (twoLots (1 / 5) .kBuy .kOpen) (twoLots (1 / 5) .kSell .kClose) 100 oneByOne
        oneByOne ∧
      (filled (twoLots (1 / 5) .kSell .kClose) oneByOne
        (filled (twoLots (1 / 5) .kBuy .kOpen) oneByOne {})).cash = 200 :=
  ⟨roundTrip_twoLots (1 / 5), by decide +kernel⟩

end Close

end FundRisk

end FlareTrader
