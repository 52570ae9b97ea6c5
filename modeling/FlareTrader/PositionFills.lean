import FlareTrader.PositionMoves
import FlareTrader.WeightedMean

/-! Fills. The cost price of a side is the mean price of its holdings, so a fill
may be booked in parts and the opening fills of a side in any order. -/

namespace FlareTrader

def PositionDetail.lot (d : PositionDetail) : Lot ℚ := ⟨d.holdings, d.costPrice⟩

namespace PositionCalculator

/-- The side can take a fill of the volume: a close is covered by its holdings,
and an open leaves the products of the cost price within 32 bits. -/
structure Fillable (size : ℤ) (offset : Offset) (traded : ℤ) (d : PositionDetail) : Prop where
  holdings : 0 ≤ d.holdings
  opens : offset = .kOpen → size * (d.holdings + traded) < 2 ^ 31
  closes : offset ≠ .kOpen → traded ≤ d.holdings

section Details

variable {d : PositionDetail} {size v v₁ v₂ : ℤ} {p p₁ p₂ : ℚ} {offset : Offset}

theorem costDetail_open (hsize : 0 < size) (hd : 0 ≤ d.holdings) (hv : 0 < v)
    (hfits : size * (d.holdings + v) < 2 ^ 31) :
    costDetail size .kOpen v p (openDetail v d) =
      { openDetail v d with costPrice := (d.lot.add (v : ℚ) p).mean } := by
  have hpos : 0 < d.holdings + v := by omega
  have hbefore : d.holdings + v - v = d.holdings := by omega
  have hexact : ∀ a, 0 ≤ a → a ≤ d.holdings + v → intMul size a = size * a := by
    intro a ha hle
    have hsmall : size * a < 2 ^ 31 := (mul_le_mul_of_nonneg_left hle hsize.le).trans_lt hfits
    exact (intMul_eq_mul_iff (mul_nonneg hsize.le ha)).mpr hsmall
  have hall : intMul (d.holdings + v) size = size * (d.holdings + v) := by
    rw [intMul, mul_comm]
    exact hexact _ hpos.le le_rfl
  have hmean : (((size * d.holdings : ℤ) : ℚ) * d.costPrice + ((size * v : ℤ) : ℚ) * p) /
      ((size * (d.holdings + v) : ℤ) : ℚ) = (d.lot.add (v : ℚ) p).mean := by
    have hne : (size : ℚ) ≠ 0 := by exact_mod_cast hsize.ne'
    calc _ = size * (d.holdings * d.costPrice + v * p) / (size * (d.holdings + v : ℚ)) := by
          push_cast
          ring
      _ = (d.holdings * d.costPrice + v * p) / (d.holdings + v : ℚ) := mul_div_mul_left _ _ hne
  have hcond : isOffsetOpen .kOpen ∧ 0 < (openDetail v d).holdings := ⟨rfl, hpos⟩
  have hafter : (openDetail v d).holdings = d.holdings + v := rfl
  have hcost : (openDetail v d).costPrice = d.costPrice := rfl
  rw [costDetail, if_pos hcond]
  simp only [hbefore, hafter, hcost, hall, hexact d.holdings hd (by omega),
    hexact v hv.le (by omega), hmean]

theorem flatDetail_of_ne (h : d.holdings ≠ 0) : flatDetail d = d := if_neg h

theorem tradedDetail_open (hsize : 0 < size) (hv : 0 < v) (h : Fillable size .kOpen v d) :
    tradedDetail size .kOpen v p d =
      { openDetail v d with costPrice := (d.lot.add (v : ℚ) p).mean } := by
  have hheld := h.holdings
  have hne : d.holdings + v ≠ 0 := by omega
  change flatDetail (costDetail size .kOpen v p (openDetail v d)) = _
  rw [costDetail_open hsize hheld hv (h.opens rfl)]
  exact flatDetail_of_ne hne

theorem tradedDetail_close (hoffset : offset ≠ .kOpen) :
    tradedDetail size offset v p d = flatDetail (closeDetail offset v d) := by
  have hopen : isOffsetOpen offset = false := decide_eq_false hoffset
  have hclose : isOffsetClose offset = true := by rw [isOffsetClose_eq, hopen, Bool.not_false]
  have hcost : ∀ d, costDetail size offset v p d = d := by
    intro d
    rw [costDetail, hopen]
    exact if_neg fun h => absurd h.1 Bool.false_ne_true
  simp only [tradedDetail, hclose, if_true, hcost]

/-- The minimum and the clamp on the holdings of yesterday leave what a single
close of the sum leaves. -/
theorem closeDetail_closeDetail (h₂ : 0 < v₂) (hcover : v₁ + v₂ ≤ d.holdings) :
    closeDetail offset v₂ (closeDetail offset v₁ d) = closeDetail offset (v₁ + v₂) d := by
  have hyd : (closeDetail offset v₂ (closeDetail offset v₁ d)).ydHoldings =
      (closeDetail offset (v₁ + v₂) d).ydHoldings := by
    simp only [closeDetail]
    split_ifs <;> omega
  calc closeDetail offset v₂ (closeDetail offset v₁ d)
      = { d with
          closePending := d.closePending - v₁ - v₂
          holdings := d.holdings - v₁ - v₂
          ydHoldings := (closeDetail offset v₂ (closeDetail offset v₁ d)).ydHoldings } := rfl
    _ = { d with
          closePending := d.closePending - (v₁ + v₂)
          holdings := d.holdings - (v₁ + v₂)
          ydHoldings := (closeDetail offset (v₁ + v₂) d).ydHoldings } := by
        rw [hyd, sub_sub, sub_sub]
    _ = closeDetail offset (v₁ + v₂) d := rfl

theorem Fillable.first (h : Fillable size offset (v₁ + v₂) d) (hsize : 0 < size) (h₂ : 0 ≤ v₂) :
    Fillable size offset v₁ d where
  holdings := h.holdings
  opens := by
    intro hopen
    have hle : size * (d.holdings + v₁) ≤ size * (d.holdings + (v₁ + v₂)) :=
      mul_le_mul_of_nonneg_left (by omega) hsize.le
    exact hle.trans_lt (h.opens hopen)
  closes := by
    intro hclose
    have hcover := h.closes hclose
    omega

theorem lot_openDetail (hsize : 0 < size) (hv : 0 < v) (h : Fillable size .kOpen v d) :
    (tradedDetail size .kOpen v p d).lot = d.lot.add (v : ℚ) p := by
  rw [tradedDetail_open hsize hv h, PositionDetail.lot]
  ext
  · exact Int.cast_add d.holdings v
  · rfl

theorem Fillable.second (h : Fillable size .kOpen (v₁ + v₂) d) (hsize : 0 < size) (h₁ : 0 < v₁)
    (h₂ : 0 ≤ v₂) (p : ℚ) : Fillable size .kOpen v₂ (tradedDetail size .kOpen v₁ p d) := by
  rw [tradedDetail_open hsize h₁ (h.first hsize h₂)]
  have hheld := h.holdings
  refine ⟨?_, ?_, fun hne => absurd rfl hne⟩
  · change 0 ≤ d.holdings + v₁
    omega
  · intro _
    change size * (d.holdings + v₁ + v₂) < 2 ^ 31
    rw [add_assoc]
    exact h.opens rfl

/-- What two opening fills leave depends on the mean price alone. -/
theorem tradedDetail_open_open (hsize : 0 < size) (h₁ : 0 < v₁) (h₂ : 0 < v₂)
    (h : Fillable size .kOpen (v₁ + v₂) d) :
    tradedDetail size .kOpen v₂ p₂ (tradedDetail size .kOpen v₁ p₁ d) =
      { openDetail (v₁ + v₂) d with
        costPrice := ((d.lot.add (v₁ : ℚ) p₁).add (v₂ : ℚ) p₂).mean } := by
  have hfirst := h.first hsize h₂.le
  rw [tradedDetail_open hsize h₂ (h.second hsize h₁ h₂.le p₁), lot_openDetail hsize h₁ hfirst,
    tradedDetail_open hsize h₁ hfirst]
  simp only [openDetail, sub_sub, add_assoc]

theorem lot_weight_ne (h : 0 ≤ d.holdings) (hv : 0 < v) : d.lot.weight + (v : ℚ) ≠ 0 := by
  have hpos : (0 : ℚ) < ((d.holdings + v : ℤ) : ℚ) := by exact_mod_cast (by omega)
  rw [Int.cast_add] at hpos
  exact hpos.ne'

theorem tradedDetail_add (hsize : 0 < size) (h₁ : 0 < v₁) (h₂ : 0 < v₂)
    (h : Fillable size offset (v₁ + v₂) d) :
    tradedDetail size offset v₂ p (tradedDetail size offset v₁ p d) =
      tradedDetail size offset (v₁ + v₂) p d := by
  by_cases hopen : offset = .kOpen
  · subst hopen
    rw [tradedDetail_open_open hsize h₁ h₂ h, tradedDetail_open hsize (by omega) h,
      Lot.add_add_self (lot_weight_ne h.holdings h₁), Int.cast_add]
  · have hcover := h.closes hopen
    have hrest : (closeDetail offset v₁ d).holdings ≠ 0 := by
      change d.holdings - v₁ ≠ 0
      omega
    rw [tradedDetail_close hopen, tradedDetail_close hopen, tradedDetail_close hopen,
      flatDetail_of_ne hrest, closeDetail_closeDetail h₂ hcover]

theorem tradedDetail_swap (hsize : 0 < size) (h₁ : 0 < v₁) (h₂ : 0 < v₂)
    (h : Fillable size .kOpen (v₁ + v₂) d) :
    tradedDetail size .kOpen v₂ p₂ (tradedDetail size .kOpen v₁ p₁ d) =
      tradedDetail size .kOpen v₁ p₁ (tradedDetail size .kOpen v₂ p₂ d) := by
  rw [tradedDetail_open_open hsize h₁ h₂ h, tradedDetail_open_open hsize h₂ h₁ (add_comm v₁ v₂ ▸ h),
    Lot.add_swap (lot_weight_ne h.holdings h₁) (lot_weight_ne h.holdings h₂), add_comm v₁ v₂]

end Details

section Calculators

variable {c : PositionCalculator} {t : ℕ} {side : Side} {f g : PositionDetail → PositionDetail}
  {a : PositionDetail → Bool}

theorem modify_modify
    (h : a (g (f ((c.record t).side side))) = true → a (f ((c.record t).side side)) = true) :
    (c.modify t side f a).modify t side g a = c.modify t side (fun d => g (f d)) a := by
  have hdetail : ((c.record t).modify f side).side side = f ((c.record t).side side) := by
    rw [Position.side_modify, if_pos rfl]
  have hboth : ((c.record t).modify f side).modify g side =
      (c.record t).modify (fun d => g (f d)) side := by
    cases side with
    | long => rfl
    | short => rfl
  have hpositions : (c.modify t side f a).positions.insert t
      ((c.record t).modify (fun d => g (f d)) side) =
      c.positions.insert t ((c.record t).modify (fun d => g (f d)) side) := by
    apply SortedMap.eq_of_find?
    intro k
    simp only [modify, SortedMap.find?_insert]
    split_ifs <;> rfl
  have hasserts : (c.assertsHold && a (f ((c.record t).side side)) &&
      a (g (f ((c.record t).side side)))) =
      (c.assertsHold && a (g (f ((c.record t).side side)))) := by
    rw [Bool.and_assoc, Bool.and_eq_right_iff_imp.mpr h]
  rw [modify, record_modify, hboth, hpositions, hdetail, assertsHold_modify, hasserts]
  rfl

theorem modify_congr (h : f ((c.record t).side side) = g ((c.record t).side side)) :
    c.modify t side f a = c.modify t side g a := by
  have hrecord : (c.record t).modify f side = (c.record t).modify g side := by
    cases side with
    | long => exact congrArg (fun d => { c.record t with longPos := d }) h
    | short => exact congrArg (fun d => { c.record t with shortPos := d }) h
  rw [modify, modify, hrecord, h]

def booked (c : PositionCalculator) (t : ℕ) (direction : Direction) (offset : Offset) :
    PositionDetail :=
  (c.record t).side (bookedSide direction offset)

variable {ct : ContractTable} {contract : Contract} {direction : Direction} {offset : Offset}
  {v v₁ v₂ : ℤ} {p p₁ p₂ : ℚ}

def sizeChecked (size : ℤ) (c : PositionCalculator) : PositionCalculator :=
  { c with sizesHold := c.sizesHold && 0 < size }

def fillAsserts (d : PositionDetail) : Bool :=
  0 ≤ d.holdings && 0 ≤ d.openPending && 0 ≤ d.closePending

theorem updateTraded_eq (ht : ct.getByIndex t = some contract) (hv : 0 < v) :
    c.updateTraded ct t direction offset v p =
      (true, (c.sizeChecked contract.size).modify t (bookedSide direction offset)
        (tradedDetail contract.size offset v p) fillAsserts) := by
  simp only [updateTraded, if_neg (not_le.mpr hv), ht]
  rfl

theorem booked_updateTraded (ht : ct.getByIndex t = some contract) (hv : 0 < v) :
    (c.updateTraded ct t direction offset v p).2.booked t direction offset =
      tradedDetail contract.size offset v p (c.booked t direction offset) := by
  rw [updateTraded_eq ht hv, booked, record_modify, Position.side_modify, if_pos rfl]
  rfl

theorem fillAsserts_first {d : PositionDetail} (h₁ : 0 < v₁) (h₂ : 0 < v₂) {size : ℤ}
    (h : Fillable size offset (v₁ + v₂) d)
    (hlast : fillAsserts (tradedDetail size offset v₂ p₂ (tradedDetail size offset v₁ p₁ d)) =
      true) : fillAsserts (tradedDetail size offset v₁ p₁ d) = true := by
  have hheld := h.holdings
  have hfirst := tradedDetail_entry size offset v₁ p₁ d
  have hsecond := tradedDetail_entry size offset v₂ p₂ (tradedDetail size offset v₁ p₁ d)
  generalize tradedDetail size offset v₁ p₁ d = d₁ at *
  generalize tradedDetail size offset v₂ p₂ d₁ = d₂ at *
  simp only [fillAsserts, Bool.and_eq_true, decide_eq_true_eq] at hlast ⊢
  simp only [PositionDetail.entry, tradedEntry] at hfirst hsecond
  split_ifs at hfirst hsecond with hclose
  · simp only [Prod.mk_add_mk, Prod.mk.injEq] at hfirst hsecond
    omega
  · simp only [Prod.mk_add_mk, Prod.mk.injEq] at hfirst hsecond
    omega

theorem updateTraded_updateTraded (ht : ct.getByIndex t = some contract) (h₁ : 0 < v₁)
    (h₂ : 0 < v₂) (h : Fillable contract.size offset (v₁ + v₂) (c.booked t direction offset)) :
    (c.updateTraded ct t direction offset v₁ p₁).2.updateTraded ct t direction offset v₂ p₂ =
      (true, (c.sizeChecked contract.size).modify t (bookedSide direction offset)
        (fun d => tradedDetail contract.size offset v₂ p₂
          (tradedDetail contract.size offset v₁ p₁ d)) fillAsserts) := by
  have hchecked : ∀ f, ((c.sizeChecked contract.size).modify t (bookedSide direction offset) f
      fillAsserts).sizeChecked contract.size =
      (c.sizeChecked contract.size).modify t (bookedSide direction offset) f fillAsserts := by
    intro f
    simp only [sizeChecked, modify, Bool.and_assoc, Bool.and_self]
  rw [updateTraded_eq ht h₁, updateTraded_eq ht h₂, hchecked, modify_modify]
  exact fillAsserts_first h₁ h₂ h

theorem updateTraded_add (ht : ct.getByIndex t = some contract) (hsize : 0 < contract.size)
    (h₁ : 0 < v₁) (h₂ : 0 < v₂)
    (h : Fillable contract.size offset (v₁ + v₂) (c.booked t direction offset)) :
    (c.updateTraded ct t direction offset v₁ p).2.updateTraded ct t direction offset v₂ p =
      c.updateTraded ct t direction offset (v₁ + v₂) p := by
  rw [updateTraded_updateTraded ht h₁ h₂ h, updateTraded_eq ht (by omega)]
  exact congrArg (Prod.mk true) (modify_congr (tradedDetail_add hsize h₁ h₂ h))

theorem updateTraded_swap (ht : ct.getByIndex t = some contract) (hsize : 0 < contract.size)
    (h₁ : 0 < v₁) (h₂ : 0 < v₂)
    (h : Fillable contract.size .kOpen (v₁ + v₂) (c.booked t direction .kOpen)) :
    (c.updateTraded ct t direction .kOpen v₁ p₁).2.updateTraded ct t direction .kOpen v₂ p₂ =
      (c.updateTraded ct t direction .kOpen v₂ p₂).2.updateTraded ct t direction .kOpen v₁ p₁ := by
  rw [updateTraded_updateTraded ht h₁ h₂ h,
    updateTraded_updateTraded ht h₂ h₁ (add_comm v₁ v₂ ▸ h)]
  exact congrArg (Prod.mk true) (modify_congr (tradedDetail_swap hsize h₁ h₂ h))

def openFills (ct : ContractTable) (t : ℕ) (direction : Direction) (fills : List (ℤ × ℚ))
    (c : PositionCalculator) : PositionCalculator :=
  fills.foldl (fun c fill => (c.updateTraded ct t direction .kOpen fill.1 fill.2).2) c

theorem lot_openFills (ht : ct.getByIndex t = some contract) (hsize : 0 < contract.size)
    {fills : List (ℤ × ℚ)} (hfills : ∀ fill ∈ fills, 0 < fill.1)
    (h : Fillable contract.size .kOpen (fills.map Prod.fst).sum (c.booked t direction .kOpen)) :
    ((c.openFills ct t direction fills).booked t direction .kOpen).lot =
      (c.booked t direction .kOpen).lot.addAll (fills.map fun fill => ((fill.1 : ℚ), fill.2)) := by
  induction fills generalizing c with
  | nil => rfl
  | cons fill fills ih =>
    have hv := hfills fill List.mem_cons_self
    have hrest : ∀ fill ∈ fills, 0 < fill.1 := fun f hf => hfills f (List.mem_cons_of_mem _ hf)
    have hsum : 0 ≤ (fills.map Prod.fst).sum := by
      apply List.sum_nonneg
      intro v hv
      obtain ⟨f, hf, rfl⟩ := List.mem_map.mp hv
      exact (hrest f hf).le
    rw [List.map_cons, List.sum_cons] at h
    have hnext : Fillable contract.size .kOpen (fills.map Prod.fst).sum
        ((c.updateTraded ct t direction .kOpen fill.1 fill.2).2.booked t direction .kOpen) := by
      rw [booked_updateTraded ht hv]
      exact h.second hsize hv hsum fill.2
    have hstep := lot_openDetail hsize hv (h.first hsize hsum) (p := fill.2)
    rw [← booked_updateTraded ht hv] at hstep
    rw [List.map_cons, Lot.addAll, List.foldl_cons, ← hstep]
    exact ih hrest hnext

theorem costPrice_openFills (ht : ct.getByIndex t = some contract) (hsize : 0 < contract.size)
    {fills : List (ℤ × ℚ)} (hne : fills ≠ []) (hfills : ∀ fill ∈ fills, 0 < fill.1)
    (hflat : (c.booked t direction .kOpen).holdings = 0)
    (hfits : contract.size * (fills.map Prod.fst).sum < 2 ^ 31) :
    ((c.openFills ct t direction fills).booked t direction .kOpen).costPrice =
      (fills.map fun fill => (fill.1 : ℚ) * fill.2).sum /
        (fills.map fun fill => (fill.1 : ℚ)).sum := by
  have h : Fillable contract.size .kOpen (fills.map Prod.fst).sum (c.booked t direction .kOpen) := by
    refine ⟨hflat.ge, fun _ => ?_, fun hne => absurd rfl hne⟩
    rwa [hflat, zero_add]
  have hweights : ∀ x ∈ fills.map (fun fill => ((fill.1 : ℚ), fill.2)), 0 < x.1 := by
    intro x hx
    obtain ⟨fill, hfill, rfl⟩ := List.mem_map.mp hx
    exact Int.cast_pos.mpr (hfills fill hfill)
  have hempty : (c.booked t direction .kOpen).lot.weight = 0 := by
    rw [PositionDetail.lot, hflat, Int.cast_zero]
  have hmean := Lot.mean_addAll (by simpa using hne) hweights hempty
  rw [← lot_openFills ht hsize hfills h, List.map_map, List.map_map] at hmean
  exact hmean

end Calculators

/-- Split fills add up, opening fills of a side commute, and the cost price after
opening fills of a flat side is their mean price. -/
theorem fills_split_and_commute {ct : ContractTable} {t : ℕ} {contract : Contract}
    (ht : ct.getByIndex t = some contract) (hsize : 0 < contract.size) (c : PositionCalculator)
    (direction : Direction) :
    (∀ offset v₁ v₂ p, 0 < v₁ → 0 < v₂ →
      Fillable contract.size offset (v₁ + v₂) (c.booked t direction offset) →
      (c.updateTraded ct t direction offset v₁ p).2.updateTraded ct t direction offset v₂ p =
        c.updateTraded ct t direction offset (v₁ + v₂) p) ∧
    (∀ v₁ v₂ p₁ p₂, 0 < v₁ → 0 < v₂ →
      Fillable contract.size .kOpen (v₁ + v₂) (c.booked t direction .kOpen) →
      (c.updateTraded ct t direction .kOpen v₁ p₁).2.updateTraded ct t direction .kOpen v₂ p₂ =
        (c.updateTraded ct t direction .kOpen v₂ p₂).2.updateTraded ct t direction .kOpen v₁ p₁) ∧
    ∀ fills : List (ℤ × ℚ), fills ≠ [] → (∀ fill ∈ fills, 0 < fill.1) →
      (c.booked t direction .kOpen).holdings = 0 →
      contract.size * (fills.map Prod.fst).sum < 2 ^ 31 →
      ((c.openFills ct t direction fills).booked t direction .kOpen).costPrice =
        (fills.map fun fill => (fill.1 : ℚ) * fill.2).sum /
          (fills.map fun fill => (fill.1 : ℚ)).sum := by
  refine ⟨?_, ?_, ?_⟩
  · intro offset v₁ v₂ p h₁ h₂ h
    exact updateTraded_add ht hsize h₁ h₂ h
  · intro v₁ v₂ p₁ p₂ h₁ h₂ h
    exact updateTraded_swap ht hsize h₁ h₂ h
  · intro fills hne hfills hflat hfits
    exact costPrice_openFills ht hsize hne hfills hflat hfits

def tenUnits : Contract := { size := 10, tickerId := 1 }

def fivePending : PositionCalculator := ({} : PositionCalculator).updatePending 1 .kBuy .kOpen 5

theorem fills_split_and_commute_fivePending :
    (fivePending.updateTraded (.ofList [tenUnits]) 1 .kBuy .kOpen 2 100).2.updateTraded
        (.ofList [tenUnits]) 1 .kBuy .kOpen 3 100 =
      fivePending.updateTraded (.ofList [tenUnits]) 1 .kBuy .kOpen 5 100 ∧
    ((fivePending.openFills (.ofList [tenUnits]) 1 .kBuy [(2, 100), (3, 110)]).booked 1 .kBuy
      .kOpen).costPrice = 106 := by
  have ht : ContractTable.getByIndex (.ofList [tenUnits]) 1 = some tenUnits := rfl
  have h := fills_split_and_commute ht (by decide) fivePending .kBuy
  have hfillable : Fillable tenUnits.size .kOpen (2 + 3) (fivePending.booked 1 .kBuy .kOpen) :=
    ⟨by decide, fun _ => by decide, fun hne => absurd rfl hne⟩
  constructor
  · exact h.1 .kOpen 2 3 100 (by decide) (by decide) hfillable
  · rw [h.2.2 [(2, 100), (3, 110)] (by decide) (by decide) (by decide) (by decide)]
    norm_num

end PositionCalculator

end FlareTrader
