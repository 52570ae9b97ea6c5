import FlareTrader.AdvancedPriority
import FlareTrader.AdvancedSplit
import FlareTrader.Binary64

/-! Orders better than the touch of a tick with traded volume on their side. The
bids above the best bid are filled; the loop over the asks has the best bid as its
bound too, so that asks inside the spread are left. The volumes are split in double
precision here. -/

namespace FlareTrader

namespace AdvancedMatchEngine

/-- Volume was traded on the ask side: the last tick displayed asks, and it displayed no bids, or
the mean price since then is at the best ask or far enough above the best bid. -/
def AskTraded (ct : ContractTable) (prev tick : TickData) : Prop :=
  let avgPrice := avgPriceBy Binary64.round ct prev tick
  prev.bestAskVolume ≠ 0 ∧ (prev.bestBidVolume = 0 ∨ tick.bestAsk ≤ avgPrice ∨
    (tick.bestBid < avgPrice ∧ 1 / 2 ≤ askPartBy Binary64.round avgPrice prev tick))

section Asks

variable {ct : ContractTable} {prev tick : TickData} {filled : ℤ × ℤ}

theorem trunc_deltaVolume_pos (hvolume : tick.volume - prev.volume ≠ 0) :
    0 < Rounding.trunc (Binary64.round (deltaVolume prev tick)) := by
  have hpos : 1 ≤ deltaVolume prev tick := by
    have hne : (tick.volume - prev.volume).toNat ≠ 0 := fun hzero =>
      hvolume (UInt64.toNat_inj.mp hzero)
    rw [deltaVolume]
    omega
  exact Rounding.trunc_pos (Binary64.one_le_round (by exact_mod_cast hpos))

theorem askTraded_of_splitByPrice (hvolume : tick.volume - prev.volume ≠ 0) {avgPrice : ℚ}
    (h : splitByPriceBy Binary64.round avgPrice ct prev tick = .ok filled) :
    0 < filled.2 ↔ tick.bestAsk ≤ avgPrice ∨
      (tick.bestBid < avgPrice ∧ 1 / 2 ≤ askPartBy Binary64.round avgPrice prev tick) := by
  obtain ⟨-, h⟩ := of_assert_bind h
  split_ifs at h with habove hbelow
  · cases of_toInt_bind h
    exact iff_of_true (trunc_deltaVolume_pos hvolume) (Or.inl habove)
  · cases of_toInt_bind h
    refine iff_of_false (lt_irrefl 0) ?_
    rintro (hask | ⟨hbid, -⟩)
    · exact habove hask
    · exact hbid.not_ge hbelow
  · obtain ⟨-, h⟩ := of_assert_bind h
    obtain ⟨-, h⟩ := of_assert_bind (of_toInt_bind (of_toInt_intCast_bind h))
    obtain ⟨-, h⟩ := of_assert_bind h
    rw [← Except.ok.inj h, or_iff_right habove, and_iff_right (not_le.mp hbelow)]
    exact Rounding.halfAway_pos_iff

theorem askTraded_iff (hvolume : tick.volume - prev.volume ≠ 0)
    (h : splitFillsBy Binary64.round ct prev tick = .ok filled) :
    0 < filled.2 ↔ AskTraded ct prev tick := by
  unfold splitFillsBy at h
  unfold AskTraded
  split_ifs at h with hnone hbid hask
  · cases h
    exact iff_of_false (lt_irrefl 0) fun htraded => htraded.1 hnone.1
  · cases of_toInt_bind h
    exact iff_of_true (trunc_deltaVolume_pos hvolume)
      ⟨fun hask => hnone ⟨hask, hbid⟩, Or.inl hbid⟩
  · cases of_toInt_bind h
    exact iff_of_false (lt_irrefl 0) fun htraded => htraded.1 hask
  · rw [askTraded_of_splitByPrice hvolume h, and_iff_right hask, or_iff_right hbid]

end Asks

section Swept

variable (tick : TickData) (e : AdvancedMatchEngine)

def SweptBids (tick : TickData) (filled : ℤ) (e : AdvancedMatchEngine) : Prop :=
  0 < filled → 0 < tick.bestBidVolume → ∀ price order,
    e.RestsAt tick.tickerId .kBuy price order → price ≤ u64Price tick.bestBid

def SweptAsks (tick : TickData) (filled : ℤ) (e : AdvancedMatchEngine) : Prop :=
  0 < filled → 0 < tick.bestAskVolume → ∀ price order,
    e.RestsAt tick.tickerId .kSell price order → u64Price tick.bestAsk ≤ price

/-- Every sell below the best ask is below the best bid, or at it while there are bids. -/
def NoneInside (tick : TickData) (e : AdvancedMatchEngine) : Prop :=
  0 < tick.bestAskVolume → ∀ price order,
    e.RestsAt tick.tickerId .kSell price order → price < u64Price tick.bestAsk →
      price < u64Price tick.bestBid ∨ (0 < tick.bestBidVolume ∧ price ≤ u64Price tick.bestBid)

variable (estimate : TickData → TickData → ℤ × ℤ)

theorem tickRule_buy_fills (h : Matched (e.ticks tick.tickerId) tick) (price : ℕ) (q : ℤ) :
    (tickRuleBy estimate tick e tick.tickerId .kBuy).fills price q = true ↔
      (0 < (estimate (e.ticks tick.tickerId) tick).1 ∧
        ((0 < tick.bestBidVolume ∧ u64Price tick.bestBid < price) ∨
          (FillRule.levels (displayedLevels tick.bid tick.bidVolume)
            (estimate (e.ticks tick.tickerId) tick).1).fills price q = true)) ∨
      (0 < tick.bestAskVolume ∧ u64Price tick.bestAsk ≤ price) := by
  simp only [tickRuleBy, h, and_self, if_true, fillBidsRule, crossBidsRule, fills_stages,
    decide_eq_true_eq]

theorem tickRule_sell_fills (h : Matched (e.ticks tick.tickerId) tick) (price : ℕ) (q : ℤ) :
    (tickRuleBy estimate tick e tick.tickerId .kSell).fills price q = true ↔
      (0 < (estimate (e.ticks tick.tickerId) tick).2 ∧
        ((0 < tick.bestAskVolume ∧ price < u64Price tick.bestBid) ∨
          (FillRule.levels (displayedLevels tick.ask tick.askVolume)
            (estimate (e.ticks tick.tickerId) tick).2).fills price q = true)) ∨
      (0 < tick.bestBidVolume ∧ price ≤ u64Price tick.bestBid) := by
  simp only [tickRuleBy, h, and_self, if_true, reduceCtorEq, if_false, fillAsksRule, crossAsksRule,
    fills_stages, decide_eq_true_eq]

variable {tick e}

theorem sweptBids_of_matched (h : Matched (e.ticks tick.tickerId) tick) :
    SweptBids tick (estimate (e.ticks tick.tickerId) tick).1 (onNewTickBy estimate tick e).2 := by
  intro hfilled hvolume price order' horder'
  obtain ⟨order, -, hkept, -⟩ :=
    (restsAt_onNewTickBy estimate tick e _ _ price order').mp horder'
  rw [← Bool.not_eq_true, tickRule_buy_fills tick e estimate h] at hkept
  by_contra habove
  exact hkept (Or.inl ⟨hfilled, Or.inl ⟨hvolume, not_le.mp habove⟩⟩)

theorem sweptAsks_of_noneInside (h : Matched (e.ticks tick.tickerId) tick)
    (hnone : 0 < (estimate (e.ticks tick.tickerId) tick).2 → NoneInside tick e) :
    SweptAsks tick (estimate (e.ticks tick.tickerId) tick).2 (onNewTickBy estimate tick e).2 := by
  intro hfilled hvolume price order' horder'
  obtain ⟨order, horder, hkept, -⟩ :=
    (restsAt_onNewTickBy estimate tick e _ _ price order').mp horder'
  rw [← Bool.not_eq_true, tickRule_sell_fills tick e estimate h] at hkept
  by_contra hinside
  apply hkept
  rcases hnone hfilled hvolume price order horder (not_le.mp hinside) with hbelow | hcrossed
  · exact Or.inl ⟨hfilled, Or.inl ⟨hvolume, hbelow⟩⟩
  · exact Or.inr hcrossed

theorem not_levels_fills_of_lowest
    (hbest : ∀ level, tick.askVolume level ≠ 0 → u64Price tick.bestAsk ≤ u64Price (tick.ask level))
    (filled q : ℤ) {price : ℕ} (hinside : price < u64Price tick.bestAsk) :
    ¬ (FillRule.levels (displayedLevels tick.ask tick.askVolume) filled).fills price q = true := by
  intro hfills
  obtain ⟨volume, hvolume, hmem⟩ := FillRule.mem_of_levels_fills hfills
  obtain ⟨level, -, heq⟩ := List.mem_map.mp hmem
  have hprice : u64Price (tick.ask level) = price := congrArg Prod.fst heq
  have hdisplayed : tick.askVolume level = volume := congrArg Prod.snd heq
  have hlowest := hbest level (hdisplayed ▸ hvolume)
  omega

theorem noneInside_of_sweptAsks (h : Matched (e.ticks tick.tickerId) tick)
    (hbest : ∀ level, tick.askVolume level ≠ 0 → u64Price tick.bestAsk ≤ u64Price (tick.ask level))
    (hswept : SweptAsks tick (estimate (e.ticks tick.tickerId) tick).2
      (onNewTickBy estimate tick e).2)
    (hfilled : 0 < (estimate (e.ticks tick.tickerId) tick).2) : NoneInside tick e := by
  intro hvolume price order horder hinside
  by_contra hnone
  have hlevels := not_levels_fills_of_lowest hbest (estimate (e.ticks tick.tickerId) tick).2
    order.queuePosition hinside
  have hkept : (tickRuleBy estimate tick e tick.tickerId .kSell).fills price order.queuePosition =
      false := by
    rw [← Bool.not_eq_true, tickRule_sell_fills tick e estimate h]
    tauto
  have hrests := (restsAt_onNewTickBy estimate tick e tick.tickerId .kSell price _).mpr
    ⟨order, horder, hkept, rfl⟩
  have hprice := hswept hfilled hvolume price _ hrests
  omega

end Swept

/-- After a tick with volume traded on a side, nothing rests inside its touch: on
the bid side always, on the ask side if nothing rested between the touches, and only then
unless the tick displays an ask below its best one. -/
theorem sweeps_alike_iff (ct : ContractTable) (tick : TickData) (e : AdvancedMatchEngine)
    (h : Matched (e.ticks tick.tickerId) tick) (filled : ℤ × ℤ)
    (hfilled : splitFillsBy Binary64.round ct (e.ticks tick.tickerId) tick = .ok filled) :
    ((AskTraded ct (e.ticks tick.tickerId) tick → NoneInside tick e) →
        SweptBids tick filled.1 (onNewTickBy (fun _ _ => filled) tick e).2 ∧
          SweptAsks tick filled.2 (onNewTickBy (fun _ _ => filled) tick e).2) ∧
      ((∀ level, tick.askVolume level ≠ 0 →
          u64Price tick.bestAsk ≤ u64Price (tick.ask level)) →
        (SweptBids tick filled.1 (onNewTickBy (fun _ _ => filled) tick e).2 ∧
            SweptAsks tick filled.2 (onNewTickBy (fun _ _ => filled) tick e).2 ↔
          (AskTraded ct (e.ticks tick.tickerId) tick → NoneInside tick e))) := by
  have htraded := askTraded_iff h.2 hfilled
  have hbids : SweptBids tick filled.1 (onNewTickBy (fun _ _ => filled) tick e).2 :=
    sweptBids_of_matched (fun _ _ => filled) h
  have hasks : (AskTraded ct (e.ticks tick.tickerId) tick → NoneInside tick e) →
      SweptAsks tick filled.2 (onNewTickBy (fun _ _ => filled) tick e).2 :=
    fun hnone => sweptAsks_of_noneInside (fun _ _ => filled) h fun hpos =>
      hnone (htraded.mp hpos)
  refine ⟨fun hnone => ⟨hbids, hasks hnone⟩, fun hbest => ⟨fun hswept hask => ?_, fun hnone => ?_⟩⟩
  · exact noneInside_of_sweptAsks (fun _ _ => filled) h hbest hswept.2 (htraded.mpr hask)
  · exact ⟨hbids, hasks hnone⟩

def spreadTick (volume turnover : UInt64) : TickData where
  tickerId := 1
  volume := volume
  turnover := turnover
  bid := fun level => if level.val = 0 then 100 else 0
  ask := fun level => if level.val = 0 then 102 else 0
  bidVolume := fun level => if level.val = 0 then 1 else 0
  askVolume := fun level => if level.val = 0 then 1 else 0

def insideSell : OrderRequest where
  contract := { tickerId := 1 }
  orderId := 1
  type := .kLimit
  direction := .kSell
  offset := .kOpen
  volume := 2
  price := 101

def insideSpread : AdvancedMatchEngine :=
  (insertOrder insideSell (onNewTick oneContract (spreadTick 0 0) {}).2).2.2

def risenTick : TickData :=
  { spreadTick 10 1020 with bid := fun level => if level.val = 0 then 101 else 0 }

theorem sweeps_alike_insideSpread :
    AskTraded oneContract (spreadTick 0 0) risenTick ∧
      SweptBids risenTick 0 (onNewTickBy (fun _ _ => (0, 10)) risenTick insideSpread).2 ∧
      SweptAsks risenTick 10 (onNewTickBy (fun _ _ => (0, 10)) risenTick insideSpread).2 := by
  have hsplit : splitFillsBy Binary64.round oneContract (insideSpread.ticks 1) risenTick =
      .ok (0, 10) := by decide +kernel
  have hmatched : Matched (insideSpread.ticks 1) risenTick := by decide +kernel
  refine ⟨(askTraded_iff hmatched.2 hsplit).mp (by decide), ?_⟩
  refine (sweeps_alike_iff oneContract risenTick insideSpread hmatched (0, 10) hsplit).1
    fun _ _ price order hrests _ => Or.inr ⟨by decide +kernel, ?_⟩
  have hlevels : (insideSpread.book risenTick.tickerId).askLevels.entries =
      [(u64Price 101, [⟨insideSell, 0⟩])] := by decide +kernel
  obtain ⟨queue, hqueue, -⟩ := hrests
  have hmem := SortedMap.find?_eq_some.mp hqueue
  rw [hlevels, List.mem_singleton] at hmem
  cases hmem
  decide +kernel

/-- Ten sells are filled at the ask; the sell one below it still rests. -/
theorem inside_sell_is_left :
    (insideSpread.ticks 1).tickerId ≠ 0 ∧ ∃ filled,
      splitFillsBy Binary64.round oneContract (insideSpread.ticks 1) (spreadTick 10 1020) =
        .ok filled ∧
      ¬ SweptAsks (spreadTick 10 1020) filled.2
        (onNewTickBy (fun _ _ => filled) (spreadTick 10 1020) insideSpread).2 := by
  refine ⟨by decide +kernel, (0, 10), by decide +kernel, fun hswept => ?_⟩
  have hprice := hswept (by decide +kernel) (by decide +kernel) (u64Price 101) ⟨insideSell, 0⟩
    ⟨[⟨insideSell, 0⟩], by decide +kernel, List.mem_singleton.mpr rfl⟩
  revert hprice
  decide +kernel

end AdvancedMatchEngine

end FlareTrader
