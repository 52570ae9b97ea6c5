import FlareTrader.AdvancedBook

/-! Who is filled by a tick of the advanced match engine: the orders that it
crosses, and the order in which those of one side are filled. -/

namespace FlareTrader

def Direction.Better (direction : Direction) (price price' : ℕ) : Prop :=
  if direction = .kBuy then price' < price else price < price'

namespace FillRule

theorem mem_of_levels_fills {displayed : List (ℕ × ℤ)} {filled q : ℤ} {price : ℕ}
    (h : (levels displayed filled).fills price q = true) :
    ∃ volume, volume ≠ 0 ∧ (price, volume) ∈ displayed := by
  induction displayed generalizing filled q with
  | nil => cases h
  | cons head displayed ih =>
    have htail : (∃ volume, volume ≠ 0 ∧ (price, volume) ∈ displayed) →
        ∃ volume, volume ≠ 0 ∧ (price, volume) ∈ head :: displayed :=
      fun hmem => hmem.imp fun volume hv => ⟨hv.1, List.mem_cons_of_mem _ hv.2⟩
    simp only [levels] at h
    by_cases hvolume : head.2 = 0
    · rw [if_pos hvolume] at h
      exact htail (ih h)
    · have hhead : (level filled head.1).fills price q = true →
          ∃ volume, volume ≠ 0 ∧ (price, volume) ∈ head :: displayed := by
        intro hlevel
        simp only [level, decide_eq_true_eq] at hlevel
        exact ⟨head.2, hvolume, by rw [hlevel.1]; exact List.mem_cons_self⟩
      rw [if_neg hvolume] at h
      split_ifs at h
      · exact hhead h
      · rcases Bool.or_eq_true_iff.mp h with hlevel | hrest
        · exact hhead hlevel
        · exact htail (ih hrest)

theorem levels_filter (displayed : List (ℕ × ℤ)) (filled : ℤ) :
    levels (displayed.filter fun level => level.2 ≠ 0) filled = levels displayed filled := by
  induction displayed generalizing filled with
  | nil => rfl
  | cons head displayed ih =>
    by_cases hvolume : head.2 = 0
    · rw [List.filter_cons_of_neg (by simp [hvolume]), levels, if_pos hvolume]
      exact ih filled
    · rw [List.filter_cons_of_pos (by simp [hvolume]), levels, levels, if_neg hvolume,
        if_neg hvolume, ih]

section Walk

variable {p price price' : ℕ} {v v' filled q q' : ℤ} {front between back : List (ℕ × ℤ)}

theorem levels_cons_fills (hv : v ≠ 0) (hne : price ≠ p) :
    (levels ((p, v) :: back) filled).fills price q = true ↔
      0 < filled - v ∧ (levels back (filled - v)).fills price q = true := by
  rw [levels, if_neg hv]
  split_ifs with hrest
  · exact iff_of_false (by simp [level, hne]) fun h => h.1.not_ge hrest
  · simp only [andThen, level, hne, false_and, decide_false, Bool.false_or, if_false, sub_zero,
      not_le.mp hrest, true_and]

theorem levels_fills_first (hv : v ≠ 0) (hq : q < filled) :
    (levels ((price, v) :: back) filled).fills price q = true := by
  rw [levels, if_neg hv]
  split_ifs
  · simp [level, hq]
  · simp [andThen, level, hq]

theorem lt_of_levels_fills_first (hv : v ≠ 0) (hback : ∀ level ∈ back, level.1 ≠ price)
    (h : (levels ((price, v) :: back) filled).fills price q = true) : q < filled := by
  rw [levels, if_neg hv] at h
  split_ifs at h
  · simpa [level] using h
  · rcases Bool.or_eq_true_iff.mp h with hlevel | hlater
    · simpa [level] using hlevel
    · obtain ⟨volume, -, hmem⟩ := mem_of_levels_fills hlater
      exact absurd rfl (hback _ hmem)

theorem left_of_levels_fills (hbetween : ∀ level ∈ between, level.2 ≠ 0 ∧ price ≠ level.1)
    (hv : v ≠ 0) (hback : ∀ level ∈ back, level.1 ≠ price) (hpos : 0 < filled)
    (h : (levels (between ++ (price, v) :: back) filled).fills price q = true) :
    max q 0 < filled - (between.map Prod.snd).sum := by
  induction between generalizing filled with
  | nil =>
    rw [List.map_nil, List.sum_nil, sub_zero]
    exact max_lt (lt_of_levels_fills_first hv hback h) hpos
  | cons head between ih =>
    obtain ⟨hhead, htail⟩ := List.forall_mem_cons.mp hbetween
    obtain ⟨hleft, hfills⟩ := (levels_cons_fills hhead.1 hhead.2).mp h
    rw [List.map_cons, List.sum_cons, ← sub_sub]
    exact ih htail hleft hfills

/-- The walk over the displayed levels fills an order before one at a later level, if no more
stands before it than before the other and at the levels up to the other's. -/
theorem levels_fills_of_ahead
    (hfront : ∀ level ∈ front, level.2 ≠ 0 ∧ price ≠ level.1 ∧ price' ≠ level.1) (hv : v ≠ 0)
    (hne : price' ≠ price) (hbetween : ∀ level ∈ between, level.2 ≠ 0 ∧ price' ≠ level.1)
    (hv' : v' ≠ 0) (hback : ∀ level ∈ back, level.1 ≠ price')
    (hq : q ≤ max q' 0 + (v + (between.map Prod.snd).sum))
    (h : (levels (front ++ (price, v) :: (between ++ (price', v') :: back)) filled).fills
      price' q' = true) :
    (levels (front ++ (price, v) :: (between ++ (price', v') :: back)) filled).fills price q =
      true := by
  induction front generalizing filled with
  | nil =>
    obtain ⟨hleft, hfills⟩ := (levels_cons_fills hv hne).mp h
    have hreached := left_of_levels_fills hbetween hv' hback hleft hfills
    exact levels_fills_first hv (by omega)
  | cons head front ih =>
    obtain ⟨⟨hhead, hprice, hprice'⟩, htail⟩ := List.forall_mem_cons.mp hfront
    obtain ⟨hleft, hfills⟩ := (levels_cons_fills hhead hprice').mp h
    exact (levels_cons_fills hhead hprice).mpr ⟨hleft, ih htail hfills⟩

end Walk

theorem levels_fills_of_better {r : ℕ → ℕ → Prop} [IsStrictTotalOrder ℕ r]
    {displayed front between back : List (ℕ × ℤ)} {filled v v' q q' : ℤ} {price price' : ℕ}
    (hsorted : (displayed.filter fun level => level.2 ≠ 0).Pairwise fun a b => r a.1 b.1)
    (hsplit : displayed.filter (fun level => level.2 ≠ 0) =
      front ++ (price, v) :: (between ++ (price', v') :: back))
    (hq : q ≤ max q' 0 + (v + (between.map Prod.snd).sum))
    (hf : (levels displayed filled).fills price' q' = true) :
    (levels displayed filled).fills price q = true := by
  have hvolume : ∀ level ∈ front ++ (price, v) :: (between ++ (price', v') :: back),
      level.2 ≠ 0 := by
    intro level hlevel
    rw [← hsplit, List.mem_filter] at hlevel
    simpa using hlevel.2
  have hne : ∀ {a b : ℕ}, r a b → b ≠ a := by
    rintro a b hab rfl
    exact irrefl_of r b hab
  rw [hsplit] at hsorted
  obtain ⟨-, hrest, hfront⟩ := List.pairwise_append.mp hsorted
  obtain ⟨hfirst, htail⟩ := List.pairwise_cons.mp hrest
  obtain ⟨-, hlast, hbetween⟩ := List.pairwise_append.mp htail
  obtain ⟨hback, -⟩ := List.pairwise_cons.mp hlast
  rw [← levels_filter, hsplit] at hf ⊢
  refine levels_fills_of_ahead (fun level hlevel => ⟨hvolume level (by simp [hlevel]), ?_, ?_⟩)
    (hvolume (price, v) (by simp)) (hne (hfirst (price', v') (by simp)))
    (fun level hlevel => ⟨hvolume level (by simp [hlevel]), ?_⟩) (hvolume (price', v') (by simp))
    (fun level hlevel => hne (hback level hlevel)) hq hf
  · exact hne (hfront level hlevel (price, v) (by simp))
  · exact hne (hfront level hlevel (price', v') (by simp))
  · exact hne (hbetween level hlevel (price', v') (by simp))

end FillRule

namespace AdvancedMatchEngine

section Crossed

variable (ct : ContractTable) (tick : TickData) (e : AdvancedMatchEngine)

structure NoCrossed (tick : TickData) (e : AdvancedMatchEngine) : Prop where
  sells : 0 < tick.bestBidVolume → ∀ price order,
    e.RestsAt tick.tickerId .kSell price order → u64Price tick.bestBid < price
  buys : 0 < tick.bestAskVolume → ∀ price order,
    e.RestsAt tick.tickerId .kBuy price order → price < u64Price tick.bestAsk

theorem noCrossed_of_matched (h : Matched (e.ticks tick.tickerId) tick) :
    NoCrossed tick (onNewTick ct tick e).2 := by
  constructor
  · intro hv price order' ho'
    obtain ⟨order, -, hf, -⟩ := (restsAt_onNewTick ct tick e _ _ price order').mp ho'
    simp only [tickRule, tickRuleBy, h, and_self, if_true, reduceCtorEq, if_false, FillRule.andThen,
      Bool.or_eq_false_iff] at hf
    simpa [crossAsksRule, FillRule.onlyIf, hv, FillRule.wholeLevels] using hf.2
  · intro hv price order' ho'
    obtain ⟨order, -, hf, -⟩ := (restsAt_onNewTick ct tick e _ _ price order').mp ho'
    simp only [tickRule, tickRuleBy, h, and_self, if_true, FillRule.andThen, Bool.or_eq_false_iff] at hf
    simpa [crossBidsRule, FillRule.onlyIf, hv, FillRule.wholeLevels] using hf.2

theorem noCrossed_after_tick_iff : NoCrossed tick (onNewTick ct tick e).2 ↔
    Matched (e.ticks tick.tickerId) tick ∨ NoCrossed tick e := by
  by_cases hm : Matched (e.ticks tick.tickerId) tick
  · exact iff_of_true (noCrossed_of_matched ct tick e hm) (Or.inl hm)
  · rw [onNewTick_of_not_matched ct tick e hm, or_iff_right hm]
    exact ⟨fun h => ⟨h.sells, h.buys⟩, fun h => ⟨h.sells, h.buys⟩⟩

def earlySell : OrderRequest where
  contract := { tickerId := 1 }
  orderId := 1
  type := .kLimit
  direction := .kSell
  offset := .kOpen
  volume := 2
  price := 100

def bidTick : TickData where
  tickerId := 1
  bid := fun _ => 105
  bidVolume := fun _ => 10

theorem firstTick_leaves_crossed :
    ∃ r, Execution.Reaches (EngineRun.step (engine oneContract 1)) Allowed { engine := {} } r ∧
      ¬ NoCrossed bidTick (onNewTick oneContract bidTick r.engine).2 := by
  have hstart : Execution.Reaches (EngineRun.step (engine oneContract 1)) Allowed
      { engine := {} } { engine := {} } := .refl _
  have hinsert := hstart.tail (.insert earlySell) ⟨by simp [EngineRun.Fresh], by simp⟩ rfl
  refine ⟨_, hinsert, fun h => ?_⟩
  have hrests := h.sells (by decide) (u64Price 100) ⟨earlySell, 0⟩ ⟨[⟨earlySell, 0⟩], ?_, ?_⟩
  · revert hrests
    decide +kernel
  · decide +kernel
  · exact List.mem_singleton.mpr rfl

end Crossed

def Trades (orderId : ℕ) (events : List Event) : Prop :=
  ∃ k volume price timestampUs,
    Event.traded k volume price timestampUs ∈ events ∧ k.orderId = orderId

section Priority

variable {ct : ContractTable} {fuel : ℕ}

/-- Wherever the two ids rest they share a level, the first at or before the
queue position of the second. -/
structure Ahead (a b : ℕ) (r : EngineRun AdvancedMatchEngine) : Prop where
  first_known : ∃ o ∈ r.inserted, o.orderId = a
  second_known : ∃ o ∈ r.inserted, o.orderId = b
  together : ∀ t t' d d' price price' x y, r.engine.RestsAt t d price x → x.origOrder.orderId = a →
    r.engine.RestsAt t' d' price' y → y.origOrder.orderId = b →
    t = t' ∧ (d = .kBuy ↔ d' = .kBuy) ∧ price = price' ∧ x.queuePosition ≤ y.queuePosition

theorem tickRule_congr {tick : TickData} {e : AdvancedMatchEngine} {t : ℕ} {d d' : Direction}
    (h : d = .kBuy ↔ d' = .kBuy) : tickRule ct tick e t d = tickRule ct tick e t d' := by
  simp only [tickRule, tickRuleBy, h]

theorem Ahead.preserved {a b : ℕ} {r r' : EngineRun AdvancedMatchEngine} {act : EngineAction}
    (h : Ahead a b r) (hk : EngineRun.Kept (lawful ct fuel) r) (ha : Allowed r act)
    (hs : EngineRun.step (engine ct fuel) r act = some r') : Ahead a b r' := by
  cases act with
  | insert order =>
    cases hs
    have hfresh : order.orderId ∉ orderIds r.engine.resting :=
      hk.lifecycle.notMem_of_fresh ha.1
    obtain ⟨o₁, ho₁, hid₁⟩ := h.first_known
    obtain ⟨o₂, ho₂, hid₂⟩ := h.second_known
    have hold : ∀ t d price x, RestsAt (insertOrder order r.engine).2.2 t d price x →
        x.origOrder.orderId ≠ order.orderId → r.engine.RestsAt t d price x := by
      intro t d price x hx hne
      rcases (insertOrder_spec hk.inv order hfresh).2.2 with heq | ⟨inner, hid, heq⟩
      · rwa [heq] at hx
      · rw [heq] at hx
        rcases (restsAt_rest inner r.engine t d price x).mp hx with ⟨-, -, -, rfl⟩ | hx
        · exact absurd hid hne
        · exact hx
    refine ⟨⟨o₁, List.mem_append_left _ ho₁, hid₁⟩, ⟨o₂, List.mem_append_left _ ho₂, hid₂⟩,
      fun t t' d d' price price' x y hx hxa hy hyb => ?_⟩
    refine h.together t t' d d' price price' x y (hold t d price x hx fun heq => ?_) hxa
      (hold t' d' price' y hy fun heq => ?_) hyb
    · exact ha.1 o₁ ho₁ (by rw [hid₁, ← hxa, heq])
    · exact ha.1 o₂ ho₂ (by rw [hid₂, ← hyb, heq])
  | cancel orderId tickerId =>
    obtain ⟨x, hx, rfl⟩ := Option.map_eq_some_iff.mp hs
    have hold := (cancelOrder_spec hk.inv (engine_cancelOrder.mp hx)).2.2
    exact ⟨h.first_known, h.second_known, fun t t' d d' price price' x y hx hxa hy hyb =>
      h.together t t' d d' price price' x y (hold _ _ _ _ hx) hxa (hold _ _ _ _ hy) hyb⟩
  | tick tick =>
    cases hs
    refine ⟨h.first_known, h.second_known, fun t t' d d' price price' x' y' hx' hxa hy' hyb => ?_⟩
    obtain ⟨x, hx, -, rfl⟩ := (restsAt_onNewTick ct tick r.engine t d price x').mp hx'
    obtain ⟨y, hy, -, rfl⟩ := (restsAt_onNewTick ct tick r.engine t' d' price' y').mp hy'
    obtain ⟨rfl, hd, rfl, hq⟩ := h.together t t' d d' price price' x y hx hxa hy hyb
    refine ⟨rfl, hd, rfl, ?_⟩
    rw [tickRule_congr hd]
    simpa only [InnerOrder.advance, sub_le_sub_iff_right] using hq

theorem ahead_of_reaches {r r' : EngineRun AdvancedMatchEngine} {a b : ℕ}
    (hk : EngineRun.Kept (lawful ct fuel) r) (h : Ahead a b r)
    (hr : Execution.Reaches (EngineRun.step (engine ct fuel)) Allowed r r') :
    EngineRun.Kept (lawful ct fuel) r' ∧ Ahead a b r' :=
  hr.invariant (fun r => EngineRun.Kept (lawful ct fuel) r ∧ Ahead a b r)
    (fun _ _ _ h ha hs => ⟨h.1.preserved ha.1 hs, h.2.preserved h.1 ha hs⟩) ⟨hk, h⟩

theorem ahead_of_queuePosition_le {r : EngineRun AdvancedMatchEngine}
    (hk : EngineRun.Kept (lawful ct fuel) r) {t : ℕ} {d : Direction} {price : ℕ}
    {a b : InnerOrder} (ha : r.engine.RestsAt t d price a) (hb : r.engine.RestsAt t d price b)
    (hq : a.queuePosition ≤ b.queuePosition) :
    Ahead a.origOrder.orderId b.origOrder.orderId r := by
  have hx : r.engine.Indexed := hk.inv
  have hknown : ∀ {order : InnerOrder}, r.engine.RestsAt t d price order →
      ∃ o ∈ r.inserted, o.orderId = order.origOrder.orderId := by
    intro order ho
    refine hk.lifecycle.resting_orderId (Multiset.mem_map_of_mem _ ?_)
    exact r.engine.mem_resting_iff.mpr ⟨t, d, price, order, ho, rfl⟩
  refine ⟨hknown ha, hknown hb, fun t₁ t₂ d₁ d₂ p₁ p₂ x y hxa hida hyb hidb => ?_⟩
  obtain ⟨rfl, hd₁, rfl⟩ := hx.place hxa ha hida
  obtain ⟨rfl, hd₂, rfl⟩ := hx.place hyb hb hidb
  rw [hx.unique hxa ha hida, hx.unique hyb hb hidb]
  exact ⟨rfl, hd₁.trans hd₂.symm, rfl, hq⟩

theorem trades_onNewTick {tick : TickData} {e : AdvancedMatchEngine} {id : ℕ}
    (h : Trades id (onNewTick ct tick e).1) : ∃ d price order,
      e.RestsAt tick.tickerId d price order ∧ order.origOrder.orderId = id ∧
        (tickRule ct tick e tick.tickerId d).fills price order.queuePosition = true := by
  obtain ⟨k, volume, price, ts, hev, hid⟩ := h
  obtain ⟨d, level, order, ho, hf, heq⟩ := (mem_onNewTick ct tick e _).mp hev
  cases heq
  exact ⟨d, level, order, ho, hid, hf⟩

theorem rests_onNewTick {tick : TickData} {e : AdvancedMatchEngine} {id : ℕ}
    (h : id ∈ orderIds (onNewTick ct tick e).2.resting) : ∃ t d price order,
      e.RestsAt t d price order ∧ order.origOrder.orderId = id ∧
        (tickRule ct tick e t d).fills price order.queuePosition = false := by
  obtain ⟨k, hk, hid⟩ := Multiset.mem_map.mp h
  obtain ⟨t, d, price, order', ho', rfl⟩ := (mem_resting_iff _).mp hk
  obtain ⟨order, ho, hf, rfl⟩ := (restsAt_onNewTick ct tick e t d price order').mp ho'
  exact ⟨t, d, price, order, ho, hid, hf⟩

theorem Ahead.not_overtaken {a b : ℕ} {r : EngineRun AdvancedMatchEngine} (h : Ahead a b r)
    {tick : TickData} (ht : Trades b (onNewTick ct tick r.engine).1) :
    a ∉ orderIds (onNewTick ct tick r.engine).2.resting := by
  intro hrest
  obtain ⟨d, price, y, hy, hyb, hfill⟩ := trades_onNewTick ht
  obtain ⟨t, d', price', x, hx, hxa, hnot⟩ := rests_onNewTick hrest
  obtain ⟨rfl, hd, rfl, hq⟩ := h.together _ _ _ _ _ _ x y hx hxa hy hyb
  rw [tickRule_congr hd] at hnot
  have hmono := monotone_tickRule ct tick r.engine tick.tickerId d price' _ _ hq hfill
  exact Bool.false_ne_true (hnot.symm.trans hmono)

def displayedSide (tick : TickData) (direction : Direction) : List (ℕ × ℤ) :=
  if direction = .kBuy then displayedLevels tick.bid tick.bidVolume
  else displayedLevels tick.ask tick.askVolume

def Crosses (tick : TickData) (direction : Direction) (price : ℕ) : Prop :=
  if direction = .kBuy then 0 < tick.bestAskVolume ∧ u64Price tick.bestAsk ≤ price
  else 0 < tick.bestBidVolume ∧ price ≤ u64Price tick.bestBid

/-- When a tick fills no order at `price'` with `q'` before it unless it fills the one at the better
`price` with `q` before it: that one crosses, or is a bid above the touch, or the other's level is
not displayed, or the displayed volumes up to the other's level make up for what stands before it. -/
inductive Protects (tick : TickData) (direction : Direction) (price : ℕ) (q : ℤ) (price' : ℕ)
    (q' : ℤ) : Prop
  | crosses (hcrosses : Crosses tick direction price)
  | swept (hd : direction = .kBuy) (hv : 0 < tick.bestBidVolume)
      (hp : u64Price tick.bestBid < price)
  | undisplayed (hnone : ∀ volume, (price', volume) ∈ displayedSide tick direction → volume = 0)
  | displayed (front between back : List (ℕ × ℤ)) (v v' : ℤ)
      (hsorted : ((displayedSide tick direction).filter fun level => level.2 ≠ 0).Pairwise
        fun a b => direction.Better a.1 b.1)
      (hsplit : (displayedSide tick direction).filter (fun level => level.2 ≠ 0) =
        front ++ (price, v) :: (between ++ (price', v') :: back))
      (hq : q ≤ max q' 0 + (v + (between.map Prod.snd).sum))

theorem fills_stages {c c' c'' : Bool} {p p' : ℕ → Bool} {displayed : List (ℕ × ℤ)}
    {filled q : ℤ} {price : ℕ} :
    ((FillRule.onlyIf c (.andThen (.onlyIf c' (.wholeLevels p)) (.levels displayed filled))).andThen
      (.onlyIf c'' (.wholeLevels p'))).fills price q = true ↔
        (c = true ∧ ((c' = true ∧ p price = true) ∨
          (FillRule.levels displayed filled).fills price q = true)) ∨
        (c'' = true ∧ p' price = true) := by
  cases c <;> cases c' <;> cases c'' <;>
    simp [FillRule.onlyIf, FillRule.andThen, FillRule.wholeLevels, FillRule.none]

theorem not_levels_fills_of_undisplayed {displayed : List (ℕ × ℤ)} {filled q : ℤ} {price : ℕ}
    (hnone : ∀ volume, (price, volume) ∈ displayed → volume = 0) :
    ¬ (FillRule.levels displayed filled).fills price q = true := by
  intro hfills
  obtain ⟨volume, hvolume, hmem⟩ := FillRule.mem_of_levels_fills hfills
  exact hvolume (hnone volume hmem)

theorem fills_of_better {tick : TickData} {e : AdvancedMatchEngine} {t : ℕ} {d : Direction}
    {price price' : ℕ} {q q' : ℤ} (hbetter : d.Better price price')
    (hp : Protects tick d price q price' q')
    (hf : (tickRule ct tick e t d).fills price' q' = true) :
    (tickRule ct tick e t d).fills price q = true := by
  by_cases hm : t = tick.tickerId ∧ Matched (e.ticks t) tick
  · by_cases hd : d = .kBuy
    · subst hd
      have hlt : price' < price := by simpa [Direction.Better] using hbetter
      simp only [tickRule, tickRuleBy, if_pos hm, if_true, fillBidsRule, crossBidsRule,
        fills_stages, decide_eq_true_eq] at hf ⊢
      rcases hf with ⟨hpos, ⟨hv, hf⟩ | hf⟩ | ⟨hpos, hf⟩
      · exact Or.inl ⟨hpos, Or.inl ⟨hv, by omega⟩⟩
      · cases hp with
        | crosses hcrosses => exact Or.inr (by simpa [Crosses] using hcrosses)
        | swept hd hv hp => exact Or.inl ⟨hpos, Or.inl ⟨hv, hp⟩⟩
        | undisplayed hnone =>
          simp only [displayedSide, if_true] at hnone
          exact absurd hf (not_levels_fills_of_undisplayed hnone)
        | displayed front between back v v' hsorted hsplit hq =>
          simp only [displayedSide, if_true, Direction.Better] at hsorted hsplit
          exact Or.inl ⟨hpos, Or.inr
            (FillRule.levels_fills_of_better (r := (· > ·)) hsorted hsplit hq hf)⟩
      · exact Or.inr ⟨hpos, by omega⟩
    · have hlt : price < price' := by simpa [Direction.Better, hd] using hbetter
      simp only [tickRule, tickRuleBy, if_pos hm, if_neg hd, fillAsksRule, crossAsksRule,
        fills_stages, decide_eq_true_eq] at hf ⊢
      rcases hf with ⟨hpos, ⟨hv, hf⟩ | hf⟩ | ⟨hpos, hf⟩
      · exact Or.inl ⟨hpos, Or.inl ⟨hv, by omega⟩⟩
      · cases hp with
        | crosses hcrosses => exact Or.inr (by simpa [Crosses, hd] using hcrosses)
        | swept hbuy hv hp => exact absurd hbuy hd
        | undisplayed hnone =>
          simp only [displayedSide, if_neg hd] at hnone
          exact absurd hf (not_levels_fills_of_undisplayed hnone)
        | displayed front between back v v' hsorted hsplit hq =>
          simp only [displayedSide, if_neg hd, Direction.Better] at hsorted hsplit
          exact Or.inl ⟨hpos, Or.inr
            (FillRule.levels_fills_of_better (r := (· < ·)) hsorted hsplit hq hf)⟩
      · exact Or.inr ⟨hpos, by omega⟩
  · simp only [tickRule, tickRuleBy, if_neg hm, FillRule.none] at hf
    cases hf

def shownVolume (tick : TickData) (order : OrderRequest) : ℤ :=
  if order.type = .kBest then (queueBest tick order).queuePosition
  else (queueLimit tick order).queuePosition

theorem queuePosition_of_insert {order : OrderRequest} {e : AdvancedMatchEngine}
    (hfresh : order.orderId ∉ orderIds e.resting) {t : ℕ} {d : Direction} {price : ℕ}
    {b : InnerOrder} (hb : (insertOrder order e).2.2.RestsAt t d price b)
    (hid : b.origOrder.orderId = order.orderId) :
    b.queuePosition = shownVolume (e.ticks order.contract.tickerId) order := by
  have hold : ¬ e.RestsAt t d price b := by
    intro hrests
    apply hfresh
    rw [← hid]
    exact Multiset.mem_map_of_mem _ (e.mem_resting_iff.mpr ⟨t, d, price, b, hrests, rfl⟩)
  have hrest : ∀ inner : InnerOrder, (rest inner e).RestsAt t d price b → b = inner := by
    intro inner hrests
    rcases (restsAt_rest inner e t d price b).mp hrests with ⟨-, -, -, heq⟩ | hrests
    · exact heq
    · exact absurd hrests hold
  unfold insertOrder at hb
  cases ht : order.type with
  | kLimit =>
    simp only [ht] at hb
    split_ifs at hb
    · exact absurd hb hold
    · rw [hrest _ hb, shownVolume, if_neg (by simp [ht])]
  | kBest =>
    simp only [ht] at hb
    split_ifs at hb
    · exact absurd hb hold
    · rw [hrest _ hb, shownVolume, if_pos ht]
  | kMarket | kFak | kFok =>
    simp only [ht] at hb
    split_ifs at hb <;> exact absurd hb hold
  | _ =>
    simp only [ht] at hb
    exact absurd hb hold

theorem restsAt_insertOrder {order : OrderRequest} {e : AdvancedMatchEngine} (h : e.Indexed)
    (hfresh : order.orderId ∉ orderIds e.resting) {t : ℕ} {d : Direction} {price : ℕ}
    {a : InnerOrder} (ha : e.RestsAt t d price a) :
    (insertOrder order e).2.2.RestsAt t d price a := by
  rcases (insertOrder_spec h order hfresh).2.2 with heq | ⟨inner, -, heq⟩
  · rwa [heq]
  · rw [heq]
    exact (restsAt_rest inner e t d price a).mpr (Or.inr ha)

section Run

variable {r : EngineRun AdvancedMatchEngine} (hk : EngineRun.Kept (lawful ct fuel) r)
  {t : ℕ} {d : Direction} {price : ℕ} {a b : InnerOrder}

include hk

theorem not_overtaken_of_le (ha : r.engine.RestsAt t d price a)
    (hb : r.engine.RestsAt t d price b) (hq : a.queuePosition ≤ b.queuePosition)
    {r' : EngineRun AdvancedMatchEngine}
    (hr : Execution.Reaches (EngineRun.step (engine ct fuel)) Allowed r r') {tick : TickData}
    (htrade : Trades b.origOrder.orderId (onNewTick ct tick r'.engine).1) :
    a.origOrder.orderId ∉ orderIds (onNewTick ct tick r'.engine).2.resting :=
  (ahead_of_reaches hk (ahead_of_queuePosition_le hk ha hb hq) hr).2.not_overtaken htrade

theorem not_overtaken_of_protects {price' : ℕ} (ha : r.engine.RestsAt t d price a)
    (hb : r.engine.RestsAt t d price' b) (hbetter : d.Better price price') {tick : TickData}
    (hp : Protects tick d price a.queuePosition price' b.queuePosition)
    (htrade : Trades b.origOrder.orderId (onNewTick ct tick r.engine).1) :
    a.origOrder.orderId ∉ orderIds (onNewTick ct tick r.engine).2.resting := by
  intro hrest
  have hx : r.engine.Indexed := hk.inv
  obtain ⟨d₁, p₁, y, hy, hyb, hfill⟩ := trades_onNewTick htrade
  obtain ⟨t₂, d₂, p₂, x, hxr, hxa, hnot⟩ := rests_onNewTick hrest
  have hyeq := hx.unique hy hb hyb
  have hxeq := hx.unique hxr ha hxa
  obtain ⟨rfl, hd₁, rfl⟩ := hx.place hy hb hyb
  obtain ⟨rfl, hd₂, rfl⟩ := hx.place hxr ha hxa
  rw [tickRule_congr hd₁, hyeq] at hfill
  rw [tickRule_congr hd₂, hxeq] at hnot
  have hfills := fills_of_better hbetter hp hfill
  exact Bool.false_ne_true (hnot.symm.trans hfills)

end Run

/-- Fills follow the estimated queue positions within a level, in particular the order of
insertion while the displayed volume is no less than what is left before the first, and prices
where the better level is protected. -/
theorem queue_priority (r : EngineRun AdvancedMatchEngine)
    (h : Execution.Reaches (EngineRun.step (engine ct fuel)) Allowed { engine := {} } r)
    (t : ℕ) (d : Direction) (price : ℕ) (a : InnerOrder) (ha : r.engine.RestsAt t d price a) :
    (∀ b, r.engine.RestsAt t d price b → a.queuePosition ≤ b.queuePosition →
      ∀ r', Execution.Reaches (EngineRun.step (engine ct fuel)) Allowed r r' → ∀ tick,
        Trades b.origOrder.orderId (onNewTick ct tick r'.engine).1 →
          a.origOrder.orderId ∉ orderIds (onNewTick ct tick r'.engine).2.resting) ∧
      (∀ order r₁, Allowed r (.insert order) →
        EngineRun.step (engine ct fuel) r (.insert order) = some r₁ →
        a.queuePosition ≤ shownVolume (r.engine.ticks order.contract.tickerId) order →
        ∀ b, r₁.engine.RestsAt t d price b → b.origOrder.orderId = order.orderId →
        ∀ r', Execution.Reaches (EngineRun.step (engine ct fuel)) Allowed r₁ r' → ∀ tick,
          Trades b.origOrder.orderId (onNewTick ct tick r'.engine).1 →
            a.origOrder.orderId ∉ orderIds (onNewTick ct tick r'.engine).2.resting) ∧
      ∀ price' b, r.engine.RestsAt t d price' b → d.Better price price' → ∀ tick,
        Protects tick d price a.queuePosition price' b.queuePosition →
        Trades b.origOrder.orderId (onNewTick ct tick r.engine).1 →
          a.origOrder.orderId ∉ orderIds (onNewTick ct tick r.engine).2.resting := by
  have hk : EngineRun.Kept (lawful ct fuel) r :=
    EngineRun.kept_of_reaches (lawful ct fuel) indexed_empty rfl (fun _ _ ha => ha.1) h
  refine ⟨fun b hb hq r' hr tick => not_overtaken_of_le hk ha hb hq hr, ?_,
    fun price' b hb hbetter tick hp => not_overtaken_of_protects hk ha hb hbetter hp⟩
  intro order r₁ hallowed hstep hq b hb hid r' hr tick
  have hk₁ := hk.preserved hallowed.1 hstep
  have hfresh : order.orderId ∉ orderIds r.engine.resting := hk.lifecycle.notMem_of_fresh hallowed.1
  cases hstep
  rw [← queuePosition_of_insert hfresh hb hid] at hq
  exact not_overtaken_of_le hk₁ (restsAt_insertOrder hk.inv hfresh ha) hb hq hr

end Priority

def twoBuys (bidVolume : ℤ) : AdvancedMatchEngine :=
  let e := (onNewTick oneContract (touchTick 0 0 100) {}).2
  let e := (insertOrder restingBuy e).2.2
  let e := (onNewTick oneContract (touchTick 0 0 bidVolume) e).2
  (insertOrder laterBuy e).2.2

theorem twoBuys_reached (bidVolume : ℤ) :
    ∃ r, Execution.Reaches (EngineRun.step (engine oneContract 1)) Allowed { engine := {} } r ∧
      r.inserted = [restingBuy, laterBuy] ∧ r.engine = twoBuys bidVolume := by
  have hstart : Execution.Reaches (EngineRun.step (engine oneContract 1)) Allowed
      { engine := {} } { engine := {} } := .refl _
  have hfirst := hstart.tail (.tick (touchTick 0 0 100)) ⟨trivial, by simp⟩ rfl
  have hbuy := hfirst.tail (.insert restingBuy) ⟨by simp [EngineRun.Fresh], by simp⟩ rfl
  have hsecond := hbuy.tail (.tick (touchTick 0 0 bidVolume)) ⟨trivial, by simp⟩ rfl
  have hlater := hsecond.tail (.insert laterBuy)
    ⟨by simp [EngineRun.Fresh, laterBuy, restingBuy], by simp⟩ rfl
  exact ⟨_, hlater, rfl, rfl⟩

theorem queue_priority_twoBuys :
    restingBuy.orderId ∉
      orderIds (onNewTick oneContract (touchTick 200 19800 100) (twoBuys 100)).2.resting := by
  obtain ⟨r, hr, -, he⟩ := twoBuys_reached 100
  have ha : r.engine.RestsAt 1 .kBuy (u64Price 99) ⟨restingBuy, 100⟩ := by
    rw [he]
    exact ⟨[⟨restingBuy, 100⟩, ⟨laterBuy, 100⟩], by decide +kernel, by simp⟩
  have hb : r.engine.RestsAt 1 .kBuy (u64Price 99) ⟨laterBuy, 100⟩ := by
    rw [he]
    exact ⟨[⟨restingBuy, 100⟩, ⟨laterBuy, 100⟩], by decide +kernel, by simp⟩
  have hpriority := (queue_priority r hr 1 .kBuy _ _ ha).1 _ hb le_rfl r (.refl r)
    (touchTick 200 19800 100)
  rw [he] at hpriority
  exact hpriority ⟨laterBuy, 2, 99, 0, by decide +kernel, rfl⟩

/-- The displayed volume shrinks in front of the later order only. -/
theorem later_order_overtakes :
    ∃ r, Execution.Reaches (EngineRun.step (engine oneContract 1)) Allowed { engine := {} } r ∧
      r.inserted = [restingBuy, laterBuy] ∧
      r.engine.RestsAt 1 .kBuy (u64Price 99) ⟨restingBuy, 100⟩ ∧
      r.engine.RestsAt 1 .kBuy (u64Price 99) ⟨laterBuy, 10⟩ ∧
      Trades laterBuy.orderId (onNewTick oneContract (touchTick 50 4950 10) r.engine).1 ∧
      restingBuy.orderId ∈
        orderIds (onNewTick oneContract (touchTick 50 4950 10) r.engine).2.resting := by
  obtain ⟨r, hr, hins, he⟩ := twoBuys_reached 10
  refine ⟨r, hr, hins, ?_⟩
  rw [he]
  refine ⟨⟨[⟨restingBuy, 100⟩, ⟨laterBuy, 10⟩], by decide +kernel, by simp⟩,
    ⟨[⟨restingBuy, 100⟩, ⟨laterBuy, 10⟩], by decide +kernel, by simp⟩,
    ⟨laterBuy, 2, 99, 0, by decide +kernel, rfl⟩, by decide +kernel⟩

end AdvancedMatchEngine

end FlareTrader
