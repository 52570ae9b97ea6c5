import FlareTrader.AdvancedMatchEngine

/-! The books of the advanced match engine: what each operation does to the
orders of a ticker and a side, and the agreement of the books with the index
from order ids to levels. -/

namespace FlareTrader

namespace FillRule

def onlyIf (c : Bool) (f : FillRule) : FillRule := if c then f else none

theorem Monotone.onlyIf {f : FillRule} (hf : f.Monotone) (c : Bool) : (onlyIf c f).Monotone := by
  unfold FillRule.onlyIf
  split_ifs
  · exact hf
  · exact monotone_none

end FillRule

namespace AdvancedMatchEngine

section Stages

variable {r : ℕ → ℕ → Prop}

structure Follows (timestampUs : ℕ) (rule : FillRule) (f : Levels r → List Event × Levels r) :
    Prop where
  applies : ∀ levels, Levels.Applies timestampUs rule levels (f levels).1 (f levels).2
  closes : ∀ levels, Closes levels.resting (f levels).1 (f levels).2.resting

variable {timestampUs : ℕ} {f g : Levels r → List Event × Levels r} {rule rule' : FillRule}

theorem Follows.andThen (hf : Follows timestampUs rule f) (hg : Follows timestampUs rule' g) :
    Follows timestampUs (rule.andThen rule') (andThen f g) where
  applies := fun levels => (hf.applies levels).andThen (hg.applies _)
  closes := fun levels => (hf.closes levels).append (hg.closes _)

theorem Follows.onlyIf (hf : Follows timestampUs rule f) (c : Bool) :
    Follows timestampUs (.onlyIf c rule) (onlyIf c f) := by
  cases c with
  | false => exact ⟨Levels.applies_none, fun levels => .nil _⟩
  | true => exact hf

theorem follows_sweep [IsStrictTotalOrder ℕ r] {p : ℕ → Bool}
    (hp : ∀ a b, r a b → p b = true → p a = true) :
    Follows (r := r) timestampUs (.wholeLevels p) (Levels.sweep timestampUs p) :=
  ⟨Levels.applies_sweep hp, Levels.sweep_closes timestampUs p⟩

theorem follows_walkLevels [DecidableRel r] [IsStrictTotalOrder ℕ r] (displayed : List (ℕ × ℤ))
    (filled : ℤ) : Follows (r := r) timestampUs (.levels displayed filled)
      (Levels.walkLevels timestampUs displayed filled) :=
  ⟨Levels.applies_walkLevels displayed filled, Levels.walkLevels_closes timestampUs displayed filled⟩

end Stages

def fillBidsRule (tick : TickData) (filled : ℤ) : FillRule :=
  .onlyIf (0 < filled) (.andThen
    (.onlyIf (0 < tick.bestBidVolume) (.wholeLevels fun price => u64Price tick.bestBid < price))
    (.levels (displayedLevels tick.bid tick.bidVolume) filled))

def fillAsksRule (tick : TickData) (filled : ℤ) : FillRule :=
  .onlyIf (0 < filled) (.andThen
    (.onlyIf (0 < tick.bestAskVolume) (.wholeLevels fun price => price < u64Price tick.bestBid))
    (.levels (displayedLevels tick.ask tick.askVolume) filled))

def crossAsksRule (tick : TickData) : FillRule :=
  .onlyIf (0 < tick.bestBidVolume) (.wholeLevels fun price => price ≤ u64Price tick.bestBid)

def crossBidsRule (tick : TickData) : FillRule :=
  .onlyIf (0 < tick.bestAskVolume) (.wholeLevels fun price => u64Price tick.bestAsk ≤ price)

section Rules

variable (tick : TickData) (filled : ℤ)

theorem follows_fillBids :
    Follows tick.exchangeTimestampUs (fillBidsRule tick filled) (fillBids tick filled) := by
  refine (((follows_sweep fun a b hab hb => ?_).onlyIf _).andThen (follows_walkLevels _ _)).onlyIf _
  simp only [decide_eq_true_eq] at hb ⊢
  omega

theorem follows_fillAsks :
    Follows tick.exchangeTimestampUs (fillAsksRule tick filled) (fillAsks tick filled) := by
  refine (((follows_sweep fun a b hab hb => ?_).onlyIf _).andThen (follows_walkLevels _ _)).onlyIf _
  simp only [decide_eq_true_eq] at hb ⊢
  omega

theorem follows_crossAsks :
    Follows tick.exchangeTimestampUs (crossAsksRule tick) (crossAsks tick) := by
  refine (follows_sweep fun a b hab hb => ?_).onlyIf _
  simp only [decide_eq_true_eq] at hb ⊢
  omega

theorem follows_crossBids :
    Follows tick.exchangeTimestampUs (crossBidsRule tick) (crossBids tick) := by
  refine (follows_sweep fun a b hab hb => ?_).onlyIf _
  simp only [decide_eq_true_eq] at hb ⊢
  omega

end Rules

def tickRuleBy (estimate : TickData → TickData → ℤ × ℤ) (tick : TickData)
    (e : AdvancedMatchEngine) (tickerId : ℕ) (direction : Direction) : FillRule :=
  let prev := e.ticks tickerId
  if tickerId = tick.tickerId ∧ Matched prev tick then
    if direction = .kBuy then
      (fillBidsRule tick (estimate prev tick).1).andThen (crossBidsRule tick)
    else (fillAsksRule tick (estimate prev tick).2).andThen (crossAsksRule tick)
  else .none

def tickRule (ct : ContractTable) : TickData → AdvancedMatchEngine → ℕ → Direction → FillRule :=
  tickRuleBy (estimateFills ct)

theorem monotone_tickRule (ct : ContractTable) (tick : TickData) (e : AdvancedMatchEngine)
    (tickerId : ℕ) (direction : Direction) : (tickRule ct tick e tickerId direction).Monotone := by
  have hsweep : ∀ (c : Bool) (p : ℕ → Bool), (FillRule.onlyIf c (.wholeLevels p)).Monotone :=
    fun c p => (FillRule.monotone_wholeLevels p).onlyIf c
  simp only [tickRule, tickRuleBy]
  split_ifs
  · exact (((hsweep _ _).andThen (FillRule.monotone_levels _ _)).onlyIf _).andThen (hsweep _ _)
  · exact (((hsweep _ _).andThen (FillRule.monotone_levels _ _)).onlyIf _).andThen (hsweep _ _)
  · exact FillRule.monotone_none

def RestsAt (e : AdvancedMatchEngine) (tickerId : ℕ) (direction : Direction) (price : ℕ)
    (order : InnerOrder) : Prop :=
  if direction = .kBuy then (e.book tickerId).bidLevels.At price order
  else (e.book tickerId).askLevels.At price order

def resting (e : AdvancedMatchEngine) : RestingBook :=
  e.orderbooks.sum fun _ b => b.bidLevels.resting + b.askLevels.resting

section Book

variable (e : AdvancedMatchEngine)

theorem book_setBook (t t' : ℕ) (b : OrderBook) :
    (e.setBook t b).book t' = if t' = t then b else e.book t' := by
  unfold book setBook
  rw [SortedMap.find?_insert]
  split_ifs <;> rfl

theorem resting_split (t : ℕ) : ∃ others : RestingBook,
    e.resting = (e.book t).bidLevels.resting + (e.book t).askLevels.resting + others ∧
      ∀ b : OrderBook, (e.setBook t b).resting =
        b.bidLevels.resting + b.askLevels.resting + others := by
  refine ⟨(e.orderbooks.erase t).sum fun _ b => b.bidLevels.resting + b.askLevels.resting, ?_,
    fun b => ?_⟩
  · rw [resting, SortedMap.sum_eq_add e.orderbooks t, book]
    cases e.orderbooks.find? t <;> rfl
  · exact SortedMap.sum_insert_eq_add e.orderbooks t b _

theorem mem_resting_iff {k : OrderRequest} :
    k ∈ e.resting ↔ ∃ t d price order, e.RestsAt t d price order ∧ order.origOrder = k := by
  constructor
  · intro h
    obtain ⟨t, b, hb, hmem⟩ := SortedMap.mem_sum.mp h
    have hbook : e.book t = b := by rw [book, SortedMap.find?_eq_some.mpr hb, Option.getD_some]
    rcases Multiset.mem_add.mp hmem with hmem | hmem
    · obtain ⟨price, order, ho, heq⟩ := Levels.mem_resting.mp hmem
      exact ⟨t, .kBuy, price, order, by simpa [RestsAt, hbook] using ho, heq⟩
    · obtain ⟨price, order, ho, heq⟩ := Levels.mem_resting.mp hmem
      exact ⟨t, .kSell, price, order, by simpa [RestsAt, hbook] using ho, heq⟩
  · rintro ⟨t, d, price, order, ho, heq⟩
    obtain ⟨others, he, -⟩ := e.resting_split t
    rw [he, Multiset.mem_add, Multiset.mem_add]
    unfold RestsAt at ho
    split_ifs at ho
    · exact Or.inl (Or.inl (Levels.mem_resting.mpr ⟨price, order, ho, heq⟩))
    · exact Or.inl (Or.inr (Levels.mem_resting.mpr ⟨price, order, ho, heq⟩))

end Book

section Tick

section Estimated

variable (estimate : TickData → TickData → ℤ × ℤ) (tick : TickData) (e : AdvancedMatchEngine)

theorem onNewTickBy_of_not_matched (h : ¬ Matched (e.ticks tick.tickerId) tick) :
    onNewTickBy estimate tick e =
      ([], { e with ticks := Function.update e.ticks tick.tickerId tick }) := by
  simp only [onNewTickBy, if_pos h]

theorem onNewTickBy_of_matched (h : Matched (e.ticks tick.tickerId) tick) :
    ∃ (bidEvents askEvents : List Event) (b : OrderBook),
      (onNewTickBy estimate tick e).2 = { e.setBook tick.tickerId b with
        idPriceMap := forget (onNewTickBy estimate tick e).1 e.idPriceMap
        ticks := Function.update e.ticks tick.tickerId tick } ∧
      (∀ ev, ev ∈ (onNewTickBy estimate tick e).1 ↔ ev ∈ bidEvents ∨ ev ∈ askEvents) ∧
      Levels.Applies tick.exchangeTimestampUs (tickRuleBy estimate tick e tick.tickerId .kBuy)
        (e.book tick.tickerId).bidLevels bidEvents b.bidLevels ∧
      Levels.Applies tick.exchangeTimestampUs (tickRuleBy estimate tick e tick.tickerId .kSell)
        (e.book tick.tickerId).askLevels askEvents b.askLevels ∧
      Closes ((e.book tick.tickerId).bidLevels.resting + (e.book tick.tickerId).askLevels.resting)
        (onNewTickBy estimate tick e).1 (b.bidLevels.resting + b.askLevels.resting) := by
  simp only [onNewTickBy, tickRuleBy, h, not_true_eq_false, and_self, if_true, if_false,
    reduceCtorEq]
  have hbids := follows_fillBids tick (estimate (e.ticks tick.tickerId) tick).1
  have hasks := follows_fillAsks tick (estimate (e.ticks tick.tickerId) tick).2
  have hbidsApply := hbids.applies (e.book tick.tickerId).bidLevels
  have hbidsClose := hbids.closes (e.book tick.tickerId).bidLevels
  have hasksApply := hasks.applies (e.book tick.tickerId).askLevels
  have hasksClose := hasks.closes (e.book tick.tickerId).askLevels
  generalize fillBids tick _ (e.book tick.tickerId).bidLevels = bids at *
  generalize fillAsks tick _ (e.book tick.tickerId).askLevels = asks at *
  have hcrossAsks := follows_crossAsks tick
  have hcrossBids := follows_crossBids tick
  refine ⟨_, _, _, rfl, fun ev => ?_, hbidsApply.andThen (hcrossBids.applies bids.2),
    hasksApply.andThen (hcrossAsks.applies asks.2), ?_⟩
  · simp only [List.mem_append]
    tauto
  · have hfirst := hbidsClose.frame (e.book tick.tickerId).askLevels.resting
    have hsecond := (hasksClose.append (hcrossAsks.closes asks.2)).frame bids.2.resting
    have hthird := (hcrossBids.closes bids.2).frame (crossAsks tick asks.2).2.resting
    rw [add_comm _ bids.2.resting, add_comm _ bids.2.resting] at hsecond
    simpa only [List.append_assoc] using (hfirst.append hsecond).append hthird

theorem restsAt_onNewTickBy (t : ℕ) (d : Direction) (price : ℕ) (order' : InnerOrder) :
    (onNewTickBy estimate tick e).2.RestsAt t d price order' ↔ ∃ order, e.RestsAt t d price order ∧
      (tickRuleBy estimate tick e t d).fills price order.queuePosition = false ∧
      order' = order.advance ((tickRuleBy estimate tick e t d).shift price) := by
  have hnone : tickRuleBy estimate tick e t d = .none →
      (onNewTickBy estimate tick e).2.book t = e.book t →
      ((onNewTickBy estimate tick e).2.RestsAt t d price order' ↔
        ∃ order, e.RestsAt t d price order ∧
        (tickRuleBy estimate tick e t d).fills price order.queuePosition = false ∧
        order' = order.advance ((tickRuleBy estimate tick e t d).shift price)) := by
    intro hrule hbook
    simp [hrule, FillRule.none, InnerOrder.advance_zero, RestsAt, hbook]
  by_cases hm : Matched (e.ticks tick.tickerId) tick
  · obtain ⟨bidEvents, askEvents, b, hnew, -, hbids, hasks, -⟩ :=
      onNewTickBy_of_matched estimate tick e hm
    have hbook : (onNewTickBy estimate tick e).2.book t = (e.setBook tick.tickerId b).book t := by
      rw [hnew]
      rfl
    rw [book_setBook] at hbook
    split_ifs at hbook with ht
    · subst ht
      unfold RestsAt
      rw [hbook]
      split_ifs with hd
      · subst hd
        exact hbids.left price order'
      · have hrule : tickRuleBy estimate tick e tick.tickerId d =
            tickRuleBy estimate tick e tick.tickerId .kSell := by
          simp only [tickRuleBy, hd, if_false, reduceCtorEq]
        rw [hrule]
        exact hasks.left price order'
    · exact hnone (if_neg fun h => ht h.1) hbook
  · have hrule : tickRuleBy estimate tick e t d = .none := by
      simp only [tickRuleBy]
      apply if_neg
      rintro ⟨ht, h⟩
      exact hm (ht ▸ h)
    apply hnone hrule
    rw [onNewTickBy_of_not_matched estimate tick e hm]
    rfl

end Estimated

variable (ct : ContractTable) (tick : TickData) (e : AdvancedMatchEngine)

theorem restsAt_onNewTick (t : ℕ) (d : Direction) (price : ℕ) (order' : InnerOrder) :
    (onNewTick ct tick e).2.RestsAt t d price order' ↔ ∃ order, e.RestsAt t d price order ∧
      (tickRule ct tick e t d).fills price order.queuePosition = false ∧
      order' = order.advance ((tickRule ct tick e t d).shift price) :=
  restsAt_onNewTickBy (estimateFills ct) tick e t d price order'

theorem onNewTick_of_not_matched (h : ¬ Matched (e.ticks tick.tickerId) tick) :
    onNewTick ct tick e =
      ([], { e with ticks := Function.update e.ticks tick.tickerId tick }) :=
  onNewTickBy_of_not_matched (estimateFills ct) tick e h

theorem mem_onNewTick (ev : Event) : ev ∈ (onNewTick ct tick e).1 ↔
    ∃ d price order, e.RestsAt tick.tickerId d price order ∧
      (tickRule ct tick e tick.tickerId d).fills price order.queuePosition = true ∧
      ev = order.trade tick.exchangeTimestampUs := by
  unfold onNewTick tickRule
  by_cases hm : Matched (e.ticks tick.tickerId) tick
  · obtain ⟨bidEvents, askEvents, b, -, hev, hbids, hasks, -⟩ :=
      onNewTickBy_of_matched (estimateFills ct) tick e hm
    rw [hev, hbids.filled, hasks.filled]
    constructor
    · rintro (⟨price, order, ho, h⟩ | ⟨price, order, ho, h⟩)
      · exact ⟨.kBuy, price, order, ho, h⟩
      · exact ⟨.kSell, price, order, ho, h⟩
    · rintro ⟨d, price, order, ho, h⟩
      by_cases hd : d = .kBuy
      · subst hd
        exact Or.inl ⟨price, order, ho, h⟩
      · simp only [RestsAt, tickRuleBy, hd, if_false] at ho h
        refine Or.inr ⟨price, order, ho, ?_⟩
        simpa only [tickRuleBy, reduceCtorEq, if_false] using h
  · rw [onNewTickBy_of_not_matched (estimateFills ct) tick e hm]
    simp [tickRuleBy, hm, FillRule.none]

end Tick

structure Indexed (e : AdvancedMatchEngine) : Prop where
  bids_noEmpty : ∀ t, (e.book t).bidLevels.NoEmpty
  asks_noEmpty : ∀ t, (e.book t).askLevels.NoEmpty
  filed : ∀ t d price order, e.RestsAt t d price order →
    (order.origOrder.direction = .kBuy ↔ d = .kBuy) ∧ order.origOrder.contract.tickerId = t ∧
      e.idPriceMap.find? order.origOrder.orderId = some price
  indexed : ∀ id price, e.idPriceMap.find? id = some price → id ∈ orderIds e.resting
  nodup : (orderIds e.resting).Nodup

theorem Indexed.contains_iff {e : AdvancedMatchEngine} (h : e.Indexed) (id : ℕ) :
    e.idPriceMap.contains id = true ↔ id ∈ orderIds e.resting := by
  rw [SortedMap.contains, Option.isSome_iff_exists]
  constructor
  · rintro ⟨price, hp⟩
    exact h.indexed id price hp
  · intro hid
    obtain ⟨k, hk, rfl⟩ := Multiset.mem_map.mp hid
    obtain ⟨t, d, price, order, ho, rfl⟩ := e.mem_resting_iff.mp hk
    exact ⟨price, (h.filed t d price order ho).2.2⟩

theorem Indexed.place {e : AdvancedMatchEngine} (h : e.Indexed) {t t' : ℕ} {d d' : Direction}
    {price price' : ℕ} {x y : InnerOrder} (hx : e.RestsAt t d price x)
    (hy : e.RestsAt t' d' price' y) (hid : x.origOrder.orderId = y.origOrder.orderId) :
    t = t' ∧ (d = .kBuy ↔ d' = .kBuy) ∧ price = price' := by
  obtain ⟨hd, ht, hp⟩ := h.filed t d price x hx
  obtain ⟨hd', ht', hp'⟩ := h.filed t' d' price' y hy
  have hsame : x.origOrder = y.origOrder := by
    refine Multiset.inj_on_of_nodup_map h.nodup _ ?_ _ ?_ hid
    · exact e.mem_resting_iff.mpr ⟨t, d, price, x, hx, rfl⟩
    · exact e.mem_resting_iff.mpr ⟨t', d', price', y, hy, rfl⟩
  rw [hid, hp', Option.some.injEq] at hp
  rw [hsame] at hd ht
  exact ⟨ht.symm.trans ht', hd.symm.trans hd', hp.symm⟩

theorem Indexed.unique {e : AdvancedMatchEngine} (h : e.Indexed) {t t' : ℕ} {d d' : Direction}
    {price price' : ℕ} {x y : InnerOrder} (hx : e.RestsAt t d price x)
    (hy : e.RestsAt t' d' price' y) (hid : x.origOrder.orderId = y.origOrder.orderId) : x = y := by
  obtain ⟨rfl, hside, rfl⟩ := h.place hx hy hid
  obtain ⟨others, he, -⟩ := e.resting_split t
  have hnodup := h.nodup
  rw [he, orderIds, Multiset.map_add, Multiset.map_add, Multiset.nodup_add, Multiset.nodup_add]
    at hnodup
  unfold RestsAt at hx hy
  by_cases hb : d = .kBuy
  · rw [if_pos hb] at hx
    rw [if_pos (hside.mp hb)] at hy
    exact Levels.eq_of_at hnodup.1.1 hx hy hid
  · rw [if_neg hb] at hx
    rw [if_neg (mt hside.mpr hb)] at hy
    exact Levels.eq_of_at hnodup.1.2.1 hx hy hid

def reportedIds (events : List Event) : List ℕ :=
  events.filterMap fun ev => ev.order?.map (·.orderId)

theorem mem_reportedIds {events : List Event} {id : ℕ} :
    id ∈ reportedIds events ↔ ∃ ev ∈ events, ∃ k, ev.order? = some k ∧ k.orderId = id := by
  simp [reportedIds]

theorem find?_forget (events : List Event) (m : SortedMap ℕ ℕ (· < ·)) (id : ℕ) :
    (forget events m).find? id = if id ∈ reportedIds events then none else m.find? id := by
  induction events generalizing m with
  | nil => rfl
  | cons ev events ih =>
    have hcons : forget (ev :: events) m =
        forget events ((ev.order?.map (·.orderId)).elim m m.erase) := rfl
    rw [hcons, ih]
    cases hk : ev.order? with
    | none => simp [reportedIds, hk]
    | some k =>
      have hids : reportedIds (ev :: events) = k.orderId :: reportedIds events := by
        simp [reportedIds, hk]
      simp only [hids, Option.map_some, Option.elim_some, SortedMap.find?_erase, List.mem_cons]
      split_ifs <;> tauto

theorem Indexed.closes {e e' : AdvancedMatchEngine} {events : List Event} (h : e.Indexed)
    (hc : Closes e.resting events e'.resting)
    (hfind : ∀ id, e'.idPriceMap.find? id =
      if id ∈ reportedIds events then none else e.idPriceMap.find? id)
    (hrests : ∀ t d price order', e'.RestsAt t d price order' →
      ∃ order, e.RestsAt t d price order ∧ order'.origOrder = order.origOrder)
    (hbids : ∀ t, (e'.book t).bidLevels.NoEmpty) (hasks : ∀ t, (e'.book t).askLevels.NoEmpty) :
    e'.Indexed := by
  have hmem : ∀ k ∈ e'.resting, k.orderId ∉ reportedIds events := by
    intro k hk hid
    obtain ⟨ev, hev, k', hk', heq⟩ := mem_reportedIds.mp hid
    have hnot := hc.notMem h.nodup hev hk'
    rw [heq] at hnot
    exact hnot (Multiset.mem_map_of_mem _ hk)
  refine ⟨hbids, hasks, fun t d price order' ho' => ?_, fun id price hp => ?_,
    Multiset.nodup_of_le (Multiset.map_le_map hc.le) h.nodup⟩
  · obtain ⟨order, ho, heq⟩ := hrests t d price order' ho'
    have hk := hmem _ (e'.mem_resting_iff.mpr ⟨t, d, price, order', ho', rfl⟩)
    obtain ⟨hd, ht, hp⟩ := h.filed t d price order ho
    rw [hfind, if_neg hk, heq]
    exact ⟨hd, ht, hp⟩
  · rw [hfind] at hp
    split_ifs at hp with hid
    obtain ⟨k, hk, rfl⟩ := Multiset.mem_map.mp (h.indexed id price hp)
    rcases hc.reported hk with hk' | ⟨ev, hev, hk'⟩
    · exact Multiset.mem_map_of_mem _ hk'
    · exact absurd (mem_reportedIds.mpr ⟨ev, hev, k, hk', rfl⟩) hid

theorem onNewTickBy_spec (estimate : TickData → TickData → ℤ × ℤ) (tick : TickData)
    {e : AdvancedMatchEngine} (h : e.Indexed) : (onNewTickBy estimate tick e).2.Indexed ∧
      Closes e.resting (onNewTickBy estimate tick e).1 (onNewTickBy estimate tick e).2.resting := by
  have hrests : ∀ t d price order', (onNewTickBy estimate tick e).2.RestsAt t d price order' →
      ∃ order, e.RestsAt t d price order ∧ order'.origOrder = order.origOrder := by
    intro t d price order' ho'
    obtain ⟨order, ho, -, rfl⟩ := (restsAt_onNewTickBy _ tick e t d price order').mp ho'
    exact ⟨order, ho, rfl⟩
  by_cases hm : Matched (e.ticks tick.tickerId) tick
  · obtain ⟨bidEvents, askEvents, b, hnew, -, hbids, hasks, hcl⟩ :=
      onNewTickBy_of_matched estimate tick e hm
    obtain ⟨others, he, hset⟩ := e.resting_split tick.tickerId
    have hresting : (onNewTickBy estimate tick e).2.resting =
        b.bidLevels.resting + b.askLevels.resting + others := by
      rw [hnew]
      exact hset b
    have hbook : ∀ t, (onNewTickBy estimate tick e).2.book t =
        if t = tick.tickerId then b else e.book t := by
      intro t
      rw [hnew]
      exact book_setBook e tick.tickerId t b
    have hc : Closes e.resting (onNewTickBy estimate tick e).1
        (onNewTickBy estimate tick e).2.resting := by
      rw [he, hresting]
      exact hcl.frame others
    refine ⟨h.closes hc (fun id => ?_) hrests (fun t => ?_) (fun t => ?_), hc⟩
    · have hfind := find?_forget (onNewTickBy estimate tick e).1 e.idPriceMap id
      rw [hnew]
      exact hfind
    · rw [hbook]
      split_ifs with ht
      · exact hbids.noEmpty (h.bids_noEmpty _)
      · exact h.bids_noEmpty t
    · rw [hbook]
      split_ifs with ht
      · exact hasks.noEmpty (h.asks_noEmpty _)
      · exact h.asks_noEmpty t
  · rw [onNewTickBy_of_not_matched estimate tick e hm]
    exact ⟨⟨h.bids_noEmpty, h.asks_noEmpty, h.filed, h.indexed, h.nodup⟩, .nil _⟩

theorem onNewTick_spec (ct : ContractTable) (tick : TickData) {e : AdvancedMatchEngine}
    (h : e.Indexed) : (onNewTick ct tick e).2.Indexed ∧
      Closes e.resting (onNewTick ct tick e).1 (onNewTick ct tick e).2.resting :=
  onNewTickBy_spec (estimateFills ct) tick h

/-- The search returns only at once, at the front of the queue or at an empty one. -/
theorem search_eq_some {orderId fuel : ℕ} {queue : List InnerOrder}
    {found : Option (InnerOrder × List InnerOrder)} (h : search orderId fuel queue = some found) :
    (queue = [] ∧ found = none) ∨
      ∃ order rest, queue = order :: rest ∧ order.origOrder.orderId = orderId ∧
        found = some (order, rest) := by
  induction fuel with
  | zero => cases h
  | succ fuel ih =>
    cases queue with
    | nil =>
      cases h
      exact Or.inl ⟨rfl, rfl⟩
    | cons order rest =>
      simp only [search] at h
      split_ifs at h with hid
      · cases h
        exact Or.inr ⟨order, rest, rfl, hid, rfl⟩
      · exact ih h

theorem cancelIn_eq_some {fuel orderId : ℕ} {queue : List InnerOrder}
    {setQueue : List InnerOrder → AdvancedMatchEngine} {result : CancelResult}
    (h : cancelIn fuel orderId queue setQueue = some result) :
    (queue = [] ∧ result = .aborted) ∨
      ∃ order rest, queue = order :: rest ∧ order.origOrder.orderId = orderId ∧ result =
        .returned true [.canceled order.origOrder order.origOrder.volume] (setQueue rest) := by
  obtain ⟨found, hs, rfl⟩ := Option.map_eq_some_iff.mp h
  rcases search_eq_some hs with ⟨hq, rfl⟩ | ⟨order, rest, hq, hid, rfl⟩
  · exact Or.inl ⟨hq, rfl⟩
  · exact Or.inr ⟨order, rest, hq, hid, rfl⟩

structure Dropped (order : OrderRequest) (e e' : AdvancedMatchEngine) : Prop where
  resting : e.resting = order ::ₘ e'.resting
  restsAt : ∀ t d price o, e'.RestsAt t d price o → e.RestsAt t d price o
  bids_noEmpty : (∀ t, (e.book t).bidLevels.NoEmpty) → ∀ t, (e'.book t).bidLevels.NoEmpty
  asks_noEmpty : (∀ t, (e.book t).askLevels.NoEmpty) → ∀ t, (e'.book t).askLevels.NoEmpty

section Cancel

variable {e : AdvancedMatchEngine} {t price : ℕ} {order : InnerOrder} {rest : List InnerOrder}

theorem dropped_bid (h : (e.book t).bidLevels.find? price = some (order :: rest)) :
    Dropped order.origOrder e (e.setBook t
      { e.book t with bidLevels := (e.book t).bidLevels.setQueue price rest }) := by
  obtain ⟨others, he, hset⟩ := e.resting_split t
  refine ⟨?_, fun t' d price' o ho => ?_, fun hb t' => ?_, fun ha t' => ?_⟩
  · rw [he, hset, Levels.resting_setQueue_tail h, Multiset.cons_add, Multiset.cons_add]
  · unfold RestsAt at ho ⊢
    rw [book_setBook] at ho
    split_ifs at ho ⊢ with hd ht ht
    · exact ht ▸ Levels.at_setQueue_tail h ho
    · exact ho
    · exact ht ▸ ho
    · exact ho
  · rw [book_setBook]
    split_ifs
    · exact (hb t).setQueue price rest
    · exact hb t'
  · rw [book_setBook]
    split_ifs
    · exact ha t
    · exact ha t'

theorem dropped_ask (h : (e.book t).askLevels.find? price = some (order :: rest)) :
    Dropped order.origOrder e (e.setBook t
      { e.book t with askLevels := (e.book t).askLevels.setQueue price rest }) := by
  obtain ⟨others, he, hset⟩ := e.resting_split t
  refine ⟨?_, fun t' d price' o ho => ?_, fun hb t' => ?_, fun ha t' => ?_⟩
  · rw [he, hset, Levels.resting_setQueue_tail h, Multiset.add_cons, Multiset.cons_add]
  · unfold RestsAt at ho ⊢
    rw [book_setBook] at ho
    split_ifs at ho ⊢ with hd ht ht
    · exact ht ▸ ho
    · exact ho
    · exact ht ▸ Levels.at_setQueue_tail h ho
    · exact ho
  · rw [book_setBook]
    split_ifs
    · exact hb t
    · exact hb t'
  · rw [book_setBook]
    split_ifs
    · exact (ha t).setQueue price rest
    · exact ha t'

theorem cancelOrder_eq_some {fuel orderId tickerId : ℕ} {result : CancelResult} (hx : e.Indexed)
    (h : cancelOrder fuel orderId tickerId e = some result) :
    (e.idPriceMap.find? orderId = none ∧ result = .returned false [] e) ∨
      ∃ price, e.idPriceMap.find? orderId = some price ∧
        ((result = .aborted ∧ ∀ d order, ¬ e.RestsAt tickerId d price order) ∨
          ∃ order e', order.orderId = orderId ∧
            result = .returned true [.canceled order order.volume]
              { e' with idPriceMap := e.idPriceMap.erase orderId } ∧ Dropped order e e') := by
  unfold cancelOrder at h
  cases hf : e.idPriceMap.find? orderId with
  | none =>
    simp only [hf, Option.some.injEq] at h
    exact Or.inl ⟨rfl, h.symm⟩
  | some price =>
    refine Or.inr ⟨price, rfl, ?_⟩
    have hbook : book { e with idPriceMap := e.idPriceMap.erase orderId } tickerId =
        e.book tickerId := rfl
    simp only [hf, hbook] at h
    cases hbid : (e.book tickerId).bidLevels.find? price with
    | none =>
      simp only [hbid] at h
      cases hask : (e.book tickerId).askLevels.find? price with
      | none =>
        simp only [hask, Option.some.injEq] at h
        refine Or.inl ⟨h.symm, fun d order ho => ?_⟩
        unfold RestsAt at ho
        split_ifs at ho
        · obtain ⟨queue, hq, -⟩ := ho
          exact absurd (hbid.symm.trans hq) (by simp)
        · obtain ⟨queue, hq, -⟩ := ho
          exact absurd (hask.symm.trans hq) (by simp)
      | some queue =>
        simp only [hask] at h
        rcases cancelIn_eq_some h with ⟨rfl, -⟩ | ⟨order, rest, rfl, hid, rfl⟩
        · exact absurd rfl (hx.asks_noEmpty tickerId price [] hask)
        · exact Or.inr ⟨order.origOrder, _, hid, rfl, dropped_ask hask⟩
    | some queue =>
      simp only [hbid] at h
      rcases cancelIn_eq_some h with ⟨rfl, -⟩ | ⟨order, rest, rfl, hid, rfl⟩
      · exact absurd rfl (hx.bids_noEmpty tickerId price [] hbid)
      · exact Or.inr ⟨order.origOrder, _, hid, rfl, dropped_bid hbid⟩

theorem cancelOrder_spec {fuel orderId tickerId : ℕ} (hx : e.Indexed) {ok : Bool}
    {events : List Event} {e' : AdvancedMatchEngine}
    (h : cancelOrder fuel orderId tickerId e = some (.returned ok events e')) :
    e'.Indexed ∧ Closes e.resting events e'.resting ∧
      ∀ t d price o, e'.RestsAt t d price o → e.RestsAt t d price o := by
  rcases cancelOrder_eq_some hx h with ⟨-, heq⟩ | ⟨price, -, ⟨heq, -⟩ | ⟨order, e₁, hid, heq, hdrop⟩⟩
  · cases heq
    exact ⟨hx, .nil _, fun _ _ _ _ ho => ho⟩
  · cases heq
  · cases heq
    have hc : Closes e.resting [.canceled order order.volume] e₁.resting := by
      rw [hdrop.resting]
      exact .canceled order (.nil _)
    have hx' : Indexed { e₁ with idPriceMap := e.idPriceMap.erase orderId } := by
      refine hx.closes hc (fun id => ?_) (fun t d price o ho => ⟨o, hdrop.restsAt t d price o ho, rfl⟩)
        (hdrop.bids_noEmpty hx.bids_noEmpty) (hdrop.asks_noEmpty hx.asks_noEmpty)
      simp [SortedMap.find?_erase, reportedIds, Event.order?, hid]
    exact ⟨hx', hc, hdrop.restsAt⟩

end Cancel

section Insert

variable {e : AdvancedMatchEngine}

theorem restsAt_rest (inner : InnerOrder) (e : AdvancedMatchEngine) (t : ℕ) (d : Direction)
    (price : ℕ) (o : InnerOrder) : (rest inner e).RestsAt t d price o ↔
      (t = inner.origOrder.contract.tickerId ∧
        (inner.origOrder.direction = .kBuy ↔ d = .kBuy) ∧ price = u64Price inner.origOrder.price ∧
        o = inner) ∨ e.RestsAt t d price o := by
  have hbook : (rest inner e).book t = if t = inner.origOrder.contract.tickerId then _ else e.book t :=
    book_setBook e inner.origOrder.contract.tickerId t _
  unfold RestsAt
  rw [hbook]
  by_cases ht : t = inner.origOrder.contract.tickerId
  · subst ht
    by_cases hb : inner.origOrder.direction = .kBuy
    · by_cases hd : d = .kBuy <;> simp [hb, hd, Levels.at_push]
    · by_cases hd : d = .kBuy <;> simp [hb, hd, Levels.at_push]
  · simp [ht]

theorem rest_resting (inner : InnerOrder) (e : AdvancedMatchEngine) :
    (rest inner e).resting = inner.origOrder ::ₘ e.resting := by
  obtain ⟨others, he, hset⟩ := e.resting_split inner.origOrder.contract.tickerId
  have hrest : (rest inner e).resting = _ := hset _
  rw [hrest, he]
  split_ifs
  · rw [Levels.push_resting, Multiset.cons_add, Multiset.cons_add]
  · rw [Levels.push_resting, Multiset.add_cons, Multiset.cons_add]

theorem rest_spec (h : e.Indexed) (inner : InnerOrder)
    (hid : inner.origOrder.orderId ∉ orderIds e.resting) : (rest inner e).Indexed := by
  have hnone : e.idPriceMap.find? inner.origOrder.orderId = none := by
    cases hf : e.idPriceMap.find? inner.origOrder.orderId with
    | none => rfl
    | some price => exact absurd (h.indexed _ price hf) hid
  have hfind : ∀ id, (rest inner e).idPriceMap.find? id =
      if id = inner.origOrder.orderId then some (u64Price inner.origOrder.price)
      else e.idPriceMap.find? id := by
    intro id
    rw [← SortedMap.find?_insert, ← SortedMap.emplace_of_find?_none hnone]
    rfl
  have hbook : ∀ t, (rest inner e).book t =
      if t = inner.origOrder.contract.tickerId then _ else e.book t :=
    fun t => book_setBook e inner.origOrder.contract.tickerId t _
  refine ⟨fun t => ?_, fun t => ?_, fun t d price o ho => ?_, fun id price hp => ?_, ?_⟩
  · rw [hbook]
    split_ifs
    · rw [Levels.push_eq_setQueue]
      exact (h.bids_noEmpty _).setQueue _ _
    · exact h.bids_noEmpty _
    · exact h.bids_noEmpty t
  · rw [hbook]
    split_ifs
    · exact h.asks_noEmpty _
    · rw [Levels.push_eq_setQueue]
      exact (h.asks_noEmpty _).setQueue _ _
    · exact h.asks_noEmpty t
  · rw [hfind]
    rcases (restsAt_rest inner e t d price o).mp ho with ⟨ht, hd, hp, rfl⟩ | ho
    · exact ⟨hd, ht.symm, by rw [if_pos rfl, hp]⟩
    · obtain ⟨hd, ht, hp⟩ := h.filed t d price o ho
      have hne : o.origOrder.orderId ≠ inner.origOrder.orderId := fun heq => by
        rw [heq, hnone] at hp
        cases hp
      exact ⟨hd, ht, by rw [if_neg hne, hp]⟩
  · rw [rest_resting, orderIds, Multiset.map_cons, Multiset.mem_cons]
    rw [hfind] at hp
    split_ifs at hp with heq
    · exact Or.inl heq
    · exact Or.inr (h.indexed id price hp)
  · rw [rest_resting, orderIds, Multiset.map_cons, Multiset.nodup_cons]
    exact ⟨hid, h.nodup⟩

theorem insertOrder_spec (h : e.Indexed) (order : OrderRequest)
    (hid : order.orderId ∉ orderIds e.resting) :
    (insertOrder order e).2.2.Indexed ∧
      Inserted order
        (order.kept (SimpleMatchEngine.ownPrice (e.ticks order.contract.tickerId) order)) e.resting
        (insertOrder order e).1 (insertOrder order e).2.1 (insertOrder order e).2.2.resting ∧
      ((insertOrder order e).2.2 = e ∨ ∃ inner : InnerOrder,
        inner.origOrder.orderId = order.orderId ∧ (insertOrder order e).2.2 = rest inner e) := by
  cases ht : order.type with
  | kLimit =>
    have hkept : order.kept (SimpleMatchEngine.ownPrice (e.ticks order.contract.tickerId) order) =
        order := if_neg (by simp [ht])
    simp only [insertOrder, ht, hkept]
    split_ifs
    · exact ⟨h, .traded _ _, Or.inl rfl⟩
    · refine ⟨rest_spec h _ hid, ?_, Or.inr ⟨_, rfl, rfl⟩⟩
      rw [rest_resting]
      exact .rested
  | kBest =>
    have hkept : order.kept (SimpleMatchEngine.ownPrice (e.ticks order.contract.tickerId) order) =
        (queueBest (e.ticks order.contract.tickerId) order).origOrder := if_pos ht
    simp only [insertOrder, ht, hkept]
    split_ifs
    · exact ⟨h, .rejected, Or.inl rfl⟩
    · refine ⟨rest_spec h _ hid, ?_, Or.inr ⟨_, rfl, rfl⟩⟩
      rw [rest_resting]
      exact .rested
  | kMarket =>
    simp only [insertOrder, ht]
    generalize (if order.direction = .kBuy then _ else _ : ℤ) = volume
    split_ifs
    · exact ⟨h, .canceled, Or.inl rfl⟩
    · exact ⟨h, .traded _ _, Or.inl rfl⟩
  | kFak =>
    simp only [insertOrder, ht]
    split_ifs
    · exact ⟨h, .traded _ _, Or.inl rfl⟩
    · exact ⟨h, .canceled, Or.inl rfl⟩
  | kFok =>
    simp only [insertOrder, ht]
    split_ifs
    · exact ⟨h, .traded _ _, Or.inl rfl⟩
    · exact ⟨h, .canceled, Or.inl rfl⟩
  | kUnknown | kHkexMoAtCrossing | kHkexLoAtCrossing | kHkexLo | kHkexElo | kHkexSlo =>
    simp only [insertOrder, ht]
    exact ⟨h, .unsupported, Or.inl trivial⟩

end Insert

theorem engine_cancelOrder {ct : ContractTable} {fuel orderId tickerId : ℕ}
    {e : AdvancedMatchEngine} {x : Bool × List Event × AdvancedMatchEngine} :
    (engine ct fuel).cancelOrder orderId tickerId e = some x ↔
      cancelOrder fuel orderId tickerId e = some (.returned x.1 x.2.1 x.2.2) := by
  simp only [engine, Option.bind_eq_some_iff]
  constructor
  · rintro ⟨result, hr, hx⟩
    cases result with
    | returned ok events e' =>
      cases hx
      exact hr
    | aborted => cases hx
  · intro h
    exact ⟨_, h, rfl⟩

def quoted (tick : TickData) (order : OrderRequest) : Bool :=
  !((order.direction = .kBuy ∧ tick.bestBidVolume = 0) ∨
    (order.direction = .kSell ∧ tick.bestAskVolume = 0))

def lawful (ct : ContractTable) (fuel : ℕ) : (engine ct fuel).Lawful where
  inv := Indexed
  resting := resting
  touch := fun order e => SimpleMatchEngine.ownPrice (e.ticks order.contract.tickerId) order
  quoted := fun order e => quoted (e.ticks order.contract.tickerId) order
  best_spec := fun order e ht => by
    simp only [engine, insertOrder, ht, quoted]
    split
    case isTrue h => simp [h]
    case isFalse h => simp [h]
  insert_spec := fun order _ h hid =>
    ⟨(insertOrder_spec h order hid).1, (insertOrder_spec h order hid).2.1⟩
  cancel_spec := fun _ _ _ _ h hr =>
    ⟨(cancelOrder_spec h (engine_cancelOrder.mp hr)).1,
      (cancelOrder_spec h (engine_cancelOrder.mp hr)).2.1⟩
  tick_spec := fun tick _ h => onNewTick_spec ct tick h

theorem indexed_empty : Indexed {} where
  bids_noEmpty := fun _ _ _ hq => nomatch hq
  asks_noEmpty := fun _ _ _ hq => nomatch hq
  filed := fun t d price order ho => by
    unfold RestsAt at ho
    split_ifs at ho <;> exact absurd ho (fun ⟨_, hq, _⟩ => nomatch hq)
  indexed := fun _ _ hp => nomatch hp
  nodup := Multiset.nodup_zero

/-- Fresh orders, and cancels with the ticker of the order. -/
def Allowed (r : EngineRun AdvancedMatchEngine) (a : EngineAction) : Prop :=
  r.Fresh a ∧ ∀ orderId tickerId, a = .cancel orderId tickerId →
    ∀ o ∈ r.inserted, o.orderId = orderId → o.contract.tickerId = tickerId

theorem cancelOrder_ne_aborted {ct : ContractTable} {fuel : ℕ} {r : EngineRun AdvancedMatchEngine}
    (h : EngineRun.Kept (lawful ct fuel) r) {orderId tickerId : ℕ}
    (ht : ∀ o ∈ r.inserted, o.orderId = orderId → o.contract.tickerId = tickerId) (fuel' : ℕ) :
    cancelOrder fuel' orderId tickerId r.engine ≠ some .aborted := by
  intro ha
  have hx : r.engine.Indexed := h.inv
  rcases cancelOrder_eq_some hx ha with ⟨-, heq⟩ | ⟨price, hp, ⟨-, hnone⟩ | ⟨_, _, _, heq, _⟩⟩
  · cases heq
  · obtain ⟨k, hk, hid⟩ := Multiset.mem_map.mp (hx.indexed orderId price hp)
    obtain ⟨t, d, price', order, ho, rfl⟩ := r.engine.mem_resting_iff.mp hk
    obtain ⟨-, htick, hp'⟩ := hx.filed t d price' order ho
    obtain ⟨o, hins, touch, hkept⟩ := h.lifecycle.resting_kept _ hk
    have hprice : price' = price := by
      rw [hid, hp] at hp'
      exact (Option.some.inj hp').symm
    have hticker : t = tickerId := by
      rw [← htick, hkept, OrderRequest.kept_contract]
      exact ht o hins (by rw [← hid, hkept, OrderRequest.kept_orderId])
    subst hprice hticker
    exact hnone d order ho
  · cases heq

theorem index_matches_books (ct : ContractTable) (fuel : ℕ) (r : EngineRun AdvancedMatchEngine)
    (h : Execution.Reaches (EngineRun.step (engine ct fuel)) Allowed { engine := {} } r) :
    (∀ id, r.engine.idPriceMap.contains id = true ↔ id ∈ orderIds r.engine.resting) ∧
      (orderIds r.engine.resting).Nodup ∧
      (∀ t d price order, r.engine.RestsAt t d price order →
        r.engine.idPriceMap.find? order.origOrder.orderId = some price) ∧
      (∀ t, (r.engine.book t).bidLevels.NoEmpty ∧ (r.engine.book t).askLevels.NoEmpty) ∧
      (∀ o ∈ r.inserted, (r.log.filter (Event.IsFinalFor o.orderId)).length ≤ 1 ∧
        (∀ e ∈ r.log, ∀ k volume, e.final? = some (k, volume) → k.orderId = o.orderId →
          volume = o.volume) ∧
        (o.orderId ∈ orderIds r.engine.resting ↔
          .accepted o ∈ r.log ∧ r.log.filter (Event.IsFinalFor o.orderId) = [])) ∧
      ∀ fuel' orderId tickerId,
        (∀ o ∈ r.inserted, o.orderId = orderId → o.contract.tickerId = tickerId) →
        cancelOrder fuel' orderId tickerId r.engine ≠ some .aborted := by
  have hk : EngineRun.Kept (lawful ct fuel) r :=
    EngineRun.kept_of_reaches (lawful ct fuel) indexed_empty rfl (fun _ _ ha => ha.1) h
  have hx : r.engine.Indexed := hk.inv
  exact ⟨hx.contains_iff, hx.nodup, fun t d price order ho => (hx.filed t d price order ho).2.2,
    fun t => ⟨hx.bids_noEmpty t, hx.asks_noEmpty t⟩,
    fun o ho => ⟨hk.lifecycle.final_once o ho, hk.lifecycle.final_full o ho,
      hk.lifecycle.resting_iff o ho⟩,
    fun fuel' orderId tickerId ht => cancelOrder_ne_aborted hk ht fuel'⟩

def restingBuy : OrderRequest where
  contract := { tickerId := 1 }
  orderId := 7
  type := .kLimit
  direction := .kBuy
  offset := .kOpen
  volume := 2
  price := 99

def laterBuy : OrderRequest := { restingBuy with orderId := 8 }

def deepBuy : OrderRequest := { restingBuy with orderId := 9, price := 98 }

def oneContract : ContractTable := .ofList [{ size := 1 }]

def touchTick (volume turnover : UInt64) (bidVolume : ℤ) : TickData where
  tickerId := 1
  volume := volume
  turnover := turnover
  bid := fun level => if level.val = 0 then 99 else 0
  ask := fun level => if level.val = 0 then 101 else 0
  bidVolume := fun level => if level.val = 0 then bidVolume else 0
  askVolume := fun level => if level.val = 0 then 100 else 0

theorem index_matches_books_restingBuy :
    ∃ r, Execution.Reaches (EngineRun.step (engine oneContract 1)) Allowed { engine := {} } r ∧
      r.inserted = [restingBuy, laterBuy, deepBuy] ∧
      r.log = [.accepted restingBuy, .accepted laterBuy, .accepted deepBuy,
        .canceled restingBuy 2, .traded laterBuy 2 99 0] ∧
      r.engine.idPriceMap.contains 9 = true ∧ r.engine.idPriceMap.contains 8 = false ∧
      (∀ id, r.engine.idPriceMap.contains id = true ↔ id ∈ orderIds r.engine.resting) ∧
      (∀ t, (r.engine.book t).bidLevels.NoEmpty ∧ (r.engine.book t).askLevels.NoEmpty) ∧
      (8 ∈ orderIds r.engine.resting ↔
        .accepted laterBuy ∈ r.log ∧ r.log.filter (Event.IsFinalFor 8) = []) := by
  have hstart : Execution.Reaches (EngineRun.step (engine oneContract 1)) Allowed
      { engine := {} } { engine := {} } := .refl _
  have htick := hstart.tail (.tick (touchTick 0 0 100)) ⟨trivial, by simp⟩ rfl
  have hfirst := htick.tail (.insert restingBuy) ⟨by simp [EngineRun.Fresh], by simp⟩ rfl
  have hlater := hfirst.tail (.insert laterBuy)
    ⟨by simp [EngineRun.Fresh, laterBuy, restingBuy], by simp⟩ rfl
  have hdeep := hlater.tail (.insert deepBuy)
    ⟨by simp [EngineRun.Fresh, deepBuy, laterBuy, restingBuy], by simp⟩ rfl
  have hcancel := hdeep.tail (.cancel 7 1)
    ⟨trivial, by simp [deepBuy, laterBuy, restingBuy]⟩ (Option.some_get (by decide +kernel)).symm
  have hfill := hcancel.tail (.tick (touchTick 200 19800 100)) ⟨trivial, by simp⟩ rfl
  have hindex := index_matches_books oneContract 1 _ hfill
  exact ⟨_, hfill, by decide +kernel, by decide +kernel, by decide +kernel, by decide +kernel,
    hindex.1, hindex.2.2.2.1, (hindex.2.2.2.2.1 laterBuy (by decide +kernel)).2.2⟩

end AdvancedMatchEngine

end FlareTrader
