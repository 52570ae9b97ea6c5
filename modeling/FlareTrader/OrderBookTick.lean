import FlareTrader.OrderBook
import FlareTrader.TradeMsg

/-! The tick that an order book is shown in. The levels of each side are written to the
entries of the tick from the best one on, up to their number; which entries are not
written decides what the tick shows. -/

namespace FlareTrader.Orderbook

namespace OrderBook

def fillLoop : List PriceLevel → Fin kMaxMarketLevel →
    (Fin kMaxMarketLevel → ℚ) × (Fin kMaxMarketLevel → ℤ) →
    (Fin kMaxMarketLevel → ℚ) × (Fin kMaxMarketLevel → ℤ)
  | [], _, entries => entries
  | level :: rest, i, entries =>
    let entries := (Function.update entries.1 i level.price,
      Function.update entries.2 i level.totalVolume)
    if h : i.val + 1 = kMaxMarketLevel then entries
    else fillLoop rest ⟨i.val + 1, Nat.lt_of_le_of_ne i.isLt h⟩ entries

def toTick (tick : TickData) (book : OrderBook) : TickData :=
  let bids := fillLoop book.buyLevels.values firstLevel (tick.bid, tick.bidVolume)
  let asks := fillLoop book.sellLevels.values firstLevel (tick.ask, tick.askVolume)
  { tick with
    tickerId := book.tid
    bid := bids.1
    bidVolume := bids.2
    ask := asks.1
    askVolume := asks.2 }

def ShowsTop (better : ℚ → ℚ → Prop) (levels : List PriceLevel) (price : Fin kMaxMarketLevel → ℚ)
    (volume : Fin kMaxMarketLevel → ℤ) : Prop :=
  ∃ top rest, levels.Perm (top ++ rest) ∧ top.length = min kMaxMarketLevel levels.length ∧
    (top.map PriceLevel.price).Pairwise better ∧
    (∀ shown ∈ top, ∀ level ∈ rest, better shown.price level.price) ∧
    ∀ i : Fin kMaxMarketLevel, price i = (top[i.val]?).elim 0 PriceLevel.price ∧
      volume i = (top[i.val]?).elim 0 PriceLevel.totalVolume

def Shows (tick : TickData) (book : OrderBook) : Prop :=
  ShowsTop (· > ·) book.buyLevels.values tick.bid tick.bidVolume ∧
    ShowsTop (· < ·) book.sellLevels.values tick.ask tick.askVolume

def ClearBehind (levels : List PriceLevel) (price : Fin kMaxMarketLevel → ℚ)
    (volume : Fin kMaxMarketLevel → ℤ) : Prop :=
  ∀ i : Fin kMaxMarketLevel, levels.length ≤ i.val → price i = 0 ∧ volume i = 0

def Keyed (book : OrderBook) : Prop :=
  ∀ p isBuy level, book.fndLevel p isBuy = some level → level.decimalPrice = p

section Fill

variable (levels : List PriceLevel) (i j : Fin kMaxMarketLevel)
  (entries : (Fin kMaxMarketLevel → ℚ) × (Fin kMaxMarketLevel → ℤ))

theorem fillLoop_entry :
    ((fillLoop levels i entries).1 j, (fillLoop levels i entries).2 j) =
      if j.val < i.val then (entries.1 j, entries.2 j)
      else (levels[j.val - i.val]?).elim (entries.1 j, entries.2 j) fun level =>
        (level.price, level.totalVolume) := by
  induction levels generalizing i entries with
  | nil => simp [fillLoop]
  | cons level rest ih =>
    have hother : j ≠ i → (Function.update entries.1 i level.price j,
        Function.update entries.2 i level.totalVolume j) = (entries.1 j, entries.2 j) := by
      intro hne
      rw [Function.update_of_ne hne, Function.update_of_ne hne]
    simp only [fillLoop]
    split_ifs with hlast hbefore hbefore
    · exact hother (Fin.ne_of_lt hbefore)
    · have heq : j = i := Fin.ext (by have hlt := j.isLt; omega)
      subst heq
      simp
    · rw [ih, if_pos (Nat.lt_succ_of_lt hbefore)]
      exact hother (Fin.ne_of_lt hbefore)
    · rw [ih]
      by_cases heq : j = i
      · subst heq
        simp
      · have hlt : i.val < j.val := lt_of_le_of_ne (not_lt.mp hbefore) fun h => heq (Fin.ext h.symm)
        have hsub : j.val - i.val = j.val - (i.val + 1) + 1 := by omega
        rw [if_neg (not_lt.mpr hlt), hsub, List.getElem?_cons_succ]
        exact congrArg (fun written => Option.elim _ written _) (hother heq)

theorem fillLoop_firstLevel :
    ((fillLoop levels firstLevel entries).1 j, (fillLoop levels firstLevel entries).2 j) =
      (levels[j.val]?).elim (entries.1 j, entries.2 j) fun level =>
        (level.price, level.totalVolume) := by
  have hfirst : ¬j.val < (firstLevel : Fin kMaxMarketLevel).val := Nat.not_lt_zero _
  rw [fillLoop_entry, if_neg hfirst]
  rfl

end Fill

section Top

variable {better : ℚ → ℚ → Prop} {levels : List PriceLevel}
  {entries : (Fin kMaxMarketLevel → ℚ) × (Fin kMaxMarketLevel → ℤ)}

theorem showsTop_iff (hsorted : (levels.map PriceLevel.price).Pairwise better) :
    ShowsTop better levels (fillLoop levels firstLevel entries).1
        (fillLoop levels firstLevel entries).2 ↔ ClearBehind levels entries.1 entries.2 := by
  have hentry : ∀ j : Fin kMaxMarketLevel, _ := fun j => fillLoop_firstLevel levels j entries
  constructor
  · intro h i hi
    obtain ⟨top, rest, -, hlength, -, -, hshown⟩ := h
    obtain ⟨hprice, hvolume⟩ := hshown i
    have hnone : top[i.val]? = none := List.getElem?_eq_none (by omega)
    have hkept := hentry i
    rw [List.getElem?_eq_none hi, Option.elim_none, Prod.mk.injEq] at hkept
    rw [hnone, Option.elim_none] at hprice hvolume
    rw [← hkept.1, ← hkept.2]
    exact ⟨hprice, hvolume⟩
  · intro hclear
    refine ⟨levels.take kMaxMarketLevel, levels.drop kMaxMarketLevel, ?_, List.length_take, ?_,
      fun shown hshown level hlevel => ?_, fun i => ?_⟩
    · rw [List.take_append_drop]
    · rw [List.map_take]
      exact hsorted.sublist (List.take_sublist _ _)
    · rw [← List.take_append_drop kMaxMarketLevel levels, List.map_append,
        List.pairwise_append] at hsorted
      exact hsorted.2.2 _ (List.mem_map_of_mem hshown) _ (List.mem_map_of_mem hlevel)
    · have hwritten := hentry i
      rw [List.getElem?_take_of_lt i.isLt]
      cases hl : levels[i.val]? with
      | none =>
        obtain ⟨hprice, hvolume⟩ := hclear i (List.getElem?_eq_none_iff.mp hl)
        rw [hl, Option.elim_none, hprice, hvolume, Prod.mk.injEq] at hwritten
        exact hwritten
      | some level =>
        rw [hl, Option.elim_some, Prod.mk.injEq] at hwritten
        exact hwritten

end Top

section Keyed

variable {book : OrderBook} {order : LimitOrder} {level : PriceLevel}

theorem monotone_priceDoubleToDecimal : Monotone priceDoubleToDecimal := by
  intro p p' h
  refine Nat.div_le_div_right (Nat.add_le_add_right (Int.toNat_le_toNat (Int.floor_mono ?_)) _)
  exact mul_le_mul_of_nonneg_right h (by norm_num)

theorem Keyed.enterLevel (h : book.Keyed) (node : ℕ) (order : LimitOrder) :
    (book.enterLevel node order).Keyed := by
  intro p isBuy level hl
  rw [fndLevel_enterLevel] at hl
  split_ifs at hl with hplace
  · rw [← Option.some.inj hl, hplace.1]
    cases hfound : book.fndLevel order.decimalPrice order.isBuy with
    | none => rfl
    | some found => exact h _ _ found hfound
  · exact h p isBuy level hl

theorem Keyed.withdraw (h : book.Keyed) (p : ℕ) (isBuy : Bool) (rest : PriceLevel)
    (hrest : rest.decimalPrice = p) : (book.withdraw p isBuy rest).Keyed := by
  intro p' isBuy' level hl
  rw [fndLevel_withdraw] at hl
  split_ifs at hl with hplace
  · rw [← Option.some.inj hl, hrest, hplace.1]
  · exact h p' isBuy' level hl

theorem Keyed.putLevel (h : book.Keyed) (p : ℕ) (isBuy : Bool) (level : PriceLevel)
    (hlevel : level.decimalPrice = p) : (book.putLevel p isBuy level).Keyed := by
  intro p' isBuy' level' hl
  rw [fndLevel_putLevel] at hl
  split_ifs at hl with hplace
  · rw [← Option.some.inj hl, hlevel, hplace.1]
  · exact h p' isBuy' level' hl

theorem Keyed.step (h : book.Keyed) (op : Operation) {book' : OrderBook}
    (hstep : book.step op = some book') : book'.Keyed := by
  cases op with
  | addOrder node order =>
    rw [OrderBook.step, addOrder_eq] at hstep
    rw [← Option.some.inj hstep]
    exact h.enterLevel node _
  | modifyOrder node order =>
    obtain ⟨r, hr, rfl⟩ := Option.map_eq_some_iff.mp hstep
    cases hstored : book.orderMap.find? order.id with
    | none =>
      cases hl : book.fndLevel order.decimalPrice order.isBuy with
      | none => simp [OrderBook.modifyOrder, hstored, hl] at hr
      | some level =>
        rw [modifyOrder_unknown node hstored hl] at hr
        rw [← Option.some.inj hr]
        exact h.enterLevel node order
    | some stored =>
      cases hl : book.fndLevel stored.decimalPrice stored.isBuy with
      | none => simp [OrderBook.modifyOrder, hstored, hl] at hr
      | some level =>
        have hkey := h _ _ level hl
        by_cases hprice : stored.decimalPrice = order.decimalPrice
        · rw [modifyOrder_rewrite node hstored hl hprice] at hr
          rw [← Option.some.inj hr]
          exact h.putLevel _ _ (level.modifyOrder order) hkey
        · rw [modifyOrder_move node hstored hl hkey hprice] at hr
          rw [← Option.some.inj hr]
          exact (h.withdraw _ _ (level.removeOrder stored) hkey).enterLevel node order
  | removeOrder order =>
    cases hstored : book.orderMap.find? order.id with
    | none =>
      rw [OrderBook.step, OrderBook.removeOrder, hstored] at hstep
      rw [← Option.some.inj hstep]
      exact h
    | some stored =>
      cases hl : book.fndLevel order.decimalPrice order.isBuy with
      | none =>
        have hl' : ({ book with orderMap := book.orderMap.erase order.id } : OrderBook).fndLevel
            order.decimalPrice order.isBuy = none := hl
        simp [OrderBook.step, OrderBook.removeOrder, hstored, hl'] at hstep
      | some level =>
        rw [OrderBook.step, removeOrder_eq hstored hl] at hstep
        rw [← Option.some.inj hstep]
        have herased : ({ book with
          orderMap := book.orderMap.erase order.id } : OrderBook).Keyed := h
        exact herased.withdraw _ _ (level.removeOrder order) (h _ _ level hl)

theorem keyed_empty (tid : ℕ) : ({ tid } : OrderBook).Keyed := by
  intro p isBuy level hl
  cases isBuy <;> cases hl

/-- Prices are in the order of their decimals, which are the keys. -/
theorem sorted_prices {r : ℕ → ℕ → Prop} {better : ℚ → ℚ → Prop} (levels : SortedMap ℕ PriceLevel r)
    (hkey : ∀ entry ∈ levels.entries, entry.2.decimalPrice = entry.1)
    (hbetter : ∀ p p', r (priceDoubleToDecimal p) (priceDoubleToDecimal p') → better p p') :
    (levels.values.map PriceLevel.price).Pairwise better := by
  rw [SortedMap.values, List.map_map, List.pairwise_map]
  refine levels.sorted.imp_of_mem fun {a b} ha hb hr => hbetter a.2.price b.2.price ?_
  rw [← hkey a ha, ← hkey b hb] at hr
  exact hr

theorem Keyed.sorted_buyLevels (h : book.Keyed) :
    (book.buyLevels.values.map PriceLevel.price).Pairwise (· > ·) :=
  sorted_prices book.buyLevels
    (fun entry hentry => h entry.1 true entry.2 (SortedMap.find?_eq_some.mpr hentry))
    fun _ _ hlt => monotone_priceDoubleToDecimal.reflect_lt hlt

theorem Keyed.sorted_sellLevels (h : book.Keyed) :
    (book.sellLevels.values.map PriceLevel.price).Pairwise (· < ·) :=
  sorted_prices book.sellLevels
    (fun entry hentry => h entry.1 false entry.2 (SortedMap.find?_eq_some.mpr hentry))
    fun _ _ hlt => monotone_priceDoubleToDecimal.reflect_lt hlt

end Keyed

/-- Entries of an earlier snapshot stay where the book has fewer levels now. -/
theorem toTick_shows_iff (tid : ℕ) (book : OrderBook)
    (h : Execution.Reaches OrderBook.step (fun _ _ => True) { tid } book) (tick : TickData) :
    Shows (book.toTick tick) book ↔
      ClearBehind book.buyLevels.values tick.bid tick.bidVolume ∧
        ClearBehind book.sellLevels.values tick.ask tick.askVolume := by
  have hkeyed : book.Keyed :=
    h.invariant Keyed (fun _ op _ hb _ hstep => hb.step op hstep) (keyed_empty tid)
  exact and_congr (showsTop_iff hkeyed.sorted_buyLevels) (showsTop_iff hkeyed.sorted_sellLevels)

def quotedBook : OrderBook :=
  (({ tid := 1 } : OrderBook).addOrder 1 ⟨1, true, 10, 99, 0⟩).2.addOrder 2 ⟨2, false, 7, 101, 0⟩ |>.2

def deeperBook : OrderBook :=
  (quotedBook.addOrder 3 ⟨3, true, 5, 98, 0⟩).2.addOrder 4 ⟨4, false, 3, 102, 0⟩ |>.2

theorem toTick_shows_iff_deeper :
    Shows (deeperBook.toTick (quotedBook.toTick {})) deeperBook ∧
      (deeperBook.toTick (quotedBook.toTick {})).bid ⟨1, by decide⟩ = 98 := by
  have hreaches : Execution.Reaches OrderBook.step (fun _ _ => True) { tid := 1 } deeperBook :=
    ((((Execution.Reaches.refl _).tail (.addOrder 1 ⟨1, true, 10, 99, 0⟩) trivial rfl).tail
      (.addOrder 2 ⟨2, false, 7, 101, 0⟩) trivial rfl).tail
      (.addOrder 3 ⟨3, true, 5, 98, 0⟩) trivial rfl).tail
      (.addOrder 4 ⟨4, false, 3, 102, 0⟩) trivial rfl
  refine ⟨(toTick_shows_iff 1 deeperBook hreaches (quotedBook.toTick {})).mpr ⟨?_, ?_⟩,
    by decide +kernel⟩
  · unfold ClearBehind
    decide +kernel
  · unfold ClearBehind
    decide +kernel

/-- The tick still shows the bid of the order that was removed. -/
theorem toTick_stale :
    let tick := (({ tid := 1 } : OrderBook).addOrder 1 ⟨0, true, 10, 1, 0⟩).2.toTick {}
    ∃ book, Execution.run OrderBook.step { tid := 1 }
        [.addOrder 1 ⟨0, true, 10, 1, 0⟩, .removeOrder ⟨0, true, 10, 1, 1⟩] = some book ∧
      ¬ Shows (book.toTick tick) book := by
  intro tick
  have hruns : (Execution.run OrderBook.step { tid := 1 }
      [.addOrder 1 ⟨0, true, 10, 1, 0⟩, .removeOrder ⟨0, true, 10, 1, 1⟩]).map
        (fun book => (book.buyLevels.values, (book.toTick tick).bid firstLevel)) = some ([], 1) := by
    decide +kernel
  obtain ⟨book, hrun, hbook⟩ := Option.map_eq_some_iff.mp hruns
  obtain ⟨hlevels, hbid⟩ := Prod.mk.inj hbook
  refine ⟨book, hrun, fun h => ?_⟩
  obtain ⟨top, rest, -, hlength, -, -, hshown⟩ := h.1
  rw [hlevels, List.length_nil, Nat.min_zero] at hlength
  have hprice := (hshown firstLevel).1
  rw [List.eq_nil_of_length_eq_zero hlength, hbid] at hprice
  exact absurd hprice (by decide)

end OrderBook

end FlareTrader.Orderbook
