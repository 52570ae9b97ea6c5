import FlareTrader.AdvancedPriority

/-! Cancels in the advanced match engine. A price at which a buy rests is looked up
among the buys, and the loop over the queue of a level sees its first order only. -/

namespace FlareTrader

namespace AdvancedMatchEngine

def queue (e : AdvancedMatchEngine) (tickerId : ℕ) (direction : Direction) (price : ℕ) :
    List InnerOrder :=
  (if direction = .kBuy then (e.book tickerId).bidLevels.find? price
    else (e.book tickerId).askLevels.find? price).getD []

structure Withdrawn (order : InnerOrder) (e e' : AdvancedMatchEngine) : Prop where
  queues : ∀ t d price, e'.queue t d price =
    (e.queue t d price).filter fun o => o.origOrder.orderId ≠ order.origOrder.orderId
  index : ∀ id, e'.idPriceMap.find? id =
    if id = order.origOrder.orderId then none else e.idPriceMap.find? id
  ticks : e'.ticks = e.ticks

def Cancels (e : AdvancedMatchEngine) (tickerId : ℕ) (order : InnerOrder) : Prop :=
  ∃ fuel e', cancelOrder fuel order.origOrder.orderId tickerId e =
    some (.returned true [.canceled order.origOrder order.origOrder.volume] e') ∧
    Withdrawn order e e'

def FoundFirst (e : AdvancedMatchEngine) (tickerId : ℕ) (direction : Direction) (price : ℕ)
    (order : InnerOrder) : Prop :=
  (e.queue tickerId direction price).head? = some order ∧
    (direction = .kBuy ∨ e.queue tickerId .kBuy price = [])

section Queues

variable {e : AdvancedMatchEngine} {t t' : ℕ} {d d' : Direction} {price price' : ℕ}
  {order : InnerOrder} {rest : List InnerOrder}

theorem restsAt_iff_mem_queue : e.RestsAt t d price order ↔ order ∈ e.queue t d price := by
  have hat : ∀ levels : Option (List InnerOrder),
      (∃ queue, levels = some queue ∧ order ∈ queue) ↔ order ∈ levels.getD [] := by
    intro levels
    cases levels with
    | none => simp
    | some queue => simp
  unfold RestsAt queue
  split_ifs
  · exact hat _
  · exact hat _

theorem queue_congr (h : d = .kBuy ↔ d' = .kBuy) : e.queue t d price = e.queue t d' price := by
  simp only [queue, h]

theorem getD_setQueue {r : ℕ → ℕ → Prop} [DecidableRel r] [IsStrictTotalOrder ℕ r]
    (levels : Levels r) : ((levels.setQueue price rest).find? price').getD [] =
      if price' = price then rest else (levels.find? price').getD [] := by
  rw [Levels.find?_setQueue]
  split_ifs with hp hnil
  · exact hnil.symm
  · rfl
  · rfl

theorem queue_setBids (e : AdvancedMatchEngine) (t t' : ℕ) (d : Direction) (price price' : ℕ)
    (rest : List InnerOrder) :
    (e.setBook t { e.book t with bidLevels := (e.book t).bidLevels.setQueue price rest }).queue
        t' d price' =
      if t' = t ∧ d = .kBuy ∧ price' = price then rest else e.queue t' d price' := by
  unfold queue
  rw [book_setBook]
  by_cases ht : t' = t
  · subst ht
    by_cases hd : d = .kBuy
    · simp only [if_true, hd, true_and]
      exact getD_setQueue _
    · simp [hd]
  · simp [ht]

theorem queue_setAsks (e : AdvancedMatchEngine) (t t' : ℕ) (d : Direction) (price price' : ℕ)
    (rest : List InnerOrder) :
    (e.setBook t { e.book t with askLevels := (e.book t).askLevels.setQueue price rest }).queue
        t' d price' =
      if t' = t ∧ d ≠ .kBuy ∧ price' = price then rest else e.queue t' d price' := by
  unfold queue
  rw [book_setBook]
  by_cases ht : t' = t
  · subst ht
    by_cases hd : d = .kBuy
    · simp [hd]
    · simp only [if_true, hd, if_false, ne_eq, not_false_eq_true, true_and]
      exact getD_setQueue _
  · simp [ht]

theorem queue_le_resting (e : AdvancedMatchEngine) (t : ℕ) (d : Direction) (price : ℕ) :
    (((e.queue t d price).map (·.origOrder) : List OrderRequest) : RestingBook) ≤ e.resting := by
  have hlevel : ∀ {r : ℕ → ℕ → Prop} [DecidableRel r] [IsStrictTotalOrder ℕ r] (levels : Levels r),
      (((((levels.find? price).getD []).map (·.origOrder) : List OrderRequest)) : RestingBook) ≤
        levels.resting := by
    intro r _ _ levels
    obtain ⟨others, hsplit, -⟩ := levels.resting_split price
    rw [hsplit]
    exact Multiset.le_add_right _ _
  obtain ⟨others, hsplit, -⟩ := e.resting_split t
  rw [hsplit]
  refine le_trans ?_ (Multiset.le_add_right _ _)
  unfold queue
  split_ifs
  · exact le_trans (hlevel _) (Multiset.le_add_right _ _)
  · exact le_trans (hlevel _) (Multiset.le_add_left _ _)

theorem Indexed.queue_nodup (hx : e.Indexed) (t : ℕ) (d : Direction) (price : ℕ) :
    ((e.queue t d price).map (·.origOrder.orderId)).Nodup := by
  have hnodup := Multiset.nodup_of_le (Multiset.map_le_map (queue_le_resting e t d price)) hx.nodup
  rwa [Multiset.map_coe, Multiset.coe_nodup, List.map_map] at hnodup

theorem Indexed.withdrawn {e' : AdvancedMatchEngine} (hx : e.Indexed)
    (hqueue : e.queue t d price = order :: rest)
    (hqueues : ∀ t' d' price', e'.queue t' d' price' =
      if t' = t ∧ (d' = .kBuy ↔ d = .kBuy) ∧ price' = price then rest else e.queue t' d' price')
    (hmap : e'.idPriceMap = e.idPriceMap.erase order.origOrder.orderId)
    (hticks : e'.ticks = e.ticks) : Withdrawn order e e' := by
  have horder : e.RestsAt t d price order := by
    rw [restsAt_iff_mem_queue, hqueue]
    exact List.mem_cons_self
  refine ⟨fun t' d' price' => ?_, fun id => ?_, hticks⟩
  · rw [hqueues]
    split_ifs with hplace
    · obtain ⟨rfl, hd, rfl⟩ := hplace
      have hnodup := hx.queue_nodup t' d' price'
      rw [queue_congr hd, hqueue, List.map_cons, List.nodup_cons] at hnodup
      rw [queue_congr hd, hqueue, List.filter_cons_of_neg (by simp), eq_comm, List.filter_eq_self]
      intro o ho
      simp only [decide_eq_true_eq]
      intro hid
      exact hnodup.1 (hid ▸ List.mem_map_of_mem ho)
    · symm
      rw [List.filter_eq_self]
      intro o ho
      simp only [decide_eq_true_eq]
      intro hid
      obtain ⟨rfl, hd, rfl⟩ := hx.place (restsAt_iff_mem_queue.mpr ho) horder hid
      exact hplace ⟨rfl, hd, rfl⟩
  · rw [hmap, SortedMap.find?_erase]

/-- What a cancel of a resting order looks through, and what it leaves when it finds
the order in front. -/
theorem cancelOrder_eq_cancelIn (hx : e.Indexed) (horder : e.RestsAt t d price order) :
    ∃ (d' : Direction) (setQueue : List InnerOrder → AdvancedMatchEngine),
      (d' = .kBuy ↔ e.queue t .kBuy price ≠ []) ∧
      (∀ fuel, cancelOrder fuel order.origOrder.orderId t e =
        cancelIn fuel order.origOrder.orderId (e.queue t d' price) setQueue) ∧
      ∀ rest, e.queue t d' price = order :: rest → Withdrawn order e (setQueue rest) := by
  have hfind := (hx.filed t d price order horder).2.2
  have hmem := restsAt_iff_mem_queue.mp horder
  have hbook : book { e with idPriceMap := e.idPriceMap.erase order.origOrder.orderId } t =
      e.book t := rfl
  cases hbid : (e.book t).bidLevels.find? price with
  | some queue =>
    have hqueue : e.queue t .kBuy price = queue := by simp [AdvancedMatchEngine.queue, hbid]
    have hne : queue ≠ [] := hx.bids_noEmpty t price queue hbid
    refine ⟨.kBuy, fun queue => setBook { e with
      idPriceMap := e.idPriceMap.erase order.origOrder.orderId } t { e.book t with
      bidLevels := (e.book t).bidLevels.setQueue price queue },
    by simp [hqueue, hne], fun fuel => ?_, fun rest hrest => ?_⟩
    · simp only [cancelOrder, hfind, hbook, hbid, hqueue]
    · refine hx.withdrawn hrest (fun t' d' price' => ?_) rfl rfl
      refine (queue_setBids e t t' d' price price' rest).trans ?_
      simp only [iff_true]
  | none =>
    have hqueue : e.queue t .kBuy price = [] := by simp [AdvancedMatchEngine.queue, hbid]
    have hd : d ≠ .kBuy := by
      rintro rfl
      rw [hqueue] at hmem
      cases hmem
    cases hask : (e.book t).askLevels.find? price with
    | none => simp [AdvancedMatchEngine.queue, hd, hask] at hmem
    | some queue =>
      have hqueue' : e.queue t .kSell price = queue := by simp [AdvancedMatchEngine.queue, hask]
      refine ⟨.kSell, fun queue => setBook { e with
        idPriceMap := e.idPriceMap.erase order.origOrder.orderId } t { e.book t with
        askLevels := (e.book t).askLevels.setQueue price queue },
    by simp [hqueue], fun fuel => ?_, fun rest hrest => ?_⟩
      · simp only [cancelOrder, hfind, hbook, hbid, hask, hqueue']
      · refine hx.withdrawn hrest (fun t' d' price' => ?_) rfl rfl
        refine (queue_setAsks e t t' d' price price' rest).trans ?_
        simp only [ne_eq, reduceCtorEq, iff_false]

theorem Indexed.cancels_iff (hx : e.Indexed) (horder : e.RestsAt t d price order) :
    Cancels e t order ↔ FoundFirst e t d price order := by
  obtain ⟨d', setQueue, hd', hcancel, hset⟩ := cancelOrder_eq_cancelIn hx horder
  constructor
  · rintro ⟨fuel, e', hreturned, -⟩
    rw [hcancel] at hreturned
    rcases cancelIn_eq_some hreturned with ⟨-, heq⟩ | ⟨order', rest, hqueue, hid, -⟩
    · cases heq
    · have horder' : e.RestsAt t d' price order' := by
        rw [restsAt_iff_mem_queue, hqueue]
        exact List.mem_cons_self
      obtain ⟨-, hside, -⟩ := hx.place horder horder' hid.symm
      cases hx.unique horder horder' hid.symm
      rw [← queue_congr hside] at hqueue
      refine ⟨by rw [hqueue, List.head?_cons], ?_⟩
      by_cases hd : d = .kBuy
      · exact Or.inl hd
      · exact Or.inr (not_not.mp (mt hd'.mpr (mt hside.mpr hd)))
  · rintro ⟨hhead, hbuys⟩
    obtain ⟨rest, hqueue⟩ := List.head?_eq_some_iff.mp hhead
    have hside : d' = .kBuy ↔ d = .kBuy := by
      rw [hd']
      constructor
      · intro hne
        exact hbuys.resolve_right hne
      · rintro rfl
        rw [hqueue]
        exact List.cons_ne_nil _ _
    rw [← queue_congr hside] at hqueue
    refine ⟨1, setQueue rest, ?_, hset rest hqueue⟩
    rw [hcancel, hqueue]
    simp [cancelIn, search]

end Queues

theorem indexed_of_reaches {ct : ContractTable} {fuel : ℕ} {r : EngineRun AdvancedMatchEngine}
    (h : Execution.Reaches (EngineRun.step (engine ct fuel)) EngineRun.Fresh { engine := {} } r) :
    r.engine.Indexed := by
  have hk : EngineRun.Kept (lawful ct fuel) r :=
    EngineRun.kept_of_reaches (lawful ct fuel) indexed_empty rfl (fun _ _ ha => ha) h
  exact hk.inv

theorem cancels_exactly_first_in_queue (ct : ContractTable) (fuel : ℕ)
    (r : EngineRun AdvancedMatchEngine)
    (h : Execution.Reaches (EngineRun.step (engine ct fuel)) EngineRun.Fresh { engine := {} } r)
    (t : ℕ) (d : Direction) (price : ℕ) (order : InnerOrder)
    (horder : r.engine.RestsAt t d price order) :
    Cancels r.engine t order ↔ FoundFirst r.engine t d price order :=
  (indexed_of_reaches h).cancels_iff horder

def pairOfBuys : EngineRun AdvancedMatchEngine where
  engine := (insertOrder laterBuy (insertOrder restingBuy {}).2.2).2.2
  log := [.accepted restingBuy, .accepted laterBuy]
  inserted := [restingBuy, laterBuy]

theorem reaches_pairOfBuys : Execution.Reaches (EngineRun.step (engine (.ofList []) 1)) EngineRun.Fresh
    { engine := {} } pairOfBuys := by
  have hstart : Execution.Reaches (EngineRun.step (engine (.ofList []) 1)) EngineRun.Fresh
      { engine := {} } { engine := {} } := .refl _
  have hfirst := hstart.tail (.insert restingBuy) (by simp [EngineRun.Fresh]) rfl
  exact hfirst.tail (.insert laterBuy) (by simp [EngineRun.Fresh, restingBuy, laterBuy]) rfl

theorem queue_pairOfBuys : pairOfBuys.engine.queue 1 .kBuy (u64Price 99) =
    [{ origOrder := restingBuy }, { origOrder := laterBuy }] := by
  decide +kernel

theorem reaches_laterBuyLeft :
    ∃ r, Execution.Reaches (EngineRun.step (engine (.ofList []) 1)) EngineRun.Fresh pairOfBuys r ∧
      r.log = [.accepted restingBuy, .accepted laterBuy, .canceled restingBuy 2] ∧
      r.engine.queue 1 .kBuy (u64Price 99) = [{ origOrder := laterBuy }] := by
  have hcancel := Execution.Reaches.tail (.refl pairOfBuys) (.cancel 7 1)
    (show EngineRun.Fresh pairOfBuys (.cancel 7 1) from trivial)
    (Option.some_get (show (EngineRun.step (engine (.ofList []) 1) pairOfBuys _).isSome from by
      decide +kernel)).symm
  exact ⟨_, hcancel, by decide +kernel, by decide +kernel⟩

/-- The later buy is found once the earlier one has left the queue. -/
theorem cancels_earlier_buy :
    Cancels pairOfBuys.engine 1 { origOrder := restingBuy } ∧
      ¬ Cancels pairOfBuys.engine 1 { origOrder := laterBuy } ∧
      ∃ r, Execution.Reaches (EngineRun.step (engine (.ofList []) 1)) EngineRun.Fresh pairOfBuys r ∧
        r.log = [.accepted restingBuy, .accepted laterBuy, .canceled restingBuy 2] ∧
        Cancels r.engine 1 { origOrder := laterBuy } := by
  have hearlier : pairOfBuys.engine.RestsAt 1 .kBuy (u64Price 99) { origOrder := restingBuy } :=
    restsAt_iff_mem_queue.mpr (by simp [queue_pairOfBuys])
  have hlater : pairOfBuys.engine.RestsAt 1 .kBuy (u64Price 99) { origOrder := laterBuy } :=
    restsAt_iff_mem_queue.mpr (by simp [queue_pairOfBuys])
  obtain ⟨r, hr, hlog, hqueue⟩ := reaches_laterBuyLeft
  have hleft : r.engine.RestsAt 1 .kBuy (u64Price 99) { origOrder := laterBuy } :=
    restsAt_iff_mem_queue.mpr (by simp [hqueue])
  refine ⟨?_, fun hc => ?_, r, hr, hlog, ?_⟩
  · refine (cancels_exactly_first_in_queue (.ofList []) 1 _ reaches_pairOfBuys 1 .kBuy _ _
      hearlier).mpr ⟨?_, Or.inl rfl⟩
    rw [queue_pairOfBuys, List.head?_cons]
  · have hfirst := ((cancels_exactly_first_in_queue (.ofList []) 1 _ reaches_pairOfBuys 1 .kBuy _ _
      hlater).mp hc).1
    rw [queue_pairOfBuys] at hfirst
    exact absurd hfirst (by decide)
  · refine (cancels_exactly_first_in_queue (.ofList []) 1 _ (reaches_pairOfBuys.trans hr) 1 .kBuy _ _
      hleft).mpr ⟨?_, Or.inl rfl⟩
    rw [hqueue, List.head?_cons]

theorem later_buy_is_not_cancelled :
    Execution.Reaches (EngineRun.step (engine (.ofList []) 1)) EngineRun.Fresh { engine := {} }
        pairOfBuys ∧
      pairOfBuys.engine.RestsAt 1 .kBuy (u64Price 99) { origOrder := laterBuy } ∧
      ∀ fuel, cancelOrder fuel laterBuy.orderId 1 pairOfBuys.engine = none := by
  have hrests : pairOfBuys.engine.RestsAt 1 .kBuy (u64Price 99) { origOrder := laterBuy } :=
    restsAt_iff_mem_queue.mpr (by simp [queue_pairOfBuys])
  refine ⟨reaches_pairOfBuys, hrests, fun fuel => ?_⟩
  obtain ⟨d', setQueue, hd', hcancel, -⟩ :=
    cancelOrder_eq_cancelIn (indexed_of_reaches reaches_pairOfBuys) hrests
  have hbuy : d' = .kBuy := hd'.mpr (by simp [queue_pairOfBuys])
  rw [hcancel, hbuy, queue_pairOfBuys, Option.eq_none_iff_forall_ne_some]
  intro result hresult
  rcases cancelIn_eq_some hresult with ⟨hnil, -⟩ | ⟨order, rest, hqueue, hid, -⟩
  · cases hnil
  · cases hqueue
    cases hid

end AdvancedMatchEngine

end FlareTrader
