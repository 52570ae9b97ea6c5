import FlareTrader.MatchEngine
import FlareTrader.SortedMap

/-! The simple match engine: resting orders in one map per ticker, filled as soon
as the latest tick reaches their price. -/

namespace FlareTrader

def TickData.bestAsk (tick : TickData) : ℚ := tick.ask firstLevel
def TickData.bestBid (tick : TickData) : ℚ := tick.bid firstLevel

structure SimpleMatchEngine where
  orders : SortedMap ℕ (SortedMap ℕ OrderRequest (· < ·)) (· < ·) := .empty
  ticks : ℕ → TickData := fun _ => {}
  curTimestampUs : ℕ := 0

namespace SimpleMatchEngine

def book (e : SimpleMatchEngine) (tickerId : ℕ) : SortedMap ℕ OrderRequest (· < ·) :=
  (e.orders.find? tickerId).getD .empty

def setBook (e : SimpleMatchEngine) (tickerId : ℕ) (b : SortedMap ℕ OrderRequest (· < ·)) :
    SimpleMatchEngine :=
  { e with orders := e.orders.insert tickerId b }

def oppositePrice (tick : TickData) (order : OrderRequest) : ℚ :=
  if order.direction = .kBuy then tick.bestAsk else tick.bestBid

def ownPrice (tick : TickData) (order : OrderRequest) : ℚ :=
  if order.direction = .kBuy then tick.bestBid else tick.bestAsk

def crosses (tick : TickData) (order : OrderRequest) : Bool :=
  (order.direction = .kBuy ∧ 0 < tick.bestAsk ∧ tick.bestAsk ≤ order.price) ∨
    (order.direction = .kSell ∧ 0 < tick.bestBid ∧ order.price ≤ tick.bestBid)

def rest (kept : OrderRequest) (e : SimpleMatchEngine) : SimpleMatchEngine :=
  e.setBook kept.contract.tickerId ((e.book kept.contract.tickerId).emplace kept.orderId kept)

def insertOrder (order : OrderRequest) (e : SimpleMatchEngine) :
    Bool × List Event × SimpleMatchEngine :=
  let tick := e.ticks order.contract.tickerId
  let fill := Event.traded order order.volume (oppositePrice tick order) e.curTimestampUs
  match order.type with
  | .kLimit =>
    if crosses tick order then (true, [fill], e) else (true, [.accepted order], rest order e)
  | .kBest =>
    if (order.direction = .kBuy ∧ isEqual tick.bestBid 0) ∨
        (order.direction = .kSell ∧ isEqual tick.bestAsk 0) then
      (true, [.rejected order], e)
    else (true, [.accepted order], rest { order with price := ownPrice tick order } e)
  | .kMarket =>
    if isEqual (oppositePrice tick order) 0 then (true, [.canceled order order.volume], e)
    else (true, [fill], e)
  | .kFak | .kFok =>
    if crosses tick order then (true, [fill], e) else (true, [.canceled order order.volume], e)
  | _ => (false, [], e)

def cancelOrder (orderId tickerId : ℕ) (e : SimpleMatchEngine) :
    Bool × List Event × SimpleMatchEngine :=
  match (e.book tickerId).find? orderId with
  | none => (true, [.cancelRejected orderId], e)
  | some order =>
    (true, [.canceled order order.volume], e.setBook tickerId ((e.book tickerId).erase orderId))

def sweep (tick : TickData) : List (ℕ × OrderRequest) → List Event × List (ℕ × OrderRequest)
  | [] => ([], [])
  | (id, order) :: rest =>
    let r := sweep tick rest
    if crosses tick order then
      (.traded order order.volume order.price tick.exchangeTimestampUs :: r.1, r.2)
    else (r.1, (id, order) :: r.2)

def onNewTick (tick : TickData) (e : SimpleMatchEngine) : List Event × SimpleMatchEngine :=
  let e := { e with
    curTimestampUs := tick.exchangeTimestampUs
    ticks := Function.update e.ticks tick.tickerId tick }
  ((sweep tick (e.book tick.tickerId).entries).1,
    e.setBook tick.tickerId ((e.book tick.tickerId).filter fun entry => !crosses tick entry.2))

def engine : MatchEngine SimpleMatchEngine where
  insertOrder := insertOrder
  cancelOrder := fun orderId tickerId e => some (cancelOrder orderId tickerId e)
  onNewTick := onNewTick

theorem sweep_snd (tick : TickData) (entries : List (ℕ × OrderRequest)) :
    (sweep tick entries).2 = entries.filter fun entry => !crosses tick entry.2 := by
  induction entries with
  | nil => rfl
  | cons entry entries ih =>
    simp only [sweep]
    split_ifs with h
    · simp [h, ih]
    · simp [h, ih]

def resting (e : SimpleMatchEngine) : RestingBook :=
  e.orders.sum fun _ b => (b.values : Multiset OrderRequest)

def Filed (e : SimpleMatchEngine) : Prop :=
  ∀ t id order, (e.book t).find? id = some order →
    order.orderId = id ∧ order.contract.tickerId = t

section Resting

variable (e : SimpleMatchEngine)

theorem book_setBook (t t' : ℕ) (b : SortedMap ℕ OrderRequest (· < ·)) :
    (e.setBook t b).book t' = if t' = t then b else e.book t' := by
  unfold book setBook
  rw [SortedMap.find?_insert]
  split_ifs <;> rfl

theorem resting_split (t : ℕ) : ∃ others : RestingBook,
    e.resting = (e.book t).values + others ∧
      ∀ b, (e.setBook t b).resting = b.values + others := by
  refine ⟨(e.orders.erase t).sum fun _ b => (b.values : Multiset OrderRequest), ?_, fun b => ?_⟩
  · rw [resting, SortedMap.sum_eq_add e.orders t, book]
    cases e.orders.find? t <;> rfl
  · exact SortedMap.sum_insert_eq_add e.orders t b _

theorem mem_resting_iff {order : OrderRequest} :
    order ∈ e.resting ↔ ∃ t id, (e.book t).find? id = some order := by
  constructor
  · intro h
    obtain ⟨t, b, hb, hmem⟩ := SortedMap.mem_sum.mp h
    obtain ⟨id, hid⟩ := SortedMap.mem_values_iff.mp (Multiset.mem_coe.mp hmem)
    refine ⟨t, id, ?_⟩
    rw [book, SortedMap.find?_eq_some.mpr hb]
    exact hid
  · rintro ⟨t, id, h⟩
    obtain ⟨others, he, -⟩ := e.resting_split t
    rw [he, Multiset.mem_add, Multiset.mem_coe]
    exact Or.inl (SortedMap.mem_values_iff.mpr ⟨id, h⟩)

variable {e}

theorem Filed.setBook (h : e.Filed) {t : ℕ} {b : SortedMap ℕ OrderRequest (· < ·)}
    (hb : ∀ id order, b.find? id = some order → order.orderId = id ∧ order.contract.tickerId = t) :
    (e.setBook t b).Filed := by
  intro t' id order ho
  rw [book_setBook] at ho
  split_ifs at ho with ht
  · rw [ht]
    exact hb id order ho
  · exact h t' id order ho

theorem Filed.find?_fresh (h : e.Filed) {id : ℕ} (hid : id ∉ orderIds e.resting) (t : ℕ) :
    (e.book t).find? id = none := by
  cases hf : (e.book t).find? id with
  | none => rfl
  | some order =>
    refine absurd (Multiset.mem_map.mpr ⟨order, ?_, (h t id order hf).1⟩) hid
    exact e.mem_resting_iff.mpr ⟨t, id, hf⟩

theorem rest_spec (h : e.Filed) (kept : OrderRequest) (hid : kept.orderId ∉ orderIds e.resting) :
    (rest kept e).Filed ∧ (rest kept e).resting = kept ::ₘ e.resting := by
  have hnone := h.find?_fresh hid kept.contract.tickerId
  obtain ⟨others, he, hset⟩ := e.resting_split kept.contract.tickerId
  rw [rest, SortedMap.emplace_of_find?_none hnone]
  constructor
  · apply h.setBook
    intro id order ho
    rw [SortedMap.find?_insert] at ho
    split_ifs at ho with hk
    · cases ho
      exact ⟨hk.symm, rfl⟩
    · exact h _ id order ho
  · have hp := Multiset.coe_eq_coe.mpr (SortedMap.values_insert_perm hnone kept)
    rw [hset, he, hp, ← Multiset.cons_coe, Multiset.cons_add]

theorem cancelOrder_spec (h : e.Filed) (orderId tickerId : ℕ) :
    (cancelOrder orderId tickerId e).2.2.Filed ∧
      Closes e.resting (cancelOrder orderId tickerId e).2.1
        (cancelOrder orderId tickerId e).2.2.resting := by
  unfold cancelOrder
  cases hf : (e.book tickerId).find? orderId with
  | none => exact ⟨h, .cancelRejected orderId (.nil _)⟩
  | some order =>
    obtain ⟨others, he, hset⟩ := e.resting_split tickerId
    have hp := Multiset.coe_eq_coe.mpr (SortedMap.values_perm hf)
    constructor
    · apply h.setBook
      intro id o ho
      rw [SortedMap.find?_erase] at ho
      split_ifs at ho
      exact h _ id o ho
    · simp only [hset]
      rw [he, hp, ← Multiset.cons_coe, Multiset.cons_add]
      exact .canceled order (.nil _)

theorem sweep_closes (tick : TickData) (entries : List (ℕ × OrderRequest)) :
    Closes (entries.map Prod.snd : List OrderRequest) (sweep tick entries).1
      ((entries.filter fun entry => !crosses tick entry.2).map Prod.snd : List OrderRequest) := by
  rw [← sweep_snd]
  induction entries with
  | nil => exact .nil _
  | cons entry entries ih =>
    simp only [sweep]
    split_ifs
    · exact .traded entry.2 entry.2.price tick.exchangeTimestampUs ih
    · have hf := ih.frame {entry.2}
      simpa only [List.map_cons, ← Multiset.cons_coe, ← Multiset.singleton_add, add_comm] using hf

theorem onNewTick_spec (h : e.Filed) (tick : TickData) :
    (onNewTick tick e).2.Filed ∧
      Closes e.resting (onNewTick tick e).1 (onNewTick tick e).2.resting := by
  obtain ⟨others, he, hset⟩ := e.resting_split tick.tickerId
  constructor
  · have hfiled : Filed { e with
        curTimestampUs := tick.exchangeTimestampUs
        ticks := Function.update e.ticks tick.tickerId tick } := h
    apply hfiled.setBook
    intro id order ho
    exact h _ id order (SortedMap.find?_eq_some.mpr
      (SortedMap.mem_filter.mp (SortedMap.find?_eq_some.mp ho)).1)
  · have hc := (sweep_closes tick (e.book tick.tickerId).entries).frame others
    have hr : (onNewTick tick e).2.resting =
        ((e.book tick.tickerId).filter fun entry => !crosses tick entry.2).values + others := hset _
    rw [he, hr]
    exact hc

theorem insertOrder_spec (h : e.Filed) (order : OrderRequest)
    (hid : order.orderId ∉ orderIds e.resting) :
    (insertOrder order e).2.2.Filed ∧
      Inserted order (order.kept (ownPrice (e.ticks order.contract.tickerId) order)) e.resting
        (insertOrder order e).1 (insertOrder order e).2.1 (insertOrder order e).2.2.resting := by
  cases ht : order.type with
  | kLimit =>
    have hkept : order.kept (ownPrice (e.ticks order.contract.tickerId) order) = order :=
      if_neg (by simp [ht])
    obtain ⟨hfiled, hrest⟩ := rest_spec h order hid
    simp only [insertOrder, ht, hkept]
    split_ifs
    · exact ⟨h, .traded _ _⟩
    · exact ⟨hfiled, hrest ▸ .rested⟩
  | kBest =>
    have hkept : order.kept (ownPrice (e.ticks order.contract.tickerId) order) =
        { order with price := ownPrice (e.ticks order.contract.tickerId) order } := if_pos ht
    have hid' : (order.kept (ownPrice (e.ticks order.contract.tickerId) order)).orderId ∉
        orderIds e.resting := by rwa [OrderRequest.kept_orderId]
    obtain ⟨hfiled, hrest⟩ := rest_spec h _ hid'
    simp only [hkept, ht] at hfiled hrest
    simp only [insertOrder, ht, hkept]
    split_ifs
    · exact ⟨h, .rejected⟩
    · exact ⟨hfiled, hrest ▸ .rested⟩
  | kMarket =>
    simp only [insertOrder, ht]
    split_ifs
    · exact ⟨h, .canceled⟩
    · exact ⟨h, .traded _ _⟩
  | kFak =>
    simp only [insertOrder, ht]
    split_ifs
    · exact ⟨h, .traded _ _⟩
    · exact ⟨h, .canceled⟩
  | kFok =>
    simp only [insertOrder, ht]
    split_ifs
    · exact ⟨h, .traded _ _⟩
    · exact ⟨h, .canceled⟩
  | kUnknown | kHkexMoAtCrossing | kHkexLoAtCrossing | kHkexLo | kHkexElo | kHkexSlo =>
    simp only [insertOrder, ht]
    exact ⟨h, .unsupported⟩

end Resting

def quoted (tick : TickData) (order : OrderRequest) : Bool :=
  !((order.direction = .kBuy ∧ isEqual tick.bestBid 0) ∨
    (order.direction = .kSell ∧ isEqual tick.bestAsk 0))

def lawful : engine.Lawful where
  inv := Filed
  resting := resting
  touch := fun order e => ownPrice (e.ticks order.contract.tickerId) order
  quoted := fun order e => quoted (e.ticks order.contract.tickerId) order
  insert_spec := fun order _ h hid => insertOrder_spec h order hid
  best_spec := fun order e ht => by
    simp only [engine, insertOrder, ht, quoted]
    split
    case isTrue h => simp [h]
    case isFalse h => simp [h]
  cancel_spec := fun id t e r h hr => by
    cases hr
    exact cancelOrder_spec h id t
  tick_spec := fun tick _ h => onNewTick_spec h tick

theorem filed_empty : Filed {} := fun _ _ _ ho => nomatch ho

structure Uncrossed (tick : TickData) : Prop where
  ask_nonneg : 0 ≤ tick.bestAsk
  bid_nonneg : 0 ≤ tick.bestBid
  apart : tick.bestBid = 0 ∨ tick.bestAsk = 0 ∨ tick.bestBid < tick.bestAsk

structure NotMarketable (tick : TickData) (order : OrderRequest) : Prop where
  buy : order.direction = .kBuy → tick.bestAsk = 0 ∨ order.price < tick.bestAsk
  sell : order.direction = .kSell → tick.bestBid = 0 ∨ tick.bestBid < order.price

structure WithinLimit (order : OrderRequest) (price : ℚ) : Prop where
  buy : order.direction = .kBuy → price ≤ order.price
  sell : order.direction = .kSell → order.price ≤ price

def IsLimited (type : OrderType) : Prop := type = .kLimit ∨ type = .kFak ∨ type = .kFok

theorem notMarketable_of_not_crosses {tick : TickData} (hu : Uncrossed tick) {order : OrderRequest}
    (h : crosses tick order = false) : NotMarketable tick order := by
  simp only [crosses, decide_eq_false_iff_not, not_or, not_and, not_le] at h
  constructor
  · intro hd
    rcases hu.ask_nonneg.eq_or_lt with h0 | hpos
    · exact Or.inl h0.symm
    · exact Or.inr (h.1 hd hpos)
  · intro hd
    rcases hu.bid_nonneg.eq_or_lt with h0 | hpos
    · exact Or.inl h0.symm
    · exact Or.inr (h.2 hd hpos)

theorem withinLimit_of_crosses {tick : TickData} {order : OrderRequest}
    (h : crosses tick order = true) : WithinLimit order (oppositePrice tick order) := by
  simp only [crosses, decide_eq_true_eq] at h
  constructor
  · intro hd
    simp only [hd, reduceCtorEq, false_and, or_false, true_and] at h
    rw [oppositePrice, if_pos hd]
    exact h.2
  · intro hd
    simp only [hd, reduceCtorEq, false_and, false_or, true_and] at h
    rw [oppositePrice, if_neg (by simp [hd])]
    exact h.2

theorem notMarketable_best {tick : TickData} (hu : Uncrossed tick) {order : OrderRequest}
    (h : ¬ ((order.direction = .kBuy ∧ isEqual tick.bestBid 0 = true) ∨
      (order.direction = .kSell ∧ isEqual tick.bestAsk 0 = true))) :
    NotMarketable tick { order with price := ownPrice tick order } := by
  have hzero : ∀ {x : ℚ}, x = 0 → isEqual x 0 = true := by
    rintro x rfl
    decide +kernel
  rw [not_or, not_and, not_and] at h
  constructor
  · intro hd
    have hbid : tick.bestBid ≠ 0 := fun h0 => h.1 hd (hzero h0)
    simp only [ownPrice, if_pos hd]
    exact hu.apart.resolve_left hbid
  · intro hd
    have hask : tick.bestAsk ≠ 0 := fun h0 => h.2 hd (hzero h0)
    have hsell : order.direction = .kSell := hd
    have hnot : order.direction ≠ .kBuy := by simp [hsell]
    simp only [ownPrice, if_neg hnot]
    rcases hu.apart with h0 | h0 | hlt
    · exact Or.inl h0
    · exact absurd h0 hask
    · exact Or.inr hlt

theorem insertOrder_ticks (order : OrderRequest) (e : SimpleMatchEngine) :
    (insertOrder order e).2.2.ticks = e.ticks := by
  cases ht : order.type <;> simp only [insertOrder, ht]
  all_goals split_ifs <;> rfl

theorem insertOrder_quiet {e : SimpleMatchEngine} (h : e.Filed) {order : OrderRequest}
    (hid : order.orderId ∉ orderIds e.resting)
    (hu : Uncrossed (e.ticks order.contract.tickerId)) :
    (∀ k ∈ (insertOrder order e).2.2.resting,
        k ∈ e.resting ∨ (k.contract = order.contract ∧
          NotMarketable (e.ticks order.contract.tickerId) k)) ∧
      ∀ k volume price ts, .traded k volume price ts ∈ (insertOrder order e).2.1 →
        IsLimited k.type → WithinLimit k price := by
  have hfill : ∀ {k volume price ts}, crosses (e.ticks order.contract.tickerId) order = true →
      Event.traded k volume price ts ∈ [Event.traded order order.volume
        (oppositePrice (e.ticks order.contract.tickerId) order) e.curTimestampUs] →
      WithinLimit k price := by
    intro k volume price ts hc hm
    cases List.mem_singleton.mp hm
    exact withinLimit_of_crosses hc
  cases ht : order.type with
  | kLimit =>
    simp only [insertOrder, ht]
    split_ifs with hc
    · exact ⟨fun k hk => Or.inl hk, fun k volume price ts hm _ => hfill hc hm⟩
    · refine ⟨fun k hk => ?_, fun k volume price ts hm => by simp at hm⟩
      rw [(rest_spec h order hid).2] at hk
      rcases Multiset.mem_cons.mp hk with rfl | hk
      · exact Or.inr ⟨rfl, notMarketable_of_not_crosses hu (Bool.eq_false_iff.mpr hc)⟩
      · exact Or.inl hk
  | kBest =>
    simp only [insertOrder, ht]
    split_ifs with hc
    · exact ⟨fun k hk => Or.inl hk, fun k volume price ts hm => by simp at hm⟩
    · refine ⟨fun k hk => ?_, fun k volume price ts hm => by simp at hm⟩
      have hrest := rest_spec h { order with
        type := .kBest
        price := ownPrice (e.ticks order.contract.tickerId) order } hid
      rw [hrest.2] at hk
      rcases Multiset.mem_cons.mp hk with rfl | hk
      · exact Or.inr ⟨rfl, (notMarketable_best hu hc).buy, (notMarketable_best hu hc).sell⟩
      · exact Or.inl hk
  | kMarket =>
    simp only [insertOrder, ht]
    split_ifs with hc
    · exact ⟨fun k hk => Or.inl hk, fun k volume price ts hm => by simp at hm⟩
    · refine ⟨fun k hk => Or.inl hk, fun k volume price ts hm hl => ?_⟩
      cases List.mem_singleton.mp hm
      rw [ht] at hl
      simp [IsLimited] at hl
  | kFak =>
    simp only [insertOrder, ht]
    split_ifs with hc
    · exact ⟨fun k hk => Or.inl hk, fun k volume price ts hm _ => hfill hc hm⟩
    · exact ⟨fun k hk => Or.inl hk, fun k volume price ts hm => by simp at hm⟩
  | kFok =>
    simp only [insertOrder, ht]
    split_ifs with hc
    · exact ⟨fun k hk => Or.inl hk, fun k volume price ts hm _ => hfill hc hm⟩
    · exact ⟨fun k hk => Or.inl hk, fun k volume price ts hm => by simp at hm⟩
  | kUnknown | kHkexMoAtCrossing | kHkexLoAtCrossing | kHkexLo | kHkexElo | kHkexSlo =>
    simp only [insertOrder, ht]
    exact ⟨fun k hk => Or.inl hk, fun k volume price ts hm => by simp at hm⟩

theorem traded_of_mem_sweep {tick : TickData} {entries : List (ℕ × OrderRequest)} {ev : Event}
    (h : ev ∈ (sweep tick entries).1) :
    ∃ order, ev = .traded order order.volume order.price tick.exchangeTimestampUs := by
  induction entries with
  | nil => cases h
  | cons entry entries ih =>
    simp only [sweep] at h
    split_ifs at h
    · rcases List.mem_cons.mp h with rfl | h
      · exact ⟨entry.2, rfl⟩
      · exact ih h
    · exact ih h

theorem onNewTick_quiet {e : SimpleMatchEngine} (h : e.Filed) (tick : TickData) {k : OrderRequest}
    (hk : k ∈ (onNewTick tick e).2.resting) :
    k ∈ e.resting ∧ (k.contract.tickerId = tick.tickerId → crosses tick k = false) := by
  obtain ⟨t, id, hfind⟩ := mem_resting_iff _ |>.mp hk
  simp only [onNewTick, book_setBook] at hfind
  split_ifs at hfind with ht
  · obtain ⟨hmem, hc⟩ := SortedMap.mem_filter.mp (SortedMap.find?_eq_some.mp hfind)
    exact ⟨(mem_resting_iff e).mpr ⟨_, id, SortedMap.find?_eq_some.mpr hmem⟩,
      fun _ => by simpa using hc⟩
  · have hbook : (e.book t).find? id = some k := hfind
    refine ⟨(mem_resting_iff e).mpr ⟨t, id, hbook⟩, fun heq => ?_⟩
    exact absurd ((h t id k hbook).2.symm.trans heq) ht

def Allowed (r : EngineRun SimpleMatchEngine) (a : EngineAction) : Prop :=
  r.Fresh a ∧
    match a with
    | .insert order => 0 < order.volume
    | .tick tick => Uncrossed tick
    | .cancel _ _ => True

structure Quiet (r : EngineRun SimpleMatchEngine) : Prop where
  kept : EngineRun.Kept lawful r
  ticks : r.engine.ticks = r.latest
  uncrossed : ∀ t, Uncrossed (r.latest t)
  resting : ∀ k ∈ r.engine.resting, NotMarketable (r.latest k.contract.tickerId) k
  fills : ∀ k volume price ts, .traded k volume price ts ∈ r.log → IsLimited k.type →
    WithinLimit k price

theorem Quiet.started : Quiet { engine := {} } where
  kept := ⟨filed_empty, .empty⟩
  ticks := rfl
  uncrossed := fun _ => ⟨le_rfl, le_rfl, Or.inl rfl⟩
  resting := fun _ hk => absurd hk (Multiset.notMem_zero _)
  fills := fun _ _ _ _ hm => nomatch hm

theorem Quiet.preserved {r r' : EngineRun SimpleMatchEngine} {a : EngineAction} (h : Quiet r)
    (ha : Allowed r a) (hs : EngineRun.step engine r a = some r') : Quiet r' := by
  have hkept := h.kept.preserved ha.1 hs
  cases a with
  | insert order =>
    cases hs
    have hid : order.orderId ∉ orderIds r.engine.resting := h.kept.lifecycle.notMem_of_fresh ha.1
    have hu := h.uncrossed order.contract.tickerId
    rw [← h.ticks] at hu
    obtain ⟨hrest, hfills⟩ := insertOrder_quiet h.kept.inv hid hu
    refine ⟨hkept, (insertOrder_ticks order r.engine).trans h.ticks, h.uncrossed, fun k hk => ?_,
      fun k volume price ts hm hl => ?_⟩
    · rcases hrest k hk with hk | ⟨hc, hnot⟩
      · exact h.resting k hk
      · rwa [hc, ← h.ticks]
    · rcases List.mem_append.mp hm with hm | hm
      · exact h.fills k volume price ts hm hl
      · exact hfills k volume price ts hm hl
  | cancel orderId tickerId =>
    cases hs
    have hcl := (cancelOrder_spec h.kept.inv orderId tickerId).2
    have hticks : (cancelOrder orderId tickerId r.engine).2.2.ticks = r.engine.ticks := by
      unfold cancelOrder
      cases (r.engine.book tickerId).find? orderId <;> rfl
    refine ⟨hkept, hticks.trans h.ticks, h.uncrossed,
      fun k hk => h.resting k (Multiset.mem_of_le hcl.le hk), fun k volume price ts hm hl => ?_⟩
    rcases List.mem_append.mp hm with hm | hm
    · exact h.fills k volume price ts hm hl
    · have hm' : .traded k volume price ts ∈ (cancelOrder orderId tickerId r.engine).2.1 := hm
      unfold cancelOrder at hm'
      cases hf : (r.engine.book tickerId).find? orderId <;> simp [hf] at hm'
  | tick tick =>
    cases hs
    have hu : Uncrossed tick := ha.2
    have hticks : Function.update r.engine.ticks tick.tickerId tick =
        Function.update r.latest tick.tickerId tick := by rw [h.ticks]
    refine ⟨hkept, hticks, fun t => ?_, fun k hk => ?_,
      fun k volume price ts hm hl => ?_⟩
    · by_cases ht : t = tick.tickerId
      · simpa [ht] using hu
      · simpa [ht] using h.uncrossed t
    · obtain ⟨hmem, hc⟩ := onNewTick_quiet h.kept.inv tick hk
      by_cases ht : k.contract.tickerId = tick.tickerId
      · simpa [ht] using notMarketable_of_not_crosses hu (hc ht)
      · simpa [ht] using h.resting k hmem
    · rcases List.mem_append.mp hm with hm | hm
      · exact h.fills k volume price ts hm hl
      · obtain ⟨order, heq⟩ := traded_of_mem_sweep hm
        cases heq
        exact ⟨fun _ => le_rfl, fun _ => le_rfl⟩

theorem simpleMatchEngine_invariant (r : EngineRun SimpleMatchEngine)
    (h : Execution.Reaches (EngineRun.step engine) Allowed { engine := {} } r) :
    (∀ k ∈ r.engine.resting, NotMarketable (r.latest k.contract.tickerId) k) ∧
      (∀ o ∈ r.inserted, (r.log.filter (Event.IsFinalFor o.orderId)).length ≤ 1 ∧
        (∀ e ∈ r.log, ∀ k volume, e.final? = some (k, volume) → k.orderId = o.orderId →
          volume = o.volume) ∧
        (o.orderId ∈ orderIds r.engine.resting ↔
          .accepted o ∈ r.log ∧ r.log.filter (Event.IsFinalFor o.orderId) = [])) ∧
      (∀ o ∈ r.inserted, IsLimited o.type → ∀ k volume price ts,
        .traded k volume price ts ∈ r.log → k.orderId = o.orderId → WithinLimit o price) := by
  have hq := h.invariant Quiet (fun _ _ _ hq ha hs => hq.preserved ha hs) .started
  have hlife := hq.kept.lifecycle
  refine ⟨hq.resting, fun o ho => ⟨hlife.final_once o ho, hlife.final_full o ho,
    hlife.resting_iff o ho⟩, fun o ho hl k volume price ts hm hid => ?_⟩
  have hko : k = o := hlife.eq_of_limited hm rfl ho hid (by
    rcases hl with h | h | h <;> simp [h])
  rw [hko] at hm
  exact hq.fills o volume price ts hm hl

def restingSell : OrderRequest where
  contract := { tickerId := 1 }
  orderId := 1
  type := .kLimit
  direction := .kSell
  offset := .kOpen
  volume := 2
  price := 100

def swept : EngineRun SimpleMatchEngine where
  engine := (onNewTick { tickerId := 1, bid := fun _ => 101 } (insertOrder restingSell {}).2.2).2
  log := [.accepted restingSell, .traded restingSell 2 100 0]
  inserted := [restingSell]
  latest := Function.update (fun _ => {}) 1 { tickerId := 1, bid := fun _ => 101 }

theorem swept_quiet :
    (swept.log.filter (Event.IsFinalFor 1)).length ≤ 1 ∧ WithinLimit restingSell 100 := by
  have hstart : Execution.Reaches (EngineRun.step engine) Allowed { engine := {} } { engine := {} } :=
    .refl _
  have hinsert := hstart.tail (.insert restingSell) ⟨by simp [EngineRun.Fresh], by decide⟩ rfl
  have htick := hinsert.tail (.tick { tickerId := 1, bid := fun _ => 101 })
    ⟨trivial, ⟨by decide +kernel, by decide +kernel, Or.inr (Or.inl rfl)⟩⟩ rfl
  have hsell : restingSell ∈ swept.inserted := List.mem_singleton_self restingSell
  obtain ⟨-, hlife, hlimit⟩ := simpleMatchEngine_invariant swept htick
  exact ⟨(hlife restingSell hsell).1, hlimit restingSell hsell (Or.inl rfl) restingSell 2 100 0
    (by simp [swept]) rfl⟩

end SimpleMatchEngine

end FlareTrader
