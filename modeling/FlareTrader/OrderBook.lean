import FlareTrader.Execution
import FlareTrader.SortedMap

/-! The order book of one ticker. Orders are kept twice, in a map by id and in the
queue of their price level, and each level keeps a running total. What the levels
hold is described as a table from ids to orders, which the operations update one
id at a time. -/

namespace FlareTrader.Orderbook

def priceDoubleToDecimal (p : ℚ) : ℕ := (⌊p * 100000000⌋.toNat + 50) / 10000

/-- `level` is a pointer, which is the address of a level or anything at all. -/
structure LimitOrder where
  id : ℕ
  isBuy : Bool
  volume : ℤ
  price : ℚ
  level : ℕ := 0
  deriving DecidableEq, Repr

def LimitOrder.decimalPrice (order : LimitOrder) : ℕ := priceDoubleToDecimal order.price

def LimitOrder.setLevel (level : ℕ) (order : LimitOrder) : LimitOrder := { order with level }

def LimitOrder.Same (order order' : LimitOrder) : Prop := order.setLevel 0 = order'.setLevel 0

structure PriceLevel where
  address : ℕ
  price : ℚ
  totalVolume : ℤ := 0
  orderList : List LimitOrder := []
  deriving DecidableEq, Repr

namespace PriceLevel

def decimalPrice (level : PriceLevel) : ℕ := priceDoubleToDecimal level.price

def addOrder (order : LimitOrder) (level : PriceLevel) : PriceLevel :=
  { level with
    orderList := level.orderList ++ [order]
    totalVolume := level.totalVolume + order.volume }

def modifyLoop (order : LimitOrder) : List LimitOrder → ℤ × List LimitOrder
  | [] => (0, [])
  | it :: rest =>
    if it.id = order.id then (order.volume - it.volume, order :: rest)
    else ((modifyLoop order rest).1, it :: (modifyLoop order rest).2)

def modifyOrder (order : LimitOrder) (level : PriceLevel) : PriceLevel :=
  { level with
    orderList := (modifyLoop order level.orderList).2
    totalVolume := level.totalVolume + (modifyLoop order level.orderList).1 }

def removeLoop (order : LimitOrder) : List LimitOrder → ℤ × List LimitOrder
  | [] => (0, [])
  | it :: rest =>
    if it.id = order.id then (order.volume, rest)
    else ((removeLoop order rest).1, it :: (removeLoop order rest).2)

def removeOrder (order : LimitOrder) (level : PriceLevel) : PriceLevel :=
  { level with
    orderList := (removeLoop order level.orderList).2
    totalVolume := level.totalVolume - (removeLoop order level.orderList).1 }

end PriceLevel

structure OrderBook where
  tid : ℕ
  orderMap : SortedMap ℕ LimitOrder (· < ·) := .empty
  buyLevels : SortedMap ℕ PriceLevel (· > ·) := .empty
  sellLevels : SortedMap ℕ PriceLevel (· < ·) := .empty

namespace OrderBook

def bestBid (book : OrderBook) : Option PriceLevel := book.buyLevels.values.head?

def bestAsk (book : OrderBook) : Option PriceLevel := book.sellLevels.values.head?

def fndLevel (decimalPrice : ℕ) (isBuy : Bool) (book : OrderBook) : Option PriceLevel :=
  if isBuy then book.buyLevels.find? decimalPrice else book.sellLevels.find? decimalPrice

def putLevel (decimalPrice : ℕ) (isBuy : Bool) (level : PriceLevel) (book : OrderBook) : OrderBook :=
  if isBuy then { book with buyLevels := book.buyLevels.insert decimalPrice level }
  else { book with sellLevels := book.sellLevels.insert decimalPrice level }

def eraseLevel (decimalPrice : ℕ) (isBuy : Bool) (book : OrderBook) : OrderBook :=
  if isBuy then { book with buyLevels := book.buyLevels.erase decimalPrice }
  else { book with sellLevels := book.sellLevels.erase decimalPrice }

/-- `node` is the address that a new level gets. -/
def findOrCreateLevel (node : ℕ) (price : ℚ) (decimalPrice : ℕ) (isBuy : Bool) (book : OrderBook) :
    PriceLevel × OrderBook :=
  match book.fndLevel decimalPrice isBuy with
  | some level => (level, book)
  | none => (⟨node, price, 0, []⟩, book.putLevel decimalPrice isBuy ⟨node, price, 0, []⟩)

/-- The order of the caller, which now points to its level, comes first. -/
def addOrder (node : ℕ) (order : LimitOrder) (book : OrderBook) : LimitOrder × OrderBook :=
  let r := book.findOrCreateLevel node order.price order.decimalPrice order.isBuy
  let order := order.setLevel r.1.address
  let book := r.2.putLevel order.decimalPrice order.isBuy (r.1.addOrder order)
  (order, { book with orderMap := book.orderMap.emplace order.id order })

/-- A missing level is a null pointer that is read. -/
def modifyOrder (node : ℕ) (order : LimitOrder) (book : OrderBook) :
    Option (LimitOrder × OrderBook) :=
  match book.orderMap.find? order.id with
  | none =>
    (book.fndLevel order.decimalPrice order.isBuy).map fun level =>
      let book := book.putLevel order.decimalPrice order.isBuy (level.addOrder order)
      (order, { book with orderMap := book.orderMap.emplace order.id order })
  | some oriOrder =>
    (book.fndLevel oriOrder.decimalPrice oriOrder.isBuy).map fun oriLevel =>
      let r :=
        if oriOrder.decimalPrice ≠ order.decimalPrice then
          let oriLevel := oriLevel.removeOrder oriOrder
          let book := book.putLevel oriOrder.decimalPrice oriOrder.isBuy oriLevel
          let book :=
            if oriLevel.totalVolume = 0 then book.eraseLevel oriLevel.decimalPrice oriOrder.isBuy
            else book
          let r := book.findOrCreateLevel node order.price order.decimalPrice order.isBuy
          -- the level is given its copy before the pointer is set
          (order.setLevel r.1.address,
            r.2.putLevel order.decimalPrice order.isBuy (r.1.addOrder order))
        else
          (order.setLevel oriLevel.address,
            book.putLevel oriOrder.decimalPrice oriOrder.isBuy (oriLevel.modifyOrder order))
      (r.1, { r.2 with orderMap := r.2.orderMap.insert order.id r.1 })

def removeOrder (order : LimitOrder) (book : OrderBook) : Option OrderBook :=
  match book.orderMap.find? order.id with
  | none => some book
  | some _ =>
    let book := { book with orderMap := book.orderMap.erase order.id }
    (book.fndLevel order.decimalPrice order.isBuy).map fun level =>
      let level := level.removeOrder order
      let book := book.putLevel order.decimalPrice order.isBuy level
      if level.totalVolume = 0 then book.eraseLevel order.decimalPrice order.isBuy else book

end OrderBook

inductive Operation
  | addOrder (node : ℕ) (order : LimitOrder)
  | modifyOrder (node : ℕ) (order : LimitOrder)
  | removeOrder (order : LimitOrder)

namespace OrderBook

def step (book : OrderBook) : Operation → Option OrderBook
  | .addOrder node order => some (book.addOrder node order).2
  | .modifyOrder node order => (book.modifyOrder node order).map Prod.snd
  | .removeOrder order => book.removeOrder order

def Allowed (book : OrderBook) : Operation → Prop
  | .addOrder _ order => 0 < order.volume ∧ book.orderMap.find? order.id = none
  | .modifyOrder _ order => 0 < order.volume ∧
      ∃ oriOrder, book.orderMap.find? order.id = some oriOrder ∧ oriOrder.isBuy = order.isBuy
  | .removeOrder order => ∀ stored, book.orderMap.find? order.id = some stored → order.Same stored

/-- The order that a change is given points already to the level it ends in, the one at
its price or else the new one. -/
def PointsToLevel (book : OrderBook) : Operation → Prop
  | .modifyOrder node order =>
    order.level = (book.fndLevel order.decimalPrice order.isBuy).elim node PriceLevel.address
  | .addOrder .. => True
  | .removeOrder _ => True

/-- What a book shows: both stores hold the same orders, copies agree as `R` says. -/
structure Represents (R : LimitOrder → LimitOrder → Prop) (book : OrderBook) : Prop where
  ids : ∀ id, (∃ order, book.orderMap.find? id = some order) ↔
    ∃ isBuy p level, book.fndLevel p isBuy = some level ∧ ∃ order ∈ level.orderList, order.id = id
  stored : ∀ id order, book.orderMap.find? id = some order → order.id = id ∧
    ∃ level, book.fndLevel order.decimalPrice order.isBuy = some level ∧
      ∃ copy, level.orderList.filter (·.id = id) = [copy] ∧ R order copy
  one : ∀ id order, book.orderMap.find? id = some order → ∀ isBuy p level,
    book.fndLevel p isBuy = some level → (∃ copy ∈ level.orderList, copy.id = id) →
      isBuy = order.isBuy ∧ p = order.decimalPrice
  total : ∀ isBuy p level, book.fndLevel p isBuy = some level →
    level.totalVolume = (level.orderList.map LimitOrder.volume).sum
  nonempty : ∀ isBuy p level, book.fndLevel p isBuy = some level → level.orderList ≠ []
  bestBid : book.bestBid = none ∧ (∀ p, book.fndLevel p true = none) ∨
    ∃ p, book.bestBid = book.fndLevel p true ∧ book.bestBid ≠ none ∧
      ∀ p', book.fndLevel p' true ≠ none → p' ≤ p
  bestAsk : book.bestAsk = none ∧ (∀ p, book.fndLevel p false = none) ∨
    ∃ p, book.bestAsk = book.fndLevel p false ∧ book.bestAsk ≠ none ∧
      ∀ p', book.fndLevel p' false ≠ none → p ≤ p'

end OrderBook

namespace PriceLevel

section Loops

variable {l : List LimitOrder} {order stored : LimitOrder}

theorem removeLoop_list (hnodup : (l.map LimitOrder.id).Nodup) :
    (removeLoop order l).2 = l.filter (·.id ≠ order.id) := by
  induction l with
  | nil => rfl
  | cons it rest ih =>
    obtain ⟨hfresh, hrest⟩ := List.nodup_cons.mp hnodup
    simp only [removeLoop]
    split_ifs with hid
    · have hall : ∀ o ∈ rest, decide (o.id ≠ order.id) = true := by
        intro o ho
        refine decide_eq_true fun heq => hfresh ?_
        rw [hid, ← heq]
        exact List.mem_map_of_mem ho
      rw [List.filter_cons, if_neg (by simp [hid]), List.filter_eq_self.mpr hall]
    · rw [List.filter_cons, if_pos (decide_eq_true hid), ih hrest]

theorem removeLoop_volume (hstored : stored ∈ l) (hid : stored.id = order.id) :
    (removeLoop order l).1 = order.volume := by
  induction l with
  | nil => cases hstored
  | cons it rest ih =>
    simp only [removeLoop]
    split_ifs with hit
    · rfl
    · rcases List.mem_cons.mp hstored with heq | hrest
      · exact absurd (heq ▸ hid) hit
      · exact ih hrest

theorem sum_filter_id (hnodup : (l.map LimitOrder.id).Nodup) (hstored : stored ∈ l) :
    ((l.filter (·.id ≠ stored.id)).map LimitOrder.volume).sum =
      (l.map LimitOrder.volume).sum - stored.volume := by
  induction l with
  | nil => cases hstored
  | cons it rest ih =>
    obtain ⟨hfresh, hrest⟩ := List.nodup_cons.mp hnodup
    rw [List.filter_cons, List.map_cons, List.sum_cons]
    rcases List.mem_cons.mp hstored with heq | hmem
    · have hall : ∀ o ∈ rest, decide (o.id ≠ stored.id) = true := by
        intro o ho
        refine decide_eq_true fun hsame => hfresh ?_
        rw [← heq, ← hsame]
        exact List.mem_map_of_mem ho
      rw [if_neg (by simp [heq]), List.filter_eq_self.mpr hall, heq]
      omega
    · have hne : it.id ≠ stored.id := by
        intro hsame
        apply hfresh
        rw [hsame]
        exact List.mem_map_of_mem hmem
      rw [if_pos (decide_eq_true hne), List.map_cons, List.sum_cons, ih hrest hmem]
      omega

theorem ids_modifyLoop : ((modifyLoop order l).2.map LimitOrder.id) = l.map LimitOrder.id := by
  induction l with
  | nil => rfl
  | cons it rest ih =>
    simp only [modifyLoop]
    split_ifs with hid
    · rw [List.map_cons, List.map_cons, hid]
    · rw [List.map_cons, List.map_cons, ih]

theorem mem_modifyLoop (hnodup : (l.map LimitOrder.id).Nodup) (hstored : stored ∈ l)
    (hid : stored.id = order.id) (o : LimitOrder) :
    o ∈ (modifyLoop order l).2 ↔ o = order ∨ o ∈ l ∧ o.id ≠ order.id := by
  induction l with
  | nil => cases hstored
  | cons it rest ih =>
    obtain ⟨hfresh, hrest⟩ := List.nodup_cons.mp hnodup
    simp only [modifyLoop]
    split_ifs with hit
    · have hother : ∀ o ∈ rest, o.id ≠ order.id := by
        intro o ho heq
        apply hfresh
        rw [hit, ← heq]
        exact List.mem_map_of_mem ho
      rw [List.mem_cons, List.mem_cons]
      constructor
      · intro h
        rcases h with h | h
        · exact Or.inl h
        · exact Or.inr ⟨Or.inr h, hother o h⟩
      · intro h
        rcases h with h | ⟨h | h, hne⟩
        · exact Or.inl h
        · exact absurd (h ▸ hit) hne
        · exact Or.inr h
    · rcases List.mem_cons.mp hstored with heq | hmem
      · exact absurd (heq ▸ hid) hit
      · rw [List.mem_cons, ih hrest hmem, List.mem_cons]
        constructor
        · intro h
          rcases h with h | h | ⟨h, hne⟩
          · exact Or.inr ⟨Or.inl h, h ▸ hit⟩
          · exact Or.inl h
          · exact Or.inr ⟨Or.inr h, hne⟩
        · intro h
          rcases h with h | ⟨h | h, hne⟩
          · exact Or.inr (Or.inl h)
          · exact Or.inl h
          · exact Or.inr (Or.inr ⟨h, hne⟩)

theorem sum_modifyLoop : ((modifyLoop order l).2.map LimitOrder.volume).sum =
    (l.map LimitOrder.volume).sum + (modifyLoop order l).1 := by
  induction l with
  | nil => rfl
  | cons it rest ih =>
    simp only [modifyLoop]
    split_ifs
    · simp only [List.map_cons, List.sum_cons]
      omega
    · simp only [List.map_cons, List.sum_cons, ih]
      omega

end Loops

structure Holds (q : ℕ → Option LimitOrder) (isBuy : Bool) (p : ℕ) (level : PriceLevel) : Prop where
  price : level.decimalPrice = p
  total : level.totalVolume = (level.orderList.map LimitOrder.volume).sum
  nodup : (level.orderList.map LimitOrder.id).Nodup
  mem : ∀ order, order ∈ level.orderList ↔
    q order.id = some order ∧ order.isBuy = isBuy ∧ order.decimalPrice = p

section Holds

variable {q : ℕ → Option LimitOrder} {isBuy : Bool} {p : ℕ} {level : PriceLevel}
  {order stored : LimitOrder}

theorem Holds.congr (h : level.Holds q isBuy p) {id : ℕ} {v : Option LimitOrder}
    (hold : ∀ o, q id = some o → ¬(o.isBuy = isBuy ∧ o.decimalPrice = p))
    (hnew : ∀ o, v = some o → ¬(o.isBuy = isBuy ∧ o.decimalPrice = p)) :
    level.Holds (Function.update q id v) isBuy p where
  price := h.price
  total := h.total
  nodup := h.nodup
  mem := by
    intro o
    rw [h.mem]
    by_cases hid : o.id = id
    · subst hid
      rw [Function.update_self]
      constructor
      · exact fun hboth => absurd hboth.2 (hold o hboth.1)
      · exact fun hboth => absurd hboth.2 (hnew o hboth.1)
    · rw [Function.update_of_ne hid]

theorem Holds.addOrder (h : level.Holds q order.isBuy order.decimalPrice)
    (hnone : q order.id = none) :
    (level.addOrder order).Holds (Function.update q order.id (some order)) order.isBuy
      order.decimalPrice where
  price := h.price
  total := by
    rw [PriceLevel.addOrder, List.map_append, List.sum_append, h.total]
    simp
  nodup := by
    rw [PriceLevel.addOrder, List.map_append]
    refine List.nodup_append.mpr ⟨h.nodup, List.nodup_singleton _, fun id hid id' hid' => ?_⟩
    obtain ⟨o, ho, rfl⟩ := List.mem_map.mp hid
    rw [List.map_singleton, List.mem_singleton] at hid'
    subst hid'
    intro heq
    have hstored := ((h.mem o).mp ho).1
    rw [heq, hnone] at hstored
    cases hstored
  mem := by
    intro o
    rw [PriceLevel.addOrder, List.mem_append, List.mem_singleton, h.mem]
    by_cases hid : o.id = order.id
    · rw [hid, Function.update_self, hnone]
      constructor
      · intro hor
        rcases hor with ⟨hnot, -⟩ | rfl
        · cases hnot
        · exact ⟨rfl, rfl, rfl⟩
      · exact fun hboth => Or.inr (Option.some.inj hboth.1).symm
    · rw [Function.update_of_ne hid]
      constructor
      · intro hor
        rcases hor with hold | rfl
        · exact hold
        · exact absurd rfl hid
      · exact Or.inl

theorem Holds.removeOrder (h : level.Holds q stored.isBuy stored.decimalPrice)
    (hstored : q stored.id = some stored) (hid : order.id = stored.id)
    (hvolume : order.volume = stored.volume) :
    (level.removeOrder order).Holds (Function.update q stored.id none) stored.isBuy
      stored.decimalPrice := by
  have hmem := (h.mem stored).mpr ⟨hstored, rfl, rfl⟩
  have hlist : (level.removeOrder order).orderList =
      level.orderList.filter (·.id ≠ stored.id) := by
    rw [← hid]
    exact removeLoop_list h.nodup
  refine ⟨h.price, ?_, ?_, fun o => ?_⟩
  · rw [hlist, sum_filter_id h.nodup hmem, PriceLevel.removeOrder,
      removeLoop_volume hmem hid.symm, h.total, hvolume]
  · rw [hlist]
    exact h.nodup.sublist (List.filter_sublist.map _)
  · rw [hlist, List.mem_filter, h.mem]
    by_cases ho : o.id = stored.id
    · simp [ho]
    · simp [ho]

theorem Holds.modifyOrder (h : level.Holds q order.isBuy order.decimalPrice)
    (hstored : q order.id = some stored) (hid : stored.id = order.id)
    (hside : stored.isBuy = order.isBuy) (hprice : stored.decimalPrice = order.decimalPrice) :
    (level.modifyOrder order).Holds (Function.update q order.id (some order)) order.isBuy
      order.decimalPrice := by
  have hmem := (h.mem stored).mpr ⟨hid.symm ▸ hstored, hside, hprice⟩
  refine ⟨h.price, ?_, ?_, fun o => ?_⟩
  · rw [PriceLevel.modifyOrder, sum_modifyLoop, h.total]
  · rw [PriceLevel.modifyOrder, ids_modifyLoop]
    exact h.nodup
  · rw [PriceLevel.modifyOrder, mem_modifyLoop h.nodup hmem hid, h.mem]
    by_cases ho : o.id = order.id
    · rw [ho, Function.update_self]
      constructor
      · intro hor
        rcases hor with rfl | ⟨-, hne⟩
        · exact ⟨rfl, rfl, rfl⟩
        · exact absurd rfl hne
      · exact fun hboth => Or.inl (Option.some.inj hboth.1).symm
    · rw [Function.update_of_ne ho]
      constructor
      · intro hor
        rcases hor with rfl | ⟨hold, -⟩
        · exact absurd rfl ho
        · exact hold
      · exact fun hold => Or.inr ⟨hold, ho⟩

theorem Holds.total_eq_zero_iff (h : level.Holds q isBuy p)
    (hpositive : ∀ id o, q id = some o → 0 < o.volume) :
    level.totalVolume = 0 ↔ level.orderList = [] := by
  rw [h.total]
  constructor
  · intro hzero
    cases hlist : level.orderList with
    | nil => rfl
    | cons o rest =>
      have hvolume : ∀ o' ∈ o :: rest, 0 < o'.volume := by
        intro o' ho'
        exact hpositive _ o' ((h.mem o').mp (hlist ▸ ho')).1
      have hrest : 0 ≤ (rest.map LimitOrder.volume).sum := by
        refine List.sum_nonneg fun v hv => ?_
        obtain ⟨o', ho', rfl⟩ := List.mem_map.mp hv
        exact (hvolume o' (List.mem_cons_of_mem _ ho')).le
      have hhead := hvolume o List.mem_cons_self
      rw [hlist, List.map_cons, List.sum_cons] at hzero
      omega
  · intro hempty
    rw [hempty]
    rfl

end Holds

end PriceLevel

namespace OrderBook

section Levels

variable (book : OrderBook) (p p' : ℕ) (isBuy isBuy' : Bool)

theorem fndLevel_putLevel (level : PriceLevel) :
    (book.putLevel p isBuy level).fndLevel p' isBuy' =
      if p' = p ∧ isBuy' = isBuy then some level else book.fndLevel p' isBuy' := by
  cases isBuy
  · cases isBuy'
    · simp [putLevel, fndLevel, SortedMap.find?_insert]
    · simp [putLevel, fndLevel]
  · cases isBuy'
    · simp [putLevel, fndLevel]
    · simp [putLevel, fndLevel, SortedMap.find?_insert]

theorem fndLevel_eraseLevel :
    (book.eraseLevel p isBuy).fndLevel p' isBuy' =
      if p' = p ∧ isBuy' = isBuy then none else book.fndLevel p' isBuy' := by
  cases isBuy
  · cases isBuy'
    · simp [eraseLevel, fndLevel, SortedMap.find?_erase]
    · simp [eraseLevel, fndLevel]
  · cases isBuy'
    · simp [eraseLevel, fndLevel]
    · simp [eraseLevel, fndLevel, SortedMap.find?_erase]

theorem orderMap_putLevel (level : PriceLevel) :
    (book.putLevel p isBuy level).orderMap = book.orderMap := by
  cases isBuy <;> rfl

theorem orderMap_eraseLevel : (book.eraseLevel p isBuy).orderMap = book.orderMap := by
  cases isBuy <;> rfl

theorem orderMap_findOrCreateLevel (node : ℕ) (price : ℚ) :
    (book.findOrCreateLevel node price p isBuy).2.orderMap = book.orderMap := by
  unfold findOrCreateLevel
  cases book.fndLevel p isBuy with
  | some level => rfl
  | none => exact orderMap_putLevel book p isBuy _

theorem findOrCreateLevel_fst (node : ℕ) (price : ℚ) :
    (book.findOrCreateLevel node price p isBuy).1 =
      (book.fndLevel p isBuy).getD ⟨node, price, 0, []⟩ := by
  unfold findOrCreateLevel
  cases book.fndLevel p isBuy <;> rfl

theorem fndLevel_findOrCreateLevel (node : ℕ) (price : ℚ) (level : PriceLevel) :
    ((book.findOrCreateLevel node price p isBuy).2.putLevel p isBuy level).fndLevel p' isBuy' =
      if p' = p ∧ isBuy' = isBuy then some level else book.fndLevel p' isBuy' := by
  rw [fndLevel_putLevel]
  split_ifs with hsame
  · rfl
  · unfold findOrCreateLevel
    cases book.fndLevel p isBuy with
    | some found => rfl
    | none => simp only [fndLevel_putLevel, if_neg hsame]

def withdraw (rest : PriceLevel) : OrderBook :=
  if rest.totalVolume = 0 then (book.putLevel p isBuy rest).eraseLevel p isBuy
  else book.putLevel p isBuy rest

theorem fndLevel_withdraw (rest : PriceLevel) :
    (book.withdraw p isBuy rest).fndLevel p' isBuy' =
      if p' = p ∧ isBuy' = isBuy then if rest.totalVolume = 0 then none else some rest
      else book.fndLevel p' isBuy' := by
  unfold withdraw
  split_ifs with hzero hplace hplace
  · rw [fndLevel_eraseLevel, if_pos hplace]
  · rw [fndLevel_eraseLevel, if_neg hplace, fndLevel_putLevel, if_neg hplace]
  · rw [fndLevel_putLevel, if_pos hplace]
  · rw [fndLevel_putLevel, if_neg hplace]

theorem orderMap_withdraw (rest : PriceLevel) :
    (book.withdraw p isBuy rest).orderMap = book.orderMap := by
  unfold withdraw
  split_ifs
  · rw [orderMap_eraseLevel, orderMap_putLevel]
  · rw [orderMap_putLevel]

end Levels

section Places

variable {book : OrderBook} {order stored : LimitOrder} {level : PriceLevel} (node : ℕ)

def enterLevel (node : ℕ) (order : LimitOrder) (book : OrderBook) : OrderBook :=
  let r := book.findOrCreateLevel node order.price order.decimalPrice order.isBuy
  r.2.putLevel order.decimalPrice order.isBuy (r.1.addOrder order)

theorem fndLevel_enterLevel (p' : ℕ) (isBuy' : Bool) :
    (book.enterLevel node order).fndLevel p' isBuy' =
      if p' = order.decimalPrice ∧ isBuy' = order.isBuy then
        some (((book.fndLevel order.decimalPrice order.isBuy).getD
          ⟨node, order.price, 0, []⟩).addOrder order)
      else book.fndLevel p' isBuy' := by
  rw [enterLevel, findOrCreateLevel_fst]
  exact fndLevel_findOrCreateLevel book _ p' _ isBuy' node order.price _

theorem orderMap_enterLevel : (book.enterLevel node order).orderMap = book.orderMap := by
  rw [enterLevel, orderMap_putLevel, orderMap_findOrCreateLevel]

def ending (node : ℕ) (order : LimitOrder) (book : OrderBook) : ℕ :=
  (book.fndLevel order.decimalPrice order.isBuy).elim node PriceLevel.address

theorem address_findOrCreateLevel :
    (book.findOrCreateLevel node order.price order.decimalPrice order.isBuy).1.address =
      book.ending node order := by
  rw [findOrCreateLevel_fst, ending]
  cases book.fndLevel order.decimalPrice order.isBuy <;> rfl

theorem addOrder_eq : book.addOrder node order =
    (order.setLevel (book.ending node order),
      { book.enterLevel node (order.setLevel (book.ending node order)) with
        orderMap := book.orderMap.emplace order.id
          (order.setLevel (book.ending node order)) }) := by
  have hadd : book.addOrder node order = (order.setLevel (book.ending node order),
      { book.enterLevel node (order.setLevel (book.ending node order)) with
        orderMap :=
          (book.enterLevel node (order.setLevel (book.ending node order))).orderMap.emplace
            order.id (order.setLevel (book.ending node order)) }) := by
    simp only [OrderBook.addOrder, address_findOrCreateLevel]
    rfl
  rw [hadd, orderMap_enterLevel]

theorem orderMap_addOrder : (book.addOrder node order).2.orderMap =
    book.orderMap.emplace order.id (order.setLevel (book.ending node order)) := by
  rw [addOrder_eq]

theorem fndLevel_addOrder (p' : ℕ) (isBuy' : Bool) :
    (book.addOrder node order).2.fndLevel p' isBuy' =
      if p' = order.decimalPrice ∧ isBuy' = order.isBuy then
        some (((book.fndLevel order.decimalPrice order.isBuy).getD
          ⟨node, order.price, 0, []⟩).addOrder (order.setLevel (book.ending node order)))
      else book.fndLevel p' isBuy' := by
  rw [addOrder_eq]
  exact @fndLevel_enterLevel book (order.setLevel (book.ending node order)) node p' isBuy'

theorem modifyOrder_unknown (hnone : book.orderMap.find? order.id = none)
    (hl : book.fndLevel order.decimalPrice order.isBuy = some level) :
    book.modifyOrder node order = some (order, { book.enterLevel node order with
      orderMap := book.orderMap.emplace order.id order }) := by
  simp only [OrderBook.modifyOrder, hnone, hl, Option.map_some, enterLevel, findOrCreateLevel,
    orderMap_putLevel]

theorem modifyOrder_move (hstored : book.orderMap.find? order.id = some stored)
    (hl : book.fndLevel stored.decimalPrice stored.isBuy = some level)
    (hkey : level.decimalPrice = stored.decimalPrice)
    (hprice : stored.decimalPrice ≠ order.decimalPrice) :
    book.modifyOrder node order = some (order.setLevel (book.ending node order),
      { (book.withdraw stored.decimalPrice stored.isBuy (level.removeOrder stored)).enterLevel
          node order with
        orderMap := book.orderMap.insert order.id
          (order.setLevel (book.ending node order)) }) := by
  have hother : (book.withdraw stored.decimalPrice stored.isBuy (level.removeOrder stored)).fndLevel
      order.decimalPrice order.isBuy = book.fndLevel order.decimalPrice order.isBuy := by
    rw [fndLevel_withdraw, if_neg fun hplace => hprice hplace.1.symm]
  have hend : (book.withdraw stored.decimalPrice stored.isBuy (level.removeOrder stored)).ending
      node order = book.ending node order := by
    rw [ending, hother, ending]
  have hkey' : (level.removeOrder stored).decimalPrice = stored.decimalPrice := hkey
  have hmap := @orderMap_enterLevel (book.withdraw stored.decimalPrice stored.isBuy
    (level.removeOrder stored)) order node
  rw [orderMap_withdraw, enterLevel] at hmap
  rw [withdraw] at hend hmap
  simp only [OrderBook.modifyOrder, hstored, hl, Option.map_some, if_pos hprice, hkey',
    address_findOrCreateLevel, hend, withdraw, enterLevel, hmap]

theorem modifyOrder_rewrite (hstored : book.orderMap.find? order.id = some stored)
    (hl : book.fndLevel stored.decimalPrice stored.isBuy = some level)
    (hprice : stored.decimalPrice = order.decimalPrice) :
    book.modifyOrder node order = some (order.setLevel level.address,
      { book.putLevel stored.decimalPrice stored.isBuy (level.modifyOrder order) with
        orderMap := book.orderMap.insert order.id (order.setLevel level.address) }) := by
  simp only [OrderBook.modifyOrder, hstored, hl, Option.map_some, if_neg (not_not.mpr hprice),
    orderMap_putLevel]

theorem removeOrder_eq (hstored : book.orderMap.find? order.id = some stored)
    (hl : book.fndLevel order.decimalPrice order.isBuy = some level) :
    book.removeOrder order = some (({ book with
      orderMap := book.orderMap.erase order.id } : OrderBook).withdraw order.decimalPrice
        order.isBuy (level.removeOrder order)) := by
  have hl' : ({ book with orderMap := book.orderMap.erase order.id } : OrderBook).fndLevel
      order.decimalPrice order.isBuy = some level := hl
  simp only [OrderBook.removeOrder, hstored, hl', Option.map_some, withdraw]

end Places

/-- The levels hold the orders of a table, each in the level of its side and price, and
no level is empty. -/
structure Holds (q : ℕ → Option LimitOrder) (book : OrderBook) : Prop where
  ids : ∀ id order, q id = some order → order.id = id
  positive : ∀ id order, q id = some order → 0 < order.volume
  level : ∀ isBuy p level, book.fndLevel p isBuy = some level →
    level.Holds q isBuy p ∧ level.orderList ≠ []
  found : ∀ id order, q id = some order →
    ∃ level, book.fndLevel order.decimalPrice order.isBuy = some level

section Holds

variable {q : ℕ → Option LimitOrder} {book book' : OrderBook} {order stored : LimitOrder}

theorem Holds.replace (h : book.Holds q) {id p : ℕ} {isBuy : Bool} {v : Option PriceLevel}
    {w : Option LimitOrder}
    (hbook : ∀ p' isBuy', book'.fndLevel p' isBuy' =
      if p' = p ∧ isBuy' = isBuy then v else book.fndLevel p' isBuy')
    (hold : ∀ o, q id = some o → o.isBuy = isBuy ∧ o.decimalPrice = p)
    (hnew : ∀ o, w = some o → o.id = id ∧ 0 < o.volume ∧ o.isBuy = isBuy ∧ o.decimalPrice = p)
    (hlevel : ∀ level, v = some level →
      level.Holds (Function.update q id w) isBuy p ∧ level.orderList ≠ [])
    (hgone : v = none → ∀ o, Function.update q id w o.id = some o →
      ¬(o.isBuy = isBuy ∧ o.decimalPrice = p)) :
    book'.Holds (Function.update q id w) := by
  have hentry : ∀ id' o, Function.update q id w id' = some o →
      id' = id ∧ w = some o ∨ id' ≠ id ∧ q id' = some o := by
    intro id' o ho
    by_cases hid : id' = id
    · subst hid
      exact Or.inl ⟨rfl, by rwa [Function.update_self] at ho⟩
    · rw [Function.update_of_ne hid] at ho
      exact Or.inr ⟨hid, ho⟩
  have hids : ∀ id' o, Function.update q id w id' = some o → o.id = id' := by
    intro id' o ho
    rcases hentry id' o ho with ⟨rfl, hw⟩ | ⟨-, hq⟩
    · exact (hnew o hw).1
    · exact h.ids id' o hq
  refine ⟨hids, fun id' o ho => ?_, fun isBuy' p' level hl => ?_, fun id' o ho => ?_⟩
  · rcases hentry id' o ho with ⟨-, hw⟩ | ⟨-, hq⟩
    · exact (hnew o hw).2.1
    · exact h.positive id' o hq
  · rw [hbook] at hl
    split_ifs at hl with hplace
    · rw [hplace.1, hplace.2]
      exact hlevel level hl
    · have hother : ∀ o : LimitOrder, o.isBuy = isBuy ∧ o.decimalPrice = p →
          ¬(o.isBuy = isBuy' ∧ o.decimalPrice = p') := by
        intro o ho ho'
        exact hplace ⟨ho'.2.symm.trans ho.2, ho'.1.symm.trans ho.1⟩
      obtain ⟨hlevel', hnonempty⟩ := h.level isBuy' p' level hl
      exact ⟨hlevel'.congr (fun o ho => hother o (hold o ho))
        fun o ho => hother o (hnew o ho).2.2, hnonempty⟩
  · rw [hbook]
    split_ifs with hplace
    · cases hv : v with
      | some level => exact ⟨level, rfl⟩
      | none =>
        refine absurd ⟨hplace.2, hplace.1⟩ (hgone hv o ?_)
        rw [hids id' o ho]
        exact ho
    · rcases hentry id' o ho with ⟨-, hw⟩ | ⟨-, hq⟩
      · obtain ⟨-, -, hside, hprice⟩ := hnew o hw
        exact absurd ⟨hprice, hside⟩ hplace
      · exact h.found id' o hq

theorem Holds.joined (h : book.Holds q) (node : ℕ) (order : LimitOrder) :
    ((book.fndLevel order.decimalPrice order.isBuy).getD ⟨node, order.price, 0, []⟩).Holds q
      order.isBuy order.decimalPrice := by
  cases hl : book.fndLevel order.decimalPrice order.isBuy with
  | some level => exact (h.level _ _ level hl).1
  | none =>
    refine ⟨rfl, rfl, List.nodup_nil, fun o => ⟨fun ho => ?_, fun ho => ?_⟩⟩
    · cases ho
    · obtain ⟨hq, hside, hprice⟩ := ho
      obtain ⟨level, hlevel⟩ := h.found o.id o hq
      rw [hside, hprice, hl] at hlevel
      cases hlevel

theorem Holds.queue (h : book.Holds q) (hnone : q order.id = none) (hvolume : 0 < order.volume)
    (node : ℕ)
    (hbook : ∀ p' isBuy', book'.fndLevel p' isBuy' =
      if p' = order.decimalPrice ∧ isBuy' = order.isBuy then
        some (((book.fndLevel order.decimalPrice order.isBuy).getD
          ⟨node, order.price, 0, []⟩).addOrder order)
      else book.fndLevel p' isBuy') :
    book'.Holds (Function.update q order.id (some order)) := by
  refine h.replace hbook (fun o ho => ?_) (fun o ho => ?_) (fun level hl => ?_) fun hv => ?_
  · rw [hnone] at ho
    cases ho
  · rw [← Option.some.inj ho]
    exact ⟨rfl, hvolume, rfl, rfl⟩
  · rw [← Option.some.inj hl]
    exact ⟨(h.joined node order).addOrder hnone, List.append_ne_nil_of_right_ne_nil _ (by simp)⟩
  · cases hv

theorem Holds.rest_total (h : book.Holds q) (hstored : q stored.id = some stored)
    {level : PriceLevel} (hl : book.fndLevel stored.decimalPrice stored.isBuy = some level)
    (hid : order.id = stored.id) (hvolume : order.volume = stored.volume) :
    (level.removeOrder order).totalVolume = 0 ↔ (level.removeOrder order).orderList = [] := by
  have hlevel := (h.level _ _ level hl).1.removeOrder hstored hid hvolume
  refine hlevel.total_eq_zero_iff fun id o ho => ?_
  by_cases hkey : id = stored.id
  · rw [hkey, Function.update_self] at ho
    cases ho
  · rw [Function.update_of_ne hkey] at ho
    exact h.positive id o ho

theorem Holds.withdraw (h : book.Holds q) (hstored : q stored.id = some stored)
    {level : PriceLevel} (hl : book.fndLevel stored.decimalPrice stored.isBuy = some level)
    (hid : order.id = stored.id) (hvolume : order.volume = stored.volume)
    (hbook : ∀ p' isBuy', book'.fndLevel p' isBuy' =
      if p' = stored.decimalPrice ∧ isBuy' = stored.isBuy then
        if (level.removeOrder order).totalVolume = 0 then none else some (level.removeOrder order)
      else book.fndLevel p' isBuy') :
    book'.Holds (Function.update q stored.id none) := by
  have hlevel := (h.level _ _ level hl).1.removeOrder hstored hid hvolume
  have hzero := h.rest_total hstored hl hid hvolume
  refine h.replace hbook (fun o ho => ?_) (fun o ho => ?_) (fun level' hl' => ?_) fun hv o ho => ?_
  · rw [hstored] at ho
    rw [← Option.some.inj ho]
    exact ⟨rfl, rfl⟩
  · cases ho
  · split_ifs at hl' with hempty
    rw [← Option.some.inj hl']
    exact ⟨hlevel, mt hzero.mpr hempty⟩
  · split_ifs at hv with hempty
    intro hplace
    have hmem := (hlevel.mem o).mpr ⟨ho, hplace⟩
    rw [hzero.mp hempty] at hmem
    cases hmem

theorem Holds.rewrite (h : book.Holds q) (hstored : q order.id = some stored)
    (hside : stored.isBuy = order.isBuy) (hprice : stored.decimalPrice = order.decimalPrice)
    (hvolume : 0 < order.volume) {level : PriceLevel}
    (hl : book.fndLevel order.decimalPrice order.isBuy = some level)
    (hbook : ∀ p' isBuy', book'.fndLevel p' isBuy' =
      if p' = order.decimalPrice ∧ isBuy' = order.isBuy then some (level.modifyOrder order)
      else book.fndLevel p' isBuy') :
    book'.Holds (Function.update q order.id (some order)) := by
  have hid := h.ids order.id stored hstored
  have hlevel := (h.level _ _ level hl).1.modifyOrder hstored hid hside hprice
  refine h.replace hbook (fun o ho => ?_) (fun o ho => ?_) (fun level' hl' => ?_) fun hv => ?_
  · rw [hstored] at ho
    rw [← Option.some.inj ho]
    exact ⟨hside, hprice⟩
  · rw [← Option.some.inj ho]
    exact ⟨rfl, hvolume, rfl, rfl⟩
  · rw [← Option.some.inj hl']
    refine ⟨hlevel, List.ne_nil_of_mem ((hlevel.mem order).mpr ⟨?_, rfl, rfl⟩)⟩
    exact Function.update_self _ _ _
  · cases hv

end Holds

end OrderBook

theorem LimitOrder.Same.fields {order order' : LimitOrder} (h : order.Same order') :
    order.id = order'.id ∧ order.isBuy = order'.isBuy ∧ order.volume = order'.volume ∧
      order.decimalPrice = order'.decimalPrice := by
  simp only [LimitOrder.Same, LimitOrder.setLevel, LimitOrder.mk.injEq] at h
  obtain ⟨hid, hside, hvolume, hprice, -⟩ := h
  exact ⟨hid, hside, hvolume, by rw [LimitOrder.decimalPrice, hprice, LimitOrder.decimalPrice]⟩

namespace OrderBook

def Kept (R : LimitOrder → LimitOrder → Prop) (book : OrderBook) : Prop :=
  ∃ q, book.Holds q ∧ ∀ id, Option.Rel R (book.orderMap.find? id) (q id)

section Kept

variable {R : LimitOrder → LimitOrder → Prop} {book : OrderBook} {order stored : LimitOrder}

theorem exists_copy {o c : Option LimitOrder} (h : Option.Rel R o c) (ho : o = some stored) :
    ∃ copy, c = some copy ∧ R stored copy := by
  cases hc : c with
  | none =>
    rw [ho, hc] at h
    exact absurd h Option.not_rel_some_none
  | some copy =>
    rw [ho, hc, Option.rel_some_some] at h
    exact ⟨copy, rfl, h⟩

theorem no_copy {o c : Option LimitOrder} (h : Option.Rel R o c) (ho : o = none) : c = none := by
  cases hc : c with
  | none => rfl
  | some copy =>
    rw [ho, hc] at h
    exact absurd h Option.not_rel_none_some

theorem rel_update {o c : ℕ → Option LimitOrder} (h : ∀ id, Option.Rel R (o id) (c id)) {id : ℕ}
    {v w : Option LimitOrder} (hv : Option.Rel R v w) (id' : ℕ) :
    Option.Rel R (if id' = id then v else o id') (Function.update c id w id') := by
  by_cases hid : id' = id
  · rw [if_pos hid, hid, Function.update_self]
    exact hv
  · rw [if_neg hid, Function.update_of_ne hid]
    exact h id'

theorem Kept.enterLevel (h : book.Kept R) (hrefl : ∀ o, R o o) (node : ℕ)
    (hvolume : 0 < order.volume) (hnone : book.orderMap.find? order.id = none) :
    ({ book.enterLevel node order with orderMap := book.orderMap.emplace order.id order } :
      OrderBook).Kept R := by
  obtain ⟨q, hq, hrel⟩ := h
  refine ⟨Function.update q order.id (some order), ?_, fun id => ?_⟩
  · exact @Holds.queue q book _ order hq (no_copy (hrel order.id) hnone) hvolume node
      (@fndLevel_enterLevel book order node)
  · rw [SortedMap.emplace_of_find?_none hnone, SortedMap.find?_insert]
    exact rel_update hrel (Option.Rel.some (hrefl _)) id

theorem Kept.addOrder (h : book.Kept R) (hrefl : ∀ o, R o o) (node : ℕ) (hvolume : 0 < order.volume)
    (hnone : book.orderMap.find? order.id = none) : (book.addOrder node order).2.Kept R := by
  rw [addOrder_eq]
  exact @Kept.enterLevel R book (order.setLevel (book.ending node order)) h hrefl node hvolume hnone

/-- A change of a stored order succeeds. The map is given its copy last, with the pointer
to the level, the level is given its own before that. -/
theorem Kept.modifyOrder (h : book.Kept R) (hsame : ∀ o c, R o c → o.Same c) (node : ℕ)
    (hvolume : 0 < order.volume) (hstored : book.orderMap.find? order.id = some stored)
    (hplace : stored.decimalPrice = order.decimalPrice → stored.isBuy = order.isBuy) :
    ∃ book', book.modifyOrder node order = some (order.setLevel (book.ending node order), book') ∧
      (R (order.setLevel (book.ending node order)) order → book'.Kept R) := by
  obtain ⟨q, hq, hrel⟩ := h
  obtain ⟨copy, hcopy, hagree⟩ := exists_copy (hrel order.id) hstored
  have hid := hq.ids order.id copy hcopy
  obtain ⟨hid', hside', hvolume', hprice'⟩ := (hsame _ _ hagree).fields
  obtain ⟨level, hl⟩ := hq.found order.id copy hcopy
  have hlevel := (hq.level _ _ level hl).1
  rw [← hprice', ← hside'] at hl
  by_cases hprice : stored.decimalPrice = order.decimalPrice
  · -- the level keeps the order where it is
    have hside := hplace hprice
    have hend : book.ending node order = level.address := by
      rw [ending, ← hprice, ← hside, hl, Option.elim_some]
    rw [hend]
    refine ⟨_, modifyOrder_rewrite node hstored hl hprice, fun hR =>
      ⟨Function.update q order.id (some order), ?_, fun id => ?_⟩⟩
    · rw [hprice, hside] at hl ⊢
      exact hq.rewrite hcopy (hside'.symm.trans hside) (hprice'.symm.trans hprice) hvolume hl
        fun p' isBuy' => fndLevel_putLevel book _ p' _ isBuy' _
    · rw [SortedMap.find?_insert]
      exact rel_update hrel (Option.Rel.some hR) id
  · -- the order leaves its level, and then joins the one at the new price
    have hkey : level.decimalPrice = stored.decimalPrice := hlevel.price.trans hprice'.symm
    refine ⟨_, modifyOrder_move node hstored hl hkey hprice, fun hR =>
      ⟨Function.update q order.id (some order), ?_, fun id => ?_⟩⟩
    · rw [hprice', hside'] at hl ⊢
      have hwithdrawn := hq.withdraw (hid.symm ▸ hcopy) hl hid' hvolume'
        fun p' isBuy' => fndLevel_withdraw book _ p' _ isBuy' (level.removeOrder stored)
      rw [hid] at hwithdrawn
      have hqueued := hwithdrawn.queue (Function.update_self _ _ _) hvolume node
        (fndLevel_enterLevel node)
      rw [Function.update_idem] at hqueued
      exact ⟨hqueued.ids, hqueued.positive, hqueued.level, hqueued.found⟩
    · rw [SortedMap.find?_insert]
      exact rel_update hrel (Option.Rel.some hR) id

theorem Kept.removeOrder (h : book.Kept R) (hsame : ∀ o c, R o c → o.Same c)
    (hstored : ∀ stored, book.orderMap.find? order.id = some stored → order.isBuy = stored.isBuy ∧
      order.decimalPrice = stored.decimalPrice ∧ order.volume = stored.volume) :
    ∃ book', book.removeOrder order = some book' ∧ book'.Kept R := by
  obtain ⟨q, hq, hrel⟩ := h
  cases hfound : book.orderMap.find? order.id with
  | none => exact ⟨book, by rw [OrderBook.removeOrder, hfound], q, hq, hrel⟩
  | some stored =>
    obtain ⟨copy, hcopy, hagree⟩ := exists_copy (hrel order.id) hfound
    obtain ⟨-, hside', hvolume', hprice'⟩ := (hsame _ _ hagree).fields
    obtain ⟨hside, hprice, hvolume⟩ := hstored stored hfound
    have hid := hq.ids order.id copy hcopy
    obtain ⟨level, hl⟩ := hq.found order.id copy hcopy
    rw [← hprice', ← hside', ← hprice, ← hside] at hl
    refine ⟨_, removeOrder_eq hfound hl, Function.update q order.id none, ?_, fun id => ?_⟩
    · rw [hprice, hprice', hside, hside'] at hl ⊢
      have hwithdrawn := hq.withdraw (hid.symm ▸ hcopy) hl hid.symm (hvolume.trans hvolume')
        fun p' isBuy' => fndLevel_withdraw { book with
          orderMap := book.orderMap.erase order.id } _ p' _ isBuy' (level.removeOrder order)
      rw [hid] at hwithdrawn
      exact hwithdrawn
    · rw [orderMap_withdraw, SortedMap.find?_erase]
      exact rel_update hrel Option.Rel.none id

theorem kept_empty (tid : ℕ) : ({ tid } : OrderBook).Kept R := by
  refine ⟨fun _ => none, ⟨fun _ _ h => ?_, fun _ _ h => ?_, fun isBuy p level h => ?_,
    fun _ _ h => ?_⟩, fun _ => Option.Rel.none⟩
  · cases h
  · cases h
  · cases isBuy <;> cases h
  · cases h

theorem Kept.step (h : book.Kept R) (hsame : ∀ o c, R o c → o.Same c) (hrefl : ∀ o, R o o)
    {op : Operation} (hop : book.Allowed op)
    (hcopies : ∀ node order, op = .modifyOrder node order →
      R (order.setLevel (book.ending node order)) order) :
    ∃ book', book.step op = some book' ∧ book'.Kept R := by
  cases op with
  | addOrder node order => exact ⟨_, rfl, h.addOrder hrefl node hop.1 hop.2⟩
  | modifyOrder node order =>
    obtain ⟨hvolume, stored, hstored, hside⟩ := hop
    obtain ⟨book', hmodified, hkept⟩ := h.modifyOrder hsame node hvolume hstored fun _ => hside
    refine ⟨book', ?_, hkept (hcopies node order rfl)⟩
    rw [OrderBook.step, hmodified]
    rfl
  | removeOrder order =>
    refine h.removeOrder hsame fun stored hstored => ?_
    obtain ⟨-, hside, hvolume, hprice⟩ := (hop stored hstored).fields
    exact ⟨hside, hprice, hvolume⟩

theorem filter_id {l : List LimitOrder} (hnodup : (l.map LimitOrder.id).Nodup)
    {copy : LimitOrder} (hmem : copy ∈ l) : l.filter (·.id = copy.id) = [copy] := by
  induction l with
  | nil => cases hmem
  | cons it rest ih =>
    obtain ⟨hfresh, hrest⟩ := List.nodup_cons.mp hnodup
    rw [List.filter_cons]
    rcases List.mem_cons.mp hmem with rfl | hmem
    · have hnone : ∀ o ∈ rest, ¬decide (o.id = copy.id) = true := by
        intro o ho heq
        apply hfresh
        rw [← of_decide_eq_true heq]
        exact List.mem_map_of_mem ho
      rw [if_pos (decide_eq_true rfl), List.filter_eq_nil_iff.mpr hnone]
    · have hne : it.id ≠ copy.id := by
        intro heq
        apply hfresh
        rw [heq]
        exact List.mem_map_of_mem hmem
      rw [if_neg fun heq => hne (of_decide_eq_true heq), ih hrest hmem]

theorem Kept.represents (h : book.Kept R) (hsame : ∀ o c, R o c → o.Same c) :
    book.Represents R := by
  obtain ⟨q, hq, hrel⟩ := h
  have hqueued : ∀ isBuy p level, book.fndLevel p isBuy = some level → ∀ o ∈ level.orderList,
      q o.id = some o ∧ o.isBuy = isBuy ∧ o.decimalPrice = p :=
    fun isBuy p level hl o ho => ((hq.level isBuy p level hl).1.mem o).mp ho
  have hplaced : ∀ id order, book.orderMap.find? id = some order → ∃ copy level,
      copy.id = id ∧ q id = some copy ∧ R order copy ∧
        book.fndLevel order.decimalPrice order.isBuy = some level ∧ copy ∈ level.orderList := by
    intro id order horder
    obtain ⟨copy, hcopy, hagree⟩ := exists_copy (hrel id) horder
    obtain ⟨-, hside, -, hprice⟩ := (hsame _ _ hagree).fields
    obtain ⟨level, hl⟩ := hq.found id copy hcopy
    have hid := hq.ids id copy hcopy
    refine ⟨copy, level, hid, hcopy, hagree, by rw [hprice, hside, hl], ?_⟩
    exact ((hq.level _ _ level hl).1.mem copy).mpr ⟨hid.symm ▸ hcopy, rfl, rfl⟩
  refine ⟨fun id => ⟨fun hex => ?_, fun hex => ?_⟩, fun id order horder => ?_,
    fun id order horder isBuy p level hl hex => ?_, fun isBuy p level hl => ?_,
    fun isBuy p level hl => (hq.level isBuy p level hl).2, ?_, ?_⟩
  · obtain ⟨order, horder⟩ := hex
    obtain ⟨copy, level, hid, -, -, hl, hmem⟩ := hplaced id order horder
    exact ⟨_, _, level, hl, copy, hmem, hid⟩
  · obtain ⟨isBuy, p, level, hl, o, ho, hid⟩ := hex
    obtain ⟨hcopy, -⟩ := hqueued isBuy p level hl o ho
    rw [hid] at hcopy
    cases horder : book.orderMap.find? id with
    | none =>
      rw [no_copy (hrel id) horder] at hcopy
      cases hcopy
    | some order => exact ⟨order, rfl⟩
  · obtain ⟨copy, level, hid, -, hagree, hl, hmem⟩ := hplaced id order horder
    refine ⟨(hsame _ _ hagree).fields.1.trans hid, level, hl, copy, ?_, hagree⟩
    rw [← hid]
    exact filter_id (hq.level _ _ level hl).1.nodup hmem
  · obtain ⟨o, ho, hid⟩ := hex
    obtain ⟨hcopy, hside, hprice⟩ := hqueued isBuy p level hl o ho
    obtain ⟨copy, -, -, hcopy', hagree, -, -⟩ := hplaced id order horder
    rw [hid, hcopy'] at hcopy
    obtain ⟨-, hside', -, hprice'⟩ := (hsame _ _ hagree).fields
    rw [← hside, ← hprice, ← Option.some.inj hcopy]
    exact ⟨hside'.symm, hprice'.symm⟩
  · exact (hq.level isBuy p level hl).1.total
  · rcases book.buyLevels.values_head? with hempty | ⟨p, hbest, hsome, hrest⟩
    · exact Or.inl hempty
    · refine Or.inr ⟨p, hbest, hsome, fun p' hp' => ?_⟩
      rcases hrest p' hp' with rfl | hlt
      · exact le_rfl
      · exact le_of_lt hlt
  · rcases book.sellLevels.values_head? with hempty | ⟨p, hbest, hsome, hrest⟩
    · exact Or.inl hempty
    · refine Or.inr ⟨p, hbest, hsome, fun p' hp' => ?_⟩
      rcases hrest p' hp' with rfl | hlt
      · exact le_rfl
      · exact le_of_lt hlt

end Kept

/-- The book is in order but for the pointers, and the pointers too where every change is
given an order that points to its level already. -/
theorem orderBook_represents (tid : ℕ) (book : OrderBook) :
    (Execution.Reaches OrderBook.step Allowed { tid } book →
      book.Represents LimitOrder.Same ∧ ∀ op, book.Allowed op → ∃ book', book.step op = some book') ∧
    (Execution.Reaches OrderBook.step (fun book op => book.Allowed op ∧ book.PointsToLevel op)
        { tid } book →
      book.Represents Eq) := by
  have hsame : ∀ o c : LimitOrder, o = c → o.Same c := by
    intro o c heq
    rw [heq]
    rfl
  have hrefl : ∀ o : LimitOrder, o.Same o := fun _ => rfl
  constructor
  · intro h
    have hkept : book.Kept LimitOrder.Same := by
      refine h.invariant (Kept LimitOrder.Same) (fun b op b' hb hop hstep => ?_) (kept_empty tid)
      obtain ⟨b'', hstep', hkept⟩ := hb.step (fun _ _ => id) hrefl hop fun _ _ _ => rfl
      rw [hstep] at hstep'
      rw [Option.some.inj hstep']
      exact hkept
    refine ⟨hkept.represents fun _ _ => id, fun op hop => ?_⟩
    obtain ⟨book', hstep, -⟩ := hkept.step (fun _ _ => id) hrefl hop fun _ _ _ => rfl
    exact ⟨book', hstep⟩
  · intro h
    have hkept : book.Kept Eq := by
      refine h.invariant (Kept Eq) (fun b op b' hb hop hstep => ?_) (kept_empty tid)
      obtain ⟨hallowed, hpoints⟩ := hop
      obtain ⟨b'', hstep', hkept⟩ := hb.step hsame (fun _ => rfl) hallowed fun node order hmodify => by
        subst hmodify
        have hpointer : order.level = b.ending node order := hpoints
        rw [← hpointer]
        rfl
      rw [hstep] at hstep'
      rw [Option.some.inj hstep']
      exact hkept
    exact hkept.represents hsame

def changeFirst (price : ℚ) : List Operation :=
  [.addOrder 1 ⟨0, true, 10, 1, 0⟩, .addOrder 2 ⟨1, true, 5, 1, 0⟩,
    .modifyOrder 3 ⟨0, true, 7, price, 1⟩]

theorem allowed_changeFirst (price : ℚ) :
    Execution.Along OrderBook.step Allowed { tid := 1 } (changeFirst price) := by
  refine ⟨⟨by decide, rfl⟩, fun b hb => ⟨⟨by decide, ?_⟩, fun b' hb' =>
    ⟨⟨?_, ⟨0, true, 10, 1, 1⟩, ?_, rfl⟩, fun _ _ => trivial⟩⟩⟩
  · rw [← Option.some.inj hb]
    decide +kernel
  · show (0 : ℤ) < 7
    decide
  · rw [← Option.some.inj hb', ← Option.some.inj hb]
    show SortedMap.find? _ 0 = _
    decide +kernel

theorem orderBook_represents_change :
    ∃ book, Execution.run OrderBook.step { tid := 1 } (changeFirst 1) = some book ∧
      book.Represents Eq := by
  have hruns : (Execution.run OrderBook.step { tid := 1 } (changeFirst 1)).isSome = true := by
    decide +kernel
  obtain ⟨book, hrun⟩ := Option.isSome_iff_exists.mp hruns
  refine ⟨book, hrun, (orderBook_represents 1 book).2 ⟨changeFirst 1, ?_, hrun⟩⟩
  obtain ⟨hfirst, hrest⟩ := allowed_changeFirst 1
  refine ⟨⟨hfirst, trivial⟩, fun b hb => ?_⟩
  obtain ⟨hsecond, hlast⟩ := hrest b hb
  refine ⟨⟨hsecond, trivial⟩, fun b' hb' => ⟨⟨(hlast b' hb').1, ?_⟩, fun _ _ => trivial⟩⟩
  rw [← Option.some.inj hb', ← Option.some.inj hb]
  show 1 = Option.elim _ 3 PriceLevel.address
  decide +kernel

/-- At the new price the copy in the level points to the old level, the one in the map to
the new one. -/
theorem copies_differ :
    Execution.Along OrderBook.step Allowed { tid := 1 } (changeFirst 2) ∧
      ∃ book, Execution.run OrderBook.step { tid := 1 } (changeFirst 2) = some book ∧
        ¬ book.Represents Eq := by
  have hruns : (Execution.run OrderBook.step { tid := 1 } (changeFirst 2)).map
      (fun book => (book.orderMap.find? 0, (book.fndLevel 20000 true).map PriceLevel.orderList)) =
        some (some ⟨0, true, 7, 2, 3⟩, some [⟨0, true, 7, 2, 1⟩]) := by
    decide +kernel
  obtain ⟨book, hrun, hbook⟩ := Option.map_eq_some_iff.mp hruns
  obtain ⟨hmap, hlist⟩ := Prod.mk.inj hbook
  refine ⟨allowed_changeFirst 2, book, hrun, fun h => ?_⟩
  obtain ⟨-, level, hl, copy, hcopy, heq⟩ := h.stored 0 _ hmap
  have hkey : LimitOrder.decimalPrice ⟨0, true, 7, 2, 3⟩ = 20000 := by decide +kernel
  rw [hkey] at hl
  rw [hl, Option.map_some, Option.some.injEq] at hlist
  rw [hlist, ← heq] at hcopy
  exact absurd hcopy (by decide +kernel)

end OrderBook

end FlareTrader.Orderbook
