import FlareTrader.OrderBook

/-! Orders of the book are looked up by their ids, the fields of the order that a call is
given decide only together with the id. What a removal and a change leave is compared
with the removal of the stored order and with adding the new one. -/

namespace FlareTrader.Orderbook

structure PriceLevel.SameBut (id : ℕ) (level level' : PriceLevel) : Prop where
  price : level.price = level'.price
  total : level.totalVolume = level'.totalVolume
  others : (level.orderList.filter (·.id ≠ id)).map (LimitOrder.setLevel 0) =
    (level'.orderList.filter (·.id ≠ id)).map (LimitOrder.setLevel 0)
  own : (level.orderList.filter (·.id = id)).map (LimitOrder.setLevel 0) =
    (level'.orderList.filter (·.id = id)).map (LimitOrder.setLevel 0)

theorem PriceLevel.SameBut.refl (id : ℕ) (level : PriceLevel) : level.SameBut id level :=
  ⟨rfl, rfl, rfl, rfl⟩

theorem PriceLevel.SameBut.addOrder {id : ℕ} {level level' : PriceLevel}
    (h : level.SameBut id level') {order order' : LimitOrder} (hsame : order.Same order') :
    (level.addOrder order).SameBut id (level'.addOrder order') := by
  obtain ⟨hid, -, hvolume, -⟩ := hsame.fields
  have hsame' : order.setLevel 0 = order'.setLevel 0 := hsame
  refine ⟨h.price, ?_, ?_, ?_⟩
  · rw [PriceLevel.addOrder, PriceLevel.addOrder, h.total, hvolume]
  · rw [PriceLevel.addOrder, PriceLevel.addOrder, List.filter_append, List.filter_append,
      List.map_append, List.map_append, h.others, List.filter_cons, List.filter_cons, hid]
    split_ifs
    · rw [List.map_cons, List.map_cons, hsame', List.filter_nil]
    · rfl
  · rw [PriceLevel.addOrder, PriceLevel.addOrder, List.filter_append, List.filter_append,
      List.map_append, List.map_append, h.own, List.filter_cons, List.filter_cons, hid]
    split_ifs
    · rw [List.map_cons, List.map_cons, hsame', List.filter_nil]
    · rfl

namespace PriceLevel

variable {l : List LimitOrder} {level : PriceLevel} {order stored : LimitOrder}

theorem removeLoop_congr (hid : order.id = stored.id) (hvolume : order.volume = stored.volume) :
    removeLoop order l = removeLoop stored l := by
  induction l with
  | nil => rfl
  | cons it rest ih => simp only [removeLoop, ih, hid, hvolume]

theorem others_modifyLoop : (modifyLoop order l).2.filter (·.id ≠ order.id) =
    l.filter (·.id ≠ order.id) := by
  induction l with
  | nil => rfl
  | cons it rest ih =>
    simp only [modifyLoop]
    split_ifs with hid
    · rw [List.filter_cons, List.filter_cons, if_neg (by simp), if_neg (by simp [hid])]
    · rw [List.filter_cons, List.filter_cons, ih]

theorem own_modifyLoop (hnodup : (l.map LimitOrder.id).Nodup) (hstored : stored ∈ l)
    (hid : stored.id = order.id) : (modifyLoop order l).2.filter (·.id = order.id) = [order] := by
  refine OrderBook.filter_id ?_ ((mem_modifyLoop hnodup hstored hid order).mpr (Or.inl rfl))
  rw [ids_modifyLoop]
  exact hnodup

theorem modifyLoop_volume (hnodup : (l.map LimitOrder.id).Nodup) (hstored : stored ∈ l)
    (hid : stored.id = order.id) : (modifyLoop order l).1 = order.volume - stored.volume := by
  induction l with
  | nil => cases hstored
  | cons it rest ih =>
    obtain ⟨hfresh, hrest⟩ := List.nodup_cons.mp hnodup
    simp only [modifyLoop]
    rcases List.mem_cons.mp hstored with heq | hmem
    · rw [heq] at hid ⊢
      rw [if_pos hid]
    · rw [if_neg, ih hrest hmem]
      intro hit
      apply hfresh
      rw [hit, ← hid]
      exact List.mem_map_of_mem hmem

end PriceLevel

namespace OrderBook

structure SameBut (id : ℕ) (book book' : OrderBook) : Prop where
  orderMap : ∀ id', Option.Rel LimitOrder.Same (book.orderMap.find? id') (book'.orderMap.find? id')
  levels : ∀ p isBuy, Option.Rel (PriceLevel.SameBut id) (book.fndLevel p isBuy)
    (book'.fndLevel p isBuy)

/-- A removal is given what is stored but for the price below its decimals, a change of side
comes with a change of the decimal price, and an unknown order is changed only where its
level exists. -/
def Faithful (book : OrderBook) : Operation → Prop
  | .addOrder _ order => 0 < order.volume ∧ book.orderMap.find? order.id = none
  | .modifyOrder _ order => 0 < order.volume ∧
      (book.orderMap.find? order.id = none →
        ∃ level, book.fndLevel order.decimalPrice order.isBuy = some level) ∧
      ∀ stored, book.orderMap.find? order.id = some stored →
        stored.decimalPrice = order.decimalPrice → stored.isBuy = order.isBuy
  | .removeOrder order => ∀ stored, book.orderMap.find? order.id = some stored →
      order.isBuy = stored.isBuy ∧ order.decimalPrice = stored.decimalPrice ∧
        order.volume = stored.volume

structure Rests (stored : LimitOrder) (level : PriceLevel) (book : OrderBook) : Prop where
  found : book.fndLevel stored.decimalPrice stored.isBuy = some level
  key : level.decimalPrice = stored.decimalPrice
  nodup : (level.orderList.map LimitOrder.id).Nodup
  copy : ∃ copy ∈ level.orderList, copy.id = stored.id ∧ copy.volume = stored.volume
  rest : (level.removeOrder stored).totalVolume = 0 ↔ (level.removeOrder stored).orderList = []
  elsewhere : ∀ p isBuy level', book.fndLevel p isBuy = some level' →
    ¬(p = stored.decimalPrice ∧ isBuy = stored.isBuy) →
      level'.totalVolume ≠ 0 ∧ ∀ o ∈ level'.orderList, o.id ≠ stored.id

section Rests

variable {book : OrderBook} {order stored : LimitOrder} {level : PriceLevel}

theorem Kept.rests {id : ℕ} (h : book.Kept LimitOrder.Same)
    (hstored : book.orderMap.find? id = some stored) :
    stored.id = id ∧ ∃ level, book.Rests stored level := by
  obtain ⟨q, hq, hrel⟩ := h
  obtain ⟨copy, hcopy, hagree⟩ := exists_copy (hrel id) hstored
  obtain ⟨hid, hside, hvolume, hprice⟩ := LimitOrder.Same.fields hagree
  have hcid := hq.ids id copy hcopy
  obtain ⟨level, hl⟩ := hq.found id copy hcopy
  have hlevel := (hq.level _ _ level hl).1
  have hstays : q copy.id = some copy := by rw [hcid, hcopy]
  have hmem := (hlevel.mem copy).mpr ⟨hstays, rfl, rfl⟩
  refine ⟨hid.trans hcid, level, by rw [hprice, hside, hl], by rw [hprice, hlevel.price],
    hlevel.nodup, ⟨copy, hmem, hid.symm, hvolume.symm⟩, hq.rest_total hstays hl hid hvolume,
    fun p isBuy level' hl' hplace => ⟨fun hzero => ?_, fun o ho heq => ?_⟩⟩
  · obtain ⟨hlevel', hnonempty⟩ := hq.level isBuy p level' hl'
    exact hnonempty ((hlevel'.total_eq_zero_iff hq.positive).mp hzero)
  · obtain ⟨ho, hside', hprice'⟩ := ((hq.level isBuy p level' hl').1.mem o).mp ho
    rw [heq, hid, hstays] at ho
    rw [hprice, hside, Option.some.inj ho] at hplace
    exact hplace ⟨hprice'.symm, hside'.symm⟩

theorem rel_refl {id : ℕ} (found : Option PriceLevel) :
    Option.Rel (PriceLevel.SameBut id) found found := by
  cases found with
  | none => exact Option.Rel.none
  | some level => exact Option.Rel.some (PriceLevel.SameBut.refl id level)

variable (hrests : book.Rests stored level)
include hrests

theorem Rests.rest_list : (level.removeOrder stored).orderList =
    level.orderList.filter (·.id ≠ stored.id) :=
  PriceLevel.removeLoop_list hrests.nodup

theorem Rests.total_removeOrder (hid : order.id = stored.id) :
    (level.removeOrder order).totalVolume = level.totalVolume - order.volume := by
  obtain ⟨copy, hmem, hcid, -⟩ := hrests.copy
  rw [PriceLevel.removeOrder, PriceLevel.removeLoop_volume hmem (hcid.trans hid.symm)]

theorem Rests.others_rest : (level.removeOrder stored).orderList.filter (·.id ≠ stored.id) =
    level.orderList.filter (·.id ≠ stored.id) := by
  rw [hrests.rest_list, List.filter_filter]
  simp

theorem Rests.own_rest : (level.removeOrder stored).orderList.filter (·.id = stored.id) = [] := by
  rw [hrests.rest_list, List.filter_filter]
  simp

theorem Rests.removeOrder_eq (hstored : book.orderMap.find? stored.id = some stored) :
    book.removeOrder stored = some (({ book with
      orderMap := book.orderMap.erase stored.id } : OrderBook).withdraw stored.decimalPrice
        stored.isBuy (level.removeOrder stored)) :=
  OrderBook.removeOrder_eq hstored hrests.found

theorem Rests.removed (hid : order.id = stored.id)
    (hstored : book.orderMap.find? stored.id = some stored) {left : OrderBook}
    (hleft : book.removeOrder order = some left) :
    left.fndLevel stored.decimalPrice stored.isBuy =
      if order.decimalPrice = stored.decimalPrice ∧ order.isBuy = stored.isBuy then
        if level.totalVolume - order.volume = 0 then none else some (level.removeOrder order)
      else some level := by
  have hmap : book.orderMap.find? order.id = some stored := hid ▸ hstored
  cases hl : book.fndLevel order.decimalPrice order.isBuy with
  | none =>
    have hl' : ({ book with orderMap := book.orderMap.erase order.id } : OrderBook).fndLevel
        order.decimalPrice order.isBuy = none := hl
    simp only [OrderBook.removeOrder, hmap, hl', Option.map_none] at hleft
    cases hleft
  | some level' =>
    rw [OrderBook.removeOrder_eq hmap hl] at hleft
    rw [← Option.some.inj hleft, fndLevel_withdraw]
    by_cases hplace : order.decimalPrice = stored.decimalPrice ∧ order.isBuy = stored.isBuy
    · rw [hplace.1, hplace.2, hrests.found] at hl
      rw [if_pos hplace, if_pos ⟨hplace.1.symm, hplace.2.symm⟩, ← Option.some.inj hl,
        hrests.total_removeOrder hid]
    · rw [if_neg hplace, if_neg fun h => hplace ⟨h.1.symm, h.2.symm⟩]
      exact hrests.found

theorem Rests.removeOrder_iff (hid : order.id = stored.id)
    (hstored : book.orderMap.find? stored.id = some stored) :
    book.removeOrder order = book.removeOrder stored ↔ order.isBuy = stored.isBuy ∧
      order.decimalPrice = stored.decimalPrice ∧ order.volume = stored.volume := by
  constructor
  · intro heq
    rw [hrests.removeOrder_eq hstored] at heq
    have hleft := hrests.removed hid hstored heq
    have hlevel := hrests.removed rfl hstored (hrests.removeOrder_eq hstored)
    rw [hlevel, if_pos ⟨rfl, rfl⟩] at hleft
    by_cases hplace : order.decimalPrice = stored.decimalPrice ∧ order.isBuy = stored.isBuy
    · refine ⟨hplace.2, hplace.1, ?_⟩
      rw [if_pos hplace] at hleft
      split_ifs at hleft with hzero hzero'
      · omega
      · have htotal := congrArg PriceLevel.totalVolume (Option.some.inj hleft)
        rw [hrests.total_removeOrder rfl, hrests.total_removeOrder hid] at htotal
        omega
    · -- the level still holds the order
      rw [if_neg hplace] at hleft
      split_ifs at hleft with hzero
      obtain ⟨copy, hmem, hcid, -⟩ := hrests.copy
      rw [← Option.some.inj hleft, hrests.rest_list] at hmem
      exact absurd hcid (of_decide_eq_true (List.mem_filter.mp hmem).2)
  · intro hfields
    obtain ⟨hside, hprice, hvolume⟩ := hfields
    have hsame : level.removeOrder order = level.removeOrder stored := by
      rw [PriceLevel.removeOrder, PriceLevel.removeLoop_congr hid hvolume, PriceLevel.removeOrder]
    have hl : book.fndLevel order.decimalPrice order.isBuy = some level := by
      rw [hprice, hside, hrests.found]
    rw [OrderBook.removeOrder_eq (hid ▸ hstored) hl, hrests.removeOrder_eq hstored, hsame, hprice,
      hside, hid]

theorem Rests.own_modifyOrder (hid : order.id = stored.id) :
    (level.modifyOrder order).orderList.filter (·.id = stored.id) = [order] := by
  obtain ⟨copy, hmem, hcid, -⟩ := hrests.copy
  rw [← hid]
  exact PriceLevel.own_modifyLoop hrests.nodup hmem (hcid.trans hid.symm)

theorem Rests.total_modifyOrder (hid : order.id = stored.id) :
    (level.modifyOrder order).totalVolume = level.totalVolume + (order.volume - stored.volume) := by
  obtain ⟨copy, hmem, hcid, hvolume⟩ := hrests.copy
  rw [PriceLevel.modifyOrder, PriceLevel.modifyLoop_volume hrests.nodup hmem (hcid.trans hid.symm),
    hvolume]

/-- In its level a change is as good as a removal and an addition, except that an emptied
level is made anew at the price of the new order. -/
theorem Rests.rewrite_iff (node address : ℕ) (hid : order.id = stored.id) :
    (level.modifyOrder order).SameBut stored.id
        (((if (level.removeOrder stored).totalVolume = 0 then none
          else some (level.removeOrder stored)).getD ⟨node, order.price, 0, []⟩).addOrder
            (order.setLevel address)) ↔
      level.price = order.price ∨ ∃ other ∈ level.orderList, other.id ≠ order.id := by
  have hothers : (level.modifyOrder order).orderList.filter (·.id ≠ stored.id) =
      level.orderList.filter (·.id ≠ stored.id) := by
    rw [← hid]
    exact PriceLevel.others_modifyLoop
  have hown := hrests.own_modifyOrder hid
  have htotal := hrests.total_modifyOrder hid
  have hid' : (order.setLevel address).id = stored.id := hid
  have hleft := hrests.total_removeOrder rfl
  split_ifs with hzero
  · have hempty := hrests.rest.mp hzero
    rw [hrests.rest_list] at hempty
    have halone : ¬∃ other ∈ level.orderList, other.id ≠ order.id := by
      intro hex
      obtain ⟨other, hmem, hne⟩ := hex
      refine absurd (decide_eq_true (hid ▸ hne)) (List.filter_eq_nil_iff.mp hempty other hmem)
    rw [or_iff_left halone]
    refine ⟨fun hsame => hsame.price, fun hprice => ⟨hprice, ?_, ?_, ?_⟩⟩
    · rw [htotal, Option.getD_none, PriceLevel.addOrder]
      show _ = 0 + order.volume
      omega
    · rw [hothers, hempty, Option.getD_none, PriceLevel.addOrder, List.nil_append, List.filter_cons,
        if_neg (by simp [hid'])]
      rfl
    · rw [hown, Option.getD_none, PriceLevel.addOrder, List.nil_append, List.filter_cons,
        if_pos (decide_eq_true hid')]
      rfl
  · have hrest : (level.removeOrder stored).orderList ≠ [] := mt hrests.rest.mpr hzero
    rw [hrests.rest_list] at hrest
    obtain ⟨other, hother⟩ := List.exists_mem_of_ne_nil _ hrest
    obtain ⟨hmem, hne⟩ := List.mem_filter.mp hother
    rw [Option.getD_some]
    refine iff_of_true ⟨rfl, ?_, ?_, ?_⟩ (Or.inr ⟨other, hmem, hid ▸ of_decide_eq_true hne⟩)
    · rw [htotal, PriceLevel.addOrder, hleft]
      show _ = _ + order.volume
      omega
    · rw [hothers, PriceLevel.addOrder, List.filter_append, hrests.others_rest, List.filter_cons,
        if_neg (by simp [hid']), List.filter_nil, List.append_nil]
    · rw [hown, PriceLevel.addOrder, List.filter_append, hrests.own_rest, List.filter_cons,
        if_pos (decide_eq_true hid')]
      rfl

theorem Rests.removed_fndLevel (hstored : book.orderMap.find? stored.id = some stored)
    {removed : OrderBook} (hremoved : book.removeOrder stored = some removed) (p : ℕ)
    (isBuy : Bool) : removed.fndLevel p isBuy =
      if p = stored.decimalPrice ∧ isBuy = stored.isBuy then
        if (level.removeOrder stored).totalVolume = 0 then none
        else some (level.removeOrder stored)
      else book.fndLevel p isBuy := by
  rw [hrests.removeOrder_eq hstored] at hremoved
  rw [← Option.some.inj hremoved, fndLevel_withdraw]
  rfl

theorem Rests.removed_orderMap (hstored : book.orderMap.find? stored.id = some stored)
    {removed : OrderBook} (hremoved : book.removeOrder stored = some removed) :
    removed.orderMap = book.orderMap.erase stored.id := by
  rw [hrests.removeOrder_eq hstored] at hremoved
  rw [← Option.some.inj hremoved, orderMap_withdraw]

theorem Rests.sameBut_iff (hid : order.id = stored.id)
    (hstored : book.orderMap.find? stored.id = some stored) {removed : OrderBook}
    (hremoved : book.removeOrder stored = some removed) (node' address : ℕ) {changed : OrderBook}
    (hmap : changed.orderMap = book.orderMap.insert order.id (order.setLevel address)) :
    changed.SameBut order.id (removed.addOrder node' order).2 ↔
      ∀ p isBuy, Option.Rel (PriceLevel.SameBut order.id) (changed.fndLevel p isBuy)
        (if p = order.decimalPrice ∧ isBuy = order.isBuy then
          some (((removed.fndLevel order.decimalPrice order.isBuy).getD
            ⟨node', order.price, 0, []⟩).addOrder (order.setLevel (removed.ending node' order)))
        else removed.fndLevel p isBuy) := by
  refine ⟨fun h p isBuy => fndLevel_addOrder node' p isBuy ▸ h.levels p isBuy, fun h =>
    ⟨fun id' => ?_, fun p isBuy => (fndLevel_addOrder node' p isBuy).symm ▸ h p isBuy⟩⟩
  have hnone : removed.orderMap.find? order.id = none := by
    rw [hrests.removed_orderMap hstored hremoved, hid, SortedMap.find?_erase_self]
  rw [hmap, orderMap_addOrder, SortedMap.emplace_of_find?_none hnone, SortedMap.find?_insert,
    SortedMap.find?_insert, hrests.removed_orderMap hstored hremoved]
  split_ifs with hkey
  · exact Option.Rel.some rfl
  · rw [SortedMap.find?_erase_of_ne _ (hid ▸ hkey)]
    cases book.orderMap.find? id' with
    | none => exact Option.Rel.none
    | some other => exact Option.Rel.some rfl

theorem Rests.rewritten_iff (hid : order.id = stored.id)
    (hstored : book.orderMap.find? stored.id = some stored) {removed : OrderBook}
    (hremoved : book.removeOrder stored = some removed)
    (hprice : stored.decimalPrice = order.decimalPrice) (node' address : ℕ) {changed : OrderBook}
    (hmap : changed.orderMap = book.orderMap.insert order.id (order.setLevel address))
    (hlevels : ∀ p isBuy, changed.fndLevel p isBuy =
      if p = stored.decimalPrice ∧ isBuy = stored.isBuy then some (level.modifyOrder order)
      else book.fndLevel p isBuy) :
    changed.SameBut order.id (removed.addOrder node' order).2 ↔ stored.isBuy = order.isBuy ∧
      (level.price = order.price ∨ ∃ other ∈ level.orderList, other.id ≠ order.id) := by
  rw [hrests.sameBut_iff hid hstored hremoved node' address hmap]
  have hleft := hrests.removed_fndLevel hstored hremoved
  constructor
  · intro h
    have hplace := h stored.decimalPrice stored.isBuy
    rw [hlevels, if_pos ⟨rfl, rfl⟩] at hplace
    by_cases hside : stored.isBuy = order.isBuy
    · rw [if_pos ⟨hprice, hside⟩, ← hprice, ← hside, hleft, if_pos ⟨rfl, rfl⟩,
        Option.rel_some_some, hid] at hplace
      exact ⟨hside, (hrests.rewrite_iff node' _ hid).mp hplace⟩
    · -- the old side still holds the order
      rw [if_neg fun h => hside h.2, hleft, if_pos ⟨rfl, rfl⟩] at hplace
      split_ifs at hplace
      · exact absurd hplace Option.not_rel_some_none
      · have hown := (Option.rel_some_some.mp hplace).own
        rw [hid, hrests.own_modifyOrder hid, hrests.own_rest] at hown
        cases hown
  · intro hboth p isBuy
    obtain ⟨hside, hlevel⟩ := hboth
    rw [hlevels, ← hprice, ← hside]
    by_cases hplace : p = stored.decimalPrice ∧ isBuy = stored.isBuy
    · rw [if_pos hplace, if_pos hplace, hleft, if_pos ⟨rfl, rfl⟩, Option.rel_some_some, hid]
      exact (hrests.rewrite_iff node' _ hid).mpr hlevel
    · rw [if_neg hplace, if_neg hplace, hleft, if_neg hplace]
      exact rel_refl _

theorem Rests.moved (hid : order.id = stored.id)
    (hstored : book.orderMap.find? stored.id = some stored) {removed : OrderBook}
    (hremoved : book.removeOrder stored = some removed)
    (node node' address : ℕ) {changed : OrderBook}
    (hmap : changed.orderMap = book.orderMap.insert order.id (order.setLevel address))
    (hlevels : ∀ p isBuy, changed.fndLevel p isBuy =
      ((book.withdraw stored.decimalPrice stored.isBuy (level.removeOrder stored)).enterLevel node
        order).fndLevel p isBuy) :
    changed.SameBut order.id (removed.addOrder node' order).2 := by
  refine (hrests.sameBut_iff hid hstored hremoved node' address hmap).mpr fun p isBuy => ?_
  have hleft : ∀ p isBuy, (book.withdraw stored.decimalPrice stored.isBuy
      (level.removeOrder stored)).fndLevel p isBuy = removed.fndLevel p isBuy := by
    intro p isBuy
    rw [hrests.removed_fndLevel hstored hremoved, fndLevel_withdraw]
  rw [hlevels, fndLevel_enterLevel, hleft, hleft]
  split_ifs
  · refine Option.Rel.some (PriceLevel.SameBut.addOrder ?_ rfl)
    cases removed.fndLevel order.decimalPrice order.isBuy with
    | none => exact ⟨rfl, rfl, rfl, rfl⟩
    | some found => exact PriceLevel.SameBut.refl _ found
  · exact rel_refl _

theorem Rests.modifyOrder_iff (hid : order.id = stored.id)
    (hstored : book.orderMap.find? stored.id = some stored) {removed : OrderBook}
    (hremoved : book.removeOrder stored = some removed) (node node' : ℕ) :
    (∃ r, book.modifyOrder node order = some r ∧
        r.2.SameBut order.id (removed.addOrder node' order).2) ↔
      stored.decimalPrice ≠ order.decimalPrice ∨ stored.isBuy = order.isBuy ∧
        (level.price = order.price ∨ ∃ other ∈ level.orderList, other.id ≠ order.id) := by
  have hfound : book.orderMap.find? order.id = some stored := hid ▸ hstored
  by_cases hprice : stored.decimalPrice = order.decimalPrice
  · rw [or_iff_right (not_not.mpr hprice), modifyOrder_rewrite node hfound hrests.found hprice]
    simp only [Option.some.injEq, exists_eq_left']
    exact hrests.rewritten_iff hid hstored hremoved hprice node' level.address rfl
      fun p isBuy => fndLevel_putLevel book _ p _ isBuy _
  · rw [modifyOrder_move node hfound hrests.found hrests.key hprice]
    exact iff_of_true ⟨_, rfl, hrests.moved hid hstored hremoved node node' _ rfl fun _ _ => rfl⟩
      (Or.inl hprice)

omit hrests

theorem Kept.faithful_step (h : book.Kept LimitOrder.Same) {op : Operation}
    (hop : book.Faithful op) {book' : OrderBook} (hstep : book.step op = some book') :
    book'.Kept LimitOrder.Same := by
  have hrefl : ∀ o : LimitOrder, o.Same o := fun _ => rfl
  cases op with
  | addOrder node order =>
    rw [← Option.some.inj hstep]
    exact h.addOrder hrefl node hop.1 hop.2
  | modifyOrder node order =>
    obtain ⟨hvolume, hunknown, hplace⟩ := hop
    obtain ⟨r, hr, rfl⟩ := Option.map_eq_some_iff.mp hstep
    cases hfound : book.orderMap.find? order.id with
    | none =>
      obtain ⟨level, hl⟩ := hunknown hfound
      rw [modifyOrder_unknown node hfound hl] at hr
      rw [← Option.some.inj hr]
      exact h.enterLevel hrefl node hvolume hfound
    | some stored =>
      obtain ⟨changed, hchanged, hkept⟩ :=
        h.modifyOrder (fun _ _ => id) node hvolume hfound (hplace stored hfound)
      rw [hr] at hchanged
      rw [Option.some.inj hchanged]
      exact hkept rfl
  | removeOrder order =>
    obtain ⟨left, hleft, hkept⟩ := h.removeOrder (fun _ _ => id) hop
    rw [OrderBook.step, hleft] at hstep
    rw [← Option.some.inj hstep]
    exact hkept

end Rests

def resting : OrderBook := (({ tid := 1 } : OrderBook).addOrder 1 ⟨0, true, 10, 1, 0⟩).2

theorem reaches_resting (ok : OrderBook → Operation → Prop)
    (hok : ok { tid := 1 } (.addOrder 1 ⟨0, true, 10, 1, 0⟩)) :
    Execution.Reaches OrderBook.step ok { tid := 1 } resting :=
  ⟨[.addOrder 1 ⟨0, true, 10, 1, 0⟩], ⟨hok, fun _ _ => trivial⟩, rfl⟩

theorem modifyOrder_unknown_iff (node : ℕ) (book : OrderBook) (order : LimitOrder)
    (hunknown : book.orderMap.find? order.id = none) :
    ((∃ r, book.modifyOrder node order = some r ∧ r.2 = (book.addOrder node order).2) ↔
        ∃ level, book.fndLevel order.decimalPrice order.isBuy = some level ∧
          order.level = level.address) ∧
      ((∃ r, book.modifyOrder node order = some r ∧
          r.2.SameBut order.id (book.addOrder node order).2) ↔
        ∃ level, book.fndLevel order.decimalPrice order.isBuy = some level) := by
  cases hl : book.fndLevel order.decimalPrice order.isBuy with
  | none =>
    have hmodify : book.modifyOrder node order = none := by
      simp only [OrderBook.modifyOrder, hunknown, hl, Option.map_none]
    simp [hmodify]
  | some level =>
    have hend : book.ending node order = level.address := by
      rw [ending, hl, Option.elim_some]
    rw [modifyOrder_unknown node hunknown hl]
    simp only [Option.some.injEq, exists_eq_left']
    constructor
    · constructor
      · intro heq
        have hmap := congrArg (fun b => b.orderMap.find? order.id) heq
        simp only [orderMap_addOrder, SortedMap.emplace_of_find?_none hunknown,
          SortedMap.find?_insert_self, Option.some.injEq, hend] at hmap
        rw [hmap]
        rfl
      · intro hpointer
        have hsame : order.setLevel level.address = order := by
          rw [← hpointer]
          rfl
        rw [addOrder_eq, hend, hsame]
    · refine iff_of_true ⟨fun id' => ?_, fun p isBuy => ?_⟩ ⟨level, rfl⟩
      · simp only [orderMap_addOrder, SortedMap.emplace_of_find?_none hunknown,
          SortedMap.find?_insert]
        split_ifs
        · exact Option.Rel.some rfl
        · cases book.orderMap.find? id' with
          | none => exact Option.Rel.none
          | some other => exact Option.Rel.some rfl
      · show Option.Rel _ ((book.enterLevel node order).fndLevel p isBuy) _
        rw [fndLevel_enterLevel, fndLevel_addOrder]
        split_ifs
        · exact Option.Rel.some ((PriceLevel.SameBut.refl _ _).addOrder rfl)
        · exact rel_refl _

theorem modifyOrder_unknown_iff_resting :
    ∃ r, resting.modifyOrder 2 ⟨1, true, 5, 1, 1⟩ = some r ∧
      r.2 = (resting.addOrder 2 ⟨1, true, 5, 1, 1⟩).2 := by
  have hl : (resting.fndLevel 10000 true).map PriceLevel.address = some 1 := by decide +kernel
  obtain ⟨level, hl, haddress⟩ := Option.map_eq_some_iff.mp hl
  have hkey : LimitOrder.decimalPrice ⟨1, true, 5, 1, 1⟩ = 10000 := by decide +kernel
  refine (modifyOrder_unknown_iff 2 resting ⟨1, true, 5, 1, 1⟩ (by decide +kernel)).1.mpr
    ⟨level, ?_, haddress.symm⟩
  rw [hkey]
  exact hl

theorem modifyOrder_unknown_reads_null :
    Execution.Reaches OrderBook.step (fun _ _ => True) { tid := 1 } { tid := 1 } ∧
      ({ tid := 1 } : OrderBook).orderMap.find? 7 = none ∧
      ({ tid := 1 } : OrderBook).modifyOrder 1 ⟨7, true, 10, 1, 0⟩ = none :=
  ⟨Execution.Reaches.refl _, rfl, rfl⟩

end OrderBook

end FlareTrader.Orderbook
