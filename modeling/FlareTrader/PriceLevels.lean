import FlareTrader.MatchEngine
import FlareTrader.SortedMap

/-! One side of an order book of the advanced match engine: queues of orders by
price level, best level first, and the ways a tick takes orders from them. What
a tick does to an order depends only on its level and its queue position; the
rule it follows is composed from the stages of the tick. -/

namespace FlareTrader

structure InnerOrder where
  origOrder : OrderRequest
  queuePosition : ℤ := 0
  deriving DecidableEq

abbrev Levels (r : ℕ → ℕ → Prop) := SortedMap ℕ (List InnerOrder) r

def InnerOrder.trade (timestampUs : ℕ) (order : InnerOrder) : Event :=
  .traded order.origOrder order.origOrder.volume order.origOrder.price timestampUs

def InnerOrder.advance (filled : ℤ) (order : InnerOrder) : InnerOrder :=
  { order with queuePosition := order.queuePosition - filled }

theorem InnerOrder.advance_zero (order : InnerOrder) : order.advance 0 = order := by
  simp [InnerOrder.advance]

namespace Levels

variable {r : ℕ → ℕ → Prop}

def sweep (timestampUs : ℕ) (p : ℕ → Bool) (levels : Levels r) : List Event × Levels r :=
  ((levels.entries.takeWhile fun level => p level.1).flatMap fun level =>
      level.2.map (·.trade timestampUs),
    levels.dropWhile fun level => p level.1)

def walkQueue (timestampUs : ℕ) (filled : ℤ) : List InnerOrder → List Event × List InnerOrder
  | [] => ([], [])
  | order :: queue =>
    let rest := walkQueue timestampUs filled queue
    if order.queuePosition < filled then (order.trade timestampUs :: rest.1, rest.2)
    else (rest.1, order.advance filled :: rest.2)

section Update

variable [DecidableRel r] [IsStrictTotalOrder ℕ r]

def push (price : ℕ) (order : InnerOrder) (levels : Levels r) : Levels r :=
  levels.upsert price fun queue => queue.getD [] ++ [order]

def setQueue (price : ℕ) (queue : List InnerOrder) (levels : Levels r) : Levels r :=
  if queue = [] then levels.erase price else levels.insert price queue

def walkLevel (timestampUs : ℕ) (filled : ℤ) (price : ℕ) (levels : Levels r) :
    List Event × Levels r :=
  match levels.find? price with
  | some (order :: queue) =>
    let rest := walkQueue timestampUs filled (order :: queue)
    (rest.1, setQueue price rest.2 levels)
  | _ => ([], levels)

/-- The loop over the displayed levels of a tick, given by price and volume. What
a level displays is taken off the filled volume before the next one. -/
def walkLevels (timestampUs : ℕ) : List (ℕ × ℤ) → ℤ → Levels r → List Event × Levels r
  | [], _, levels => ([], levels)
  | (price, volume) :: displayed, filled, levels =>
    if volume = 0 then walkLevels timestampUs displayed filled levels
    else
      let rest := walkLevel timestampUs filled price levels
      if filled - volume ≤ 0 then rest
      else
        let next := walkLevels timestampUs displayed (filled - volume) rest.2
        (rest.1 ++ next.1, next.2)

end Update

def resting (levels : Levels r) : RestingBook :=
  levels.sum fun _ queue => (queue.map (·.origOrder) : List OrderRequest)

def At (levels : Levels r) (price : ℕ) (order : InnerOrder) : Prop :=
  ∃ queue, levels.find? price = some queue ∧ order ∈ queue

def NoEmpty (levels : Levels r) : Prop := ∀ price queue, levels.find? price = some queue → queue ≠ []

section Closes

theorem queue_closes (timestampUs : ℕ) (queue : List InnerOrder) (others : RestingBook) :
    Closes ((queue.map (·.origOrder) : List OrderRequest) + others)
      (queue.map (·.trade timestampUs)) others := by
  induction queue with
  | nil => simpa using Closes.nil others
  | cons order queue ih =>
    rw [List.map_cons, List.map_cons, ← Multiset.cons_coe, Multiset.cons_add]
    exact .traded order.origOrder _ _ ih

theorem sweep_closes (timestampUs : ℕ) (p : ℕ → Bool) (levels : Levels r) :
    Closes levels.resting (sweep timestampUs p levels).1 (sweep timestampUs p levels).2.resting := by
  have hentries : ∀ entries : List (ℕ × List InnerOrder),
      Closes (entries.map fun level =>
          ((level.2.map (·.origOrder) : List OrderRequest) : RestingBook)).sum
        ((entries.takeWhile fun level => p level.1).flatMap fun level =>
          level.2.map (·.trade timestampUs))
        ((entries.dropWhile fun level => p level.1).map fun level =>
          ((level.2.map (·.origOrder) : List OrderRequest) : RestingBook)).sum := by
    intro entries
    induction entries with
    | nil => exact .nil _
    | cons level entries ih =>
      by_cases h : p level.1 = true
      · simp only [List.takeWhile_cons, List.dropWhile_cons, h, if_true, List.flatMap_cons,
          List.map_cons, List.sum_cons]
        exact (queue_closes timestampUs level.2 _).append ih
      · simp only [List.takeWhile_cons, List.dropWhile_cons, h]
        exact .nil _
  exact hentries levels.entries

theorem walkQueue_closes (timestampUs : ℕ) (filled : ℤ) (queue : List InnerOrder) :
    Closes (queue.map (·.origOrder) : List OrderRequest) (walkQueue timestampUs filled queue).1
      ((walkQueue timestampUs filled queue).2.map (·.origOrder) : List OrderRequest) := by
  induction queue with
  | nil => exact .nil _
  | cons order queue ih =>
    simp only [walkQueue]
    split_ifs
    · exact .traded order.origOrder _ _ ih
    · have hf := ih.frame {order.origOrder}
      simpa only [List.map_cons, ← Multiset.cons_coe, ← Multiset.singleton_add, add_comm,
        InnerOrder.advance] using hf

variable [DecidableRel r] [IsStrictTotalOrder ℕ r]

theorem resting_split (price : ℕ) (levels : Levels r) : ∃ others : RestingBook,
    levels.resting =
        ((((levels.find? price).getD []).map (·.origOrder) : List OrderRequest) : RestingBook) +
          others ∧
      ∀ queue : List InnerOrder, (setQueue price queue levels).resting =
        ((queue.map (·.origOrder) : List OrderRequest) : RestingBook) + others := by
  refine ⟨Levels.resting (levels.erase price), ?_, fun queue => ?_⟩
  · rw [resting, SortedMap.sum_eq_add levels price]
    cases levels.find? price <;> rfl
  · unfold setQueue
    split_ifs with h
    · simp [h]
    · exact SortedMap.sum_insert_eq_add levels price queue _

theorem push_eq_setQueue (price : ℕ) (order : InnerOrder) (levels : Levels r) :
    push price order levels = setQueue price ((levels.find? price).getD [] ++ [order]) levels := by
  rw [setQueue, if_neg (by simp)]
  rfl

theorem push_resting (price : ℕ) (order : InnerOrder) (levels : Levels r) :
    (push price order levels).resting = order.origOrder ::ₘ levels.resting := by
  obtain ⟨others, he, hset⟩ := resting_split price levels
  rw [push_eq_setQueue, hset, he, List.map_append, ← Multiset.coe_add, List.map_singleton,
    Multiset.coe_singleton, ← Multiset.singleton_add]
  abel

theorem walkLevel_closes (timestampUs : ℕ) (filled : ℤ) (price : ℕ) (levels : Levels r) :
    Closes levels.resting (walkLevel timestampUs filled price levels).1
      (walkLevel timestampUs filled price levels).2.resting := by
  obtain ⟨others, he, hset⟩ := resting_split price levels
  unfold walkLevel
  cases hf : levels.find? price with
  | none => exact .nil _
  | some queue =>
    cases queue with
    | nil => exact .nil _
    | cons order queue =>
      simp only [hset]
      rw [he, hf]
      exact (walkQueue_closes timestampUs filled (order :: queue)).frame others

theorem walkLevels_closes (timestampUs : ℕ) (displayed : List (ℕ × ℤ)) (filled : ℤ)
    (levels : Levels r) : Closes levels.resting (walkLevels timestampUs displayed filled levels).1
      (walkLevels timestampUs displayed filled levels).2.resting := by
  induction displayed generalizing filled levels with
  | nil => exact .nil _
  | cons level displayed ih =>
    simp only [walkLevels]
    split_ifs
    · exact ih filled levels
    · exact walkLevel_closes timestampUs filled level.1 levels
    · exact (walkLevel_closes timestampUs filled level.1 levels).append (ih _ _)

end Closes

end Levels

/-- Which orders a stage of a tick fills, by level and queue position, and how far
the others of a level move up. -/
structure FillRule where
  fills : ℕ → ℤ → Bool
  shift : ℕ → ℤ

namespace FillRule

def none : FillRule := ⟨fun _ _ => false, fun _ => 0⟩

def wholeLevels (p : ℕ → Bool) : FillRule := ⟨fun price _ => p price, fun _ => 0⟩

def level (filled : ℤ) (price : ℕ) : FillRule where
  fills := fun price' queuePosition => price' = price ∧ queuePosition < filled
  shift := fun price' => if price' = price then filled else 0

def andThen (f g : FillRule) : FillRule where
  fills := fun price queuePosition =>
    f.fills price queuePosition || g.fills price (queuePosition - f.shift price)
  shift := fun price => f.shift price + g.shift price

def levels : List (ℕ × ℤ) → ℤ → FillRule
  | [], _ => none
  | (price, volume) :: displayed, filled =>
    if volume = 0 then levels displayed filled
    else if filled - volume ≤ 0 then level filled price
    else (level filled price).andThen (levels displayed (filled - volume))

def Monotone (f : FillRule) : Prop :=
  ∀ price q q', q' ≤ q → f.fills price q = true → f.fills price q' = true

theorem monotone_none : none.Monotone := fun _ _ _ _ h => nomatch h

theorem monotone_wholeLevels (p : ℕ → Bool) : (wholeLevels p).Monotone := fun _ _ _ _ h => h

theorem monotone_level (filled : ℤ) (price : ℕ) : (level filled price).Monotone := by
  intro price' q q' hq h
  simp only [level, decide_eq_true_eq] at h ⊢
  exact ⟨h.1, by omega⟩

theorem Monotone.andThen {f g : FillRule} (hf : f.Monotone) (hg : g.Monotone) :
    (f.andThen g).Monotone := by
  intro price q q' hq h
  simp only [FillRule.andThen, Bool.or_eq_true] at h ⊢
  rcases h with h | h
  · exact Or.inl (hf price q q' hq h)
  · exact Or.inr (hg price _ _ (by omega) h)

theorem monotone_levels (displayed : List (ℕ × ℤ)) (filled : ℤ) :
    (levels displayed filled).Monotone := by
  induction displayed generalizing filled with
  | nil => exact monotone_none
  | cons head displayed ih =>
    simp only [levels]
    split_ifs
    · exact ih filled
    · exact monotone_level filled head.1
    · exact (monotone_level filled head.1).andThen (ih _)

end FillRule

namespace Levels

variable {r : ℕ → ℕ → Prop} {timestampUs : ℕ}

structure Applies (timestampUs : ℕ) (rule : FillRule) (levels : Levels r) (events : List Event)
    (levels' : Levels r) : Prop where
  left : ∀ price order', levels'.At price order' ↔ ∃ order, levels.At price order ∧
    rule.fills price order.queuePosition = false ∧ order' = order.advance (rule.shift price)
  filled : ∀ e, e ∈ events ↔ ∃ price order, levels.At price order ∧
    rule.fills price order.queuePosition = true ∧ e = order.trade timestampUs
  noEmpty : levels.NoEmpty → levels'.NoEmpty

theorem applies_none (levels : Levels r) : Applies timestampUs .none levels [] levels := by
  refine ⟨fun price order' => ?_, fun e => ?_, id⟩
  · simp [FillRule.none, InnerOrder.advance_zero]
  · simp [FillRule.none]

theorem Applies.andThen {f g : FillRule} {levels levels' levels'' : Levels r}
    {events events' : List Event} (hf : Applies timestampUs f levels events levels')
    (hg : Applies timestampUs g levels' events' levels'') :
    Applies timestampUs (f.andThen g) levels (events ++ events') levels'' := by
  refine ⟨fun price order' => ?_, fun e => ?_, fun h => hg.noEmpty (hf.noEmpty h)⟩
  · rw [hg.left]
    constructor
    · rintro ⟨mid, hmid, hgf, rfl⟩
      obtain ⟨order, ho, hff, rfl⟩ := (hf.left price mid).mp hmid
      refine ⟨order, ho, ?_, ?_⟩
      · simpa [FillRule.andThen, hff, InnerOrder.advance] using hgf
      · simp [FillRule.andThen, InnerOrder.advance, sub_sub]
    · rintro ⟨order, ho, hfill, rfl⟩
      simp only [FillRule.andThen, Bool.or_eq_false_iff] at hfill
      refine ⟨order.advance (f.shift price), (hf.left price _).mpr ⟨order, ho, hfill.1, rfl⟩,
        hfill.2, ?_⟩
      simp [FillRule.andThen, InnerOrder.advance, sub_sub]
  · rw [List.mem_append, hf.filled, hg.filled]
    constructor
    · rintro (⟨price, order, ho, hfill, rfl⟩ | ⟨price, mid, hmid, hgf, rfl⟩)
      · exact ⟨price, order, ho, by simp [FillRule.andThen, hfill], rfl⟩
      · obtain ⟨order, ho, hff, rfl⟩ := (hf.left price mid).mp hmid
        refine ⟨price, order, ho, ?_, rfl⟩
        simp only [FillRule.andThen, Bool.or_eq_true]
        exact Or.inr hgf
    · rintro ⟨price, order, ho, hfill, rfl⟩
      cases hff : f.fills price order.queuePosition with
      | true => exact Or.inl ⟨price, order, ho, hff, rfl⟩
      | false =>
        simp only [FillRule.andThen, hff, Bool.false_or] at hfill
        exact Or.inr ⟨price, _, (hf.left price _).mpr ⟨order, ho, hff, rfl⟩, hfill, rfl⟩

section Stages

variable [IsStrictTotalOrder ℕ r]

theorem at_iff {levels : Levels r} {price : ℕ} {order : InnerOrder} :
    levels.At price order ↔ ∃ queue, (price, queue) ∈ levels.entries ∧ order ∈ queue := by
  simp only [At, SortedMap.find?_eq_some]

theorem mem_resting {levels : Levels r} {k : OrderRequest} :
    k ∈ levels.resting ↔ ∃ price order, levels.At price order ∧ order.origOrder = k := by
  simp only [resting, SortedMap.mem_sum, at_iff, Multiset.mem_coe, List.mem_map]
  constructor
  · rintro ⟨price, queue, hq, order, ho, rfl⟩
    exact ⟨price, order, ⟨queue, hq, ho⟩, rfl⟩
  · rintro ⟨price, order, ⟨queue, hq, ho⟩, rfl⟩
    exact ⟨price, queue, hq, order, ho, rfl⟩

theorem applies_sweep {p : ℕ → Bool} (hp : ∀ a b, r a b → p b = true → p a = true)
    (levels : Levels r) :
    Applies timestampUs (.wholeLevels p) levels (sweep timestampUs p levels).1
      (sweep timestampUs p levels).2 := by
  have hp' : ∀ a b : ℕ × List InnerOrder, r a.1 b.1 → p b.1 = true → p a.1 = true :=
    fun a b => hp a.1 b.1
  have hdrop : (sweep timestampUs p levels).2.entries =
      levels.entries.filter fun level => !p level.1 :=
    SortedList.dropWhile_eq_filter levels.sorted hp'
  have htake : levels.entries.takeWhile (fun level => p level.1) =
      levels.entries.filter fun level => p level.1 :=
    SortedList.takeWhile_eq_filter levels.sorted hp'
  refine ⟨fun price order' => ?_, fun e => ?_, fun h price queue hq => ?_⟩
  · simp only [at_iff, hdrop, List.mem_filter, FillRule.wholeLevels, InnerOrder.advance_zero]
    constructor
    · rintro ⟨queue, ⟨hq, hpq⟩, ho⟩
      exact ⟨order', ⟨queue, hq, ho⟩, by simpa using hpq, rfl⟩
    · rintro ⟨order, ⟨queue, hq, ho⟩, hpq, rfl⟩
      exact ⟨queue, ⟨hq, by simp [hpq]⟩, ho⟩
  · simp only [sweep, htake, List.mem_flatMap, List.mem_filter, List.mem_map, at_iff,
      FillRule.wholeLevels]
    constructor
    · rintro ⟨⟨price, queue⟩, ⟨hq, hpq⟩, order, ho, rfl⟩
      exact ⟨price, order, ⟨queue, hq, ho⟩, hpq, rfl⟩
    · rintro ⟨price, order, ⟨queue, hq, ho⟩, hpq, rfl⟩
      exact ⟨(price, queue), ⟨hq, hpq⟩, order, ho, rfl⟩
  · rw [SortedMap.find?_eq_some, hdrop, List.mem_filter] at hq
    exact h price queue (SortedMap.find?_eq_some.mpr hq.1)

theorem mem_walkQueue_fst {filled : ℤ} {queue : List InnerOrder} {e : Event} :
    e ∈ (walkQueue timestampUs filled queue).1 ↔
      ∃ order ∈ queue, order.queuePosition < filled ∧ e = order.trade timestampUs := by
  induction queue with
  | nil => simp [walkQueue]
  | cons order queue ih =>
    simp only [walkQueue]
    split_ifs with h
    · simp [ih, h]
    · simp [ih, h]

theorem mem_walkQueue_snd {filled : ℤ} {queue : List InnerOrder} {order' : InnerOrder} :
    order' ∈ (walkQueue timestampUs filled queue).2 ↔
      ∃ order ∈ queue, ¬ order.queuePosition < filled ∧ order' = order.advance filled := by
  induction queue with
  | nil => simp [walkQueue]
  | cons order queue ih =>
    simp only [walkQueue]
    split_ifs with h
    · simp [ih, h]
    · simp [ih, not_lt.mp h]

variable [DecidableRel r]

theorem find?_setQueue (price price' : ℕ) (queue : List InnerOrder) (levels : Levels r) :
    (setQueue price queue levels).find? price' =
      if price' = price then (if queue = [] then Option.none else some queue)
      else levels.find? price' := by
  unfold setQueue
  split_ifs with hq hp hp
  · rw [hp, SortedMap.find?_erase_self]
  · rw [SortedMap.find?_erase, if_neg hp]
  · rw [hp, SortedMap.find?_insert_self]
  · rw [SortedMap.find?_insert, if_neg hp]

theorem at_setQueue (price price' : ℕ) (queue : List InnerOrder) (levels : Levels r)
    (order : InnerOrder) : (setQueue price queue levels).At price' order ↔
      if price' = price then order ∈ queue else levels.At price' order := by
  unfold At
  rw [find?_setQueue]
  split_ifs with hp hq
  · simp [hq]
  · simp
  · rfl

theorem at_push (price price' : ℕ) (order order' : InnerOrder) (levels : Levels r) :
    (push price order levels).At price' order' ↔
      (price' = price ∧ order' = order) ∨ levels.At price' order' := by
  rw [push_eq_setQueue, at_setQueue]
  split_ifs with hp
  · subst hp
    cases hf : levels.find? price' with
    | none => simp [At, hf]
    | some queue => simp [At, hf, or_comm]
  · simp [hp]

theorem NoEmpty.setQueue {levels : Levels r} (h : levels.NoEmpty) (price : ℕ)
    (queue : List InnerOrder) : (setQueue price queue levels).NoEmpty := by
  intro price' queue' hq
  rw [find?_setQueue] at hq
  split_ifs at hq with hp hnil
  · cases hq
    exact hnil
  · exact h price' queue' hq

theorem resting_setQueue_tail {levels : Levels r} {price : ℕ} {order : InnerOrder}
    {rest : List InnerOrder} (h : levels.find? price = some (order :: rest)) :
    levels.resting = order.origOrder ::ₘ (setQueue price rest levels).resting := by
  obtain ⟨others, he, hset⟩ := resting_split price levels
  rw [he, hset, h, Option.getD_some, List.map_cons, ← Multiset.cons_coe, Multiset.cons_add]

theorem at_setQueue_tail {levels : Levels r} {price price' : ℕ} {order order' : InnerOrder}
    {rest : List InnerOrder} (h : levels.find? price = some (order :: rest))
    (ho : (setQueue price rest levels).At price' order') : levels.At price' order' := by
  rw [at_setQueue] at ho
  split_ifs at ho with hp
  · exact ⟨order :: rest, hp ▸ h, List.mem_cons_of_mem _ ho⟩
  · exact ho

theorem eq_of_at {levels : Levels r} (hn : (orderIds levels.resting).Nodup) {price : ℕ}
    {x y : InnerOrder} (hx : levels.At price x) (hy : levels.At price y)
    (hid : x.origOrder.orderId = y.origOrder.orderId) : x = y := by
  obtain ⟨queue, hq, hxq⟩ := hx
  obtain ⟨queue', hq', hyq⟩ := hy
  rw [hq, Option.some.injEq] at hq'
  subst hq'
  obtain ⟨others, he, -⟩ := resting_split price levels
  rw [he, hq, Option.getD_some, orderIds, Multiset.map_add, Multiset.nodup_add, Multiset.map_coe,
    Multiset.coe_nodup, List.map_map] at hn
  exact List.inj_on_of_nodup_map hn.1 hxq hyq hid

omit [IsStrictTotalOrder ℕ r] [DecidableRel r] in
theorem applies_level_of_absent {filled : ℤ} {price : ℕ} {levels : Levels r}
    (hno : ∀ order, ¬levels.At price order) :
    Applies timestampUs (.level filled price) levels [] levels := by
  refine ⟨fun price' order' => ?_, fun e => ?_, id⟩
  · constructor
    · intro ho
      have hne : price' ≠ price := by
        rintro rfl
        exact hno order' ho
      exact ⟨order', ho, by simp [FillRule.level, hne],
        by simp [FillRule.level, hne, InnerOrder.advance_zero]⟩
    · rintro ⟨order, ho, -, rfl⟩
      have hne : price' ≠ price := by
        rintro rfl
        exact hno order ho
      simpa [FillRule.level, hne, InnerOrder.advance_zero] using ho
  · constructor
    · intro he
      cases he
    · rintro ⟨price', order, ho, hfill, -⟩
      simp only [FillRule.level, decide_eq_true_eq] at hfill
      exact absurd (hfill.1 ▸ ho) (hno order)

theorem applies_walkLevel (filled : ℤ) (price : ℕ) (levels : Levels r) :
    Applies timestampUs (.level filled price) levels
      (walkLevel timestampUs filled price levels).1
      (walkLevel timestampUs filled price levels).2 := by
  unfold walkLevel
  cases hf : levels.find? price with
  | none =>
    apply applies_level_of_absent
    intro order ho
    obtain ⟨queue, hq, -⟩ := ho
    rw [hf] at hq
    cases hq
  | some queue =>
    have hat : ∀ o, levels.At price o ↔ o ∈ queue := by
      intro o
      simp [At, hf]
    cases queue with
    | nil =>
      apply applies_level_of_absent
      intro order ho
      rw [hat] at ho
      cases ho
    | cons order queue =>
      refine ⟨fun price' order' => ?_, fun e => ?_, fun h price' queue' hq => ?_⟩
      · simp only [at_setQueue]
        split_ifs with hp
        · subst hp
          simp only [mem_walkQueue_snd, hat, FillRule.level, if_true, true_and,
            decide_eq_false_iff_not]
        · simp only [FillRule.level, hp, false_and, decide_false, if_false,
            InnerOrder.advance_zero, true_and]
          constructor
          · intro ho
            exact ⟨order', ho, rfl⟩
          · rintro ⟨o, ho, heq⟩
            exact heq ▸ ho
      · simp only [mem_walkQueue_fst, FillRule.level, decide_eq_true_eq]
        constructor
        · rintro ⟨o, ho, hlt, rfl⟩
          exact ⟨price, o, (hat o).mpr ho, ⟨rfl, hlt⟩, rfl⟩
        · rintro ⟨price', o, ho, ⟨rfl, hlt⟩, rfl⟩
          exact ⟨o, (hat o).mp ho, hlt, rfl⟩
      · exact h.setQueue price _ price' queue' hq

theorem applies_walkLevels (displayed : List (ℕ × ℤ)) (filled : ℤ) (levels : Levels r) :
    Applies timestampUs (.levels displayed filled) levels
      (walkLevels timestampUs displayed filled levels).1
      (walkLevels timestampUs displayed filled levels).2 := by
  induction displayed generalizing filled levels with
  | nil => exact applies_none levels
  | cons level displayed ih =>
    simp only [walkLevels, FillRule.levels]
    split_ifs
    · exact ih filled levels
    · exact applies_walkLevel filled level.1 levels
    · exact (applies_walkLevel filled level.1 levels).andThen (ih _ _)

end Stages

end Levels

end FlareTrader
