import FlareTrader.TradeMsg
import FlareTrader.Execution

/-! The interface of the match engines and what every engine has to keep. A call
hands its events to the listener in order, here as a list. The abstract book of
an engine is the multiset of its resting orders: an inserted order either joins
it or meets one final event, and an order leaves it with one final event. -/

namespace FlareTrader

inductive Event
  | accepted (order : OrderRequest)
  | rejected (order : OrderRequest)
  | traded (order : OrderRequest) (volume : ℤ) (price : ℚ) (timestampUs : ℕ)
  | canceled (order : OrderRequest) (canceledVolume : ℤ)
  | cancelRejected (orderId : ℕ)
  deriving DecidableEq

structure MatchEngine (ε : Type) where
  insertOrder : OrderRequest → ε → Bool × List Event × ε
  /-- `none` when the call does not return. -/
  cancelOrder : ℕ → ℕ → ε → Option (Bool × List Event × ε)
  onNewTick : TickData → ε → List Event × ε

abbrev RestingBook := Multiset OrderRequest

def orderIds (book : RestingBook) : Multiset ℕ := book.map (·.orderId)

namespace Event

def final? : Event → Option (OrderRequest × ℤ)
  | .rejected order => some (order, order.volume)
  | .traded order volume _ _ => some (order, volume)
  | .canceled order canceledVolume => some (order, canceledVolume)
  | _ => none

def IsFinalFor (id : ℕ) (e : Event) : Bool := (e.final?.map fun f => f.1.orderId) = some id

def order? : Event → Option OrderRequest
  | .accepted order => some order
  | .rejected order => some order
  | .traded order _ _ _ => some order
  | .canceled order _ => some order
  | .cancelRejected _ => none

end Event

/-- The copy of an order that the book keeps: a best-price order is re-priced. -/
def OrderRequest.kept (order : OrderRequest) (touch : ℚ) : OrderRequest :=
  if order.type = .kBest then { order with price := touch } else order

theorem OrderRequest.kept_eq (order : OrderRequest) (touch : ℚ) :
    ∃ price, order.kept touch = { order with price } := by
  unfold OrderRequest.kept
  split_ifs
  · exact ⟨touch, rfl⟩
  · exact ⟨order.price, rfl⟩

@[simp] theorem OrderRequest.kept_orderId (order : OrderRequest) (touch : ℚ) :
    (order.kept touch).orderId = order.orderId := by
  obtain ⟨p, hp⟩ := order.kept_eq touch
  rw [hp]

@[simp] theorem OrderRequest.kept_contract (order : OrderRequest) (touch : ℚ) :
    (order.kept touch).contract = order.contract := by
  obtain ⟨p, hp⟩ := order.kept_eq touch
  rw [hp]

@[simp] theorem OrderRequest.kept_offset (order : OrderRequest) (touch : ℚ) :
    (order.kept touch).offset = order.offset := by
  obtain ⟨p, hp⟩ := order.kept_eq touch
  rw [hp]

@[simp] theorem OrderRequest.kept_direction (order : OrderRequest) (touch : ℚ) :
    (order.kept touch).direction = order.direction := by
  obtain ⟨p, hp⟩ := order.kept_eq touch
  rw [hp]

@[simp] theorem OrderRequest.kept_volume (order : OrderRequest) (touch : ℚ) :
    (order.kept touch).volume = order.volume := by
  obtain ⟨p, hp⟩ := order.kept_eq touch
  rw [hp]

theorem OrderRequest.kept_price (order : OrderRequest) : order.kept order.price = order := by
  unfold OrderRequest.kept
  split_ifs <;> rfl

inductive Inserted (order kept : OrderRequest) (book : RestingBook) :
    Bool → List Event → RestingBook → Prop
  | unsupported : Inserted order kept book false [] book
  | rested : Inserted order kept book true [.accepted order] (kept ::ₘ book)
  | rejected : Inserted order kept book true [.rejected order] book
  | traded (price : ℚ) (timestampUs : ℕ) :
      Inserted order kept book true [.traded order order.volume price timestampUs] book
  | canceled : Inserted order kept book true [.canceled order order.volume] book

theorem Inserted.mem {order kept k : OrderRequest} {book book' : RestingBook} {ok : Bool}
    {events : List Event} (h : Inserted order kept book ok events book') (hk : k ∈ book') :
    k = kept ∨ k ∈ book := by
  cases h with
  | rested => exact Multiset.mem_cons.mp hk
  | unsupported => exact Or.inr hk
  | rejected => exact Or.inr hk
  | traded price ts => exact Or.inr hk
  | canceled => exact Or.inr hk

theorem Inserted.eq_of_traded {order kept k : OrderRequest} {book book' : RestingBook} {ok : Bool}
    {events : List Event} (h : Inserted order kept book ok events book') {volume : ℤ} {price : ℚ}
    {ts : ℕ} (he : .traded k volume price ts ∈ events) : k = order ∧ volume = order.volume := by
  cases h with
  | unsupported => cases he
  | traded price' ts' =>
    cases List.mem_singleton.mp he
    exact ⟨rfl, rfl⟩
  | rested => cases List.mem_singleton.mp he
  | rejected => cases List.mem_singleton.mp he
  | canceled => cases List.mem_singleton.mp he

/-- Orders leave the book one by one, each with a final event for its full volume. -/
inductive Closes : RestingBook → List Event → RestingBook → Prop
  | nil (book : RestingBook) : Closes book [] book
  | cancelRejected (id : ℕ) {book book' : RestingBook} {events : List Event}
      (rest : Closes book events book') : Closes book (.cancelRejected id :: events) book'
  | traded (order : OrderRequest) (price : ℚ) (timestampUs : ℕ) {book book' : RestingBook}
      {events : List Event} (rest : Closes book events book') :
      Closes (order ::ₘ book) (.traded order order.volume price timestampUs :: events) book'
  | canceled (order : OrderRequest) {book book' : RestingBook} {events : List Event}
      (rest : Closes book events book') :
      Closes (order ::ₘ book) (.canceled order order.volume :: events) book'

theorem Closes.append {book book' book'' : RestingBook} {events events' : List Event}
    (h : Closes book events book') (h' : Closes book' events' book'') :
    Closes book (events ++ events') book'' := by
  induction h with
  | nil book => exact h'
  | cancelRejected id rest ih => exact .cancelRejected id (ih h')
  | traded order price ts rest ih => exact .traded order price ts (ih h')
  | canceled order rest ih => exact .canceled order (ih h')

theorem Closes.frame {book book' : RestingBook} {events : List Event}
    (h : Closes book events book') (others : RestingBook) :
    Closes (book + others) events (book' + others) := by
  induction h with
  | nil book => exact .nil _
  | cancelRejected id rest ih => exact .cancelRejected id ih
  | traded order price ts rest ih =>
    rw [Multiset.cons_add]
    exact .traded order price ts ih
  | canceled order rest ih =>
    rw [Multiset.cons_add]
    exact .canceled order ih

theorem Closes.le {book book' : RestingBook} {events : List Event}
    (h : Closes book events book') : book' ≤ book := by
  induction h with
  | nil book => exact le_rfl
  | cancelRejected id rest ih => exact ih
  | traded order price ts rest ih => exact ih.trans (Multiset.le_cons_self _ _)
  | canceled order rest ih => exact ih.trans (Multiset.le_cons_self _ _)

theorem Closes.mem_of_traded {book book' : RestingBook} {events : List Event}
    (h : Closes book events book') {k : OrderRequest} {volume : ℤ} {price : ℚ} {ts : ℕ}
    (he : .traded k volume price ts ∈ events) : k ∈ book ∧ volume = k.volume := by
  induction h with
  | nil book => cases he
  | cancelRejected id rest ih =>
    rcases List.mem_cons.mp he with heq | he
    · cases heq
    · exact ih he
  | traded order price ts rest ih =>
    rcases List.mem_cons.mp he with heq | he
    · cases heq
      exact ⟨Multiset.mem_cons_self k _, rfl⟩
    · exact ⟨Multiset.mem_cons_of_mem (ih he).1, (ih he).2⟩
  | canceled order rest ih =>
    rcases List.mem_cons.mp he with heq | he
    · cases heq
    · exact ⟨Multiset.mem_cons_of_mem (ih he).1, (ih he).2⟩

theorem Closes.notMem {book book' : RestingBook} {events : List Event}
    (h : Closes book events book') (hn : (orderIds book).Nodup) {e : Event} (he : e ∈ events)
    {k : OrderRequest} (hk : e.order? = some k) : k.orderId ∉ orderIds book' := by
  have hleft : ∀ {order : OrderRequest} {rest rest' : RestingBook} {events' : List Event},
      Closes rest events' rest' → (orderIds (order ::ₘ rest)).Nodup →
        order.orderId ∉ orderIds rest' := by
    intro order rest rest' events' hc hnodup hmem
    rw [orderIds, Multiset.map_cons, Multiset.nodup_cons] at hnodup
    exact hnodup.1 (Multiset.mem_of_le (Multiset.map_le_map hc.le) hmem)
  have hrest : ∀ {order : OrderRequest} {rest : RestingBook},
      (orderIds (order ::ₘ rest)).Nodup → (orderIds rest).Nodup := by
    intro order rest hnodup
    rw [orderIds, Multiset.map_cons, Multiset.nodup_cons] at hnodup
    exact hnodup.2
  induction h with
  | nil book => cases he
  | cancelRejected id rest ih =>
    rcases List.mem_cons.mp he with rfl | he
    · cases hk
    · exact ih hn he
  | traded order price ts rest ih =>
    rcases List.mem_cons.mp he with rfl | he
    · cases hk
      exact hleft rest hn
    · exact ih (hrest hn) he
  | canceled order rest ih =>
    rcases List.mem_cons.mp he with rfl | he
    · cases hk
      exact hleft rest hn
    · exact ih (hrest hn) he

theorem Closes.reported {book book' : RestingBook} {events : List Event}
    (h : Closes book events book') {k : OrderRequest} (hk : k ∈ book) :
    k ∈ book' ∨ ∃ e ∈ events, e.order? = some k := by
  have hstep : ∀ {order : OrderRequest} {rest rest' : RestingBook} {e : Event}
      {events' : List Event}, e.order? = some order → k ∈ order ::ₘ rest →
      (k ∈ rest → k ∈ rest' ∨ ∃ e ∈ events', e.order? = some k) →
      k ∈ rest' ∨ ∃ e' ∈ e :: events', e'.order? = some k := by
    intro order rest rest' e events' he hmem ih
    rcases Multiset.mem_cons.mp hmem with rfl | hmem
    · exact Or.inr ⟨e, List.mem_cons_self, he⟩
    · rcases ih hmem with h | ⟨e', he', hk'⟩
      · exact Or.inl h
      · exact Or.inr ⟨e', List.mem_cons_of_mem _ he', hk'⟩
  induction h with
  | nil book => exact Or.inl hk
  | cancelRejected id rest ih =>
    rcases ih hk with h | ⟨e, he, hke⟩
    · exact Or.inl h
    · exact Or.inr ⟨e, List.mem_cons_of_mem _ he, hke⟩
  | traded order price ts rest ih => exact hstep rfl hk ih
  | canceled order rest ih => exact hstep rfl hk ih

/-- The laws of a match engine over its abstract book. A best-price order rests
if its side is `quoted`, re-priced at the `touch`. -/
structure MatchEngine.Lawful {ε : Type} (m : MatchEngine ε) where
  inv : ε → Prop
  resting : ε → RestingBook
  touch : OrderRequest → ε → ℚ
  quoted : OrderRequest → ε → Bool
  insert_spec : ∀ order e, inv e → order.orderId ∉ orderIds (resting e) →
    inv (m.insertOrder order e).2.2 ∧
      Inserted order (order.kept (touch order e)) (resting e) (m.insertOrder order e).1
        (m.insertOrder order e).2.1 (resting (m.insertOrder order e).2.2)
  best_spec : ∀ order e, order.type = .kBest → (m.insertOrder order e).2.1 =
    if quoted order e then [.accepted order] else [.rejected order]
  cancel_spec : ∀ id tickerId e r, inv e → m.cancelOrder id tickerId e = some r →
    inv r.2.2 ∧ Closes (resting e) r.2.1 (resting r.2.2)
  tick_spec : ∀ tick e, inv e →
    inv (m.onNewTick tick e).2 ∧ Closes (resting e) (m.onNewTick tick e).1
      (resting (m.onNewTick tick e).2)

structure EngineRun (ε : Type) where
  engine : ε
  log : List Event := []
  inserted : List OrderRequest := []
  latest : ℕ → TickData := fun _ => {}

inductive EngineAction
  | insert (order : OrderRequest)
  | cancel (orderId tickerId : ℕ)
  | tick (tick : TickData)

namespace EngineRun

variable {ε : Type}

def step (m : MatchEngine ε) (r : EngineRun ε) : EngineAction → Option (EngineRun ε)
  | .insert order =>
    let x := m.insertOrder order r.engine
    some ⟨x.2.2, r.log ++ x.2.1, r.inserted ++ [order], r.latest⟩
  | .cancel orderId tickerId =>
    (m.cancelOrder orderId tickerId r.engine).map fun x =>
      ⟨x.2.2, r.log ++ x.2.1, r.inserted, r.latest⟩
  | .tick tick =>
    let x := m.onNewTick tick r.engine
    some ⟨x.2, r.log ++ x.1, r.inserted, Function.update r.latest tick.tickerId tick⟩

def Fresh (r : EngineRun ε) : EngineAction → Prop
  | .insert order => ∀ o ∈ r.inserted, o.orderId ≠ order.orderId
  | _ => True

end EngineRun

/-- The life of the inserted orders: at most one final event, for the full
volume, and at rest exactly when accepted without one. -/
structure Lifecycle (book : RestingBook) (log : List Event) (inserted : List OrderRequest) :
    Prop where
  inserted_nodup : (inserted.map (·.orderId)).Nodup
  resting_nodup : (orderIds book).Nodup
  resting_kept : ∀ k ∈ book, ∃ o ∈ inserted, ∃ touch, k = o.kept touch
  log_kept : ∀ e ∈ log, ∀ k, e.order? = some k → ∃ o ∈ inserted, k = o ∨ ∃ touch, k = o.kept touch
  final_once : ∀ o ∈ inserted, (log.filter (Event.IsFinalFor o.orderId)).length ≤ 1
  final_full : ∀ o ∈ inserted, ∀ e ∈ log, ∀ k volume, e.final? = some (k, volume) →
    k.orderId = o.orderId → volume = o.volume
  resting_iff : ∀ o ∈ inserted, o.orderId ∈ orderIds book ↔
    .accepted o ∈ log ∧ log.filter (Event.IsFinalFor o.orderId) = []

namespace Lifecycle

variable {book book' : RestingBook} {log events : List Event} {inserted : List OrderRequest}

theorem empty : Lifecycle 0 [] [] where
  inserted_nodup := List.nodup_nil
  resting_nodup := Multiset.nodup_zero
  resting_kept := fun k hk => absurd hk (Multiset.notMem_zero k)
  log_kept := fun _ he => nomatch he
  final_once := fun _ ho => nomatch ho
  final_full := fun _ ho => nomatch ho
  resting_iff := fun _ ho => nomatch ho

theorem isFinalFor_iff {id : ℕ} {e : Event} :
    e.IsFinalFor id = true ↔ ∃ k volume, e.final? = some (k, volume) ∧ k.orderId = id := by
  cases e <;> simp [Event.IsFinalFor, Event.final?]

theorem order?_of_final? {e : Event} {k : OrderRequest} {volume : ℤ}
    (h : e.final? = some (k, volume)) : e.order? = some k := by
  cases e with
  | accepted order => cases h
  | rejected order =>
    cases h
    rfl
  | traded order volume price ts =>
    cases h
    rfl
  | canceled order volume =>
    cases h
    rfl
  | cancelRejected id => cases h

theorem log_orderId (h : Lifecycle book log inserted) {e : Event} (he : e ∈ log)
    {k : OrderRequest} (hk : e.order? = some k) : ∃ o ∈ inserted, k.orderId = o.orderId := by
  obtain ⟨o, ho, rfl | ⟨touch, rfl⟩⟩ := h.log_kept e he k hk
  · exact ⟨k, ho, rfl⟩
  · exact ⟨o, ho, o.kept_orderId touch⟩

theorem mem_orderIds {k : OrderRequest} (h : k ∈ book) : k.orderId ∈ orderIds book :=
  Multiset.mem_map_of_mem _ h

theorem resting_orderId (h : Lifecycle book log inserted) {id : ℕ} (hid : id ∈ orderIds book) :
    ∃ o ∈ inserted, o.orderId = id := by
  obtain ⟨k, hk, rfl⟩ := Multiset.mem_map.mp hid
  obtain ⟨o, ho, touch, rfl⟩ := h.resting_kept k hk
  exact ⟨o, ho, (o.kept_orderId touch).symm⟩

theorem eq_of_limited (h : Lifecycle book log inserted) {e : Event} (he : e ∈ log)
    {k : OrderRequest} (hk : e.order? = some k) {o : OrderRequest} (ho : o ∈ inserted)
    (hid : k.orderId = o.orderId) (hl : o.type ≠ .kBest) : k = o := by
  obtain ⟨o', ho', hcase⟩ := h.log_kept e he k hk
  have hsame : o' = o := by
    apply List.inj_on_of_nodup_map h.inserted_nodup ho' ho
    rcases hcase with rfl | ⟨touch, rfl⟩
    · exact hid
    · rwa [OrderRequest.kept_orderId] at hid
  subst hsame
  rcases hcase with rfl | ⟨touch, rfl⟩
  · rfl
  · exact if_neg hl

section Fresh

variable {order : OrderRequest} (hfresh : ∀ o ∈ inserted, o.orderId ≠ order.orderId)

include hfresh

theorem notMem_of_fresh (h : Lifecycle book log inserted) : order.orderId ∉ orderIds book := by
  intro hid
  obtain ⟨o, ho, heq⟩ := h.resting_orderId hid
  exact hfresh o ho heq

theorem filter_of_fresh (h : Lifecycle book log inserted) :
    log.filter (Event.IsFinalFor order.orderId) = [] := by
  apply List.filter_eq_nil_iff.mpr
  intro e he hf
  obtain ⟨k, volume, hk, hid⟩ := isFinalFor_iff.mp hf
  obtain ⟨o, ho, hko⟩ := h.log_orderId he (order?_of_final? hk)
  exact hfresh o ho (hko.symm.trans hid)

theorem filter_of_about (habout : ∀ e ∈ events, e.order? = some order) {o : OrderRequest}
    (ho : o ∈ inserted) : events.filter (Event.IsFinalFor o.orderId) = [] := by
  apply List.filter_eq_nil_iff.mpr
  intro e he hf
  obtain ⟨k, volume, hk, hid⟩ := isFinalFor_iff.mp hf
  have hko := habout e he
  rw [order?_of_final? hk, Option.some.injEq] at hko
  subst hko
  exact hfresh o ho hid.symm

theorem accepted_of_fresh (h : Lifecycle book log inserted) : .accepted order ∉ log := by
  intro hmem
  obtain ⟨o, ho, heq⟩ := h.log_orderId hmem rfl
  exact hfresh o ho heq.symm

theorem accepted_of_about (habout : ∀ e ∈ events, e.order? = some order) {o : OrderRequest}
    (ho : o ∈ inserted) : .accepted o ∉ events := by
  intro hmem
  have heq := habout _ hmem
  simp only [Event.order?, Option.some.injEq] at heq
  exact hfresh o ho (congrArg _ heq)

theorem final_full_append (h : Lifecycle book log inserted)
    (habout : ∀ e ∈ events, e.order? = some order)
    (hfull : ∀ e ∈ events, ∀ k volume, e.final? = some (k, volume) → volume = order.volume)
    {o : OrderRequest} (ho : o ∈ inserted ++ [order]) {e : Event} (he : e ∈ log ++ events)
    {k : OrderRequest} {volume : ℤ} (hk : e.final? = some (k, volume))
    (hid : k.orderId = o.orderId) : volume = o.volume := by
  rcases List.mem_append.mp he with he | he
  · rcases List.mem_append.mp ho with ho | ho
    · exact h.final_full o ho e he k volume hk hid
    · rw [List.mem_singleton.mp ho] at hid
      obtain ⟨o', ho', hko⟩ := h.log_orderId he (order?_of_final? hk)
      exact absurd (hko.symm.trans hid) (hfresh o' ho')
  · have hko := habout e he
    rw [order?_of_final? hk, Option.some.injEq] at hko
    subst hko
    rcases List.mem_append.mp ho with ho | ho
    · exact absurd hid.symm (hfresh o ho)
    · rw [List.mem_singleton.mp ho]
      exact hfull e he k volume hk

end Fresh

theorem join (h : Lifecycle book log inserted) {order : OrderRequest}
    (hfresh : ∀ o ∈ inserted, o.orderId ≠ order.orderId)
    (habout : ∀ e ∈ events, e.order? = some order)
    (hfull : ∀ e ∈ events, ∀ k volume, e.final? = some (k, volume) → volume = order.volume)
    (honce : (events.filter (Event.IsFinalFor order.orderId)).length ≤ 1)
    (hbook : book' = book ∨ ∃ touch, book' = order.kept touch ::ₘ book)
    (hrest : order.orderId ∈ orderIds book' ↔
      .accepted order ∈ events ∧ events.filter (Event.IsFinalFor order.orderId) = []) :
    Lifecycle book' (log ++ events) (inserted ++ [order]) := by
  have hlog := h.filter_of_fresh hfresh
  have hnew : ∀ o ∈ inserted, events.filter (Event.IsFinalFor o.orderId) = [] :=
    fun o ho => filter_of_about hfresh habout ho
  have hacc := h.accepted_of_fresh hfresh
  have hmem : ∀ id, id ≠ order.orderId → (id ∈ orderIds book' ↔ id ∈ orderIds book) := by
    intro id hid
    rcases hbook with rfl | ⟨touch, rfl⟩
    · rfl
    · simp [orderIds, hid]
  refine ⟨?_, ?_, fun k hk => ?_, fun e he k hk => ?_, fun o ho => ?_,
    fun o ho e he k volume hk hid => ?_, fun o ho => ?_⟩
  · rw [List.map_append, List.nodup_append]
    refine ⟨h.inserted_nodup, List.nodup_singleton _, fun a ha b hb => ?_⟩
    obtain ⟨o, ho, rfl⟩ := List.mem_map.mp ha
    simp only [List.map_cons, List.map_nil, List.mem_singleton] at hb
    exact hb ▸ hfresh o ho
  · rcases hbook with rfl | ⟨touch, rfl⟩
    · exact h.resting_nodup
    · rw [orderIds, Multiset.map_cons, Multiset.nodup_cons, OrderRequest.kept_orderId]
      exact ⟨h.notMem_of_fresh hfresh, h.resting_nodup⟩
  · have hold : k ∈ book → ∃ o ∈ inserted ++ [order], ∃ touch, k = o.kept touch := fun hk => by
      obtain ⟨o, ho, touch, heq⟩ := h.resting_kept k hk
      exact ⟨o, List.mem_append_left _ ho, touch, heq⟩
    rcases hbook with rfl | ⟨touch, rfl⟩
    · exact hold hk
    · rcases Multiset.mem_cons.mp hk with rfl | hk
      · exact ⟨order, by simp, touch, rfl⟩
      · exact hold hk
  · rcases List.mem_append.mp he with he | he
    · obtain ⟨o, ho, heq⟩ := h.log_kept e he k hk
      exact ⟨o, List.mem_append_left _ ho, heq⟩
    · rw [habout e he, Option.some.injEq] at hk
      exact ⟨order, by simp, Or.inl hk.symm⟩
  · rw [List.filter_append, List.length_append]
    rcases List.mem_append.mp ho with ho | ho
    · rw [hnew o ho]
      exact h.final_once o ho
    · rw [List.mem_singleton.mp ho, hlog, List.length_nil, zero_add]
      exact honce
  · exact h.final_full_append hfresh habout hfull ho he hk hid
  · rw [List.filter_append]
    rcases List.mem_append.mp ho with ho | ho
    · have hnotev := accepted_of_about hfresh habout ho
      rw [hnew o ho, List.append_nil, hmem _ (hfresh o ho), h.resting_iff o ho]
      simp [hnotev]
    · rw [List.mem_singleton.mp ho, hlog, List.nil_append, hrest]
      simp [hacc]

theorem insert (h : Lifecycle book log inserted) {order : OrderRequest} {touch : ℚ} {ok : Bool}
    (hfresh : ∀ o ∈ inserted, o.orderId ≠ order.orderId)
    (hi : Inserted order (order.kept touch) book ok events book') :
    Lifecycle book' (log ++ events) (inserted ++ [order]) := by
  have hnot := h.notMem_of_fresh hfresh
  cases hi with
  | unsupported => exact h.join hfresh (by simp) (by simp) (by simp) (Or.inl rfl) (by simp [hnot])
  | rested =>
    refine h.join hfresh (by simp [Event.order?]) (by simp [Event.final?]) ?_ (Or.inr ⟨touch, rfl⟩) ?_
    · simp [Event.IsFinalFor, Event.final?]
    · simp [orderIds, Event.IsFinalFor, Event.final?]
  | rejected =>
    refine h.join hfresh (by simp [Event.order?]) (by simp [Event.final?]) ?_ (Or.inl rfl) ?_
    · simp [Event.IsFinalFor, Event.final?]
    · simp [hnot]
  | traded price ts =>
    refine h.join hfresh (by simp [Event.order?]) (by simp [Event.final?]) ?_ (Or.inl rfl) ?_
    · simp [Event.IsFinalFor, Event.final?]
    · simp [hnot]
  | canceled =>
    refine h.join hfresh (by simp [Event.order?]) (by simp [Event.final?]) ?_ (Or.inl rfl) ?_
    · simp [Event.IsFinalFor, Event.final?]
    · simp [hnot]

theorem leave {k : OrderRequest} (h : Lifecycle (k ::ₘ book) log inserted) {e : Event}
    (hfinal : e.final? = some (k, k.volume)) (hacc : ∀ o, e ≠ .accepted o) :
    Lifecycle book (log ++ [e]) inserted := by
  have hk : k ∈ k ::ₘ book := Multiset.mem_cons_self k book
  obtain ⟨o₀, ho₀, touch, hkept⟩ := h.resting_kept k hk
  have hnodup := h.resting_nodup
  rw [orderIds, Multiset.map_cons, Multiset.nodup_cons] at hnodup
  have huniq : ∀ o ∈ inserted, k.orderId = o.orderId → o = o₀ := fun o ho heq => by
    apply List.inj_on_of_nodup_map h.inserted_nodup ho ho₀
    rw [← heq, hkept, OrderRequest.kept_orderId]
  have hvolume : k.volume = o₀.volume := by rw [hkept, OrderRequest.kept_volume]
  have hisFinal : ∀ id, e.IsFinalFor id = true ↔ k.orderId = id := by
    intro id
    simp [Event.IsFinalFor, hfinal]
  refine ⟨h.inserted_nodup, hnodup.2, fun k' hk' => h.resting_kept k' (Multiset.mem_cons_of_mem hk'),
    fun e' he' k' hk' => ?_, fun o ho => ?_, fun o ho e' he' k' volume hk' hid => ?_,
    fun o ho => ?_⟩
  · rcases List.mem_append.mp he' with he' | he'
    · exact h.log_kept e' he' k' hk'
    · rw [List.mem_singleton.mp he', order?_of_final? hfinal, Option.some.injEq] at hk'
      exact ⟨o₀, ho₀, Or.inr ⟨touch, hk'.symm.trans hkept⟩⟩
  · rw [List.filter_append, List.length_append]
    by_cases heq : k.orderId = o.orderId
    · have hnone := ((h.resting_iff o ho).mp (heq ▸ mem_orderIds hk)).2
      rw [hnone, List.length_nil, zero_add]
      exact List.length_filter_le _ _
    · have hnot : [e].filter (Event.IsFinalFor o.orderId) = [] := by simp [hisFinal, heq]
      rw [hnot]
      exact h.final_once o ho
  · rcases List.mem_append.mp he' with he' | he'
    · exact h.final_full o ho e' he' k' volume hk' hid
    · rw [List.mem_singleton.mp he', hfinal, Option.some.injEq, Prod.mk.injEq] at hk'
      rw [← hk'.1] at hid
      rw [← hk'.2, huniq o ho hid, hvolume]
  · rw [List.filter_append]
    by_cases heq : k.orderId = o.orderId
    · have hfin : [e].filter (Event.IsFinalFor o.orderId) = [e] := by simp [hisFinal, heq]
      rw [hfin, ← heq]
      exact ⟨fun hmem => absurd hmem hnodup.1, fun hmem => by simp at hmem⟩
    · have hnot : [e].filter (Event.IsFinalFor o.orderId) = [] := by simp [hisFinal, heq]
      have hne : Event.accepted o ≠ e := fun hc => hacc o hc.symm
      have hold := h.resting_iff o ho
      rw [orderIds, Multiset.map_cons, Multiset.mem_cons, or_iff_right (Ne.symm heq)] at hold
      rw [hnot, List.append_nil, orderIds, hold]
      simp [hne]

theorem cancelRejected (h : Lifecycle book log inserted) (id : ℕ) :
    Lifecycle book (log ++ [Event.cancelRejected id]) inserted := by
  have hfilter : ∀ id', (log ++ [Event.cancelRejected id]).filter (Event.IsFinalFor id') =
      log.filter (Event.IsFinalFor id') := by
    intro id'
    simp [Event.IsFinalFor, Event.final?]
  refine ⟨h.inserted_nodup, h.resting_nodup, h.resting_kept, fun e he k hk => ?_,
    fun o ho => by rw [hfilter]; exact h.final_once o ho, fun o ho e he k volume hk hid => ?_,
    fun o ho => ?_⟩
  · rcases List.mem_append.mp he with he | he
    · exact h.log_kept e he k hk
    · rw [List.mem_singleton.mp he] at hk
      cases hk
  · rcases List.mem_append.mp he with he | he
    · exact h.final_full o ho e he k volume hk hid
    · rw [List.mem_singleton.mp he] at hk
      cases hk
  · rw [hfilter, h.resting_iff o ho]
    simp

theorem closes (h : Lifecycle book log inserted) (hc : Closes book events book') :
    Lifecycle book' (log ++ events) inserted := by
  induction hc generalizing log with
  | nil book => simpa using h
  | cancelRejected id rest ih => simpa using ih (h.cancelRejected id)
  | traded order price ts rest ih => simpa using ih (h.leave rfl (by simp))
  | canceled order rest ih => simpa using ih (h.leave rfl (by simp))

end Lifecycle

namespace EngineRun

variable {ε : Type} {m : MatchEngine ε}

structure Kept (L : m.Lawful) (r : EngineRun ε) : Prop where
  inv : L.inv r.engine
  lifecycle : Lifecycle (L.resting r.engine) r.log r.inserted

theorem Kept.preserved {L : m.Lawful} {r r' : EngineRun ε} {a : EngineAction} (h : Kept L r)
    (ha : r.Fresh a) (hs : step m r a = some r') : Kept L r' := by
  cases a with
  | insert order =>
    cases hs
    obtain ⟨hinv, hins⟩ := L.insert_spec order r.engine h.inv (h.lifecycle.notMem_of_fresh ha)
    exact ⟨hinv, h.lifecycle.insert ha hins⟩
  | cancel orderId tickerId =>
    obtain ⟨x, hx, rfl⟩ := Option.map_eq_some_iff.mp hs
    obtain ⟨hinv, hcl⟩ := L.cancel_spec orderId tickerId r.engine x h.inv hx
    exact ⟨hinv, h.lifecycle.closes hcl⟩
  | tick tick =>
    cases hs
    obtain ⟨hinv, hcl⟩ := L.tick_spec tick r.engine h.inv
    exact ⟨hinv, h.lifecycle.closes hcl⟩

theorem kept_of_reaches (L : m.Lawful) {e : ε} (hinv : L.inv e) (hempty : L.resting e = 0)
    {ok : EngineRun ε → EngineAction → Prop} (hok : ∀ r a, ok r a → r.Fresh a) {r : EngineRun ε}
    (h : Execution.Reaches (step m) ok { engine := e } r) : Kept L r :=
  h.invariant (Kept L) (fun _ _ _ hk ha hs => hk.preserved (hok _ _ ha) hs)
    ⟨hinv, hempty ▸ .empty⟩

end EngineRun

end FlareTrader
