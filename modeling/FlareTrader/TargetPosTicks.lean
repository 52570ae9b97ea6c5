import FlareTrader.TargetPosEngine

/-! Ticks of other tickers. A strategy hands every tick to every engine, and the
engine takes each for one of its own: such a tick does no harm exactly when it
is idle, that is when it brings no new quote and leaves nothing to do. -/

open MachineInt (int32 le_int32 int32_lt)

namespace FlareTrader

inductive EngineEvent
  | setTargetPos (volume : ℤ)
  | setPriceLimit (contract : Contract) (priceLimit : ℚ)
  | tick (tick : TickData)
  | response (rsp : OrderResponse)

/-- The first run is the second with some ticks of tickers other than `tickerId`
left out. -/
inductive Thinned (tickerId : ℕ) : List EngineEvent → List EngineEvent → Prop
  | nil : Thinned tickerId [] []
  | keep (event : EngineEvent) {as bs : List EngineEvent} (h : Thinned tickerId as bs) :
      Thinned tickerId (event :: as) (event :: bs)
  | leaveOut (tick : TickData) {as bs : List EngineEvent} (hne : tick.tickerId ≠ tickerId)
      (h : Thinned tickerId as bs) : Thinned tickerId as (.tick tick :: bs)

namespace TargetPosEngine

def step (e : TargetPosEngine) : EngineEvent → List TraderCommand × TargetPosEngine
  | .setTargetPos volume => ([], e.setTargetPos volume)
  | .setPriceLimit contract priceLimit => ([], e.setPriceLimit contract priceLimit)
  | .tick tick => e.onTick tick
  | .response rsp => ([], e.onOrderResponse rsp)

def run : TargetPosEngine → List EngineEvent → List TraderCommand × TargetPosEngine
  | e, [] => ([], e)
  | e, event :: events =>
    let r := e.step event
    let rest := run r.2 events
    (r.1 ++ rest.1, rest.2)

/-- The tick brings no new quote, leaves no order behind the quote, and there is
nothing to pursue. -/
structure Idle (tick : TickData) (e : TargetPosEngine) : Prop where
  ask : 0 < tick.ask firstLevel → tick.ask firstLevel = e.ask
  bid : 0 < tick.bid firstLevel → tick.bid firstLevel = e.bid
  uncrossed : ∀ order ∈ e.orders.values, ¬ e.crossed order
  settled : int32 (e.longPos - e.shortPos) = e.targetPos ∨ e.gap = 0 ∨
    (0 < e.gap ∧ e.ask < 1 / 1000000) ∨ (e.gap < 0 ∧ e.bid < 1 / 1000000)

theorem quoted_eq (tick : TickData) (e : TargetPosEngine) :
    e.quoted tick = { e with ask := (e.quoted tick).ask, bid := (e.quoted tick).bid } :=
  rfl

theorem quoted_eq_iff {e : TargetPosEngine} {tick : TickData} :
    e.quoted tick = e ↔ (0 < tick.ask firstLevel → tick.ask firstLevel = e.ask) ∧
      (0 < tick.bid firstLevel → tick.bid firstLevel = e.bid) := by
  constructor
  · intro h
    have hask := congrArg TargetPosEngine.ask h
    have hbid := congrArg TargetPosEngine.bid h
    simp only [quoted] at hask hbid
    exact ⟨fun hpos => by rwa [if_pos hpos] at hask, fun hpos => by rwa [if_pos hpos] at hbid⟩
  · rintro ⟨hask, hbid⟩
    have h₁ : (if 0 < tick.ask firstLevel then tick.ask firstLevel else e.ask) = e.ask := by
      split_ifs with hpos
      · exact hask hpos
      · rfl
    have h₂ : (if 0 < tick.bid firstLevel then tick.bid firstLevel else e.bid) = e.bid := by
      split_ifs with hpos
      · exact hbid hpos
      · rfl
    rw [quoted, h₁, h₂]

theorem cancelCrossed_eq_nil_iff {e : TargetPosEngine} :
    e.cancelCrossed = [] ↔ ∀ order ∈ e.orders.values, ¬ e.crossed order := by
  rw [cancelCrossed, List.map_eq_nil_iff, List.filter_eq_nil_iff]

theorem pursue_eq_nil_iff {e : TargetPosEngine} :
    e.pursue = ([], e) ↔ int32 (e.longPos - e.shortPos) = e.targetPos ∨ e.gap = 0 ∨
      (0 < e.gap ∧ e.ask < 1 / 1000000) ∨ (e.gap < 0 ∧ e.bid < 1 / 1000000) := by
  have hlow : -2 ^ 31 ≤ e.gap := le_int32 _
  have hlt : e.gap < 2 ^ 31 := int32_lt _
  unfold pursue
  split_ifs with htarget hpos hask hneg hbid
  · exact iff_of_true rfl (Or.inl htarget)
  · exact iff_of_true rfl (Or.inr (Or.inr (Or.inl ⟨hpos, hask⟩)))
  · apply iff_of_false (adjust_ne hpos hlt.le)
    rintro (h | h | ⟨-, h⟩ | ⟨h, -⟩)
    · exact htarget h
    · omega
    · exact hask h
    · omega
  · exact iff_of_true rfl (Or.inr (Or.inr (Or.inr ⟨hneg, hbid⟩)))
  · apply iff_of_false (adjust_ne (by omega) (by omega))
    rintro (h | h | ⟨h, -⟩ | ⟨-, h⟩)
    · exact htarget h
    · omega
    · exact hpos h
    · exact hbid h
  · exact iff_of_true rfl (Or.inr (Or.inl (by omega)))

theorem pursue_frame (e : TargetPosEngine) :
    e.pursue.2.ask = e.ask ∧ e.pursue.2.bid = e.bid ∧ e.pursue.2.tickerId = e.tickerId := by
  have hadjust : ∀ direction price gap, (e.adjust direction price gap).2.ask = e.ask ∧
      (e.adjust direction price gap).2.bid = e.bid ∧
      (e.adjust direction price gap).2.tickerId = e.tickerId := by
    intro direction price gap
    by_cases hroom : 0 < (e.makeRoom direction gap).2
    · obtain ⟨orders, clientOrderId, hplaced⟩ :=
        e.place_frame direction price (int32 (e.makeRoom direction gap).2)
      obtain ⟨longPending, shortPending, hadd⟩ := e.addPending_frame direction
        (e.counted direction (int32 (e.makeRoom direction gap).2))
      rw [adjust_of_room hroom, hplaced, hadd]
      exact ⟨rfl, rfl, rfl⟩
    · rw [adjust_of_no_room hroom]
      exact ⟨rfl, rfl, rfl⟩
  unfold pursue
  split_ifs
  all_goals first
    | exact ⟨rfl, rfl, rfl⟩
    | exact hadjust _ _ _

theorem onTick_eq_iff (tick : TickData) (e : TargetPosEngine) :
    e.onTick tick = ([], e) ↔ e.Idle tick := by
  constructor
  · intro h
    obtain ⟨hcmds, hengine⟩ := Prod.mk.injEq _ _ _ _ ▸ h
    obtain ⟨hask, hbid, -⟩ := (e.quoted tick).pursue_frame
    rw [hengine] at hask hbid
    have hquoted : e.quoted tick = e := by
      rw [quoted_eq, ← hask, ← hbid]
    rw [hquoted] at hcmds hengine
    obtain ⟨hcross, hpursue⟩ := List.append_eq_nil_iff.mp hcmds
    obtain ⟨h₁, h₂⟩ := quoted_eq_iff.mp hquoted
    exact ⟨h₁, h₂, cancelCrossed_eq_nil_iff.mp hcross,
      pursue_eq_nil_iff.mp (Prod.ext hpursue hengine)⟩
  · intro h
    simp only [onTick, quoted_eq_iff.mpr ⟨h.ask, h.bid⟩, cancelCrossed_eq_nil_iff.mpr h.uncrossed,
      pursue_eq_nil_iff.mpr h.settled, List.nil_append]

theorem step_tickerId (e : TargetPosEngine) (event : EngineEvent) :
    (e.step event).2.tickerId = e.tickerId := by
  cases event with
  | setTargetPos volume => rfl
  | setPriceLimit contract priceLimit => rfl
  | tick tick => exact (e.quoted tick).pursue_frame.2.2
  | response rsp => exact e.onOrderResponse_tickerId rsp

theorem run_cons (e : TargetPosEngine) (event : EngineEvent) (events : List EngineEvent) :
    e.run (event :: events) =
      ((e.step event).1 ++ ((e.step event).2.run events).1, ((e.step event).2.run events).2) :=
  rfl

theorem run_cons_inj {e : TargetPosEngine} {event : EngineEvent} {as bs : List EngineEvent} :
    e.run (event :: as) = e.run (event :: bs) ↔ (e.step event).2.run as = (e.step event).2.run bs := by
  rw [run_cons, run_cons, Prod.ext_iff, Prod.ext_iff, List.append_cancel_left_eq]

theorem run_idle {e : TargetPosEngine} {tick : TickData} (h : e.Idle tick)
    (events : List EngineEvent) : e.run (.tick tick :: events) = e.run events := by
  have hstep : e.step (.tick tick) = ([], e) := (onTick_eq_iff tick e).mpr h
  rw [run_cons, hstep]
  rfl

def Unmoved (e : TargetPosEngine) (event : EngineEvent) : Prop :=
  ∀ tick, event = .tick tick → tick.tickerId ≠ e.tickerId → e.Idle tick

def next (e : TargetPosEngine) (event : EngineEvent) : Option TargetPosEngine :=
  some (e.step event).2

def Indifferent (e : TargetPosEngine) (events : List EngineEvent) : Prop :=
  ∀ as bs, bs <+: events → Thinned e.tickerId as bs → e.run as = e.run bs

theorem run_thinned {e : TargetPosEngine} {tickerId : ℕ} {events as bs : List EngineEvent}
    (h : Execution.Along next Unmoved e events) (ht : e.tickerId = tickerId) (hbs : bs <+: events)
    (hthin : Thinned tickerId as bs) : e.run as = e.run bs := by
  induction hthin generalizing e events with
  | nil => rfl
  | @keep event as bs hthin ih =>
    cases events with
    | nil => cases List.prefix_nil.mp hbs
    | cons first events =>
      obtain ⟨rfl, hbs'⟩ := List.cons_prefix_cons.mp hbs
      exact run_cons_inj.mpr (ih (h.2 _ rfl) ((step_tickerId e event).trans ht) hbs')
  | @leaveOut tick as bs hne hthin ih =>
    cases events with
    | nil => cases List.prefix_nil.mp hbs
    | cons first events =>
      obtain ⟨rfl, hbs'⟩ := List.cons_prefix_cons.mp hbs
      have hidle : e.Idle tick := h.1 tick rfl (ht ▸ hne)
      have hsame : (e.step (.tick tick)).2 = e :=
        congrArg Prod.snd ((onTick_eq_iff tick e).mpr hidle)
      have hrest := h.2 _ rfl
      rw [hsame] at hrest
      rw [run_idle hidle]
      exact ih hrest ht hbs'

theorem foreignTicks_idle_iff (e : TargetPosEngine) (events : List EngineEvent) :
    e.Indifferent events ↔ Execution.Along next Unmoved e events := by
  constructor
  · intro h
    induction events generalizing e with
    | nil => trivial
    | cons event events ih =>
      refine ⟨?_, fun e' he' => ?_⟩
      · rintro tick rfl hne
        apply (onTick_eq_iff tick e).mp
        have hone := h [] [.tick tick] (List.cons_prefix_cons.mpr ⟨rfl, List.nil_prefix⟩)
          (.leaveOut tick hne .nil)
        rw [run_cons, run, run, List.append_nil] at hone
        exact hone.symm
      · cases he'
        apply ih
        intro as bs hbs hthin
        rw [step_tickerId] at hthin
        exact run_cons_inj.mp (h _ _ (List.cons_prefix_cons.mpr ⟨rfl, hbs⟩) (.keep event hthin))
  · exact fun h as bs hbs hthin => run_thinned h rfl hbs hthin

def flatEngine : TargetPosEngine where
  orderSender := { strategyId := "strategy" }
  tickerId := 1
  ticker := "ticker001"
  clientOrderId := 100100000

def otherQuote : TickData where
  tickerId := 2
  ask := fun _ => 50
  bid := fun _ => 49

/-- The first quote of ticker 2 sends an order for ticker 1 at that price. -/
theorem foreignTick_trades :
    TargetPosEngine.create (.ofList [ticker001]) { strategyId := "strategy" } 1 = some flatEngine ∧
      ¬ flatEngine.Indifferent [.setTargetPos 5, .tick otherQuote] := by
  refine ⟨rfl, fun h => ?_⟩
  have hsame := h [.setTargetPos 5] _ List.prefix_rfl (.keep _ (.leaveOut otherQuote (by decide) .nil))
  exact absurd (congrArg (fun r => r.1.length) hsame) (by decide +kernel)

end TargetPosEngine

end FlareTrader
