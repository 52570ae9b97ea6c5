import FlareTrader.Runs
import FlareTrader.TradeMsg

/-! The one-minute bars of a strategy. A bar is open until a tick of another
minute comes, and the minute of an open bar is read off its time stamp, which
has 32 bits. -/

namespace FlareTrader

structure BarData where
  tickerId : ℕ
  timestampUs : ℕ := 0
  open_ : ℚ := 0
  high : ℚ := 0
  low : ℚ := 0
  close : ℚ := 0
  deriving DecidableEq, Repr

inductive BarPeriod
  | M1
  | M5
  | M15
  | H1

def TickData.minute (tick : TickData) : ℕ := tick.exchangeTimestampUs / 60000000

namespace BarData

/-- The time stamp is cut to 32 bits. -/
def restart (tick : TickData) (bar : BarData) : BarData :=
  { bar with
    timestampUs := tick.exchangeTimestampUs % 2 ^ 32
    open_ := tick.lastPrice
    high := tick.lastPrice
    low := tick.lastPrice
    close := tick.lastPrice }

def extend (tick : TickData) (bar : BarData) : BarData :=
  { bar with
    high := max bar.high tick.lastPrice
    low := min bar.low tick.lastPrice
    close := tick.lastPrice }

def ofRun (tickerId : ℕ) : List TickData → BarData
  | [] => { tickerId }
  | first :: rest =>
    { tickerId
      timestampUs := first.exchangeTimestampUs
      open_ := first.lastPrice
      high := (rest.map TickData.lastPrice).foldl max first.lastPrice
      low := (rest.map TickData.lastPrice).foldl min first.lastPrice
      close := (rest.getLast?.getD first).lastPrice }

def stored (bar : BarData) : BarData := { bar with timestampUs := bar.timestampUs % 2 ^ 32 }

theorem stored_of_lt {bar : BarData} (h : bar.timestampUs < 2 ^ 32) : bar.stored = bar := by
  rw [stored, Nat.mod_eq_of_lt h]

theorem stored_extend (tick : TickData) (bar : BarData) :
    (bar.extend tick).stored = bar.stored.extend tick :=
  rfl

theorem ofRun_concat {run : List TickData} (h : run ≠ []) (tickerId : ℕ) (tick : TickData) :
    ofRun tickerId (run ++ [tick]) = (ofRun tickerId run).extend tick := by
  cases run with
  | nil => exact absurd rfl h
  | cons first rest => simp [ofRun, extend]

end BarData

structure BarGenerator where
  bars : SortedMap ℕ BarData (· < ·) := .empty
  m1Cb : Bool := false

namespace BarGenerator

/-- Whatever the period, the callback is the one for minutes. -/
def addPeriod (_period : BarPeriod) (g : BarGenerator) : BarGenerator := { g with m1Cb := true }

/-- The bars handed to the callback come first. Without a callback an open bar is
never restarted. -/
def onTick (tick : TickData) (g : BarGenerator) : List BarData × BarGenerator :=
  if tick.lastPrice < 1 / 1000000 then ([], g)
  else
    let put := fun bar => { g with bars := g.bars.insert tick.tickerId bar }
    match g.bars.find? tick.tickerId with
    | none => ([], put (BarData.restart tick { tickerId := tick.tickerId }))
    | some bar =>
      if bar.timestampUs / 60000000 ≠ tick.minute then
        if g.m1Cb then ([bar], put (bar.restart tick)) else ([], put (bar.extend tick))
      else ([], put (bar.extend tick))

def run : BarGenerator → List TickData → List BarData × BarGenerator
  | g, [] => ([], g)
  | g, tick :: ticks =>
    let r := g.onTick tick
    let rest := run r.2 ticks
    (r.1 ++ rest.1, rest.2)

end BarGenerator

def BarData.meet (bar? : Option BarData) (tick : TickData) : List BarData × BarData :=
  match bar? with
  | none => ([], restart tick { tickerId := tick.tickerId })
  | some bar =>
    if bar.timestampUs / 60000000 ≠ tick.minute then ([bar], bar.restart tick)
    else ([], bar.extend tick)

def BarData.follow : Option BarData → List TickData → List BarData × Option BarData
  | bar?, [] => ([], bar?)
  | bar?, tick :: ticks =>
    let r := meet bar? tick
    let rest := follow (some r.2) ticks
    (r.1 ++ rest.1, rest.2)

def priced (tickerId : ℕ) (ticks : List TickData) : List TickData :=
  ticks.filter fun tick => tick.tickerId = tickerId ∧ ¬ tick.lastPrice < 1 / 1000000

namespace BarGenerator

structure Keyed (g : BarGenerator) : Prop where
  m1Cb : g.m1Cb = true
  key : ∀ k bar, g.bars.find? k = some bar → bar.tickerId = k

theorem meet_tickerId {bar? : Option BarData} {tick : TickData}
    (h : ∀ bar, bar? = some bar → bar.tickerId = tick.tickerId) :
    (∀ bar ∈ (BarData.meet bar? tick).1, bar.tickerId = tick.tickerId) ∧
      (BarData.meet bar? tick).2.tickerId = tick.tickerId := by
  cases bar? with
  | none => exact ⟨by simp [BarData.meet], rfl⟩
  | some bar =>
    have hbar := h bar rfl
    simp only [BarData.meet]
    split_ifs
    · exact ⟨by simpa using hbar, hbar⟩
    · exact ⟨by simp, hbar⟩

theorem onTick_eq {g : BarGenerator} (h : g.Keyed) {tick : TickData}
    (hp : ¬ tick.lastPrice < 1 / 1000000) :
    g.onTick tick = ((BarData.meet (g.bars.find? tick.tickerId) tick).1,
      { g with
        bars := g.bars.insert tick.tickerId
          (BarData.meet (g.bars.find? tick.tickerId) tick).2 }) := by
  simp only [onTick, if_neg hp, h.m1Cb, if_true]
  cases g.bars.find? tick.tickerId with
  | none => rfl
  | some bar =>
    simp only [BarData.meet]
    split_ifs <;> rfl

theorem Keyed.onTick {g : BarGenerator} (h : g.Keyed) (tick : TickData) :
    (g.onTick tick).2.Keyed ∧ ∀ bar ∈ (g.onTick tick).1, bar.tickerId = tick.tickerId := by
  by_cases hp : tick.lastPrice < 1 / 1000000
  · rw [BarGenerator.onTick, if_pos hp]
    exact ⟨h, by simp⟩
  · obtain ⟨hout, hnext⟩ := meet_tickerId (h.key tick.tickerId)
    rw [onTick_eq h hp]
    refine ⟨⟨h.m1Cb, fun k bar hbar => ?_⟩, hout⟩
    simp only [SortedMap.find?_insert] at hbar
    split_ifs at hbar with hk
    · cases hbar
      exact hnext.trans hk.symm
    · exact h.key k bar hbar

theorem run_filter {g : BarGenerator} (h : g.Keyed) (tickerId : ℕ) (ticks : List TickData) :
    (g.run ticks).1.filter (fun bar => bar.tickerId = tickerId) =
      (BarData.follow (g.bars.find? tickerId) (priced tickerId ticks)).1 := by
  induction ticks generalizing g with
  | nil => rfl
  | cons tick ticks ih =>
    obtain ⟨hkeyed, hout⟩ := h.onTick tick
    simp only [run, List.filter_append, ih hkeyed]
    by_cases hp : tick.lastPrice < 1 / 1000000
    · have hskip : priced tickerId (tick :: ticks) = priced tickerId ticks :=
        List.filter_cons_of_neg fun hd => (of_decide_eq_true hd).2 hp
      rw [hskip, onTick, if_pos hp]
      rfl
    · by_cases ht : tick.tickerId = tickerId
      · have htake : priced tickerId (tick :: ticks) = tick :: priced tickerId ticks :=
          List.filter_cons_of_pos (decide_eq_true ⟨ht, hp⟩)
        have hall : (g.onTick tick).1.filter (fun bar => bar.tickerId = tickerId) =
            (g.onTick tick).1 :=
          List.filter_eq_self.mpr fun bar hbar => decide_eq_true ((hout bar hbar).trans ht)
        rw [htake, hall, onTick_eq h hp, ht]
        simp only [BarData.follow, SortedMap.find?_insert_self]
      · have hskip : priced tickerId (tick :: ticks) = priced tickerId ticks :=
          List.filter_cons_of_neg fun hd => ht (of_decide_eq_true hd).1
        have hnone : (g.onTick tick).1.filter (fun bar => bar.tickerId = tickerId) = [] :=
          List.filter_eq_nil_iff.mpr fun bar hbar => by simp [hout bar hbar, ht]
        rw [hskip, hnone, List.nil_append, onTick_eq h hp]
        simp only [SortedMap.find?_insert_of_ne _ (Ne.symm ht)]

end BarGenerator

/-- The maximal runs of ticks of one minute. -/
def minuteRuns (ticks : List TickData) : List (List TickData) := Runs.runsBy TickData.minute ticks

def trueBars (tickerId : ℕ) (ticks : List TickData) : List BarData :=
  (minuteRuns ticks).dropLast.map (BarData.ofRun tickerId)

def InTime (ticks : List TickData) : Prop :=
  ∀ run ∈ minuteRuns ticks, ∀ first ∈ run.head?, first.exchangeTimestampUs < 2 ^ 32

namespace BarData

variable {tickerId : ℕ} {ticks : List TickData} {runs : List (List TickData)}
  {run : List TickData} {tick : TickData}

theorem follow_concat (bar? : Option BarData) (ticks : List TickData) (tick : TickData) :
    follow bar? (ticks ++ [tick]) =
      ((follow bar? ticks).1 ++ (meet (follow bar? ticks).2 tick).1,
        some (meet (follow bar? ticks).2 tick).2) := by
  induction ticks generalizing bar? with
  | nil => simp [follow]
  | cons first ticks ih => simp [follow, ih]

theorem timestamp_of_follow {bar? : Option BarData}
    (h : ∀ bar, bar? = some bar → bar.timestampUs < 2 ^ 32) :
    ∀ bar ∈ (follow bar? ticks).1, bar.timestampUs < 2 ^ 32 := by
  induction ticks generalizing bar? with
  | nil => simp [follow]
  | cons tick ticks ih =>
    have hmod : tick.exchangeTimestampUs % 2 ^ 32 < 2 ^ 32 := Nat.mod_lt _ (by decide)
    have hmeet : (∀ bar ∈ (meet bar? tick).1, bar.timestampUs < 2 ^ 32) ∧
        (meet bar? tick).2.timestampUs < 2 ^ 32 := by
      cases bar? with
      | none => exact ⟨by simp [meet], hmod⟩
      | some bar =>
        have hbar := h bar rfl
        simp only [meet]
        split_ifs
        · exact ⟨by simpa using hbar, hmod⟩
        · exact ⟨by simp, hbar⟩
    intro bar hbar
    rcases List.mem_append.mp hbar with hbar | hbar
    · exact hmeet.1 bar hbar
    · exact ih (fun next hnext => by cases hnext; exact hmeet.2) bar hbar

theorem minute_stored {first : TickData} (hf : first ∈ run.head?)
    (h : first.exchangeTimestampUs < 2 ^ 32) :
    (ofRun tickerId run).stored = ofRun tickerId run ∧
      (ofRun tickerId run).timestampUs / 60000000 = first.minute := by
  cases run with
  | nil => cases hf
  | cons first' rest =>
    cases hf
    exact ⟨stored_of_lt h, rfl⟩

theorem minute_stored_ne {first : TickData} (hf : first ∈ run.head?)
    (h : 2 ^ 32 ≤ first.exchangeTimestampUs) :
    (ofRun tickerId run).stored.timestampUs / 60000000 ≠ first.minute := by
  cases run with
  | nil => cases hf
  | cons first' rest =>
    cases hf
    change first.exchangeTimestampUs % 2 ^ 32 / 60000000 ≠ first.exchangeTimestampUs / 60000000
    omega

end BarData

theorem minuteRuns_concat {ticks run : List TickData} {runs : List (List TickData)}
    (h : minuteRuns ticks = runs ++ [run]) {first : TickData} (hf : first ∈ run.head?)
    (tick : TickData) :
    minuteRuns (ticks ++ [tick]) =
      if first.minute = tick.minute then runs ++ [run ++ [tick]] else runs ++ [run] ++ [[tick]] := by
  have hmem : first ∈ run := List.mem_of_mem_head? hf
  split_ifs with hm
  · exact Runs.runsBy_concat_same h hmem hm
  · exact Runs.runsBy_concat_new h hmem hm

theorem exists_lastRun {ticks : List TickData} (h : ticks ≠ []) :
    ∃ runs run first, minuteRuns ticks = runs ++ [run] ∧ first ∈ run.head? := by
  obtain ⟨runs, run, hruns⟩ := @Runs.exists_concat _ _ _ TickData.minute ticks h
  have hne : run ≠ [] := Runs.ne_nil_of_mem (hruns ▸ List.mem_append_right _ List.mem_cons_self)
  exact ⟨runs, run, run.head hne, hruns, List.head_mem_head? hne⟩

theorem InTime.of_concat {ticks : List TickData} {tick : TickData}
    (h : InTime (ticks ++ [tick])) : InTime ticks := by
  by_cases hne : ticks = []
  · rw [hne]
    intro run hrun
    cases hrun
  · obtain ⟨runs, run, first, hruns, hf⟩ := exists_lastRun hne
    have hnext := minuteRuns_concat hruns hf tick
    intro run' hrun' first' hf'
    rw [hruns] at hrun'
    by_cases hm : first.minute = tick.minute
    · rw [if_pos hm] at hnext
      rcases List.mem_append.mp hrun' with hrun' | hrun'
      · exact h run' (hnext ▸ List.mem_append_left _ hrun') first' hf'
      · rw [List.mem_singleton.mp hrun'] at hf'
        refine h (run ++ [tick]) (hnext ▸ List.mem_append_right _ List.mem_cons_self) first' ?_
        rwa [List.head?_append_of_ne_nil _ (List.ne_nil_of_mem (List.mem_of_mem_head? hf))]
    · rw [if_neg hm] at hnext
      exact h run' (hnext ▸ List.mem_append_left _ hrun') first' hf'

theorem trueBars_of_runs {ticks run : List TickData} {runs : List (List TickData)}
    (h : minuteRuns ticks = runs ++ [run]) (tickerId : ℕ) :
    trueBars tickerId ticks = runs.map (BarData.ofRun tickerId) := by
  rw [trueBars, h, List.dropLast_concat]

namespace BarData

variable {tickerId : ℕ}

theorem follow_inTime {ticks : List TickData} (hticker : ∀ tick ∈ ticks, tick.tickerId = tickerId)
    (h : InTime ticks.dropLast) {runs : List (List TickData)} {run : List TickData}
    (hruns : minuteRuns ticks = runs ++ [run]) :
    follow none ticks =
      (runs.map (ofRun tickerId), some (ofRun tickerId run).stored) := by
  induction ticks using List.reverseRecOn generalizing runs run with
  | nil => simp [minuteRuns] at hruns
  | append_singleton ticks tick ih =>
    have ht : tick.tickerId = tickerId := hticker tick (by simp)
    rw [List.dropLast_concat] at h
    by_cases hne : ticks = []
    · subst hne
      have hone : [[tick]] = runs ++ [run] := hruns
      obtain ⟨rfl, rfl⟩ : runs = [] ∧ run = [tick] := by
        cases runs with
        | nil => simpa using hone.symm
        | cons r runs => simp at hone
      rw [← ht]
      rfl
    · obtain ⟨runs', run', first, hruns', hf⟩ := exists_lastRun hne
      have hin : first.exchangeTimestampUs < 2 ^ 32 :=
        h run' (hruns' ▸ List.mem_append_right _ List.mem_cons_self) first hf
      obtain ⟨hstored, hminute⟩ := @minute_stored tickerId run' first hf hin
      have hprev := ih (fun tick htick => hticker tick (List.mem_append_left _ htick))
        (by
          rw [← List.dropLast_append_getLast hne] at h
          exact h.of_concat) hruns'
      have hnext := minuteRuns_concat hruns' hf tick
      rw [follow_concat, hprev, hstored]
      simp only [meet, hminute]
      by_cases hm : first.minute = tick.minute
      · rw [if_pos hm] at hnext
        rw [if_neg (not_not.mpr hm)]
        obtain ⟨rfl, heq⟩ := List.append_inj' (hruns.symm.trans hnext) rfl
        cases heq
        have hrun : run' ≠ [] := List.ne_nil_of_mem (List.mem_of_mem_head? hf)
        rw [List.append_nil, ofRun_concat hrun, stored_extend, hstored]
      · rw [if_neg hm] at hnext
        rw [if_pos hm]
        obtain ⟨rfl, heq⟩ := List.append_inj' (hruns.symm.trans hnext) rfl
        cases heq
        rw [List.map_append, List.map_singleton]
        refine Prod.ext rfl (congrArg some ?_)
        cases run' with
        | nil => cases hf
        | cons first' rest => rfl

/-- Either a bar that is due has a time stamp that cannot be stored, or too many
bars have been made. -/
def Astray (tickerId : ℕ) (ticks : List TickData) : Prop :=
  (∃ bar ∈ trueBars tickerId ticks, 2 ^ 32 ≤ bar.timestampUs) ∨
    (trueBars tickerId ticks).length < (follow none ticks).1.length

theorem ofRun_timestamp {run : List TickData} {first : TickData} (hf : first ∈ run.head?) :
    (ofRun tickerId run).timestampUs = first.exchangeTimestampUs := by
  cases run with
  | nil => cases hf
  | cons first' rest =>
    cases hf
    rfl

theorem astray_of_late {ticks : List TickData} (hticker : ∀ tick ∈ ticks, tick.tickerId = tickerId)
    (h : ¬ InTime ticks.dropLast) : Astray tickerId ticks := by
  induction ticks using List.reverseRecOn with
  | nil =>
    refine absurd (fun run hrun => ?_) h
    cases hrun
  | append_singleton ticks tick ih =>
    rw [List.dropLast_concat] at h
    have hne : ticks ≠ [] := by
      rintro rfl
      refine h fun run hrun => ?_
      cases hrun
    obtain ⟨runs, run, first, hruns, hf⟩ := exists_lastRun hne
    have hnext := minuteRuns_concat hruns hf tick
    have hold : ∀ run' ∈ runs, ∀ first' ∈ run'.head?, 2 ^ 32 ≤ first'.exchangeTimestampUs →
        ∃ bar ∈ trueBars tickerId (ticks ++ [tick]), 2 ^ 32 ≤ bar.timestampUs := by
      intro run' hrun' first' hf' hlate
      refine ⟨ofRun tickerId run', ?_, by rwa [ofRun_timestamp hf']⟩
      split_ifs at hnext
      · rw [trueBars_of_runs hnext]
        exact List.mem_map_of_mem hrun'
      · rw [trueBars_of_runs hnext]
        exact List.mem_map_of_mem (List.mem_append_left _ hrun')
    by_cases hlate : 2 ^ 32 ≤ first.exchangeTimestampUs
    · by_cases hm : first.minute = tick.minute
      · rw [if_pos hm] at hnext
        have htrue : trueBars tickerId (ticks ++ [tick]) = trueBars tickerId ticks := by
          rw [trueBars_of_runs hnext, trueBars_of_runs hruns]
        have hticker' : ∀ tick ∈ ticks, tick.tickerId = tickerId :=
          fun tick htick => hticker tick (List.mem_append_left _ htick)
        by_cases hin : InTime ticks.dropLast
        · right
          have hprev := follow_inTime hticker' hin hruns
          have hcut := @minute_stored_ne tickerId run first hf hlate
          rw [hm] at hcut
          rw [follow_concat, hprev, trueBars_of_runs hnext]
          simp [meet, hcut]
        · rcases ih hticker' hin with hbar | hlength
          · exact Or.inl (htrue ▸ hbar)
          · right
            rw [htrue, follow_concat, List.length_append]
            omega
      · rw [if_neg hm] at hnext
        refine Or.inl ⟨ofRun tickerId run, ?_, by rwa [ofRun_timestamp hf]⟩
        rw [trueBars_of_runs hnext]
        exact List.mem_map_of_mem (List.mem_append_right _ List.mem_cons_self)
    · left
      by_contra hnone
      refine h fun run' hrun' first' hf' => ?_
      by_contra hlate'
      rw [hruns] at hrun'
      rcases List.mem_append.mp hrun' with hrun' | hrun'
      · exact hnone (hold run' hrun' first' hf' (not_lt.mp hlate'))
      · rw [List.mem_singleton.mp hrun'] at hf'
        cases Option.mem_unique hf hf'
        exact hlate (not_lt.mp hlate')

/-- The bars are the true ones exactly when every minute with a further tick after
its first began in time. -/
theorem follow_true_iff {ticks : List TickData}
    (hticker : ∀ tick ∈ ticks, tick.tickerId = tickerId) :
    (follow none ticks).1 = trueBars tickerId ticks ↔ InTime ticks.dropLast := by
  constructor
  · intro h
    by_contra hlate
    rcases astray_of_late hticker hlate with ⟨bar, hbar, hts⟩ | hlength
    · rw [← h] at hbar
      have hlt := timestamp_of_follow (fun bar hnone => by cases hnone) bar hbar
      omega
    · rw [h] at hlength
      exact lt_irrefl _ hlength
  · intro h
    by_cases hne : ticks = []
    · rw [hne]
      rfl
    · obtain ⟨runs, run, first, hruns, -⟩ := exists_lastRun hne
      rw [follow_inTime hticker h hruns, trueBars_of_runs hruns]

end BarData

theorem bars_true_iff (ticks : List TickData) (tickerId : ℕ) :
    ((BarGenerator.addPeriod .M1 {}).run ticks).1.filter (fun bar => bar.tickerId = tickerId) =
        trueBars tickerId (priced tickerId ticks) ↔
      InTime (priced tickerId ticks).dropLast := by
  have hkeyed : (BarGenerator.addPeriod .M1 {}).Keyed := ⟨rfl, fun k bar hbar => by cases hbar⟩
  rw [BarGenerator.run_filter hkeyed]
  exact BarData.follow_true_iff fun tick htick => (of_decide_eq_true (List.mem_filter.mp htick).2).1

def lateTicks : List TickData :=
  [{ tickerId := 1, exchangeTimestampUs := 4294980000, lastPrice := 100 },
    { tickerId := 1, exchangeTimestampUs := 4294990000, lastPrice := 100 }]

/-- Their minute is not over, yet a bar is handed out. -/
theorem lateTicks_bar :
    (∀ tick ∈ lateTicks, 1 / 1000000 ≤ tick.lastPrice) ∧
      lateTicks.Pairwise (fun a b => a.exchangeTimestampUs ≤ b.exchangeTimestampUs) ∧
      trueBars 1 (priced 1 lateTicks) = [] ∧
      ((BarGenerator.addPeriod .M1 {}).run lateTicks).1.filter (fun bar => bar.tickerId = 1) ≠
        trueBars 1 (priced 1 lateTicks) := by
  decide +kernel

end FlareTrader
