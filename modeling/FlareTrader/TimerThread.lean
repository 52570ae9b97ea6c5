import FlareTrader.SortedMultimap

/-! The timer thread of `utils/timer_thread.h`. Tasks wait in a multimap by the time they
are due at, and the loop over the due ones queues the repeating ones again. Callbacks see
and change a state of their own, never the queue. -/

namespace FlareTrader

structure TimerTask (σ : Type) where
  id : ℕ
  once : Bool
  intervalMs : ℕ
  cb : σ → Bool × σ

abbrev TaskQueue (σ : Type) := SortedMultimap ℕ (TimerTask σ)

inductive Stop
  | runtimeError (what : String)
  | fuel
  deriving DecidableEq, Repr

structure TimerThread (σ : Type) where
  nextId : ℕ
  taskQueue : TaskQueue σ
  id_lt : ∀ e ∈ taskQueue.entries, e.2.id < nextId
  ids_nodup : (taskQueue.entries.map fun e => e.2.id).Nodup

namespace TimerThread

variable {σ : Type}

def isOverflow (currentMs intervalMs : ℕ) : Bool := decide (2 ^ 64 - 1 - currentMs < intervalMs)

def checkOverflow (currentMs intervalMs : ℕ) : Except Stop Unit :=
  if isOverflow currentMs intervalMs then .error (.runtimeError "time overflow") else .ok ()

theorem entry_id_lt {t : TimerThread σ} {time intervalMs : ℕ} {once : Bool} {cb : σ → Bool × σ}
    {e : ℕ × TimerTask σ}
    (he : e ∈ (t.taskQueue.emplace time ⟨t.nextId, once, intervalMs, cb⟩).entries) :
    e.2.id < t.nextId + 1 := by
  rcases SortedMultimap.mem_emplace.mp he with rfl | he
  · exact Nat.lt_succ_self _
  · exact Nat.lt_succ_of_lt (t.id_lt e he)

theorem emplace_ids_nodup (t : TimerThread σ) (time intervalMs : ℕ) (once : Bool)
    (cb : σ → Bool × σ) :
    ((t.taskQueue.emplace time ⟨t.nextId, once, intervalMs, cb⟩).entries.map
      fun e => e.2.id).Nodup := by
  have hperm := (t.taskQueue.emplace_perm time ⟨t.nextId, once, intervalMs, cb⟩).map
    fun e => e.2.id
  rw [hperm.nodup_iff, List.map_cons, List.nodup_cons]
  refine ⟨fun hmem => ?_, t.ids_nodup⟩
  obtain ⟨e, he, hid⟩ := List.mem_map.mp hmem
  exact (t.id_lt e he).ne hid

/-- The clock is read twice, and only the first reading is checked. -/
def addTask (t : TimerThread σ) (checkedMs currentMs intervalMs nextIntervalMs : ℕ) (once : Bool)
    (cb : σ → Bool × σ) : Except Stop ℕ × TimerThread σ :=
  match checkOverflow checkedMs nextIntervalMs with
  | .error stop =>
    (.error stop, ⟨t.nextId + 1, t.taskQueue, fun e he => (t.id_lt e he).trans (Nat.lt_succ_self _),
      t.ids_nodup⟩)
  | .ok () =>
    let expiredTimeMs := (currentMs + nextIntervalMs) % 2 ^ 64
    (.ok t.nextId, ⟨t.nextId + 1, t.taskQueue.emplace expiredTimeMs ⟨t.nextId, once, intervalMs, cb⟩,
      fun _ he => entry_id_lt he, t.emplace_ids_nodup _ _ _ _⟩)

theorem addTask_ok {t t' : TimerThread σ} {checkedMs currentMs intervalMs nextIntervalMs id : ℕ}
    {once : Bool} {cb : σ → Bool × σ} (hsum : currentMs + nextIntervalMs < 2 ^ 64)
    (h : addTask t checkedMs currentMs intervalMs nextIntervalMs once cb = (.ok id, t')) :
    id = t.nextId ∧ t'.taskQueue.entries.Perm
      ((currentMs + nextIntervalMs, ⟨id, once, intervalMs, cb⟩) :: t.taskQueue.entries) := by
  rw [addTask] at h
  cases hcheck : checkOverflow checkedMs nextIntervalMs with
  | error stop =>
    rw [hcheck] at h
    cases h
  | ok u =>
    rw [hcheck] at h
    cases h
    rw [Nat.mod_eq_of_lt hsum]
    exact ⟨rfl, SortedMultimap.emplace_perm _ _ _⟩

structure Run where
  time : ℕ
  id : ℕ
  res : Bool
  deriving DecidableEq, Repr

/-- The inner loop of `MainLoop`. The first entry of all is the first one of its key. -/
def runTasks (currentMs : ℕ) : ℕ → TaskQueue σ → σ → Except Stop (List Run × TaskQueue σ × σ)
  | 0, _, _ => .error .fuel
  | fuel + 1, taskQueue, w =>
    match taskQueue.front? with
    | none => .ok ([], taskQueue, w)
    | some (e, rest) =>
      if currentMs < e.1 then .ok ([], taskQueue, w)
      else
        let r := e.2.cb w
        let run : Run := ⟨e.1, e.2.id, r.1⟩
        if !r.1 || e.2.once then
          (runTasks currentMs fuel rest r.2).map fun out => (run :: out.1, out.2)
        else
          match checkOverflow e.1 e.2.intervalMs with
          | .error stop => .error stop
          | .ok () =>
            (runTasks currentMs fuel (rest.emplace (e.1 + e.2.intervalMs) e.2) r.2).map fun out =>
              (run :: out.1, out.2)

def firings (currentMs : ℕ) (e : ℕ × TimerTask σ) : ℕ :=
  if currentMs < e.1 then 0 else if e.2.once then 1 else (currentMs - e.1) / e.2.intervalMs + 1

def nextDue (currentMs : ℕ) (e : ℕ × TimerTask σ) : ℕ :=
  e.1 + firings currentMs e * e.2.intervalMs

def remaining (currentMs : ℕ) (taskQueue : TaskQueue σ) : ℕ :=
  (taskQueue.entries.map (firings currentMs)).sum

def Timely (currentMs : ℕ) (taskQueue : TaskQueue σ) : Prop :=
  ∀ e ∈ taskQueue.entries, e.2.once = false →
    0 < e.2.intervalMs ∧ nextDue currentMs e < 2 ^ 64

def runsOf (id : ℕ) (runs : List Run) : List Run := runs.filter (·.id = id)

/-- The task has run at every time it was due at until now, and waits for the next. -/
structure Repeats (currentMs : ℕ) (taskQueue : TaskQueue σ) (e : ℕ × TimerTask σ)
    (mine : List Run) : Prop where
  repeating : e.2.once = false
  all_true : ∀ r ∈ mine, r.res = true
  count : mine.length = (currentMs - e.1) / e.2.intervalMs + 1
  queued : (e.1 + mine.length * e.2.intervalMs, e.2) ∈ taskQueue.entries

/-- The task is removed after its last run, the first one that asks for it. -/
structure Ends (currentMs : ℕ) (taskQueue : TaskQueue σ) (e : ℕ × TimerTask σ)
    (mine : List Run) : Prop where
  last : ∃ before run, mine = before ++ [run] ∧ (∀ r ∈ before, r.res = true) ∧
    (e.2.once = true ∧ before = [] ∨ e.2.once = false ∧ run.res = false)
  count : e.2.once = false → mine.length ≤ (currentMs - e.1) / e.2.intervalMs + 1
  removed : ∀ e' ∈ taskQueue.entries, e'.2.id ≠ e.2.id

/-- What becomes of one entry of the queue, whose runs are at its times in turn. -/
structure Served (currentMs : ℕ) (taskQueue : TaskQueue σ) (e : ℕ × TimerTask σ)
    (mine : List Run) : Prop where
  times : mine.map Run.time = (List.range mine.length).map fun k => e.1 + k * e.2.intervalMs
  later : currentMs < e.1 → mine = [] ∧ e ∈ taskQueue.entries
  due : e.1 ≤ currentMs → Repeats currentMs taskQueue e mine ∨ Ends currentMs taskQueue e mine

structure CaughtUp (currentMs : ℕ) (taskQueue taskQueue' : TaskQueue σ) (runs : List Run) :
    Prop where
  sorted : (runs.map Run.time).Pairwise (· ≤ ·)
  le_time : ∀ b, (∀ e ∈ taskQueue.entries, b ≤ e.1) → ∀ r ∈ runs, b ≤ r.time
  ids : ∀ r ∈ runs, ∃ e ∈ taskQueue.entries, e.2.id = r.id
  left : ∀ e ∈ taskQueue'.entries, currentMs < e.1 ∧ ∃ e' ∈ taskQueue.entries, e'.2 = e.2
  ids_nodup : (taskQueue'.entries.map fun e => e.2.id).Nodup
  served : ∀ e ∈ taskQueue.entries, Served currentMs taskQueue' e (runsOf e.2.id runs)

section Steps

variable {currentMs fuel : ℕ} {taskQueue taskQueue' rest : TaskQueue σ} {e : ℕ × TimerTask σ}
  {runs : List Run} {res : Bool} {w : σ}

theorem runsOf_cons_of_ne {id : ℕ} {run : Run} (h : run.id ≠ id) :
    runsOf id (run :: runs) = runsOf id runs := by
  rw [runsOf, runsOf, List.filter_cons, if_neg (by simpa using h)]

theorem runsOf_cons_self (run : Run) : runsOf run.id (run :: runs) = run :: runsOf run.id runs := by
  rw [runsOf, runsOf, List.filter_cons, if_pos (by simp)]

theorem caughtUp_done (hlater : ∀ e ∈ taskQueue.entries, currentMs < e.1)
    (hnodup : (taskQueue.entries.map fun e => e.2.id).Nodup) :
    CaughtUp currentMs taskQueue taskQueue [] where
  sorted := List.Pairwise.nil
  le_time := fun _ _ _ hr => absurd hr List.not_mem_nil
  ids := fun _ hr => absurd hr List.not_mem_nil
  left := fun e he => ⟨hlater e he, e, he, rfl⟩
  ids_nodup := hnodup
  served := fun e he => ⟨rfl, fun _ => ⟨rfl, he⟩, fun hdue => absurd (hlater e he) (not_lt.mpr hdue)⟩

theorem caughtUp_run {next : TaskQueue σ} (hself : e ∈ taskQueue.entries)
    (hfirst : ∀ e' ∈ taskQueue.entries, e.1 ≤ e'.1)
    (hnext : ∀ e' ∈ next.entries, ∃ e'' ∈ taskQueue.entries, e''.1 ≤ e'.1 ∧ e''.2 = e'.2)
    (h : CaughtUp currentMs next taskQueue' runs)
    (hserved : ∀ e' ∈ taskQueue.entries,
      Served currentMs taskQueue' e' (runsOf e'.2.id (⟨e.1, e.2.id, res⟩ :: runs))) :
    CaughtUp currentMs taskQueue taskQueue' (⟨e.1, e.2.id, res⟩ :: runs) := by
  have hbound : ∀ b, (∀ e' ∈ taskQueue.entries, b ≤ e'.1) → ∀ r ∈ runs, b ≤ r.time := by
    intro b hb
    refine h.le_time b fun e' he' => ?_
    obtain ⟨e'', he'', hle, -⟩ := hnext e' he'
    exact (hb e'' he'').trans hle
  refine ⟨List.pairwise_cons.mpr ⟨fun time htime => ?_, h.sorted⟩, fun b hb r hr => ?_,
    fun r hr => ?_, fun e' he' => ?_, h.ids_nodup, hserved⟩
  · obtain ⟨r, hr, rfl⟩ := List.mem_map.mp htime
    exact hbound e.1 hfirst r hr
  · rcases List.mem_cons.mp hr with rfl | hr
    · exact hb e hself
    · exact hbound b hb r hr
  · rcases List.mem_cons.mp hr with rfl | hr
    · exact ⟨e, hself, rfl⟩
    · obtain ⟨e', he', hid⟩ := h.ids r hr
      obtain ⟨e'', he'', -, htask⟩ := hnext e' he'
      exact ⟨e'', he'', by rw [htask, hid]⟩
  · obtain ⟨hlater, e₀, he₀, heq⟩ := h.left e' he'
    obtain ⟨e'', he'', -, htask⟩ := hnext e₀ he₀
    exact ⟨hlater, e'', he'', htask.trans heq⟩

theorem caughtUp_removed (hfront : taskQueue.front? = some (e, rest)) (hdue : e.1 ≤ currentMs)
    (hends : res = false ∨ e.2.once = true)
    (hnodup : (taskQueue.entries.map fun e => e.2.id).Nodup)
    (h : CaughtUp currentMs rest taskQueue' runs) :
    CaughtUp currentMs taskQueue taskQueue' (⟨e.1, e.2.id, res⟩ :: runs) := by
  have hentries := SortedMultimap.front?_eq_some.mp hfront
  rw [hentries, List.map_cons, List.nodup_cons] at hnodup
  have hother : ∀ e' ∈ rest.entries, e.2.id ≠ e'.2.id :=
    fun e' he' heq => hnodup.1 (heq ▸ List.mem_map_of_mem he')
  refine caughtUp_run (hentries ▸ List.mem_cons_self)
    (fun e' he' => SortedMultimap.front_le hfront he')
    (fun e' he' => ⟨e', hentries ▸ List.mem_cons_of_mem e he', le_rfl, rfl⟩) h fun e' he' => ?_
  rw [hentries] at he'
  rcases List.mem_cons.mp he' with rfl | he'
  · have hnone : runsOf e'.2.id runs = [] := by
      refine List.filter_eq_nil_iff.mpr fun r hr hid => ?_
      obtain ⟨e'', he'', hid'⟩ := h.ids r hr
      exact hother e'' he'' ((of_decide_eq_true hid).symm.trans hid'.symm)
    rw [runsOf_cons_self ⟨e'.1, e'.2.id, res⟩, hnone]
    refine ⟨by simp, fun hlater => absurd hlater (not_lt.mpr hdue), fun _ => Or.inr ⟨?_, ?_, ?_⟩⟩
    · refine ⟨[], _, rfl, fun r hr => absurd hr List.not_mem_nil, ?_⟩
      cases honce : e'.2.once with
      | true => exact Or.inl ⟨rfl, rfl⟩
      | false => exact Or.inr ⟨rfl, hends.resolve_right (by simp [honce])⟩
    · exact fun _ => Nat.le_add_left _ _
    · intro e'' he'' heq
      obtain ⟨-, e₀, he₀, htask⟩ := h.left e'' he''
      exact hother e₀ he₀ (by rw [htask, heq])
  · rw [runsOf_cons_of_ne (hother e' he')]
    exact h.served e' he'

theorem served_requeued {mine : List Run} (hdue : e.1 ≤ currentMs) (honce : e.2.once = false)
    (hpos : 0 < e.2.intervalMs)
    (h : Served currentMs taskQueue (e.1 + e.2.intervalMs, e.2) mine) :
    Served currentMs taskQueue e (⟨e.1, e.2.id, true⟩ :: mine) := by
  refine ⟨?_, fun hlater => absurd hlater (not_lt.mpr hdue), fun _ => ?_⟩
  · rw [List.map_cons, h.times, List.length_cons, List.range_succ_eq_map, List.map_cons, List.map_map]
    refine congrArg₂ List.cons (by simp) (List.map_congr_left fun k _ => ?_)
    simp only [Function.comp, Nat.succ_eq_add_one]
    ring
  · rcases Nat.lt_or_ge currentMs (e.1 + e.2.intervalMs) with hlt | hge
    · obtain ⟨hnone, hqueued⟩ := h.later hlt
      have hcount : (currentMs - e.1) / e.2.intervalMs = 0 := Nat.div_eq_of_lt (by omega)
      refine Or.inl ⟨honce, fun r hr => ?_, ?_, ?_⟩
      · rw [hnone, List.mem_singleton] at hr
        rw [hr]
      · rw [hnone, hcount]
        rfl
      · rw [hnone, List.length_singleton, one_mul]
        exact hqueued
    · have hcount : (currentMs - e.1) / e.2.intervalMs =
          (currentMs - (e.1 + e.2.intervalMs)) / e.2.intervalMs + 1 := by
        rw [Nat.div_eq_sub_div hpos (by omega), Nat.sub_sub]
      rcases h.due hge with hrepeats | hends
      · refine Or.inl ⟨honce, fun r hr => ?_, ?_, ?_⟩
        · rcases List.mem_cons.mp hr with rfl | hr
          · rfl
          · exact hrepeats.all_true r hr
        · rw [List.length_cons, hrepeats.count, hcount]
        · have hnext : e.1 + (mine.length + 1) * e.2.intervalMs =
              e.1 + e.2.intervalMs + mine.length * e.2.intervalMs := by ring
          rw [List.length_cons, hnext]
          exact hrepeats.queued
      · obtain ⟨before, run, hmine, htrue, hlast⟩ := hends.last
        have hfalse : run.res = false := by
          rcases hlast with ⟨hone, -⟩ | ⟨-, hfalse⟩
          · rw [honce] at hone
            cases hone
          · exact hfalse
        refine Or.inr ⟨⟨_ :: before, run, by rw [hmine]; rfl, fun r hr => ?_,
          Or.inr ⟨honce, hfalse⟩⟩, fun _ => ?_, hends.removed⟩
        · rcases List.mem_cons.mp hr with rfl | hr
          · rfl
          · exact htrue r hr
        · have hle := hends.count honce
          rw [List.length_cons, hcount]
          exact Nat.succ_le_succ hle

theorem caughtUp_requeued (hfront : taskQueue.front? = some (e, rest)) (hdue : e.1 ≤ currentMs)
    (honce : e.2.once = false) (hpos : 0 < e.2.intervalMs)
    (hnodup : (taskQueue.entries.map fun e => e.2.id).Nodup)
    (h : CaughtUp currentMs (rest.emplace (e.1 + e.2.intervalMs) e.2) taskQueue' runs) :
    CaughtUp currentMs taskQueue taskQueue' (⟨e.1, e.2.id, true⟩ :: runs) := by
  have hentries := SortedMultimap.front?_eq_some.mp hfront
  have hself : e ∈ taskQueue.entries := hentries ▸ List.mem_cons_self
  rw [hentries, List.map_cons, List.nodup_cons] at hnodup
  refine caughtUp_run hself (fun e' he' => SortedMultimap.front_le hfront he')
    (fun e' he' => ?_) h fun e' he' => ?_
  · rcases SortedMultimap.mem_emplace.mp he' with rfl | he'
    · exact ⟨e, hself, Nat.le_add_right _ _, rfl⟩
    · exact ⟨e', hentries ▸ List.mem_cons_of_mem e he', le_rfl, rfl⟩
  · rw [hentries] at he'
    rcases List.mem_cons.mp he' with rfl | he'
    · rw [runsOf_cons_self ⟨e'.1, e'.2.id, true⟩]
      exact served_requeued hdue honce hpos
        (h.served _ (SortedMultimap.mem_emplace.mpr (Or.inl rfl)))
    · have hother : e.2.id ≠ e'.2.id := fun heq => hnodup.1 (heq ▸ List.mem_map_of_mem he')
      rw [runsOf_cons_of_ne hother]
      exact h.served e' (SortedMultimap.mem_emplace.mpr (Or.inr he'))

theorem firings_requeued (hdue : e.1 ≤ currentMs) (honce : e.2.once = false)
    (hpos : 0 < e.2.intervalMs) :
    firings currentMs (e.1 + e.2.intervalMs, e.2) + 1 = firings currentMs e := by
  simp only [firings, honce, if_neg (not_lt.mpr hdue), Bool.false_eq_true, if_false]
  split_ifs with hlater
  · rw [Nat.div_eq_of_lt (by omega)]
  · rw [← Nat.sub_sub, ← Nat.div_eq_sub_div hpos (by omega)]

theorem firings_pos (hdue : e.1 ≤ currentMs) : 0 < firings currentMs e := by
  rw [firings, if_neg (not_lt.mpr hdue)]
  split_ifs
  · exact Nat.one_pos
  · exact Nat.succ_pos _

theorem nextDue_requeued (hdue : e.1 ≤ currentMs) (honce : e.2.once = false)
    (hpos : 0 < e.2.intervalMs) :
    nextDue currentMs (e.1 + e.2.intervalMs, e.2) = nextDue currentMs e := by
  rw [nextDue, nextDue, ← firings_requeued hdue honce hpos]
  ring

theorem remaining_removed (hfront : taskQueue.front? = some (e, rest)) (hdue : e.1 ≤ currentMs) :
    remaining currentMs rest < remaining currentMs taskQueue := by
  rw [remaining, remaining, SortedMultimap.front?_eq_some.mp hfront, List.map_cons, List.sum_cons]
  exact Nat.lt_add_of_pos_left (firings_pos hdue)

theorem remaining_requeued (hfront : taskQueue.front? = some (e, rest)) (hdue : e.1 ≤ currentMs)
    (honce : e.2.once = false) (hpos : 0 < e.2.intervalMs) :
    remaining currentMs (rest.emplace (e.1 + e.2.intervalMs) e.2) <
      remaining currentMs taskQueue := by
  have hperm := (rest.emplace_perm (e.1 + e.2.intervalMs) e.2).map (firings currentMs)
  rw [remaining, remaining, hperm.sum_eq, SortedMultimap.front?_eq_some.mp hfront, List.map_cons,
    List.sum_cons, List.map_cons, List.sum_cons, ← firings_requeued hdue honce hpos]
  omega

theorem nodup_requeued (hfront : taskQueue.front? = some (e, rest)) (time : ℕ)
    (hnodup : (taskQueue.entries.map fun e => e.2.id).Nodup) :
    ((rest.emplace time e.2).entries.map fun e => e.2.id).Nodup := by
  have hperm := (rest.emplace_perm time e.2).map fun e => e.2.id
  rw [hperm.nodup_iff]
  rw [SortedMultimap.front?_eq_some.mp hfront] at hnodup
  exact hnodup

theorem Timely.removed (hfront : taskQueue.front? = some (e, rest))
    (h : Timely currentMs taskQueue) : Timely currentMs rest := by
  intro e' he'
  refine h e' ?_
  rw [SortedMultimap.front?_eq_some.mp hfront]
  exact List.mem_cons_of_mem e he'

theorem Timely.requeued (hfront : taskQueue.front? = some (e, rest)) (hdue : e.1 ≤ currentMs)
    (honce : e.2.once = false) (h : Timely currentMs taskQueue) :
    Timely currentMs (rest.emplace (e.1 + e.2.intervalMs) e.2) := by
  intro e' he' honce'
  rcases SortedMultimap.mem_emplace.mp he' with rfl | he'
  · have hself : e ∈ taskQueue.entries := by
      rw [SortedMultimap.front?_eq_some.mp hfront]
      exact List.mem_cons_self
    obtain ⟨hpos, hsum⟩ := h e hself honce
    exact ⟨hpos, (nextDue_requeued hdue honce hpos).trans_lt hsum⟩
  · exact Timely.removed hfront h e' he' honce'

theorem checkOverflow_ok {intervalMs : ℕ} (h : currentMs + intervalMs < 2 ^ 64) :
    checkOverflow currentMs intervalMs = .ok () := by
  have hfits : ¬ 2 ^ 64 - 1 - currentMs < intervalMs := by omega
  rw [checkOverflow, isOverflow, decide_eq_false hfits]
  rfl

theorem checkOverflow_requeued (hdue : e.1 ≤ currentMs) (hnext : nextDue currentMs e < 2 ^ 64) :
    checkOverflow e.1 e.2.intervalMs = .ok () := by
  refine checkOverflow_ok (lt_of_le_of_lt ?_ hnext)
  exact Nat.add_le_add_left (Nat.le_mul_of_pos_left _ (firings_pos hdue)) _

theorem runTasks_done (hlater : ∀ e ∈ taskQueue.entries, currentMs < e.1) :
    runTasks currentMs (fuel + 1) taskQueue w = .ok ([], taskQueue, w) := by
  rw [runTasks]
  cases hfront : taskQueue.front? with
  | none => rfl
  | some out =>
    have hself : out.1 ∈ taskQueue.entries := by
      rw [SortedMultimap.front?_eq_some.mp hfront]
      exact List.mem_cons_self
    exact if_pos (hlater out.1 hself)

theorem runTasks_removed (hfront : taskQueue.front? = some (e, rest)) (hdue : e.1 ≤ currentMs)
    (hends : (!(e.2.cb w).1 || e.2.once) = true) :
    runTasks currentMs (fuel + 1) taskQueue w =
      (runTasks currentMs fuel rest (e.2.cb w).2).map fun out =>
        (⟨e.1, e.2.id, (e.2.cb w).1⟩ :: out.1, out.2) := by
  rw [runTasks, hfront]
  simp only [if_neg (not_lt.mpr hdue), if_pos hends]

theorem runTasks_requeued (hfront : taskQueue.front? = some (e, rest)) (hdue : e.1 ≤ currentMs)
    (hres : (e.2.cb w).1 = true) (honce : e.2.once = false)
    (hnext : nextDue currentMs e < 2 ^ 64) :
    runTasks currentMs (fuel + 1) taskQueue w =
      (runTasks currentMs fuel (rest.emplace (e.1 + e.2.intervalMs) e.2) (e.2.cb w).2).map
        fun out => (⟨e.1, e.2.id, true⟩ :: out.1, out.2) := by
  rw [runTasks, hfront]
  simp only [if_neg (not_lt.mpr hdue), hres, honce, checkOverflow_requeued hdue hnext]
  rfl

/-- The loop comes to its end once it may run more often than the tasks can. -/
theorem runTasks_caughtUp {n : ℕ} (hfuel : remaining currentMs taskQueue < n)
    (hnodup : (taskQueue.entries.map fun e => e.2.id).Nodup) (h : Timely currentMs taskQueue) :
    ∃ runs taskQueue' w', (∀ fuel ≥ n,
        runTasks currentMs fuel taskQueue w = .ok (runs, taskQueue', w')) ∧
      CaughtUp currentMs taskQueue taskQueue' runs := by
  induction n generalizing taskQueue w with
  | zero => exact absurd hfuel (Nat.not_lt_zero _)
  | succ n ih =>
    by_cases hlater : ∀ e ∈ taskQueue.entries, currentMs < e.1
    · refine ⟨[], taskQueue, w, fun fuel hge => ?_, caughtUp_done hlater hnodup⟩
      obtain ⟨f, rfl⟩ := Nat.exists_eq_add_of_le' (Nat.one_le_of_lt hge)
      exact runTasks_done hlater
    · cases hfront : taskQueue.front? with
      | none =>
        rw [SortedMultimap.front?_eq_none.mp hfront] at hlater
        exact absurd (fun e he => absurd he List.not_mem_nil) hlater
      | some out =>
        obtain ⟨e, rest⟩ := out
        have hentries := SortedMultimap.front?_eq_some.mp hfront
        have hdue : e.1 ≤ currentMs := by
          push Not at hlater
          obtain ⟨e', he', hdue⟩ := hlater
          exact (SortedMultimap.front_le hfront he').trans hdue
        by_cases hends : (!(e.2.cb w).1 || e.2.once) = true
        · have hrest : (rest.entries.map fun e => e.2.id).Nodup := by
            rw [hentries] at hnodup
            exact hnodup.of_cons
          obtain ⟨runs, taskQueue', w', hrun, hcaught⟩ := ih (w := (e.2.cb w).2)
            (by have := remaining_removed hfront hdue; omega) hrest (h.removed hfront)
          refine ⟨_, taskQueue', w', fun fuel hge => ?_,
            caughtUp_removed hfront hdue (by simpa using hends) hnodup hcaught⟩
          obtain ⟨f, rfl⟩ := Nat.exists_eq_add_of_le' (Nat.one_le_of_lt hge)
          rw [runTasks_removed hfront hdue hends, hrun f (Nat.le_of_succ_le_succ hge)]
          rfl
        · obtain ⟨hres, honce⟩ : (e.2.cb w).1 = true ∧ e.2.once = false := by simpa using hends
          obtain ⟨hpos, hnext⟩ := h e (hentries ▸ List.mem_cons_self) honce
          obtain ⟨runs, taskQueue', w', hrun, hcaught⟩ := ih (w := (e.2.cb w).2)
            (by have := remaining_requeued hfront hdue honce hpos; omega)
            (nodup_requeued hfront _ hnodup) (h.requeued hfront hdue honce)
          refine ⟨_, taskQueue', w', fun fuel hge => ?_,
            caughtUp_requeued hfront hdue honce hpos hnodup hcaught⟩
          obtain ⟨f, rfl⟩ := Nat.exists_eq_add_of_le' (Nat.one_le_of_lt hge)
          rw [runTasks_requeued hfront hdue hres honce hnext, hrun f (Nat.le_of_succ_le_succ hge)]
          rfl

theorem Served.all_true {mine : List Run} (h : Served currentMs taskQueue e mine)
    (hdue : e.1 ≤ currentMs) (honce : e.2.once = false) (htrue : ∀ r ∈ mine, r.res = true) :
    Repeats currentMs taskQueue e mine := by
  refine (h.due hdue).resolve_right fun hends => ?_
  obtain ⟨before, run, rfl, -, ⟨hone, -⟩ | ⟨-, hfalse⟩⟩ := hends.last
  · rw [honce] at hone
    cases hone
  · have hrun := htrue run List.mem_concat_self
    rw [hfalse] at hrun
    cases hrun

theorem Served.some_false {mine : List Run} (h : Served currentMs taskQueue e mine)
    (hdue : e.1 ≤ currentMs) {run : Run} (hrun : run ∈ mine) (hfalse : run.res = false) :
    Ends currentMs taskQueue e mine := by
  refine (h.due hdue).resolve_left fun hrepeats => ?_
  rw [hrepeats.all_true run hrun] at hfalse
  cases hfalse

theorem Served.once {mine : List Run} (h : Served currentMs taskQueue e mine)
    (hdue : e.1 ≤ currentMs) (honce : e.2.once = true) : Ends currentMs taskQueue e mine := by
  refine (h.due hdue).resolve_left fun hrepeats => ?_
  rw [hrepeats.repeating] at honce
  cases honce

theorem Repeats.first_beyond {mine : List Run} (h : Repeats currentMs taskQueue e mine)
    (hdue : e.1 ≤ currentMs) (hpos : 0 < e.2.intervalMs) :
    currentMs < e.1 + mine.length * e.2.intervalMs ∧
      ∀ k < mine.length, e.1 + k * e.2.intervalMs ≤ currentMs := by
  rw [h.count]
  refine ⟨?_, fun k hk => ?_⟩
  · have hlt := Nat.lt_mul_div_succ (currentMs - e.1) hpos
    rw [mul_comm] at hlt
    omega
  · have hle := (Nat.mul_le_mul_right e.2.intervalMs (Nat.le_of_lt_succ hk)).trans
      (Nat.div_mul_le_self (currentMs - e.1) e.2.intervalMs)
    omega

end Steps

/-- The inner loop catches up with the time exactly. -/
theorem runTasks_catches_up (t : TimerThread σ) (currentMs : ℕ) (w : σ)
    (hpos : ∀ e ∈ t.taskQueue.entries, e.2.once = false → 0 < e.2.intervalMs)
    (hsum : ∀ e ∈ t.taskQueue.entries, e.2.once = false → nextDue currentMs e < 2 ^ 64) :
    ∃ (runs : List Run) (t' : TimerThread σ) (w' : σ), t'.nextId = t.nextId ∧
      (∃ n, ∀ fuel ≥ n, runTasks currentMs fuel t.taskQueue w = .ok (runs, t'.taskQueue, w')) ∧
      (runs.map Run.time).Pairwise (· ≤ ·) ∧
      (∀ r ∈ runs, ∃ e ∈ t.taskQueue.entries, e.2.id = r.id) ∧
      (∀ e ∈ t'.taskQueue.entries, currentMs < e.1 ∧ ∃ e' ∈ t.taskQueue.entries, e'.2 = e.2) ∧
      ∀ e ∈ t.taskQueue.entries, ∃ mine, mine = runsOf e.2.id runs ∧
        mine.map Run.time = (List.range mine.length).map (fun k => e.1 + k * e.2.intervalMs) ∧
        (currentMs < e.1 → mine = [] ∧ e ∈ t'.taskQueue.entries) ∧
        (e.1 ≤ currentMs → e.2.once = false → (∀ r ∈ mine, r.res = true) →
          mine.length = (currentMs - e.1) / e.2.intervalMs + 1 ∧
          (e.1 + mine.length * e.2.intervalMs, e.2) ∈ t'.taskQueue.entries ∧
          currentMs < e.1 + mine.length * e.2.intervalMs ∧
          ∀ k < mine.length, e.1 + k * e.2.intervalMs ≤ currentMs) ∧
        (e.1 ≤ currentMs → e.2.once = true →
          mine.length = 1 ∧ ∀ e' ∈ t'.taskQueue.entries, e'.2.id ≠ e.2.id) ∧
        (e.1 ≤ currentMs → ∀ r ∈ mine, r.res = false →
          mine.getLast? = some r ∧ ∀ e' ∈ t'.taskQueue.entries, e'.2.id ≠ e.2.id) := by
  obtain ⟨runs, taskQueue', w', hrun, hcaught⟩ := runTasks_caughtUp (w := w)
    (Nat.lt_succ_self (remaining currentMs t.taskQueue)) t.ids_nodup
    fun e he honce => ⟨hpos e he honce, hsum e he honce⟩
  have hlt : ∀ e ∈ taskQueue'.entries, e.2.id < t.nextId := by
    intro e he
    obtain ⟨-, e', he', htask⟩ := hcaught.left e he
    exact htask ▸ t.id_lt e' he'
  refine ⟨runs, ⟨t.nextId, taskQueue', hlt, hcaught.ids_nodup⟩, w', rfl, ⟨_, hrun⟩, hcaught.sorted,
    hcaught.ids, hcaught.left, fun e he => ⟨_, rfl, ?_⟩⟩
  have hserved := hcaught.served e he
  refine ⟨hserved.times, hserved.later, fun hdue honce htrue => ?_, fun hdue honce => ?_,
    fun hdue r hr hfalse => ?_⟩
  · have hrepeats := hserved.all_true hdue honce htrue
    exact ⟨hrepeats.count, hrepeats.queued, hrepeats.first_beyond hdue (hpos e he honce)⟩
  · have hends := hserved.once hdue honce
    obtain ⟨before, run, hmine, -, ⟨-, rfl⟩ | ⟨hrep, -⟩⟩ := hends.last
    · exact ⟨by rw [hmine]; rfl, hends.removed⟩
    · rw [honce] at hrep
      cases hrep
  · have hends := hserved.some_false hdue hr hfalse
    obtain ⟨before, run, hmine, htrue, -⟩ := hends.last
    refine ⟨?_, hends.removed⟩
    rw [hmine, List.mem_append, List.mem_singleton] at hr
    rcases hr with hr | rfl
    · rw [htrue r hr] at hfalse
      cases hfalse
    · rw [hmine, List.getLast?_append_of_ne_nil _ (List.cons_ne_nil _ _)]
      rfl

def twoTasks : TimerThread ℕ where
  nextId := 2
  taskQueue := ⟨[(2, ⟨0, false, 3, fun k => (decide (k < 2), k + 1)⟩),
    (2, ⟨1, true, 0, fun k => (true, k)⟩)], by simp⟩
  id_lt := by simp
  ids_nodup := by simp

theorem runTasks_catches_up_two :
    runTasks 9 5 twoTasks.taskQueue 0 =
      .ok ([⟨2, 0, true⟩, ⟨2, 1, true⟩, ⟨5, 0, true⟩, ⟨8, 0, false⟩], .empty, 3) ∧
    ∃ (runs : List Run) (t' : TimerThread ℕ) (w' : ℕ), t'.nextId = 2 ∧
      ∃ n, ∀ fuel ≥ n, runTasks 9 fuel twoTasks.taskQueue 0 = .ok (runs, t'.taskQueue, w') := by
  refine ⟨rfl, ?_⟩
  obtain ⟨runs, t', w', hid, hrun, -⟩ := runTasks_catches_up twoTasks 9 0
    (by simp [twoTasks]) (by simp [twoTasks, nextDue, firings])
  exact ⟨runs, t', w', hid, hrun⟩

end TimerThread

end FlareTrader
