import FlareTrader.LockfreeLog

/-! The number of nodes that a lock-free queue is created with. Where it comes out as 0, no call
ever gets a node. -/

namespace LockfreeQueue

variable {ι : Type*}

section Counts

structure TopBits (m n z : ℕ) : Prop where
  above : ∀ i, m ≤ i → z.testBit i = false
  below : ∀ i < m, m ≤ i + n → z.testBit i = true

theorem TopBits.double {m n z : ℕ} (h : TopBits m n z) : TopBits m (n + n) (z ||| z >>> n) where
  above := by
    intro i hi
    rw [Nat.testBit_or, Nat.testBit_shiftRight, h.above i hi, h.above (n + i) (by omega)]
    rfl
  below := by
    intro i hi hn
    rw [Nat.testBit_or, Nat.testBit_shiftRight]
    rcases Nat.lt_or_ge (i + n) m with hlt | hge
    · rw [h.below (n + i) (by omega) (by omega), Bool.or_true]
    · rw [h.below i hi hge, Bool.true_or]

theorem TopBits.eq_of_le {m n z : ℕ} (h : TopBits m n z) (hle : m ≤ n) : z = 2 ^ m - 1 := by
  refine Nat.eq_of_testBit_eq fun i => ?_
  rw [Nat.testBit_two_pow_sub_one]
  by_cases hi : i < m
  · rw [h.below i hi (by omega), decide_eq_true hi]
  · rw [h.above i (by omega), decide_eq_false hi]

theorem exists_topBits (z : ℕ) {w : ℕ} (hz : z < 2 ^ w) : ∃ m ≤ w, TopBits m 1 z := by
  by_cases hzero : z = 0
  · subst hzero
    exact ⟨0, Nat.zero_le w, fun i _ => Nat.zero_testBit i, fun i hi => absurd hi i.not_lt_zero⟩
  · obtain ⟨i, hset, hnone⟩ := Nat.exists_most_significant_bit hzero
    have hi : i < w := by
      by_contra hge
      have hfalse := Nat.testBit_lt_two_pow
        (hz.trans_le (Nat.pow_le_pow_right (by decide) (not_lt.mp hge)))
      rw [hset] at hfalse
      cases hfalse
    refine ⟨i + 1, hi, fun j hj => hnone j (by omega), fun j hj hge => ?_⟩
    obtain rfl : j = i := by omega
    exact hset

/-- The counts beyond `2 ^ 31`, and no count at all, come out as 0. -/
theorem upperPowerOfTwo_eq (x : UInt32) :
    ∃ k ≤ 32, (upperPowerOfTwo x).toNat = 2 ^ k % 2 ^ 32 := by
  obtain ⟨k, hk, htop⟩ := exists_topBits (x - 1).toNat (w := 32) (x - 1).toNat_lt
  have hsmear := htop.double.double.double.double.double.eq_of_le hk
  refine ⟨k, hk, ?_⟩
  have hval : (upperPowerOfTwo x).toNat = (2 ^ k - 1 + 1) % 2 ^ 32 := by
    rw [← hsmear]
    rfl
  rw [hval, Nat.sub_add_cancel Nat.one_le_two_pow]
end Counts

def Popping.Blocked : Popping → Prop
  | .loadTail _ => True
  | .loadHead _ curTail => curTail = 0
  | _ => False

def Process.Blocked : Process → Prop
  | .idle _ | .pushEntered _ | .popEntered => True
  | .pushTaking _ call | .pushEvicting _ call | .popTaking call => call.Blocked
  | _ => False

theorem LFRing.pop_blocked {ring : LFRing} (hhead : ring.headSeq = 0) (htail : ring.tailSeq = 0)
    {call : Popping} (hcall : call.Blocked) (fails : Bool) :
    (ring.pop fails call).1 = ring ∧ ring.empties fails call = none ∧
      ((∃ call', (ring.pop fails call).2 = .running call' ∧ call'.Blocked) ∨
        ∃ seq, (ring.pop fails call).2 = .returned (invalidId, seq)) := by
  cases call with
  | loadTail spin => exact ⟨rfl, rfl, Or.inl ⟨_, rfl, htail⟩⟩
  | loadHead spin curTail =>
    have hempty : curTail = ring.headSeq := Eq.trans hcall hhead.symm
    simp only [pop, if_pos hempty]
    exact ⟨trivial, rfl, Or.inr ⟨curTail, rfl⟩⟩
  | loadNode spin curTail => exact hcall.elim
  | swapNode curTail curNode => exact hcall.elim
  | repairTail curTail => exact hcall.elim
  | advanceTail curTail id => exact hcall.elim

theorem LFQueue.afterPop_blocked {progress : Progress Popping (UInt32 × UInt64)}
    (h : (∃ call, progress = .running call ∧ call.Blocked) ∨
      ∃ seq, progress = .returned (invalidId, seq)) {running : Popping → Process}
    {got : UInt32 → UInt64 → Process} {empty : Process}
    (hrunning : ∀ call, call.Blocked → (running call).Blocked) (hempty : empty.Blocked) :
    (LFQueue.afterPop running got empty progress).Blocked := by
  rcases h with ⟨call, rfl, hcall⟩ | ⟨seq, rfl⟩
  · exact hrunning call hcall
  · exact hempty

namespace System

/-- Nothing is ever put into rings without slots. -/
structure Blocked (s : System ι) (log : Log ι) : Prop where
  counters : ∀ name, (s.queue.ring name).headSeq = 0 ∧ (s.queue.ring name).tailSeq = 0
  processes : ∀ p, (s.processes p).Blocked
  empty : log.returns = [] ∧ log.fills = [] ∧ log.pushed = [] ∧ log.popped = []

theorem Blocked.step [DecidableEq ι] {s : System ι} {log : Log ι} (h : s.Blocked log)
    (turn : Turn ι) : (s.step turn).Blocked (log.step s turn) := by
  have hupdate : ∀ (p : ι) (process : Process), process.Blocked →
      ∀ p', (Function.update s.processes p process p').Blocked :=
    fun p process hprocess => (Function.forall_update_iff s.processes fun _ x => x.Blocked).mpr
      ⟨hprocess, fun p' _ => h.processes p'⟩
  cases turn with
  | setPause pause =>
    refine ⟨fun name => ?_, h.processes, h.empty⟩
    simp only [System.step, LFQueue.ring_pause]
    exact h.counters name
  | call p call =>
    cases hp : s.processes p with
    | idle last =>
      cases call with
      | push buf =>
        simp only [System.step, Log.step, hp, LFQueue.enter]
        refine ⟨h.counters, hupdate p _ ?_, h.empty⟩
        split_ifs <;> trivial
      | pop =>
        simp only [System.step, Log.step, hp, LFQueue.enter]
        exact ⟨h.counters, hupdate p _ trivial, h.empty⟩
    | _ =>
      simp only [System.step, Log.step, hp]
      exact h
  | access p fails =>
    have hself := h.processes p
    cases hp : s.processes p with
    | idle last =>
      simp only [System.step, Log.step, hp, LFQueue.access]
      exact ⟨h.counters, hupdate p _ trivial, h.empty⟩
    | pushEntered buf =>
      simp only [System.step, Log.step, hp, LFQueue.access]
      refine ⟨h.counters, hupdate p _ ?_, h.empty⟩
      split_ifs <;> trivial
    | popEntered =>
      simp only [System.step, Log.step, hp, LFQueue.access]
      refine ⟨h.counters, hupdate p _ ?_, h.empty⟩
      split_ifs <;> trivial
    | pushTaking buf call =>
      rw [hp] at hself
      obtain ⟨hring, hnone, hnext⟩ := LFRing.pop_blocked (h.counters .resc).1 (h.counters .resc).2
        hself fails
      simp only [System.step, Log.step, hp, LFQueue.access, hring, LFQueue.setRing_ring, hnone]
      refine ⟨h.counters, hupdate p _ (LFQueue.afterPop_blocked hnext (fun _ hc => hc) ?_), h.empty⟩
      split_ifs <;> trivial
    | pushEvicting buf call =>
      rw [hp] at hself
      obtain ⟨hring, hnone, hnext⟩ := LFRing.pop_blocked (h.counters .node).1 (h.counters .node).2
        hself fails
      simp only [System.step, Log.step, hp, LFQueue.access, hring, LFQueue.setRing_ring, hnone]
      exact ⟨h.counters, hupdate p _ (LFQueue.afterPop_blocked hnext (fun _ hc => hc) trivial),
        h.empty⟩
    | popTaking call =>
      rw [hp] at hself
      obtain ⟨hring, hnone, hnext⟩ := LFRing.pop_blocked (h.counters .node).1 (h.counters .node).2
        hself fails
      simp only [System.step, Log.step, hp, LFQueue.access, hring, LFQueue.setRing_ring, hnone]
      refine ⟨h.counters, hupdate p _ (LFQueue.afterPop_blocked hnext (fun _ hc => hc) trivial), ?_⟩
      rcases hnext with ⟨call', hrun, -⟩ | ⟨seq, hrun⟩
      · rw [hrun]
        exact h.empty
      · rw [hrun]
        exact h.empty
    | _ =>
      rw [hp] at hself
      exact hself.elim

theorem Blocked.run [DecidableEq ι] {s : System ι} {log : Log ι} (h : s.Blocked log)
    (turns : List (Turn ι)) : (Log.run s log turns).Numbered := by
  induction turns generalizing s log with
  | nil =>
    obtain ⟨hreturns, hfills, hpushed, hpopped⟩ := h.empty
    constructor <;> simp [Log.run, hreturns, hfills, hpushed, hpopped]
  | cons turn turns ih => exact ih (h.step turn)

theorem create_blocked {count : UInt32} (dataSize : UInt64) (overwrite : Bool)
    (hcount : (upperPowerOfTwo count).toNat = 0) :
    (create count dataSize overwrite : System ι).Blocked {} := by
  refine ⟨fun name => ?_, fun _ => trivial, rfl, rfl, rfl, rfl⟩
  cases name
  · simp only [create, LFQueue.create, LFQueue.ring, hcount]
    exact ⟨rfl, rfl⟩
  · simp only [create, LFQueue.create, LFQueue.ring]
    exact ⟨rfl, rfl⟩

end System

end LockfreeQueue
