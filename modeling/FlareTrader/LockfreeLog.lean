import FlareTrader.LockfreeHolders

/-! A log beside a run of the lock-free queue. It notes whose slot each call has filled or
emptied, and what the calls have returned. -/

namespace LockfreeQueue

variable {ι : Type*}

structure Log (ι : Type*) where
  element : ι → List UInt8 := fun _ => []
  /-- The number whose slot each process has filled or emptied last. -/
  slot : ι → UInt64 := fun _ => 0
  /-- Values of `LFRing_push` and of `out_seq`, each with the number of the slot of the call. -/
  returns : List (UInt64 × UInt64) := []
  fills : List (UInt64 × List UInt8) := []
  /-- The numbers that `LFQueue_push` has reported, with its elements. -/
  pushed : List (UInt64 × List UInt8) := []
  popped : List (UInt64 × List UInt8) := []

def Pushing.filled : Pushing → Option UInt64
  | .advanceHead curHead => some curHead
  | _ => none

def Popping.emptied : Popping → Option (UInt64 × UInt32)
  | .advanceTail curTail id => some (curTail, id)
  | _ => none

namespace Log

variable [DecidableEq ι]

def setSlot (p : ι) (seq : Option UInt64) (log : Log ι) : Log ι :=
  match seq with
  | some seq => { log with slot := Function.update log.slot p seq }
  | none => log

def addFill (p : ι) (seq : Option UInt64) (log : Log ι) : Log ι :=
  match seq with
  | some seq => { log with
      slot := Function.update log.slot p seq
      fills := log.fills ++ [(seq, log.element p)] }
  | none => log

def addReturn (p : ι) (seq : UInt64) (log : Log ι) : Log ι :=
  { log with returns := log.returns ++ [(seq, log.slot p)] }

def step (s : System ι) (log : Log ι) : Turn ι → Log ι
  | .call p call =>
    match s.processes p, call with
    | .idle _, .push buf => { log with element := Function.update log.element p buf }
    | _, _ => log
  | .setPause _ => log
  | .access p fails =>
    match s.processes p with
    | .pushTaking _ call => log.setSlot p ((s.queue.ring .resc).empties fails call)
    | .pushEvicting _ call => log.setSlot p ((s.queue.ring .node).empties fails call)
    | .pushAppending call =>
      match ((s.queue.ring .node).push fails call).2 with
      | .running _ => log.addFill p ((s.queue.ring .node).fills fails call)
      | .returned seq =>
        { log.addReturn p seq with pushed := log.pushed ++ [(seq, log.element p)] }
    | .popTaking call =>
      match ((s.queue.ring .node).pop fails call).2 with
      | .running _ => log.setSlot p ((s.queue.ring .node).empties fails call)
      | .returned value => if value.1 = invalidId then log else log.addReturn p value.2
    | .popReturning buf seq call =>
      match ((s.queue.ring .resc).push fails call).2 with
      | .running _ => log.setSlot p ((s.queue.ring .resc).fills fails call)
      | .returned value => { log.addReturn p value with popped := log.popped ++ [(seq, buf)] }
    | _ => log

def run (s : System ι) (log : Log ι) : List (Turn ι) → Log ι
  | [] => log
  | turn :: turns => run (s.step turn) (log.step s turn) turns

structure Numbered (log : Log ι) : Prop where
  returns : ∀ r ∈ log.returns, r.1 = r.2
  fills_distinct : (log.fills.map Prod.fst).Nodup
  pushed_distinct : (log.pushed.map Prod.fst).Nodup
  pushed : ∀ r ∈ log.pushed, r ∈ log.fills
  popped : ∀ r ∈ log.popped, r ∈ log.fills

theorem setSlot_pushed (p : ι) (seq : Option UInt64) (log : Log ι) :
    (log.setSlot p seq).pushed = log.pushed := by
  cases seq <;> rfl

theorem setSlot_element (p : ι) (seq : Option UInt64) (log : Log ι) :
    (log.setSlot p seq).element = log.element := by
  cases seq <;> rfl

theorem Numbered.setSlot {log : Log ι} (h : log.Numbered) (p : ι) (seq : Option UInt64) :
    (log.setSlot p seq).Numbered := by
  cases seq with
  | none => exact h
  | some seq => exact ⟨h.returns, h.fills_distinct, h.pushed_distinct, h.pushed, h.popped⟩

theorem Numbered.addFill {log : Log ι} (h : log.Numbered) (p : ι) {n : UInt64}
    (hfresh : n ∉ log.fills.map Prod.fst) : (log.addFill p (some n)).Numbered := by
  have hmem : ∀ e ∈ log.fills, e ∈ (log.addFill p (some n)).fills :=
    fun e he => List.mem_append_left _ he
  refine ⟨h.returns, ?_, h.pushed_distinct, fun r hr => hmem r (h.pushed r hr),
    fun r hr => hmem r (h.popped r hr)⟩
  have hfills : (log.addFill p (some n)).fills.map Prod.fst = log.fills.map Prod.fst ++ [n] :=
    List.map_append
  rw [hfills, List.nodup_append]
  refine ⟨h.fills_distinct, List.nodup_singleton _, fun m hm m' hm' heq => ?_⟩
  rw [List.mem_singleton] at hm'
  subst hm' heq
  exact hfresh hm

omit [DecidableEq ι] in
theorem Numbered.addReturn {log : Log ι} (h : log.Numbered) {p : ι} {n : UInt64}
    (hslot : log.slot p = n) : (log.addReturn p n).Numbered := by
  refine ⟨fun r hr => ?_, h.fills_distinct, h.pushed_distinct, h.pushed, h.popped⟩
  rcases List.mem_append.mp hr with hr | hr
  · exact h.returns r hr
  · rw [List.mem_singleton.mp hr]
    exact hslot.symm

end Log

namespace LFRing

variable {ring : LFRing} {fails : Bool} {n : UInt64}

theorem fills_eq_some {call : Pushing} (h : ring.fills fails call = some n) :
    ∃ id, call = .swapNode id n ∧
      ring.push fails call = (ring.setNode n (word n id), .running (.advanceHead n)) := by
  cases call with
  | swapNode id curHead =>
    simp only [fills] at h
    split_ifs at h with hswap
    cases h
    exact ⟨id, rfl, if_pos hswap⟩
  | loadHead id spin => cases h
  | loadNode id spin curHead => cases h
  | repairHead id curHead => cases h
  | advanceHead curHead => cases h

theorem push_of_not_fills {call : Pushing} (h : ring.fills fails call = none) :
    (∀ n, (ring.push fails call).1.node n = ring.node n) ∧
      ∀ call', (ring.push fails call).2 = .running call' →
        call'.filled = none ∧ call'.held = call.held := by
  cases call with
  | loadHead id spin => exact ⟨fun _ => rfl, fun call' hcall => by cases hcall; exact ⟨rfl, rfl⟩⟩
  | loadNode id spin curHead =>
    simp only [push]
    split_ifs with hnode
    · exact ⟨fun _ => rfl, fun call' hcall => by cases hcall; exact ⟨rfl, rfl⟩⟩
    · cases spin.observe (ring.node curHead) with
      | none => exact ⟨fun _ => rfl, fun call' hcall => by cases hcall; exact ⟨rfl, rfl⟩⟩
      | some spin => exact ⟨fun _ => rfl, fun call' hcall => by cases hcall; exact ⟨rfl, rfl⟩⟩
  | swapNode id curHead =>
    simp only [fills, push] at h ⊢
    split_ifs at h ⊢
    exact ⟨fun _ => rfl, fun call' hcall => by cases hcall; exact ⟨rfl, rfl⟩⟩
  | repairHead id curHead =>
    refine ⟨fun n => ?_, fun call' hcall => by cases hcall; exact ⟨rfl, rfl⟩⟩
    simp only [push, swapHead]
    split_ifs <;> rfl
  | advanceHead curHead =>
    refine ⟨fun n => ?_, fun call' hcall => by cases hcall⟩
    simp only [push, swapHead]
    split_ifs <;> rfl

/-- What the last exchange of a push leaves is the number of its slot if the head is there. -/
theorem push_returned {call : Pushing} {value : UInt64}
    (h : (ring.push fails call).2 = .returned value) :
    ∃ n, call = .advanceHead n ∧ (value = n ↔ ring.headSeq = n) := by
  cases call with
  | advanceHead curHead =>
    refine ⟨curHead, rfl, ?_⟩
    simp only [push, swapHead] at h
    split_ifs at h with hswap
    · cases h
      exact ⟨fun _ => hswap.2, fun _ => rfl⟩
    · cases h
      exact Iff.rfl
  | loadHead id spin => cases h
  | loadNode id spin curHead =>
    simp only [push] at h
    split_ifs at h
    cases hspin : spin.observe (ring.node curHead) with
    | none => rw [hspin] at h; cases h
    | some spin => rw [hspin] at h; cases h
  | swapNode id curHead =>
    simp only [push] at h
    split_ifs at h
  | repairHead id curHead => cases h

theorem empties_eq_some {call : Popping} (h : ring.empties fails call = some n) :
    call = .swapNode n (ring.node n) ∧ ring.pop fails call =
      (ring.setNode n (word (n + .ofNat ring.nodeCount) invalidId),
        .running (.advanceTail n (wordId (ring.node n)))) := by
  cases call with
  | swapNode curTail curNode =>
    simp only [empties] at h
    split_ifs at h with hswap
    cases h
    obtain ⟨-, rfl⟩ := id hswap
    exact ⟨rfl, if_pos hswap⟩
  | loadTail spin => cases h
  | loadHead spin curTail => cases h
  | loadNode spin curTail => cases h
  | repairTail curTail => cases h
  | advanceTail curTail id => cases h

theorem pop_of_not_empties {call : Popping} (h : ring.empties fails call = none) :
    (∀ n, (ring.pop fails call).1.node n = ring.node n) ∧
      ∀ call', (ring.pop fails call).2 = .running call' → call'.emptied = none := by
  cases call with
  | loadTail spin => exact ⟨fun _ => rfl, fun call' hcall => by cases hcall; rfl⟩
  | loadHead spin curTail =>
    simp only [pop]
    split_ifs
    · exact ⟨fun _ => rfl, fun call' hcall => by cases hcall⟩
    · exact ⟨fun _ => rfl, fun call' hcall => by cases hcall; rfl⟩
    · exact ⟨fun _ => rfl, fun call' hcall => by cases hcall; rfl⟩
  | loadNode spin curTail =>
    simp only [pop]
    split_ifs
    · exact ⟨fun _ => rfl, fun call' hcall => by cases hcall; rfl⟩
    · cases spin.observe (ring.node curTail) with
      | none => exact ⟨fun _ => rfl, fun call' hcall => by cases hcall; rfl⟩
      | some spin => exact ⟨fun _ => rfl, fun call' hcall => by cases hcall; rfl⟩
  | swapNode curTail curNode =>
    simp only [empties, pop] at h ⊢
    split_ifs at h ⊢
    exact ⟨fun _ => rfl, fun call' hcall => by cases hcall; rfl⟩
  | repairTail curTail =>
    refine ⟨fun n => ?_, fun call' hcall => by cases hcall; rfl⟩
    simp only [pop, swapTail]
    split_ifs <;> rfl
  | advanceTail curTail id =>
    refine ⟨fun n => ?_, fun call' hcall => by cases hcall⟩
    simp only [pop, swapTail]
    split_ifs <;> rfl

theorem pop_returned {call : Popping} {value : UInt32 × UInt64}
    (h : (ring.pop fails call).2 = .returned value) (hvalid : value.1 ≠ invalidId) :
    ∃ n, call = .advanceTail n value.1 ∧ (value.2 = n ↔ ring.tailSeq = n) := by
  cases call with
  | advanceTail curTail id =>
    refine ⟨curTail, ?_⟩
    simp only [pop, swapTail] at h
    split_ifs at h with hswap
    · cases h
      exact ⟨rfl, fun _ => hswap.2, fun _ => rfl⟩
    · cases h
      exact ⟨rfl, Iff.rfl⟩
  | loadHead spin curTail =>
    simp only [pop] at h
    split_ifs at h
    cases h
    exact absurd rfl hvalid
  | loadTail spin => cases h
  | loadNode spin curTail =>
    simp only [pop] at h
    split_ifs at h
    cases hspin : spin.observe (ring.node curTail) with
    | none => rw [hspin] at h; cases h
    | some spin => rw [hspin] at h; cases h
  | swapNode curTail curNode =>
    simp only [pop] at h
    split_ifs at h
  | repairTail curTail => cases h

end LFRing

end LockfreeQueue
