import FlareTrader.Custody
import FlareTrader.LockfreeWindow

/-! The lock-free queue over two rings, one for the free nodes and one for the queued ones.
Processes share it and take their accesses in any interleaving; a process that takes no
further turn has died. -/

namespace LockfreeQueue

def upperPowerOfTwo (x : UInt32) : UInt32 :=
  let x := x - 1
  let x := x ||| (x >>> 1)
  let x := x ||| (x >>> 2)
  let x := x ||| (x >>> 4)
  let x := x ||| (x >>> 8)
  let x := x ||| (x >>> 16)
  x + 1

inductive RingName where
  | resc
  | node
  deriving DecidableEq

structure LFQueue where
  nodeDataSize : UInt64
  overwrite : Bool
  pause : Bool := false
  rescRing : LFRing
  nodeRing : LFRing
  /-- The data of the nodes, as long as their `size` says. -/
  nodes : ℕ → List UInt8 := fun _ => []

structure Returned where
  code : ℤ
  seq : UInt64 := 0
  buf : List UInt8 := []

inductive Process where
  | idle (last : Option Returned)
  | pushEntered (buf : List UInt8)
  | pushTaking (buf : List UInt8) (call : Popping)
  | pushEvicting (buf : List UInt8) (call : Popping)
  | pushWriting (buf : List UInt8) (id : UInt32)
  | pushAppending (call : Pushing)
  | popEntered
  | popTaking (call : Popping)
  | popReading (id : UInt32) (seq : UInt64)
  | popReturning (buf : List UInt8) (seq : UInt64) (call : Pushing)

inductive Call where
  | push (buf : List UInt8)
  | pop

namespace LFQueue

def create (count : UInt32) (dataSize : UInt64) (overwrite : Bool) : LFQueue :=
  let count := (upperPowerOfTwo count).toNat
  { nodeDataSize := (dataSize + 63) &&& ~~~63
    overwrite
    rescRing := .init count count
    nodeRing := .init count 0 }

def ring (q : LFQueue) : RingName → LFRing
  | .resc => q.rescRing
  | .node => q.nodeRing

def setRing (name : RingName) (ring : LFRing) (q : LFQueue) : LFQueue :=
  match name with
  | .resc => { q with rescRing := ring }
  | .node => { q with nodeRing := ring }

def enter (q : LFQueue) : Call → Process
  | .push buf =>
    if q.nodeDataSize.toNat < buf.length then .idle (some { code := -1 }) else .pushEntered buf
  | .pop => .popEntered

def afterPop (running : Popping → Process) (got : UInt32 → UInt64 → Process) (empty : Process) :
    Progress Popping (UInt32 × UInt64) → Process
  | .running call => running call
  | .returned value => if value.1 ≠ invalidId then got value.1 value.2 else empty

def afterPush (running : Pushing → Process) (done : UInt64 → Process) :
    Progress Pushing UInt64 → Process
  | .running call => running call
  | .returned seq => done seq

/-- One access of a process, a weak exchange among them failing at will. -/
def access (fails : Bool) (q : LFQueue) : Process → LFQueue × Process
  | .idle last => (q, .idle last)
  | .pushEntered buf =>
    (q, if q.pause then .idle (some { code := -3 }) else .pushTaking buf (.loadTail {}))
  | .pushTaking buf call =>
    let r := (q.ring .resc).pop fails call
    (q.setRing .resc r.1, afterPop (.pushTaking buf) (fun id _ => .pushWriting buf id)
      (if q.overwrite then .pushEvicting buf (.loadTail {}) else .idle (some { code := -2 })) r.2)
  | .pushEvicting buf call =>
    let r := (q.ring .node).pop fails call
    (q.setRing .node r.1, afterPop (.pushEvicting buf) (fun id _ => .pushWriting buf id)
      (.idle (some { code := -1 })) r.2)
  | .pushWriting buf id =>
    ({ q with nodes := Function.update q.nodes id.toNat buf }, .pushAppending (.loadHead id {}))
  | .pushAppending call =>
    let r := (q.ring .node).push fails call
    (q.setRing .node r.1, afterPush .pushAppending (fun seq => .idle (some { code := 0, seq })) r.2)
  | .popEntered => (q, if q.pause then .idle (some { code := -3 }) else .popTaking (.loadTail {}))
  | .popTaking call =>
    let r := (q.ring .node).pop fails call
    (q.setRing .node r.1, afterPop .popTaking .popReading .popEntered r.2)
  | .popReading id seq => (q, .popReturning (q.nodes id.toNat) seq (.loadHead id {}))
  | .popReturning buf seq call =>
    let r := (q.ring .resc).push fails call
    (q.setRing .resc r.1,
      afterPush (.popReturning buf seq) (fun _ => .idle (some { code := 0, seq, buf })) r.2)

end LFQueue

structure System (ι : Type*) where
  queue : LFQueue
  processes : ι → Process := fun _ => .idle none

/-- A process that is idle calls, a process takes its next access, or somebody pauses the
queue or lets it go on. -/
inductive Turn (ι : Type*) where
  | call (p : ι) (call : Call)
  | access (p : ι) (fails : Bool)
  | setPause (pause : Bool)

variable {ι : Type*}

namespace System

def create (count : UInt32) (dataSize : UInt64) (overwrite : Bool) : System ι where
  queue := .create count dataSize overwrite

variable [DecidableEq ι]

def step (s : System ι) : Turn ι → System ι
  | .call p call =>
    match s.processes p with
    | .idle _ => { s with processes := Function.update s.processes p (s.queue.enter call) }
    | _ => s
  | .access p fails =>
    let r := s.queue.access fails (s.processes p)
    { queue := r.1, processes := Function.update s.processes p r.2 }
  | .setPause pause => { s with queue := { s.queue with pause } }

def run (s : System ι) (turns : List (Turn ι)) : System ι := turns.foldl step s

end System

inductive Place (ι : Type*) where
  | slot (name : RingName) (slot : ℕ)
  | held (p : ι)
  deriving DecidableEq

namespace Process

/-- The id that a process has popped and not yet pushed. -/
def held : Process → Option UInt32
  | .pushTaking _ call | .pushEvicting _ call | .popTaking call => call.held
  | .pushWriting _ id | .popReading id _ => some id
  | .pushAppending call | .popReturning _ _ call => call.held
  | _ => none

def popping : Process → Option (RingName × Popping)
  | .pushTaking _ call => some (.resc, call)
  | .pushEvicting _ call | .popTaking call => some (.node, call)
  | _ => none

def pushing : Process → Option (RingName × Pushing)
  | .pushAppending call => some (.node, call)
  | .popReturning _ _ call => some (.resc, call)
  | _ => none

structure Fresh (process : Process) : Prop where
  popping : ∀ name call, process.popping = some (name, call) → call = .loadTail {}
  pushing : ∀ name call, process.pushing = some (name, call) → ∃ id, call = .loadHead id {}

theorem popping_or_pushing (process : Process) :
    process.popping = none ∨ process.pushing = none := by
  cases process with
  | pushAppending call => exact Or.inl rfl
  | popReturning buf seq call => exact Or.inl rfl
  | idle last => exact Or.inl rfl
  | pushEntered buf => exact Or.inl rfl
  | pushTaking buf call => exact Or.inr rfl
  | pushEvicting buf call => exact Or.inr rfl
  | pushWriting buf id => exact Or.inl rfl
  | popEntered => exact Or.inl rfl
  | popTaking call => exact Or.inr rfl
  | popReading id seq => exact Or.inl rfl

theorem fresh_of_none {process : Process} (hpop : process.popping = none)
    (hpush : process.pushing = none) : process.Fresh where
  popping := fun name call h => by rw [hpop] at h; cases h
  pushing := fun name call h => by rw [hpush] at h; cases h

theorem fresh_loadTail {process : Process} {name : RingName}
    (hpop : process.popping = some (name, .loadTail {})) (hpush : process.pushing = none) :
    process.Fresh where
  popping := fun name call h => by rw [hpop] at h; cases h; rfl
  pushing := fun name call h => by rw [hpush] at h; cases h

theorem fresh_loadHead {process : Process} {name : RingName} {id : UInt32}
    (hpop : process.popping = none) (hpush : process.pushing = some (name, .loadHead id {})) :
    process.Fresh where
  popping := fun name call h => by rw [hpop] at h; cases h
  pushing := fun name call h => by rw [hpush] at h; cases h; exact ⟨id, rfl⟩

end Process

namespace LFQueue

theorem ring_setRing (name : RingName) (ring : LFRing) (q : LFQueue) :
    (q.setRing name ring).ring = Function.update q.ring name ring := by
  funext name'
  cases name <;> cases name' <;> rfl

theorem setRing_ring (name : RingName) (q : LFQueue) : q.setRing name (q.ring name) = q := by
  cases name <;> rfl

theorem ring_pause (pause : Bool) (q : LFQueue) (name : RingName) :
    ({ q with pause } : LFQueue).ring name = q.ring name := by
  cases name <;> rfl

structure Popped (name : RingName) (progress : Progress Popping (UInt32 × UInt64))
    (process : Process) : Prop where
  held : process.held = progress.popHeld
  goesOn : process.Fresh ∨ ∃ call, progress = .running call ∧
    process.popping = some (name, call) ∧ process.pushing = none

structure Pushed (name : RingName) (progress : Progress Pushing UInt64) (process : Process) :
    Prop where
  held : process.held = progress.pushHeld
  goesOn : process.Fresh ∨ ∃ call, progress = .running call ∧
    process.pushing = some (name, call) ∧ process.popping = none

theorem popped_afterPop {name : RingName} {running : Popping → Process}
    {got : UInt32 → UInt64 → Process} {empty : Process}
    (hrunning : ∀ call, (running call).held = call.held ∧
      (running call).popping = some (name, call) ∧ (running call).pushing = none)
    (hgot : ∀ id seq, (got id seq).held = some id ∧ (got id seq).Fresh)
    (hempty : empty.held = none ∧ empty.Fresh) (progress : Progress Popping (UInt32 × UInt64)) :
    Popped name progress (afterPop running got empty progress) := by
  cases progress with
  | running call =>
    obtain ⟨hheld, hpopping⟩ := hrunning call
    exact ⟨hheld, Or.inr ⟨call, rfl, hpopping⟩⟩
  | returned value =>
    simp only [afterPop]
    split_ifs with hid
    · obtain ⟨hheld, hfresh⟩ := hgot value.1 value.2
      exact ⟨hheld.trans (if_neg hid).symm, Or.inl hfresh⟩
    · exact ⟨hempty.1.trans (if_pos (not_not.mp hid)).symm, Or.inl hempty.2⟩

theorem pushed_afterPush {name : RingName} {running : Pushing → Process}
    {done : UInt64 → Process}
    (hrunning : ∀ call, (running call).held = call.held ∧
      (running call).pushing = some (name, call) ∧ (running call).popping = none)
    (hdone : ∀ seq, (done seq).held = none ∧ (done seq).Fresh)
    (progress : Progress Pushing UInt64) :
    Pushed name progress (afterPush running done progress) := by
  cases progress with
  | running call =>
    obtain ⟨hheld, hpushing⟩ := hrunning call
    exact ⟨hheld, Or.inr ⟨call, rfl, hpushing⟩⟩
  | returned seq => exact ⟨(hdone seq).1, Or.inl (hdone seq).2⟩

/-- What an access can do: nothing to the rings, an access of a pop, or one of a push. -/
theorem access_cases (fails : Bool) (q : LFQueue) (process : Process) :
    (process.popping = none ∧ process.pushing = none ∧ (q.access fails process).1.ring = q.ring ∧
        (q.access fails process).2.held = process.held ∧ (q.access fails process).2.Fresh) ∨
      (∃ name call, process.popping = some (name, call) ∧ process.held = call.held ∧
        (q.access fails process).1.ring =
          Function.update q.ring name ((q.ring name).pop fails call).1 ∧
        Popped name ((q.ring name).pop fails call).2 (q.access fails process).2) ∨
      (∃ name call, process.pushing = some (name, call) ∧ process.held = call.held ∧
        (q.access fails process).1.ring =
          Function.update q.ring name ((q.ring name).push fails call).1 ∧
        Pushed name ((q.ring name).push fails call).2 (q.access fails process).2) := by
  cases process with
  | idle last => exact Or.inl ⟨rfl, rfl, rfl, rfl, Process.fresh_of_none rfl rfl⟩
  | pushEntered buf =>
    refine Or.inl ⟨rfl, rfl, rfl, ?_⟩
    simp only [access]
    split_ifs
    · exact ⟨rfl, Process.fresh_of_none rfl rfl⟩
    · exact ⟨rfl, Process.fresh_loadTail rfl rfl⟩
  | pushTaking buf call =>
    refine Or.inr (Or.inl ⟨.resc, call, rfl, rfl, ring_setRing _ _ q, ?_⟩)
    dsimp only [access]
    refine popped_afterPop (fun _ => ⟨rfl, rfl, rfl⟩)
      (fun _ _ => ⟨rfl, Process.fresh_of_none rfl rfl⟩) ?_ _
    split_ifs
    · exact ⟨rfl, Process.fresh_loadTail rfl rfl⟩
    · exact ⟨rfl, Process.fresh_of_none rfl rfl⟩
  | pushEvicting buf call =>
    refine Or.inr (Or.inl ⟨.node, call, rfl, rfl, ring_setRing _ _ q, ?_⟩)
    dsimp only [access]
    exact popped_afterPop (fun _ => ⟨rfl, rfl, rfl⟩)
      (fun _ _ => ⟨rfl, Process.fresh_of_none rfl rfl⟩) ⟨rfl, Process.fresh_of_none rfl rfl⟩ _
  | pushWriting buf id => exact Or.inl ⟨rfl, rfl, rfl, rfl, Process.fresh_loadHead rfl rfl⟩
  | pushAppending call =>
    refine Or.inr (Or.inr ⟨.node, call, rfl, rfl, ring_setRing _ _ q, ?_⟩)
    dsimp only [access]
    exact pushed_afterPush (fun _ => ⟨rfl, rfl, rfl⟩)
      (fun _ => ⟨rfl, Process.fresh_of_none rfl rfl⟩) _
  | popEntered =>
    refine Or.inl ⟨rfl, rfl, rfl, ?_⟩
    simp only [access]
    split_ifs
    · exact ⟨rfl, Process.fresh_of_none rfl rfl⟩
    · exact ⟨rfl, Process.fresh_loadTail rfl rfl⟩
  | popTaking call =>
    refine Or.inr (Or.inl ⟨.node, call, rfl, rfl, ring_setRing _ _ q, ?_⟩)
    dsimp only [access]
    exact popped_afterPop (fun _ => ⟨rfl, rfl, rfl⟩)
      (fun _ _ => ⟨rfl, Process.fresh_of_none rfl rfl⟩) ⟨rfl, Process.fresh_of_none rfl rfl⟩ _
  | popReading id seq => exact Or.inl ⟨rfl, rfl, rfl, rfl, Process.fresh_loadHead rfl rfl⟩
  | popReturning buf seq call =>
    refine Or.inr (Or.inr ⟨.resc, call, rfl, rfl, ring_setRing _ _ q, ?_⟩)
    dsimp only [access]
    exact pushed_afterPush (fun _ => ⟨rfl, rfl, rfl⟩)
      (fun _ => ⟨rfl, Process.fresh_of_none rfl rfl⟩) _

end LFQueue

end LockfreeQueue
