import FlareTrader.RingBufferConcurrency

/-! The ring of indices of the lock-free queue. A slot is one 64-bit word, the low half of a
sequence number over an id; processes change words and counters by single exchanges. -/

namespace LockfreeQueue

def invalidId : UInt32 := 0xffffffff

def maskLow32 : UInt64 := 0xffffffff

def maxBusyLoopCount : ℕ := 2

def word (seq : UInt64) (id : UInt32) : UInt64 := (seq <<< 32) ||| id.toUInt64

def wordId (w : UInt64) : UInt32 := (w &&& maskLow32).toUInt32

def holdsAt (seq w : UInt64) : Bool := seq &&& maskLow32 = w >>> 32 ∧ wordId w ≠ invalidId

structure LFRing where
  nodeCount : ℕ
  headSeq : UInt64
  tailSeq : UInt64
  nodes : ℕ → UInt64

namespace LFRing

/-- `LFRing_init`. The slots from `count` on are not part of the ring. -/
def init (count initHead : ℕ) : LFRing where
  nodeCount := count
  headSeq := .ofNat initHead
  tailSeq := 0
  nodes := fun i => if i < initHead then word (.ofNat i) (.ofNat i) else word (.ofNat i) invalidId

def slot (seq : UInt64) (ring : LFRing) : ℕ := RingBuffer.slot ring.nodeCount seq

def node (seq : UInt64) (ring : LFRing) : UInt64 := ring.nodes (ring.slot seq)

def setNode (seq w : UInt64) (ring : LFRing) : LFRing :=
  { ring with nodes := Function.update ring.nodes (ring.slot seq) w }

end LFRing

/-- What the busy loop has seen: the last word that was not the expected one, and how often. -/
structure Spin where
  busyLoop : ℕ := 0
  expiredNode : UInt64 := 0

def Spin.observe (curNode : UInt64) (spin : Spin) : Option Spin :=
  if spin.expiredNode = curNode then
    if maxBusyLoopCount ≤ spin.busyLoop + 1 then none
    else some { spin with busyLoop := spin.busyLoop + 1 }
  else some { busyLoop := 0, expiredNode := curNode }

/-- A call of a ring function before its next access, or with the value it has returned. -/
inductive Progress (σ ρ : Type*) where
  | running (call : σ)
  | returned (value : ρ)

inductive Pushing where
  | loadHead (id : UInt32) (spin : Spin)
  | loadNode (id : UInt32) (spin : Spin) (curHead : UInt64)
  | swapNode (id : UInt32) (curHead : UInt64)
  | repairHead (id : UInt32) (curHead : UInt64)
  | advanceHead (curHead : UInt64)

inductive Popping where
  | loadTail (spin : Spin)
  | loadHead (spin : Spin) (curTail : UInt64)
  | loadNode (spin : Spin) (curTail : UInt64)
  | swapNode (curTail curNode : UInt64)
  | repairTail (curTail : UInt64)
  | advanceTail (curTail : UInt64) (id : UInt32)

namespace LFRing

/-- The weak exchange of the head, and what it leaves in `cur_head`. It may fail without reason. -/
def swapHead (fails : Bool) (curHead : UInt64) (ring : LFRing) : LFRing × UInt64 :=
  if fails = false ∧ ring.headSeq = curHead then ({ ring with headSeq := curHead + 1 }, curHead)
  else (ring, ring.headSeq)

def swapTail (fails : Bool) (curTail : UInt64) (ring : LFRing) : LFRing × UInt64 :=
  if fails = false ∧ ring.tailSeq = curTail then ({ ring with tailSeq := curTail + 1 }, curTail)
  else (ring, ring.tailSeq)

/-- One access of `LFRing_push`. It returns what is left in `cur_head`. -/
def push (fails : Bool) (ring : LFRing) : Pushing → LFRing × Progress Pushing UInt64
  | .loadHead id spin => (ring, .running (.loadNode id spin ring.headSeq))
  | .loadNode id spin curHead =>
    if ring.node curHead = word curHead invalidId then (ring, .running (.swapNode id curHead))
    else match spin.observe (ring.node curHead) with
      | none => (ring, .running (.repairHead id curHead))
      | some spin => (ring, .running (.loadHead id spin))
  | .swapNode id curHead =>
    if fails = false ∧ ring.node curHead = word curHead invalidId then
      (ring.setNode curHead (word curHead id), .running (.advanceHead curHead))
    else (ring, .running (.loadHead id {}))
  | .repairHead id curHead => ((ring.swapHead fails curHead).1, .running (.loadHead id {}))
  | .advanceHead curHead =>
    let r := ring.swapHead fails curHead
    (r.1, .returned r.2)

/-- One access of `LFRing_pop`. It returns the id and what is left in `cur_tail`. -/
def pop (fails : Bool) (ring : LFRing) : Popping → LFRing × Progress Popping (UInt32 × UInt64)
  | .loadTail spin => (ring, .running (.loadHead spin ring.tailSeq))
  | .loadHead spin curTail =>
    if curTail = ring.headSeq then (ring, .returned (invalidId, curTail))
    else if ring.headSeq < curTail then (ring, .running (.loadTail spin))
    else (ring, .running (.loadNode spin curTail))
  | .loadNode spin curTail =>
    if holdsAt curTail (ring.node curTail) then
      (ring, .running (.swapNode curTail (ring.node curTail)))
    else match spin.observe (ring.node curTail) with
      | none => (ring, .running (.repairTail curTail))
      | some spin => (ring, .running (.loadTail spin))
  | .swapNode curTail curNode =>
    if fails = false ∧ ring.node curTail = curNode then
      (ring.setNode curTail (word (curTail + .ofNat ring.nodeCount) invalidId),
        .running (.advanceTail curTail (wordId curNode)))
    else (ring, .running (.loadTail {}))
  | .repairTail curTail => ((ring.swapTail fails curTail).1, .running (.loadTail {}))
  | .advanceTail curTail id =>
    let r := ring.swapTail fails curTail
    (r.1, .returned (id, r.2))

end LFRing

section Words

theorem toNat_word (seq : UInt64) (id : UInt32) :
    (word seq id).toNat = seq.toNat % 2 ^ 32 * 2 ^ 32 + id.toNat := by
  have hid : id.toNat < 2 ^ 32 := id.toNat_lt
  have hshift : (seq <<< 32).toNat = (seq.toNat % 2 ^ 32) <<< 32 := by
    have h32 : (32 : UInt64).toNat % 64 = 32 := rfl
    rw [UInt64.toNat_shiftLeft, h32, Nat.shiftLeft_eq, Nat.shiftLeft_eq]
    exact (Nat.mul_mod_mul_right (2 ^ 32) seq.toNat (2 ^ 32)).symm ▸ rfl
  rw [word, UInt64.toNat_or, UInt32.toNat_toUInt64, hshift, ← Nat.shiftLeft_add_eq_or_of_lt hid,
    Nat.shiftLeft_eq]

theorem toNat_low (w : UInt64) : (w &&& maskLow32).toNat = w.toNat % 2 ^ 32 := by
  have hmask : maskLow32.toNat = 2 ^ 32 - 1 := rfl
  rw [UInt64.toNat_and, hmask, Nat.and_two_pow_sub_one_eq_mod]

theorem toNat_high (w : UInt64) : (w >>> 32).toNat = w.toNat / 2 ^ 32 := by
  have h32 : (32 : UInt64).toNat % 64 = 32 := rfl
  rw [UInt64.toNat_shiftRight, h32, Nat.shiftRight_eq_div_pow]

@[simp] theorem wordId_word (seq : UInt64) (id : UInt32) : wordId (word seq id) = id := by
  have hid : id.toNat < 2 ^ 32 := id.toNat_lt
  apply UInt32.toNat_inj.mp
  rw [wordId, UInt64.toNat_toUInt32, toNat_low, toNat_word]
  omega

theorem word_inj {seq seq' : UInt64} {id id' : UInt32} (h : word seq id = word seq' id') :
    seq.toNat % 2 ^ 32 = seq'.toNat % 2 ^ 32 ∧ id = id' := by
  have hnat := congrArg UInt64.toNat h
  have hid : id.toNat < 2 ^ 32 := id.toNat_lt
  have hid' : id'.toNat < 2 ^ 32 := id'.toNat_lt
  rw [toNat_word, toNat_word] at hnat
  exact ⟨by omega, UInt32.toNat_inj.mp (by omega)⟩

theorem holdsAt_iff {seq w : UInt64} :
    holdsAt seq w = true ↔ ∃ id, id ≠ invalidId ∧ w = word seq id := by
  have hw : w.toNat < 2 ^ 64 := w.toNat_lt
  rw [holdsAt, decide_eq_true_iff]
  constructor
  · rintro ⟨hhigh, hid⟩
    refine ⟨wordId w, hid, UInt64.toNat_inj.mp ?_⟩
    have hnat := congrArg UInt64.toNat hhigh
    rw [toNat_low, toNat_high] at hnat
    rw [toNat_word, wordId, UInt64.toNat_toUInt32, toNat_low, hnat]
    omega
  · rintro ⟨id, hid, rfl⟩
    have hlt : id.toNat < 2 ^ 32 := id.toNat_lt
    refine ⟨UInt64.toNat_inj.mp ?_, by rwa [wordId_word]⟩
    rw [toNat_low, toNat_high, toNat_word]
    omega

end Words

def Pushing.held : Pushing → Option UInt32
  | .loadHead id _ | .loadNode id _ _ | .swapNode id _ | .repairHead id _ => some id
  | .advanceHead _ => none

def Popping.held : Popping → Option UInt32
  | .advanceTail _ id => some id
  | _ => none

def validId (id : UInt32) : Option UInt32 := if id = invalidId then none else some id

def Progress.pushHeld : Progress Pushing UInt64 → Option UInt32
  | .running call => call.held
  | .returned _ => none

def Progress.popHeld : Progress Popping (UInt32 × UInt64) → Option UInt32
  | .running call => call.held
  | .returned value => validId value.1

namespace LFRing

def idAt (ring : LFRing) (slot : ℕ) : Option UInt32 := validId (wordId (ring.nodes slot))

theorem validId_eq_some {id id' : UInt32} : validId id = some id' ↔ id ≠ invalidId ∧ id = id' := by
  unfold validId
  split_ifs with h
  · simp [h]
  · simp [h]

theorem idAt_setNode (seq w : UInt64) (ring : LFRing) :
    (ring.setNode seq w).idAt = Function.update ring.idAt (ring.slot seq) (validId (wordId w)) := by
  funext slot
  by_cases h : slot = ring.slot seq
  · rw [h, Function.update_self, idAt, setNode]
    dsimp only
    rw [Function.update_self]
  · rw [Function.update_of_ne h, idAt, idAt, setNode]
    dsimp only
    rw [Function.update_of_ne h]

theorem idAt_slot {seq w : UInt64} {ring : LFRing} {id : UInt32} (hid : id ≠ invalidId)
    (h : ring.node seq = word w id) : ring.idAt (ring.slot seq) = some id := by
  have hnode : ring.nodes (ring.slot seq) = word w id := h
  rw [idAt, hnode, wordId_word]
  exact validId_eq_some.mpr ⟨hid, rfl⟩

theorem idAt_swapHead (fails : Bool) (curHead : UInt64) (ring : LFRing) :
    (ring.swapHead fails curHead).1.idAt = ring.idAt := by
  unfold swapHead
  split_ifs <;> rfl

theorem idAt_swapTail (fails : Bool) (curTail : UInt64) (ring : LFRing) :
    (ring.swapTail fails curTail).1.idAt = ring.idAt := by
  unfold swapTail
  split_ifs <;> rfl

/-- An access of a push leaves the ids where they are, or puts the id of the call in a slot
that has none. -/
theorem push_ids (fails : Bool) (ring : LFRing) (call : Pushing)
    (hvalid : ∀ id, call.held = some id → id ≠ invalidId) :
    ((ring.push fails call).1.idAt = ring.idAt ∧ (ring.push fails call).2.pushHeld = call.held) ∨
      ∃ slot, ring.idAt slot = none ∧ (ring.push fails call).2.pushHeld = none ∧
        (ring.push fails call).1.idAt = Function.update ring.idAt slot call.held := by
  cases call with
  | loadHead id spin => exact Or.inl ⟨rfl, rfl⟩
  | loadNode id spin curHead =>
    refine Or.inl ?_
    simp only [push]
    split_ifs
    · exact ⟨rfl, rfl⟩
    · cases spin.observe (ring.node curHead) with
      | none => exact ⟨rfl, rfl⟩
      | some spin => exact ⟨rfl, rfl⟩
  | swapNode id curHead =>
    simp only [push]
    split_ifs with h
    · refine Or.inr ⟨ring.slot curHead, ?_, rfl, ?_⟩
      · have hfree : ring.nodes (ring.slot curHead) = word curHead invalidId := h.2
        rw [idAt, hfree, wordId_word]
        rfl
      · rw [idAt_setNode, wordId_word, validId, if_neg (hvalid id rfl)]
        rfl
    · exact Or.inl ⟨rfl, rfl⟩
  | repairHead id curHead => exact Or.inl ⟨idAt_swapHead fails curHead ring, rfl⟩
  | advanceHead curHead => exact Or.inl ⟨idAt_swapHead fails curHead ring, rfl⟩

def Takes : Popping → Prop
  | .swapNode _ curNode => wordId curNode ≠ invalidId
  | .advanceTail _ id => id ≠ invalidId
  | _ => True

theorem pop_ids (fails : Bool) (ring : LFRing) (call : Popping) (htakes : Takes call) :
    ((ring.pop fails call).1.idAt = ring.idAt ∧ (ring.pop fails call).2.popHeld = call.held) ∨
      ∃ slot, call.held = none ∧ (ring.pop fails call).2.popHeld = ring.idAt slot ∧
        (ring.pop fails call).1.idAt = Function.update ring.idAt slot none := by
  cases call with
  | loadTail spin => exact Or.inl ⟨rfl, rfl⟩
  | loadHead spin curTail =>
    refine Or.inl ?_
    simp only [pop]
    split_ifs <;> exact ⟨rfl, rfl⟩
  | loadNode spin curTail =>
    refine Or.inl ?_
    simp only [pop]
    split_ifs
    · exact ⟨rfl, rfl⟩
    · cases spin.observe (ring.node curTail) with
      | none => exact ⟨rfl, rfl⟩
      | some spin => exact ⟨rfl, rfl⟩
  | swapNode curTail curNode =>
    simp only [pop]
    split_ifs with h
    · refine Or.inr ⟨ring.slot curTail, rfl, ?_, ?_⟩
      · have hnode : ring.nodes (ring.slot curTail) = curNode := h.2
        rw [idAt, hnode, validId, if_neg htakes]
        rfl
      · rw [idAt_setNode, wordId_word]
        rfl
    · exact Or.inl ⟨rfl, rfl⟩
  | repairTail curTail => exact Or.inl ⟨idAt_swapTail fails curTail ring, rfl⟩
  | advanceTail curTail id =>
    refine Or.inl ⟨idAt_swapTail fails curTail ring, ?_⟩
    exact if_neg htakes

theorem pop_takes {fails : Bool} {ring : LFRing} {call call' : Popping} (htakes : Takes call)
    (h : (ring.pop fails call).2 = .running call') : Takes call' := by
  cases call with
  | loadTail spin =>
    cases h
    trivial
  | loadHead spin curTail =>
    simp only [pop] at h
    split_ifs at h <;> cases h <;> trivial
  | loadNode spin curTail =>
    simp only [pop] at h
    split_ifs at h with hholds
    · cases h
      exact (of_decide_eq_true hholds).2
    · cases hspin : spin.observe (ring.node curTail) with
      | none =>
        rw [hspin] at h
        cases h
        trivial
      | some spin =>
        rw [hspin] at h
        cases h
        trivial
  | swapNode curTail curNode =>
    simp only [pop] at h
    split_ifs at h
    · cases h
      exact htakes
    · cases h
      trivial
  | repairTail curTail =>
    cases h
    trivial
  | advanceTail curTail id => cases h

end LFRing

end LockfreeQueue
