import FlareTrader.LockfreeRing

/-! The order of a ring while its sequence numbers fit into half a word. The ids stand in the
slots of consecutive numbers, and each counter is at most one behind them. -/

namespace LockfreeQueue

open RingBuffer (StaticAssert slot_eq_index slot_ne)

variable {count first last : ℕ} {ring : LFRing}

namespace LFRing

/-- The numbers from `first` to `last` have ids, the others of one round wait for theirs. -/
structure Window (count first last : ℕ) (ring : LFRing) : Prop where
  count_eq : ring.nodeCount = count
  tail_le : ring.tailSeq.toNat ≤ first
  le_tail : first ≤ ring.tailSeq.toNat + 1
  head_le : ring.headSeq.toNat ≤ last
  le_head : last ≤ ring.headSeq.toNat + 1
  first_le_head : first ≤ ring.headSeq.toNat
  last_le : last ≤ first + count
  full : ∀ s, first ≤ s → s < last →
    ∃ id, id ≠ invalidId ∧ ring.node (.ofNat s) = word (.ofNat s) id
  free : ∀ s, last ≤ s → s < first + count →
    ring.node (.ofNat s) = word (.ofNat s) invalidId

/-- All numbers that the words of the ring are made from fit into 32 bits. -/
def Below (count : ℕ) (ring : LFRing) : Prop := ring.headSeq.toNat + count ≤ 2 ^ 32

def Counts (count : ℕ) (ring : LFRing) : Prop := ring.headSeq.toNat + count < 2 ^ 64

def fills (fails : Bool) (ring : LFRing) : Pushing → Option UInt64
  | .swapNode _ curHead =>
    if fails = false ∧ ring.node curHead = word curHead invalidId then some curHead else none
  | _ => none

def empties (fails : Bool) (ring : LFRing) : Popping → Option UInt64
  | .swapNode curTail curNode =>
    if fails = false ∧ ring.node curTail = curNode then some curTail else none
  | _ => none

section Slots

theorem slot_ofNat (hcap : StaticAssert count) (hlt : count < 2 ^ 64) (h : ring.nodeCount = count)
    (seq : UInt64) : ring.slot seq = seq.toNat % count := by
  rw [slot, h, slot_eq_index hcap hlt, RingBuffer.index]

theorem toNat_ofNat {s : ℕ} (h : s < 2 ^ 64) : (UInt64.ofNat s).toNat = s :=
  UInt64.toNat_ofNat_of_lt' h

theorem node_setNode (hcap : StaticAssert count) (hlt : count < 2 ^ 64)
    (h : ring.nodeCount = count) (first : ℕ) {s s' : ℕ} (hs : first ≤ s) (hs' : first ≤ s')
    (hroom : s < first + count) (hroom' : s' < first + count) (w : UInt64) :
    (ring.setNode (.ofNat s) w).node (.ofNat s') = if s' = s then w else ring.node (.ofNat s') := by
  have hnode : (ring.setNode (.ofNat s) w).node (.ofNat s') =
      Function.update ring.nodes (ring.slot (.ofNat s)) w (ring.slot (.ofNat s')) := rfl
  rw [hnode]
  split_ifs with heq
  · rw [heq, Function.update_self]
  · apply Function.update_of_ne
    rcases Nat.lt_or_gt_of_ne heq with hlt' | hlt'
    · have hne := slot_ne hcap hlt 0 hlt' (by omega)
      rwa [zero_add, zero_add, ← h] at hne
    · have hne := slot_ne hcap hlt 0 hlt' (by omega)
      rw [zero_add, zero_add, ← h] at hne
      exact hne.symm

theorem exists_in_round (hpos : 0 < count) (first n : ℕ) :
    ∃ s, first ≤ s ∧ s < first + count ∧ s % count = n % count := by
  refine ⟨first + (n + (count - first % count)) % count, Nat.le_add_right _ _, ?_, ?_⟩
  · exact Nat.add_lt_add_left (Nat.mod_lt _ hpos) first
  · have hmod := Nat.mod_lt first hpos
    rw [Nat.add_mod_mod, ← Nat.mod_add_mod, Nat.add_comm n, ← Nat.add_assoc,
      Nat.add_sub_cancel' hmod.le, Nat.add_mod_left]

end Slots

theorem word_ofNat_inj {s : ℕ} {seq : UInt64} {id id' : UInt32} (hs : s < 2 ^ 32)
    (hseq : seq.toNat < 2 ^ 32) (h : word (.ofNat s) id = word seq id') :
    s = seq.toNat ∧ id = id' := by
  obtain ⟨hnum, hid⟩ := word_inj h
  rw [toNat_ofNat (by omega)] at hnum
  exact ⟨by omega, hid⟩

structure Grows (first last : ℕ) (ring : LFRing) (first' last' : ℕ) (ring' : LFRing) : Prop where
  tail_le : ring.tailSeq.toNat ≤ ring'.tailSeq.toNat
  head_le : ring.headSeq.toNat ≤ ring'.headSeq.toNat
  first_le : first ≤ first'
  last_le : last ≤ last'

theorem Grows.refl (first last : ℕ) (ring : LFRing) : Grows first last ring first last ring :=
  ⟨le_rfl, le_rfl, le_rfl, le_rfl⟩

end LFRing

/-- The counter that the call has loaded is not ahead; where it is to be moved on, the number
after it is due. -/
def Pushing.Fits (last : ℕ) (ring : LFRing) : Pushing → Prop
  | .loadHead _ _ => True
  | .loadNode _ _ curHead | .swapNode _ curHead => curHead.toNat ≤ ring.headSeq.toNat
  | .repairHead _ curHead | .advanceHead curHead =>
    curHead.toNat ≤ ring.headSeq.toNat ∧
      (ring.headSeq = curHead → last = ring.headSeq.toNat + 1)

def Popping.Fits (first : ℕ) (ring : LFRing) : Popping → Prop
  | .loadTail _ => True
  | .loadHead _ curTail => curTail.toNat ≤ ring.tailSeq.toNat
  | .loadNode _ curTail =>
    curTail.toNat ≤ ring.tailSeq.toNat ∧ curTail.toNat < ring.headSeq.toNat
  | .swapNode curTail curNode =>
    curTail.toNat ≤ ring.tailSeq.toNat ∧ curTail.toNat < ring.headSeq.toNat ∧
      holdsAt curTail curNode = true
  | .repairTail curTail | .advanceTail curTail _ =>
    curTail.toNat ≤ ring.tailSeq.toNat ∧
      (ring.tailSeq = curTail → first = ring.tailSeq.toNat + 1)

section Mono

open LFRing

variable {first' last' : ℕ} {ring' : LFRing}

theorem Pushing.Fits.mono {call : Pushing} (h : call.Fits last ring)
    (hgrows : Grows first last ring first' last' ring') (hwindow : ring'.Window count first' last') :
    call.Fits last' ring' := by
  have hhead := hgrows.head_le
  have hlast := hgrows.last_le
  have hle := hwindow.le_head
  have hdue : ∀ curHead : UInt64, curHead.toNat ≤ ring.headSeq.toNat ∧
      (ring.headSeq = curHead → last = ring.headSeq.toNat + 1) →
      curHead.toNat ≤ ring'.headSeq.toNat ∧
        (ring'.headSeq = curHead → last' = ring'.headSeq.toNat + 1) := by
    rintro curHead ⟨hold, hnext⟩
    refine ⟨hold.trans hhead, ?_⟩
    rintro rfl
    have hsame : ring.headSeq = ring'.headSeq := UInt64.toNat_inj.mp (by omega)
    have hlast' := hnext hsame
    omega
  cases call with
  | loadHead id spin => trivial
  | loadNode id spin curHead => exact le_trans h hhead
  | swapNode id curHead => exact le_trans h hhead
  | repairHead id curHead => exact hdue curHead h
  | advanceHead curHead => exact hdue curHead h

theorem Popping.Fits.mono {call : Popping} (h : call.Fits first ring)
    (hgrows : Grows first last ring first' last' ring') (hwindow : ring'.Window count first' last') :
    call.Fits first' ring' := by
  have hhead := hgrows.head_le
  have htail := hgrows.tail_le
  have hfirst := hgrows.first_le
  have hle := hwindow.le_tail
  have hdue : ∀ curTail : UInt64, curTail.toNat ≤ ring.tailSeq.toNat ∧
      (ring.tailSeq = curTail → first = ring.tailSeq.toNat + 1) →
      curTail.toNat ≤ ring'.tailSeq.toNat ∧
        (ring'.tailSeq = curTail → first' = ring'.tailSeq.toNat + 1) := by
    rintro curTail ⟨hold, hnext⟩
    refine ⟨hold.trans htail, ?_⟩
    rintro rfl
    have hsame : ring.tailSeq = ring'.tailSeq := UInt64.toNat_inj.mp (by omega)
    have hfirst' := hnext hsame
    omega
  cases call with
  | loadTail spin => trivial
  | loadHead spin curTail => exact le_trans h htail
  | loadNode spin curTail => exact ⟨h.1.trans htail, h.2.trans_le hhead⟩
  | swapNode curTail curNode => exact ⟨h.1.trans htail, h.2.1.trans_le hhead, h.2.2⟩
  | repairTail curTail => exact hdue curTail h
  | advanceTail curTail id => exact hdue curTail h

end Mono

namespace LFRing

theorem Below.head_lt (h : ring.Below count) (hpos : 0 < count) : ring.headSeq.toNat < 2 ^ 32 := by
  unfold Below at h
  omega

theorem Below.counts (h : ring.Below count) : ring.Counts count := by
  unfold Below at h
  unfold Counts
  omega

theorem toNat_succ {seq : UInt64} (h : seq.toNat + 1 < 2 ^ 64) :
    (seq + 1).toNat = seq.toNat + 1 := by
  have hone : (1 : UInt64).toNat = 1 := rfl
  rw [UInt64.toNat_add, hone]
  omega

theorem window_init (hcap : StaticAssert count) (hcount : count ≤ 2 ^ 31) {initHead : ℕ}
    (hinit : initHead ≤ count) : (init count initHead).Window count 0 initHead := by
  have hsize : UInt32.size = 2 ^ 32 := rfl
  have hhead : (UInt64.ofNat initHead).toNat = initHead := toNat_ofNat (by omega)
  have hnode : ∀ s < count, (init count initHead).node (.ofNat s) =
      if s < initHead then word (.ofNat s) (.ofNat s) else word (.ofNat s) invalidId := by
    intro s hs
    have hslot : (init count initHead).slot (.ofNat s) = s := by
      rw [slot_ofNat hcap (by omega) rfl, toNat_ofNat (by omega), Nat.mod_eq_of_lt hs]
    rw [node, hslot]
    rfl
  refine ⟨rfl, le_rfl, Nat.zero_le _, hhead.le, hhead.ge.trans (Nat.le_succ _), Nat.zero_le _,
    hinit.trans (Nat.zero_add count).ge, fun s _ hs => ⟨.ofNat s, fun heq => ?_, ?_⟩,
    fun s hs hround => ?_⟩
  · have hnat := congrArg UInt32.toNat heq
    have hinvalid : invalidId.toNat = 2 ^ 32 - 1 := rfl
    rw [UInt32.toNat_ofNat_of_lt' (by omega), hinvalid] at hnat
    omega
  · rw [hnode s (by omega), if_pos hs]
  · rw [hnode s (by omega), if_neg (by omega)]

section Accesses

variable (h : ring.Window count first last)

include h

theorem Window.head_due (hroom : last < first + count)
    (hnode : ring.node ring.headSeq ≠ word ring.headSeq invalidId) :
    last = ring.headSeq.toNat + 1 := by
  by_contra hne
  have hlast : last = ring.headSeq.toNat := by
    have := h.head_le
    have := h.le_head
    omega
  have hfree := h.free last le_rfl hroom
  rw [hlast, UInt64.ofNat_toNat] at hfree
  exact hnode hfree

theorem Window.tail_due (hne : ring.tailSeq.toNat < ring.headSeq.toNat)
    (hnode : ¬ holdsAt ring.tailSeq (ring.node ring.tailSeq) = true) :
    first = ring.tailSeq.toNat + 1 := by
  by_contra hfirst
  have hfirst' : first = ring.tailSeq.toNat := by
    have := h.tail_le
    have := h.le_tail
    omega
  have hhead := h.head_le
  obtain ⟨id, hid, hword⟩ := h.full first le_rfl (by omega)
  rw [hfirst', UInt64.ofNat_toNat] at hword
  exact hnode (holdsAt_iff.mpr ⟨id, hid, hword⟩)

variable (hcap : StaticAssert count) (hlt : count < 2 ^ 64)

include hcap hlt

theorem Window.setHead {id : UInt32} (hid : id ≠ invalidId) (hhead : ring.headSeq.toNat = last)
    (hroom : last < first + count) :
    (ring.setNode (.ofNat last) (word (.ofNat last) id)).Window count first (last + 1) where
  count_eq := h.count_eq
  tail_le := h.tail_le
  le_tail := h.le_tail
  head_le := h.head_le.trans (Nat.le_succ last)
  le_head := Nat.succ_le_succ hhead.ge
  first_le_head := h.first_le_head
  last_le := hroom
  full := by
    intro s hfirst hlast
    rw [node_setNode hcap hlt h.count_eq first (by have := h.first_le_head; omega) hfirst
      hroom (by omega)]
    split_ifs with heq
    · exact ⟨id, hid, by rw [heq]⟩
    · exact h.full s hfirst (by omega)
  free := by
    intro s hlast hround
    have hfirst := h.first_le_head
    rw [node_setNode hcap hlt h.count_eq first (by omega) (by omega) hroom hround,
      if_neg (by omega)]
    exact h.free s (by omega) hround

theorem Window.node_round (hcounts : ring.Counts count) {s : ℕ} (hs : s ≤ first) :
    ring.node (.ofNat (s + count)) = ring.node (.ofNat s) := by
  have hfirst := h.first_le_head
  unfold Counts at hcounts
  rw [node, node, slot_ofNat hcap hlt h.count_eq, slot_ofNat hcap hlt h.count_eq,
    toNat_ofNat (by omega), toNat_ofNat (by omega), Nat.add_mod_right]

/-- The word at the head is free only if the head is not behind and the ring has room. -/
theorem Window.eq_of_free (hcounts : ring.Counts count)
    (hnode : ring.node ring.headSeq = word ring.headSeq invalidId) :
    ring.headSeq.toNat = last ∧ last < first + count := by
  have hhead := h.head_le
  have hlast := h.last_le
  have hpos := Nat.pos_of_ne_zero hcap.1
  have hself : .ofNat ring.headSeq.toNat = ring.headSeq := UInt64.ofNat_toNat
  have hfree : ¬ ring.headSeq.toNat < last := by
    intro hlt'
    obtain ⟨id, hid, hword⟩ := h.full _ h.first_le_head hlt'
    rw [hself, hnode] at hword
    exact hid (word_inj hword).2.symm
  refine ⟨by omega, lt_of_le_of_ne hlast fun hfull => ?_⟩
  obtain ⟨id, hid, hword⟩ := h.full first le_rfl (by omega)
  have hround := h.node_round hcap hlt hcounts (le_refl first)
  have heq : first + count = ring.headSeq.toNat := by omega
  rw [heq, hself, hnode, hword] at hround
  exact hid (word_inj hround).2.symm

theorem Window.eq_of_full (hcounts : ring.Counts count) (hcount : count < 2 ^ 32)
    (htail : ring.tailSeq.toNat < ring.headSeq.toNat)
    (hholds : holdsAt ring.tailSeq (ring.node ring.tailSeq) = true) :
    ring.tailSeq.toNat = first ∧ first < last := by
  have hle := h.tail_le
  have hnext := h.le_tail
  have hhead := h.head_le
  have hpos := Nat.pos_of_ne_zero hcap.1
  obtain ⟨id, hid, hnode⟩ := holdsAt_iff.mp hholds
  have hround := h.node_round hcap hlt hcounts hle
  rw [UInt64.ofNat_toNat, hnode] at hround
  have hfirst : ring.tailSeq.toNat = first := by
    by_contra hne
    -- the slot has been emptied for the next round, and perhaps filled in it
    rcases Nat.lt_or_ge (ring.tailSeq.toNat + count) last with hfull | hfree
    · obtain ⟨id', -, hword⟩ := h.full _ (by omega) hfull
      rw [hround] at hword
      have hnum := (word_inj hword).1
      have hfirst := h.first_le_head
      unfold Counts at hcounts
      rw [toNat_ofNat (by omega)] at hnum
      omega
    · rw [h.free _ hfree (by omega)] at hround
      exact hid (word_inj hround).2.symm
  exact ⟨hfirst, by omega⟩

section Below

variable (hbelow : ring.Below count)

include hbelow

theorem Window.node_cases (seq : UInt64) : ∃ s, s < 2 ^ 32 ∧
    ((first ≤ s ∧ s < last ∧ ∃ id, id ≠ invalidId ∧ ring.node seq = word (.ofNat s) id) ∨
      (last ≤ s ∧ s < first + count ∧ ring.node seq = word (.ofNat s) invalidId)) := by
  obtain ⟨s, hfirst, hround, hmod⟩ := exists_in_round (Nat.pos_of_ne_zero hcap.1) first seq.toNat
  have hhead := h.first_le_head
  have hs : s < 2 ^ 32 := by
    unfold Below at hbelow
    omega
  have hnode : ring.node seq = ring.node (.ofNat s) := by
    rw [node, node, slot_ofNat hcap hlt h.count_eq, slot_ofNat hcap hlt h.count_eq,
      toNat_ofNat (by omega), hmod]
  refine ⟨s, hs, ?_⟩
  rw [hnode]
  by_cases hlast : s < last
  · exact Or.inl ⟨hfirst, hlast, h.full s hfirst hlast⟩
  · exact Or.inr ⟨not_lt.mp hlast, hround, h.free s (not_lt.mp hlast) hround⟩

/-- A free word with the number of an old head is the one of the head now. -/
theorem Window.fills_in_turn {call : Pushing} (hfits : call.Fits last ring) {fails : Bool}
    {seq : UInt64} (hfills : ring.fills fails call = some seq) : ring.headSeq = seq := by
  cases call with
  | swapNode id curHead =>
    simp only [fills] at hfills
    split_ifs at hfills with hswap
    obtain rfl := Option.some.inj hfills
    have hold : curHead.toNat ≤ ring.headSeq.toNat := hfits
    have hlow := hbelow.head_lt (Nat.pos_of_ne_zero hcap.1)
    have hhead := h.head_le
    obtain ⟨s, hs, ⟨-, -, id', hid', hword⟩ | ⟨hlast, -, hword⟩⟩ :=
      h.node_cases hcap hlt hbelow curHead
    · rw [hswap.2] at hword
      exact absurd (word_ofNat_inj hs (hold.trans_lt hlow) hword.symm).2 hid'
    · rw [hswap.2] at hword
      have hnum := (word_ofNat_inj hs (hold.trans_lt hlow) hword.symm).1
      exact UInt64.toNat_inj.mp (by omega)
  | loadHead id spin => cases hfills
  | loadNode id spin curHead => cases hfills
  | repairHead id curHead => cases hfills
  | advanceHead curHead => cases hfills

theorem Window.empties_in_turn {call : Popping} (hfits : call.Fits first ring) {fails : Bool}
    {seq : UInt64} (hempties : ring.empties fails call = some seq) : ring.tailSeq = seq := by
  cases call with
  | swapNode curTail curNode =>
    simp only [empties] at hempties
    split_ifs at hempties with hswap
    obtain rfl := Option.some.inj hempties
    obtain ⟨hold, -, hholds⟩ := hfits
    have hlow := hbelow.head_lt (Nat.pos_of_ne_zero hcap.1)
    have hfirst := h.first_le_head
    have htail := h.tail_le
    obtain ⟨id, hid, rfl⟩ := holdsAt_iff.mp hholds
    have hcur : curTail.toNat < 2 ^ 32 := by omega
    obtain ⟨s, hs, ⟨hs', hlast, id', -, hword⟩ | ⟨-, -, hword⟩⟩ :=
      h.node_cases hcap hlt hbelow curTail
    · rw [hswap.2] at hword
      have hnum := (word_ofNat_inj hs hcur hword.symm).1
      exact UInt64.toNat_inj.mp (by omega)
    · rw [hswap.2] at hword
      exact absurd (word_ofNat_inj hs hcur hword.symm).2.symm hid
  | loadTail spin => cases hempties
  | loadHead spin curTail => cases hempties
  | loadNode spin curTail => cases hempties
  | repairTail curTail => cases hempties
  | advanceTail curTail id => cases hempties

end Below

variable (hcounts : ring.Counts count)

include hcounts

theorem Window.setTail (htail : ring.tailSeq.toNat = first) (hlast : first < last)
    (hhead : first < ring.headSeq.toNat) :
    (ring.setNode (.ofNat first)
      (word (.ofNat first + .ofNat ring.nodeCount) invalidId)).Window count (first + 1) last where
  count_eq := h.count_eq
  tail_le := h.tail_le.trans (Nat.le_succ first)
  le_tail := Nat.succ_le_succ htail.ge
  head_le := h.head_le
  le_head := h.le_head
  first_le_head := hhead
  last_le := by
    have := h.last_le
    omega
  full := by
    intro s hfirst hs
    have hround := h.last_le
    rw [node_setNode hcap hlt h.count_eq first le_rfl (by omega) (by omega) (by omega),
      if_neg (by omega)]
    exact h.full s (by omega) hs
  free := by
    intro s hs hround
    have hpos := Nat.pos_of_ne_zero hcap.1
    by_cases hnext : s = first + count
    · have hslot : (ring.setNode (.ofNat first) (word (.ofNat first + .ofNat ring.nodeCount)
          invalidId)).node (.ofNat s) = word (.ofNat first + .ofNat ring.nodeCount) invalidId := by
        have hlow : s < 2 ^ 64 := by
          unfold Counts at hcounts
          omega
        have hsame : ring.slot (.ofNat s) = ring.slot (.ofNat first) := by
          rw [slot_ofNat hcap hlt h.count_eq, slot_ofNat hcap hlt h.count_eq, toNat_ofNat hlow,
            toNat_ofNat (by omega), hnext, Nat.add_mod_right]
        have hnode : (ring.setNode (.ofNat first) (word (.ofNat first + .ofNat ring.nodeCount)
            invalidId)).node (.ofNat s) = Function.update ring.nodes (ring.slot (.ofNat first))
              (word (.ofNat first + .ofNat ring.nodeCount) invalidId) (ring.slot (.ofNat s)) := rfl
        rw [hnode, hsame, Function.update_self]
      rw [hslot, hnext, h.count_eq, UInt64.ofNat_add]
    · rw [node_setNode hcap hlt h.count_eq first le_rfl (by omega) (by omega) (by omega),
        if_neg (by omega)]
      exact h.free s hs (by omega)

omit hlt in
theorem Window.swapHead {curHead : UInt64}
    (hdue : ring.headSeq = curHead → last = ring.headSeq.toNat + 1) (fails : Bool) :
    (ring.swapHead fails curHead).1.Window count first last ∧
      Grows first last ring first last (ring.swapHead fails curHead).1 := by
  unfold LFRing.swapHead
  split_ifs with hswap
  · obtain ⟨-, rfl⟩ := hswap
    have hpos := Nat.pos_of_ne_zero hcap.1
    unfold Counts at hcounts
    have hnext : (ring.headSeq + 1).toNat = ring.headSeq.toNat + 1 := toNat_succ (by omega)
    have hlast := hdue rfl
    have hfirst := h.first_le_head
    constructor
    · refine ⟨h.count_eq, h.tail_le, h.le_tail, ?_, ?_, ?_, h.last_le, h.full, h.free⟩
      · exact hnext.trans_le hlast.ge
      · dsimp only
        omega
      · dsimp only
        omega
    · refine ⟨le_rfl, ?_, le_rfl, le_rfl⟩
      dsimp only
      omega
  · exact ⟨h, .refl first last ring⟩

omit hlt in
theorem Window.swapTail {curTail : UInt64}
    (hdue : ring.tailSeq = curTail → first = ring.tailSeq.toNat + 1) (fails : Bool) :
    (ring.swapTail fails curTail).1.Window count first last ∧
      Grows first last ring first last (ring.swapTail fails curTail).1 := by
  unfold LFRing.swapTail
  split_ifs with hswap
  · obtain ⟨-, rfl⟩ := hswap
    have hpos := Nat.pos_of_ne_zero hcap.1
    have hfirst := h.first_le_head
    have htail := h.tail_le
    unfold Counts at hcounts
    have hnext : (ring.tailSeq + 1).toNat = ring.tailSeq.toNat + 1 := toNat_succ (by omega)
    have hfirst' := hdue rfl
    constructor
    · refine ⟨h.count_eq, ?_, ?_, h.head_le, h.le_head, h.first_le_head, h.last_le, h.full, h.free⟩
      · exact hnext.trans_le hfirst'.ge
      · dsimp only
        omega
    · refine ⟨?_, le_rfl, le_rfl, le_rfl⟩
      dsimp only
      omega
  · exact ⟨h, .refl first last ring⟩

/-- An access of a push keeps the order, if the ring has room for the id and a slot is filled
in turn. The number that it fills is the last one. -/
theorem Window.push {call : Pushing} (hfits : call.Fits last ring)
    (hroom : ∀ id, call.held = some id → id ≠ invalidId ∧ last < first + count) {fails : Bool}
    (hturn : ∀ seq ∈ ring.fills fails call, ring.headSeq = seq) :
    ∃ last', (ring.push fails call).1.Window count first last' ∧
      Grows first last ring first last' (ring.push fails call).1 ∧
      (∀ call', (ring.push fails call).2 = .running call' →
        call'.Fits last' (ring.push fails call).1) ∧
      (ring.fills fails call = none ∧ last' = last ∨
        ring.fills fails call = some (.ofNat last) ∧ last' = last + 1) := by
  cases call with
  | loadHead id spin =>
    refine ⟨last, h, .refl _ _ _, fun call' hcall => ?_, Or.inl ⟨rfl, rfl⟩⟩
    cases hcall
    exact le_rfl
  | loadNode id spin curHead =>
    simp only [LFRing.push]
    split_ifs with hnode
    · refine ⟨last, h, .refl _ _ _, fun call' hcall => ?_, Or.inl ⟨rfl, rfl⟩⟩
      cases hcall
      exact hfits
    · cases spin.observe (ring.node curHead) with
      | none =>
        refine ⟨last, h, .refl _ _ _, fun call' hcall => ?_, Or.inl ⟨rfl, rfl⟩⟩
        cases hcall
        exact ⟨hfits, fun heq => h.head_due (hroom id rfl).2 (by rwa [heq])⟩
      | some spin =>
        refine ⟨last, h, .refl _ _ _, fun call' hcall => ?_, Or.inl ⟨rfl, rfl⟩⟩
        cases hcall
        trivial
  | swapNode id curHead =>
    simp only [LFRing.push, fills] at hturn ⊢
    split_ifs at hturn ⊢ with hswap
    · obtain rfl := hturn _ rfl
      obtain ⟨hlast, hfree⟩ := h.eq_of_free hcap hlt hcounts hswap.2
      have hcur : ring.headSeq = .ofNat last := by rw [← hlast, UInt64.ofNat_toNat]
      refine ⟨last + 1, ?_, ⟨le_rfl, le_rfl, le_rfl, Nat.le_succ last⟩, fun call' hcall => ?_,
        Or.inr ⟨congrArg some hcur, rfl⟩⟩
      · rw [hcur]
        exact h.setHead hcap hlt (hroom id rfl).1 hlast hfree
      · cases hcall
        refine ⟨le_rfl, fun _ => ?_⟩
        rw [← hlast]
        rfl
    · refine ⟨last, h, .refl _ _ _, fun call' hcall => ?_, Or.inl ⟨rfl, rfl⟩⟩
      cases hcall
      trivial
  | repairHead id curHead =>
    obtain ⟨hwindow, hgrows⟩ := h.swapHead hcap hcounts hfits.2 fails
    refine ⟨last, hwindow, hgrows, fun call' hcall => ?_, Or.inl ⟨rfl, rfl⟩⟩
    cases hcall
    trivial
  | advanceHead curHead =>
    obtain ⟨hwindow, hgrows⟩ := h.swapHead hcap hcounts hfits.2 fails
    refine ⟨last, hwindow, hgrows, fun call' hcall => ?_, Or.inl ⟨rfl, rfl⟩⟩
    cases hcall

theorem Window.pop (hcount : count < 2 ^ 32) {call : Popping} (hfits : call.Fits first ring)
    {fails : Bool} (hturn : ∀ seq ∈ ring.empties fails call, ring.tailSeq = seq) :
    ∃ first', (ring.pop fails call).1.Window count first' last ∧
      Grows first last ring first' last (ring.pop fails call).1 ∧
      (∀ call', (ring.pop fails call).2 = .running call' →
        call'.Fits first' (ring.pop fails call).1) ∧
      (ring.empties fails call = none ∧ first' = first ∨
        ring.empties fails call = some (.ofNat first) ∧ first' = first + 1 ∧ first < last) := by
  have hstay : ring.empties fails call = none → ∀ call' : Popping, call'.Fits first ring →
      ∃ first', ring.Window count first' last ∧ Grows first last ring first' last ring ∧
      (∀ call'', (.running call' : Progress Popping (UInt32 × UInt64)) = .running call'' →
        call''.Fits first' ring) ∧
      (ring.empties fails call = none ∧ first' = first ∨
        ring.empties fails call = some (.ofNat first) ∧ first' = first + 1 ∧ first < last) := by
    intro hnone call' hcall
    refine ⟨first, h, .refl _ _ _, fun call'' heq => ?_, Or.inl ⟨hnone, rfl⟩⟩
    cases heq
    exact hcall
  cases call with
  | loadTail spin => exact hstay rfl _ le_rfl
  | loadHead spin curTail =>
    simp only [LFRing.pop]
    split_ifs with hempty hahead
    · refine ⟨first, h, .refl _ _ _, fun call' hcall => ?_, Or.inl ⟨rfl, rfl⟩⟩
      cases hcall
    · exact hstay rfl _ trivial
    · apply hstay rfl
      have hne : curTail.toNat ≠ ring.headSeq.toNat := fun heq => hempty (UInt64.toNat_inj.mp heq)
      rw [UInt64.lt_iff_toNat_lt] at hahead
      exact ⟨hfits, by omega⟩
  | loadNode spin curTail =>
    simp only [LFRing.pop]
    split_ifs with hholds
    · exact hstay rfl _ ⟨hfits.1, hfits.2, hholds⟩
    · cases spin.observe (ring.node curTail) with
      | none =>
        apply hstay rfl
        exact ⟨hfits.1, fun heq => h.tail_due (by rw [heq]; exact hfits.2) (by rwa [heq])⟩
      | some spin => exact hstay rfl _ trivial
  | swapNode curTail curNode =>
    simp only [LFRing.pop, empties] at hturn hstay ⊢
    split_ifs at hturn hstay ⊢ with hswap
    · obtain rfl := hturn _ rfl
      obtain ⟨-, hhead, hholds⟩ := hfits
      rw [← hswap.2] at hholds
      obtain ⟨hfirst, hlast⟩ := h.eq_of_full hcap hlt hcounts hcount hhead hholds
      have hcur : ring.tailSeq = .ofNat first := by rw [← hfirst, UInt64.ofNat_toNat]
      refine ⟨first + 1, ?_, ⟨le_rfl, le_rfl, Nat.le_succ first, le_rfl⟩, fun call' hcall => ?_,
        Or.inr ⟨congrArg some hcur, rfl, hlast⟩⟩
      · rw [hcur]
        exact h.setTail hcap hlt hcounts hfirst hlast (by omega)
      · cases hcall
        refine ⟨le_rfl, fun _ => ?_⟩
        rw [← hfirst]
        rfl
    · exact hstay rfl _ trivial
  | repairTail curTail =>
    obtain ⟨hwindow, hgrows⟩ := h.swapTail hcap hcounts hfits.2 fails
    refine ⟨first, hwindow, hgrows, fun call' hcall => ?_, Or.inl ⟨rfl, rfl⟩⟩
    cases hcall
    trivial
  | advanceTail curTail id =>
    obtain ⟨hwindow, hgrows⟩ := h.swapTail hcap hcounts hfits.2 fails
    refine ⟨first, hwindow, hgrows, fun call' hcall => ?_, Or.inl ⟨rfl, rfl⟩⟩
    cases hcall

end Accesses

end LFRing

end LockfreeQueue
