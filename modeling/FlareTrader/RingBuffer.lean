import Mathlib

/-! A ring buffer with one producer and one consumer. Head and tail count the
puts and gets modulo 2^64, the buffer is indexed by the low bits of the
counters. Seen from outside it is a queue of at most `capacity` elements. -/

structure RingBuffer (α : Type*) (capacity : ℕ) where
  head : UInt64 := 0
  tail : UInt64 := 0
  buffer : ℕ → α

namespace RingBuffer

variable {α : Type*} {capacity : ℕ}

def index (capacity : ℕ) (counter : UInt64) : ℕ := counter.toNat % capacity

def put (x : α) (rb : RingBuffer α capacity) : Bool × RingBuffer α capacity :=
  if (rb.head - rb.tail).toNat = capacity then (false, rb)
  else (true, { rb with
    buffer := Function.update rb.buffer (index capacity rb.head) x
    head := rb.head + 1 })

def get (rb : RingBuffer α capacity) : Option (α × RingBuffer α capacity) :=
  if rb.tail = rb.head then none
  else some (rb.buffer (index capacity rb.tail), { rb with tail := rb.tail + 1 })

structure Holds (rb : RingBuffer α capacity) (queue : List α) : Prop where
  size : (rb.head - rb.tail).toNat = queue.length
  bounded : queue.length ≤ capacity
  slots : ∀ i (h : i < queue.length), rb.buffer ((rb.tail.toNat + i) % capacity) = queue[i]

section Counters

theorem index_add (hc : capacity ∣ 2 ^ 64) (counter : UInt64) (n : ℕ) :
    index capacity (counter + .ofNat n) = (counter.toNat + n) % capacity := by
  have hn : (UInt64.ofNat n).toNat = n % 2 ^ 64 := UInt64.toNat_ofNat'
  rw [index, UInt64.toNat_add, hn, Nat.add_mod_mod, Nat.mod_mod_of_dvd _ hc]

theorem head_eq {rb : RingBuffer α capacity} {n : ℕ} (h : (rb.head - rb.tail).toNat = n) :
    rb.head = rb.tail + .ofNat n := by
  rw [← h, UInt64.ofNat_toNat]
  exact (add_sub_cancel rb.tail rb.head).symm.trans rfl

end Counters

theorem Holds.empty (hc : 0 < capacity) (buffer : ℕ → α) :
    (⟨0, 0, buffer⟩ : RingBuffer α capacity).Holds [] where
  size := show (0 - 0 : UInt64).toNat = 0 by decide
  bounded := hc.le
  slots := fun i h => absurd h (Nat.not_lt_zero i)

variable {rb : RingBuffer α capacity} {queue : List α}

theorem put_full (h : rb.Holds queue) (hfull : queue.length = capacity) (x : α) :
    rb.put x = (false, rb) := by
  rw [put, if_pos (h.size.trans hfull)]

theorem put_spec (hc : capacity ∣ 2 ^ 64) (hlt : capacity < 2 ^ 64) (h : rb.Holds queue)
    (hroom : queue.length < capacity) (x : α) :
    (rb.put x).1 = true ∧ (rb.put x).2.Holds (queue ++ [x]) := by
  have hne : (rb.head - rb.tail).toNat ≠ capacity := by
    rw [h.size]
    exact hroom.ne
  have hhead := head_eq h.size
  rw [put, if_neg hne]
  refine ⟨rfl, ?_, ?_, fun i hi => ?_⟩
  · have hnext : rb.head + 1 - rb.tail = rb.head - rb.tail + 1 := by
      rw [add_sub_right_comm]
    have hone : (1 : UInt64).toNat = 1 := rfl
    rw [hnext, UInt64.toNat_add, h.size, hone, List.length_append, List.length_singleton]
    apply Nat.mod_eq_of_lt
    omega
  · rw [List.length_append, List.length_singleton]
    exact hroom
  · rw [List.length_append, List.length_singleton] at hi
    simp only [hhead, index_add hc]
    by_cases hlast : i = queue.length
    · subst hlast
      simp
    · have hi' : i < queue.length := by omega
      have hslot : (rb.tail.toNat + i) % capacity ≠ (rb.tail.toNat + queue.length) % capacity := by
        intro heq
        have hmod : i % capacity = queue.length % capacity := Nat.ModEq.add_left_cancel' _ heq
        rw [Nat.mod_eq_of_lt (hi'.trans hroom), Nat.mod_eq_of_lt hroom] at hmod
        exact hlast hmod
      rw [Function.update_of_ne hslot, h.slots i hi', List.getElem_append_left hi']

theorem get_empty (h : rb.Holds []) : rb.get = none := by
  have hhead := head_eq h.size
  rw [get, if_pos]
  rw [hhead]
  exact (add_zero rb.tail).symm

theorem get_spec (hc : capacity ∣ 2 ^ 64) (hlt : capacity < 2 ^ 64) {x : α}
    (h : rb.Holds (x :: queue)) :
    ∃ rb', rb.get = some (x, rb') ∧ rb'.Holds queue := by
  have hsize := h.size
  have hbound := h.bounded
  rw [List.length_cons] at hsize hbound
  have hne : rb.tail ≠ rb.head := by
    intro heq
    rw [heq, sub_self] at hsize
    exact absurd hsize (by simp)
  have hfirst : rb.buffer (index capacity rb.tail) = x := h.slots 0 (Nat.succ_pos _)
  refine ⟨{ rb with tail := rb.tail + 1 }, ?_, ?_, by omega, fun i hi => ?_⟩
  · rw [get, if_neg hne, hfirst]
  · have hhead := head_eq hsize
    have hnext : rb.head - (rb.tail + 1) = .ofNat queue.length := by
      rw [hhead, UInt64.ofNat_add]
      abel
    rw [hnext]
    have hsmall : queue.length < 2 ^ 64 := by omega
    exact UInt64.toNat_ofNat_of_lt' hsmall
  · have hslot := h.slots (i + 1) (Nat.succ_lt_succ hi)
    rw [List.getElem_cons_succ] at hslot
    rw [← hslot]
    apply congrArg
    have hnext := index_add hc rb.tail 1
    rw [index] at hnext
    have hadd := Nat.ModEq.add_right i hnext
    exact hadd.trans (by rw [Nat.add_assoc, Nat.add_comm 1 i])

/-- A put that waits for room returns at once exactly when the queue is not full. -/
theorem put_fst_iff (hc : capacity ∣ 2 ^ 64) (hlt : capacity < 2 ^ 64) (h : rb.Holds queue)
    (x : α) : (rb.put x).1 = true ↔ queue.length < capacity := by
  constructor
  · intro hput
    apply lt_of_le_of_ne h.bounded
    intro hfull
    rw [put_full h hfull] at hput
    cases hput
  · exact fun hroom => (put_spec hc hlt h hroom x).1

end RingBuffer
