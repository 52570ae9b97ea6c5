import Mathlib

/-! Frames in a stream. Some first bytes of a concatenation of frames are some whole
frames and the beginning of the next one, in one way only. -/

namespace Framing

variable {α : Type*}

/-- The bytes are the first `k` frames and an unfinished rest. -/
structure Cut (frames : List (List α)) (bytes : List α) (k : ℕ) (rest : List α) : Prop where
  bytes_eq : bytes = (frames.take k).flatten ++ rest
  le_length : k ≤ frames.length
  unfinished : ∀ frame, frames[k]? = some frame → rest.length < frame.length
  prefix_next : rest <+: (frames[k]?).getD []

section Cut

variable {frames : List (List α)} {bytes rest chunk : List α} {k k' : ℕ} {rest' : List α}

theorem cut_nil (hne : ∀ frame ∈ frames, frame ≠ []) : Cut frames [] 0 [] where
  bytes_eq := rfl
  le_length := Nat.zero_le _
  unfinished := fun _ hframe => List.length_pos_of_ne_nil (hne _ (List.mem_of_getElem? hframe))
  prefix_next := List.nil_prefix

theorem exists_cut (frames : List (List α)) {bytes : List α} (h : bytes <+: frames.flatten) :
    ∃ k rest, Cut frames bytes k rest := by
  induction frames generalizing bytes with
  | nil =>
    have hempty : bytes = [] := List.prefix_nil.mp h
    refine ⟨0, [], hempty, le_rfl, fun frame hframe => ?_, List.nil_prefix⟩
    cases hframe
  | cons frame frames ih =>
    rw [List.flatten_cons] at h
    rcases Nat.lt_or_ge bytes.length frame.length with hshort | hlong
    · refine ⟨0, bytes, rfl, Nat.zero_le _, fun frame' hframe => ?_, ?_⟩
      · rw [← Option.some.inj hframe]
        exact hshort
      · exact List.prefix_of_prefix_length_le h (List.prefix_append _ _) hshort.le
    · obtain ⟨bytes', rfl⟩ := List.prefix_of_prefix_length_le (List.prefix_append frame _) h hlong
      obtain ⟨k, rest, hcut⟩ := ih ((List.prefix_append_right_inj frame).mp h)
      refine ⟨k + 1, rest, ?_, Nat.succ_le_succ hcut.le_length, hcut.unfinished, hcut.prefix_next⟩
      rw [List.take_succ_cons, List.flatten_cons, List.append_assoc, ← hcut.bytes_eq]

theorem Cut.append (h : Cut frames bytes k rest)
    (h' : Cut (frames.drop k) (rest ++ chunk) k' rest') :
    Cut frames (bytes ++ chunk) (k + k') rest' where
  bytes_eq := by
    rw [h.bytes_eq, List.append_assoc, h'.bytes_eq, List.take_add, List.flatten_append,
      List.append_assoc]
  le_length := by
    have hdrop := h'.le_length
    have hk := h.le_length
    rw [List.length_drop] at hdrop
    omega
  unfinished := by
    intro frame hframe
    apply h'.unfinished frame
    rw [List.getElem?_drop]
    exact hframe
  prefix_next := by
    have hnext := h'.prefix_next
    rwa [List.getElem?_drop] at hnext

theorem Cut.prefix_rest (h : Cut frames bytes k rest)
    (hbytes : bytes ++ chunk <+: frames.flatten) : rest ++ chunk <+: (frames.drop k).flatten := by
  have hsplit : frames.flatten = (frames.take k).flatten ++ (frames.drop k).flatten := by
    rw [← List.flatten_append, List.take_append_drop]
  rw [h.bytes_eq, hsplit, List.append_assoc] at hbytes
  exact (List.prefix_append_right_inj _).mp hbytes

theorem length_flatten_take_le (frames : List (List α)) {j k : ℕ} (h : j ≤ k) :
    (frames.take j).flatten.length ≤ (frames.take k).flatten.length := by
  have hpre : frames.take j <+: frames.take k := List.take_prefix_take_left h
  obtain ⟨more, hmore⟩ := hpre
  rw [← hmore, List.flatten_append, List.length_append]
  exact Nat.le_add_right _ _

theorem length_le_flatten (hne : ∀ frame ∈ frames, frame ≠ []) :
    frames.length ≤ frames.flatten.length := by
  induction frames with
  | nil => exact le_rfl
  | cons frame frames ih =>
    have hrest := ih fun f hf => hne f (List.mem_cons_of_mem _ hf)
    have hpos := List.length_pos_of_ne_nil (hne frame List.mem_cons_self)
    rw [List.flatten_cons, List.length_append, List.length_cons]
    omega

theorem Cut.complete_iff (h : Cut frames bytes k rest) {j : ℕ} (hj : j ≤ frames.length) :
    (frames.take j).flatten.length ≤ bytes.length ↔ j ≤ k := by
  have hbytes : bytes.length = (frames.take k).flatten.length + rest.length := by
    rw [h.bytes_eq, List.length_append]
  constructor
  · intro hle
    by_contra hlt
    have hk : k < frames.length := lt_of_lt_of_le (not_le.mp hlt) hj
    have hnext := h.unfinished _ (List.getElem?_eq_getElem hk)
    have hmore := length_flatten_take_le frames (not_le.mp hlt)
    rw [Nat.succ_eq_add_one, List.take_succ_eq_append_getElem hk, List.flatten_append,
      List.length_append, List.flatten_singleton] at hmore
    omega
  · intro hle
    have hmore := length_flatten_take_le frames hle
    omega

end Cut

def leBytes : ℕ → ℕ → List UInt8
  | 0, _ => []
  | count + 1, n => UInt8.ofNat n :: leBytes count (n / 256)

def leValue : List UInt8 → ℕ
  | [] => 0
  | b :: bs => b.toNat + 256 * leValue bs

theorem length_leBytes (count n : ℕ) : (leBytes count n).length = count := by
  induction count generalizing n with
  | zero => rfl
  | succ count ih => rw [leBytes, List.length_cons, ih]

theorem leValue_lt (bs : List UInt8) : leValue bs < 256 ^ bs.length := by
  induction bs with
  | nil => exact Nat.one_pos
  | cons b bs ih =>
    have hb : b.toNat < 256 := b.toNat_lt
    rw [leValue, List.length_cons, pow_succ']
    omega

theorem leValue_leBytes (count n : ℕ) : leValue (leBytes count n) = n % 256 ^ count := by
  induction count generalizing n with
  | zero => rw [pow_zero, Nat.mod_one, leBytes, leValue]
  | succ count ih =>
    have hsplit : n % 256 ^ (count + 1) = n % 256 + 256 * (n / 256 % 256 ^ count) := by
      rw [pow_succ', Nat.mod_mul]
    rw [leBytes, leValue, ih, UInt8.toNat_ofNat', hsplit]

end Framing
