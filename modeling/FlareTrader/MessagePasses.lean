import FlareTrader.MessageFraming

/-! The loop of `OnUvRead` over bytes of any kind. Positions are 64-bit sizes, and a length
that was sent is added to them before anything bounds it. -/

namespace FlareTrader

namespace NetworkNode

def lengthAt (buf : List UInt8) (pos : ℕ) : ℕ := Framing.leValue ((buf.drop pos).take 8)

structure Pass where
  pos : ℕ
  first : ℕ
  last : ℕ
  deriving DecidableEq, Repr

inductive LoopEnd
  | done (pos : ℕ)
  | thrown
  | fuel
  deriving DecidableEq, Repr

/-- The loop from a pass on. In each pass the parser and `OnRecvMsg` return, or one throws. -/
def passes (returns : ℕ → ℕ × ℕ → Bool) (buf : List UInt8) :
    ℕ → ℕ → ℕ → List Pass × LoopEnd
  | 0, _, _ => ([], .fuel)
  | fuel + 1, k, pos =>
    let first := (pos + 8) % size64
    let last := (pos + 8 + lengthAt buf pos) % size64
    if first ≤ buf.length ∧ last ≤ buf.length then
      if returns k (first, last) then
        let r := passes returns buf fuel (k + 1) last
        (⟨pos, first, last⟩ :: r.1, r.2)
      else ([⟨pos, first, last⟩], .thrown)
    else ([], .done pos)

structure Pass.Inside (buf : List UInt8) (pass : Pass) : Prop where
  ordered : pass.first ≤ pass.last
  le_size : pass.last ≤ buf.length
  forward : pass.pos ≤ pass.last

structure Robust (returns : ℕ → ℕ × ℕ → Bool) (buf : List UInt8) : Prop where
  terminates : ∃ n, ∀ fuel ≥ n, (passes returns buf fuel 0 0).2 ≠ .fuel
  inside : ∀ fuel, ∀ pass ∈ (passes returns buf fuel 0 0).1, pass.Inside buf
  consumed : ∀ fuel pos, (passes returns buf fuel 0 0).2 = .done pos → pos ≤ buf.length

/-- The positions behind complete messages, none of which makes the parser throw. -/
inductive Reached (returns : ℕ → ℕ × ℕ → Bool) (buf : List UInt8) : ℕ → ℕ → Prop
  | start : Reached returns buf 0 0
  | next {k pos : ℕ} : Reached returns buf k pos → pos + 8 + lengthAt buf pos ≤ buf.length →
    returns k (pos + 8, pos + 8 + lengthAt buf pos) = true →
    Reached returns buf (k + 1) (pos + 8 + lengthAt buf pos)

/-- No length that is read there is so large that its message would end beyond `2 ^ 64`. -/
def BoundedLengths (returns : ℕ → ℕ × ℕ → Bool) (buf : List UInt8) : Prop :=
  ∀ k pos, Reached returns buf k pos → pos + 8 ≤ buf.length →
    pos + 8 + lengthAt buf pos < 2 ^ 64

section Passes

variable {returns : ℕ → ℕ × ℕ → Bool} {buf : List UInt8} {fuel k pos : ℕ}

theorem lengthAt_lt (buf : List UInt8) (pos : ℕ) : lengthAt buf pos < 2 ^ 64 := by
  have hlt := Framing.leValue_lt ((buf.drop pos).take 8)
  have hle : 256 ^ ((buf.drop pos).take 8).length ≤ 256 ^ 8 :=
    Nat.pow_le_pow_right (by decide) (List.length_take_le _ _)
  have hpow : 256 ^ 8 = 2 ^ 64 := by norm_num
  rw [lengthAt]
  omega

theorem Reached.le_length (h : Reached returns buf k pos) : pos ≤ buf.length := by
  cases h with
  | start => exact Nat.zero_le _
  | next _ hfit _ => exact hfit

theorem passes_fits (hsize : buf.length < 2 ^ 63) (hpos : pos ≤ buf.length)
    (hfit : pos + 8 + lengthAt buf pos < 2 ^ 64) :
    passes returns buf (fuel + 1) k pos =
      if pos + 8 + lengthAt buf pos ≤ buf.length then
        if returns k (pos + 8, pos + 8 + lengthAt buf pos) then
          (⟨pos, pos + 8, pos + 8 + lengthAt buf pos⟩ ::
              (passes returns buf fuel (k + 1) (pos + 8 + lengthAt buf pos)).1,
            (passes returns buf fuel (k + 1) (pos + 8 + lengthAt buf pos)).2)
        else ([⟨pos, pos + 8, pos + 8 + lengthAt buf pos⟩], .thrown)
      else ([], .done pos) := by
  have hfirst : (pos + 8) % size64 = pos + 8 := Nat.mod_eq_of_lt (by unfold size64; omega)
  have hlast : (pos + 8 + lengthAt buf pos) % size64 = pos + 8 + lengthAt buf pos :=
    Nat.mod_eq_of_lt hfit
  simp only [passes, hfirst, hlast]
  by_cases hle : pos + 8 + lengthAt buf pos ≤ buf.length
  · rw [if_pos hle, if_pos ⟨by omega, hle⟩]
  · rw [if_neg hle, if_neg fun h => hle h.2]

/-- A length that wraps around passes the check, and its range ends before it begins. -/
theorem passes_wraps (hsize : buf.length < 2 ^ 63) (hpos : pos + 8 ≤ buf.length)
    (hwrap : 2 ^ 64 ≤ pos + 8 + lengthAt buf pos) :
    ∃ pass ∈ (passes returns buf (fuel + 1) k pos).1, ¬ pass.Inside buf := by
  have hlt := lengthAt_lt buf pos
  have hfirst : (pos + 8) % size64 = pos + 8 := Nat.mod_eq_of_lt (by unfold size64; omega)
  have hlast : (pos + 8 + lengthAt buf pos) % size64 = pos + 8 + lengthAt buf pos - 2 ^ 64 := by
    rw [size64, Nat.mod_eq_sub_mod hwrap, Nat.mod_eq_of_lt (by omega)]
  refine ⟨⟨pos, pos + 8, pos + 8 + lengthAt buf pos - 2 ^ 64⟩, ?_, fun h => ?_⟩
  · simp only [passes, hfirst, hlast]
    rw [if_pos ⟨hpos, by omega⟩]
    split_ifs
    · exact List.mem_cons_self
    · exact List.mem_singleton_self _
  · have hordered : pos + 8 ≤ pos + 8 + lengthAt buf pos - 2 ^ 64 := h.ordered
    omega

theorem Reached.passes (h : Reached returns buf k pos) (hsize : buf.length < 2 ^ 63) :
    ∃ before, ∀ fuel, passes returns buf (k + fuel) 0 0 =
      (before ++ (passes returns buf fuel k pos).1, (passes returns buf fuel k pos).2) := by
  induction h with
  | start => exact ⟨[], fun fuel => by rw [Nat.zero_add]; rfl⟩
  | @next k pos h hfit hreturns ih =>
    obtain ⟨before, hbefore⟩ := ih
    refine ⟨before ++ [⟨pos, pos + 8, pos + 8 + lengthAt buf pos⟩], fun fuel => ?_⟩
    have hpass := hbefore (fuel + 1)
    rw [passes_fits hsize h.le_length (by omega), if_pos hfit, if_pos hreturns] at hpass
    rw [Nat.add_assoc, Nat.add_comm 1, hpass, List.append_assoc]
    rfl

theorem BoundedLengths.passes (hbounded : BoundedLengths returns buf)
    (hsize : buf.length < 2 ^ 63) (h : Reached returns buf k pos) :
    (∀ pass ∈ (passes returns buf fuel k pos).1, pass.Inside buf) ∧
      (∀ pos', (passes returns buf fuel k pos).2 = .done pos' → pos' ≤ buf.length) ∧
      (buf.length - pos < fuel → (passes returns buf fuel k pos).2 ≠ .fuel) := by
  have hpos := h.le_length
  induction fuel generalizing k pos with
  | zero =>
    refine ⟨fun pass hpass => absurd hpass List.not_mem_nil, fun pos' hend => ?_, fun hlt => ?_⟩
    · cases hend
    · exact absurd hlt (Nat.not_lt_zero _)
  | succ fuel ih =>
    by_cases hlong : pos + 8 ≤ buf.length
    · rw [passes_fits hsize hpos (hbounded k pos h hlong)]
      split_ifs with hfit hreturns
      · obtain ⟨hinside, hconsumed, hends⟩ := ih (h.next hfit hreturns) hfit
        refine ⟨fun pass hpass => ?_, hconsumed, fun hlt => hends (by omega)⟩
        rcases List.mem_cons.mp hpass with rfl | hpass
        · exact ⟨Nat.le_add_right _ _, hfit, by dsimp only; omega⟩
        · exact hinside pass hpass
      · refine ⟨fun pass hpass => ?_, fun pos' hend => ?_, fun _ hend => ?_⟩
        · rw [List.mem_singleton.mp hpass]
          exact ⟨Nat.le_add_right _ _, hfit, by dsimp only; omega⟩
        · cases hend
        · cases hend
      · refine ⟨fun pass hpass => absurd hpass List.not_mem_nil, fun pos' hend => ?_,
          fun _ hend => ?_⟩
        · cases hend
          exact hpos
        · cases hend
    · have hfirst : (pos + 8) % size64 = pos + 8 := Nat.mod_eq_of_lt (by unfold size64; omega)
      simp only [NetworkNode.passes, hfirst, if_neg fun hand : _ ∧ _ => hlong hand.1]
      refine ⟨fun pass hpass => absurd hpass List.not_mem_nil, fun pos' hend => ?_,
        fun _ hend => ?_⟩
      · cases hend
        exact hpos
      · cases hend

theorem passes_of_readLoop (lib : JsonLibrary) {r : List lib.Json × ℕ}
    (hsize : buf.length < 2 ^ 63) (hpos : pos ≤ buf.length)
    (h : readLoop lib buf fuel pos = some r) :
    (passes (fun _ range => (lib.parse ((buf.drop range.1).take (range.2 - range.1))).isSome) buf
      fuel k pos).2 = .done r.2 := by
  induction fuel generalizing k pos r with
  | zero => cases h
  | succ fuel ih =>
    have hlt := lengthAt_lt buf pos
    have hfirst : (pos + 8) % size64 = pos + 8 := Nat.mod_eq_of_lt (by unfold size64; omega)
    have hlength : Framing.leValue ((buf.drop pos).take 8) = lengthAt buf pos := rfl
    simp only [readLoop, hfirst, hlength] at h
    simp only [passes, hfirst]
    split_ifs at h with hlong hstop hback
    · rw [if_pos ⟨hlong, hstop⟩]
      have hlast : (pos + 8 + lengthAt buf pos) % size64 = pos + 8 + lengthAt buf pos := by
        by_contra hne
        have hwrap : size64 ≤ pos + 8 + lengthAt buf pos := by
          by_contra hfit
          exact hne (Nat.mod_eq_of_lt (not_le.mp hfit))
        rw [Nat.mod_eq_sub_mod hwrap, Nat.mod_eq_of_lt (by unfold size64; omega)] at hback
        unfold size64 at hback
        omega
      rw [hlast] at h hstop ⊢
      rw [Nat.add_sub_cancel_left]
      obtain ⟨msg, hmsg, hrest⟩ := Option.bind_eq_some_iff.mp h
      obtain ⟨r', hr', rfl⟩ := Option.map_eq_some_iff.mp hrest
      rw [hmsg, Option.isSome_some, if_pos rfl]
      have hend := @ih (k + 1) _ r' hstop hr'
      exact hend
    · cases h
      rw [if_neg fun hand => hstop hand.2]
    · cases h
      rw [if_neg fun hand => hlong hand.1]

end Passes

/-- Whatever has come in, the loop is robust exactly when no length wraps around. -/
theorem onUvRead_robust_iff (returns : ℕ → ℕ × ℕ → Bool) (rcvBuf data : List UInt8)
    (hsize : (rcvBuf ++ data).length < 2 ^ 63) :
    Robust returns (rcvBuf ++ data) ↔ BoundedLengths returns (rcvBuf ++ data) := by
  constructor
  · intro hrobust k pos hreached hlong
    by_contra hwrap
    obtain ⟨before, hbefore⟩ := hreached.passes hsize
    obtain ⟨pass, hpass, houtside⟩ := @passes_wraps returns _ 0 k pos hsize hlong (not_lt.mp hwrap)
    refine houtside (hrobust.inside (k + 1) pass ?_)
    rw [hbefore 1]
    exact List.mem_append_right _ hpass
  · intro hbounded
    refine ⟨⟨(rcvBuf ++ data).length + 1, fun fuel hfuel => ?_⟩, fun fuel => ?_, fun fuel => ?_⟩
    · exact (hbounded.passes hsize .start).2.2 (by omega)
    · exact (hbounded.passes hsize .start).1
    · exact (hbounded.passes hsize .start).2.1

theorem onUvRead_robust_true :
    Robust (fun _ _ => true) ([4, 0, 0] ++ [0, 0, 0, 0, 0, 116, 114, 117, 101]) := by
  refine (onUvRead_robust_iff _ _ _ (by decide)).mpr fun k pos hreached hlong => ?_
  have hlength : ([4, 0, 0] ++ [0, 0, 0, 0, 0, 116, 114, 117, 101] : List UInt8).length = 12 := rfl
  cases hreached with
  | start => decide
  | next _ _ _ => omega

def wrappingLength : List UInt8 := [248, 255, 255, 255, 255, 255, 255, 255]

theorem wrappingLength_hangs :
    passes (fun _ _ => true) ([] ++ wrappingLength) 3 0 0 =
        ([⟨0, 8, 0⟩, ⟨0, 8, 0⟩, ⟨0, 8, 0⟩], .fuel) ∧
      ∀ returns, ¬ Robust returns ([] ++ wrappingLength) := by
  refine ⟨by decide, fun returns hrobust => ?_⟩
  obtain ⟨pass, hpass, houtside⟩ :=
    @passes_wraps returns ([] ++ wrappingLength) 0 0 0 (by decide) (by decide) (by decide)
  exact houtside (hrobust.inside 1 pass hpass)

end NetworkNode

end FlareTrader
