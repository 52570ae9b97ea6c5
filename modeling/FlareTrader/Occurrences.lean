import Mathlib

/-! The occurrences of a pattern in a list that are counted from the left, none of them
inside of the one before. -/

namespace Occurrences

variable {α : Type*} [DecidableEq α] {p s : List α}

/-- The places of the occurrences from the left; `inside` letters still belong to the one
before. -/
def places (p : List α) : ℕ → List α → List ℕ
  | _, [] => []
  | inside + 1, _ :: s => (places p inside s).map (· + 1)
  | 0, c :: s =>
    if p <+: c :: s then 0 :: (places p (p.length - 1) s).map (· + 1)
    else (places p 0 s).map (· + 1)

def occurrences (p s : List α) : List ℕ := places p 0 s

def EndsInside (p s : List α) : Prop :=
  s = [] ∨ ∃ i ∈ occurrences p s, i + p.length = s.length

instance (p s : List α) : Decidable (EndsInside p s) := inferInstanceAs (Decidable (_ ∨ _))

theorem places_drop (p : List α) (n : ℕ) (s : List α) :
    places p n s = (occurrences p (s.drop n)).map (· + n) := by
  induction n generalizing s with
  | zero => simp [occurrences]
  | succ n ih =>
    cases s with
    | nil => rfl
    | cons c s =>
      rw [places, ih s, List.map_map, List.drop_succ_cons]
      exact List.map_congr_left fun i _ => Nat.add_assoc i n 1

theorem occurrences_cons_of_stands (hp : p ≠ []) {c : α} (h : p <+: c :: s) :
    occurrences p (c :: s) =
      0 :: (occurrences p ((c :: s).drop p.length)).map (· + p.length) := by
  obtain ⟨n, hn⟩ := Nat.exists_eq_succ_of_ne_zero (List.length_pos_iff.mpr hp).ne'
  rw [occurrences, places, if_pos h, hn, Nat.succ_sub_one, places_drop, List.map_map,
    List.drop_succ_cons]
  rfl

theorem occurrences_cons_of_not {c : α} (h : ¬p <+: c :: s) :
    occurrences p (c :: s) = (occurrences p s).map (· + 1) := by
  rw [occurrences, places, if_neg h]
  rfl

/-- The first occurrence is the first place at which the pattern stands; the others are
counted behind it. -/
theorem occurrences_of_first (hp : p ≠ []) {n : ℕ} (hn : p <+: s.drop n)
    (hbefore : ∀ m < n, ¬p <+: s.drop m) :
    occurrences p s =
      n :: (occurrences p (s.drop (n + p.length))).map (· + (n + p.length)) := by
  induction n generalizing s with
  | zero =>
    cases s with
    | nil => exact absurd (List.prefix_nil.mp hn) hp
    | cons c s => simpa only [zero_add] using occurrences_cons_of_stands hp hn
  | succ n ih =>
    cases s with
    | nil => exact absurd (List.prefix_nil.mp hn) hp
    | cons c s =>
      have hrest := ih hn fun m hm => hbefore (m + 1) (Nat.succ_lt_succ hm)
      have hdrop : (c :: s).drop (n + 1 + p.length) = s.drop (n + p.length) := by
        rw [Nat.add_right_comm, List.drop_succ_cons]
      rw [occurrences_cons_of_not (hbefore 0 n.succ_pos), hrest, List.map_cons, List.map_map, hdrop]
      congr 1
      exact List.map_congr_left fun i _ => by simp only [Function.comp_apply]; omega

theorem occurrences_of_nowhere (h : ∀ n, ¬p <+: s.drop n) : occurrences p s = [] := by
  induction s with
  | nil => rfl
  | cons c s ih =>
    rw [occurrences_cons_of_not (h 0), ih fun n => h (n + 1)]
    rfl

theorem endsInside_of_first (hp : p ≠ []) {n : ℕ} (hn : p <+: s.drop n)
    (hbefore : ∀ m < n, ¬p <+: s.drop m) :
    EndsInside p s ↔ EndsInside p (s.drop (n + p.length)) := by
  have hlength := List.length_pos_iff.mpr hp
  have hle : n + p.length ≤ s.length := by
    have hdrop := hn.length_le
    rw [List.length_drop] at hdrop
    omega
  have hsome : s ≠ [] := by
    rintro rfl
    rw [List.length_nil] at hle
    omega
  rw [EndsInside, EndsInside, occurrences_of_first hp hn hbefore, or_iff_right hsome,
    List.exists_mem_cons_iff, List.drop_eq_nil_iff, List.length_drop]
  apply or_congr
  · omega
  · constructor
    · rintro ⟨i, hi, hend⟩
      obtain ⟨j, hj, rfl⟩ := List.mem_map.mp hi
      exact ⟨j, hj, by omega⟩
    · rintro ⟨j, hj, hend⟩
      exact ⟨j + (n + p.length), List.mem_map_of_mem hj, by omega⟩

theorem endsInside_of_nowhere (h : ∀ n, ¬p <+: s.drop n) : EndsInside p s ↔ s = [] := by
  rw [EndsInside, occurrences_of_nowhere h]
  simp

theorem mem_map_add {l : List ℕ} {m n : ℕ} : m + n ∈ l.map (· + n) ↔ m ∈ l := by
  simp

def Counted (p s : List α) (i : ℕ) : Prop :=
  p <+: s.drop i ∧ ∀ j ∈ occurrences p s, j < i → j + p.length ≤ i

theorem not_counted_nil (hp : p ≠ []) (i : ℕ) : ¬Counted p [] i := by
  intro h
  have hnil := h.1
  rw [List.drop_nil] at hnil
  exact hp (List.prefix_nil.mp hnil)

section Cons

variable {c : α} {i m : ℕ}

theorem counted_inside (hp : p ≠ []) (h : p <+: c :: s) (hi : i < p.length) :
    Counted p (c :: s) i ↔ i = 0 := by
  rw [Counted, occurrences_cons_of_stands hp h, List.forall_mem_cons, List.forall_mem_map]
  constructor
  · rintro ⟨-, hfirst, -⟩
    by_contra hne
    have hover := hfirst (Nat.pos_of_ne_zero hne)
    omega
  · rintro rfl
    exact ⟨h, fun hlt => absurd hlt (lt_irrefl _), fun j _ hj => absurd hj (by omega)⟩

theorem counted_behind (hp : p ≠ []) (h : p <+: c :: s) :
    Counted p (c :: s) (m + p.length) ↔ Counted p ((c :: s).drop p.length) m := by
  rw [Counted, Counted, occurrences_cons_of_stands hp h, List.forall_mem_cons, List.forall_mem_map,
    List.drop_drop, Nat.add_comm m]
  refine and_congr_right fun _ => ?_
  rw [and_iff_right fun _ => by omega]
  exact forall₂_congr fun j _ => by omega

theorem counted_succ (h : ¬p <+: c :: s) : Counted p (c :: s) (m + 1) ↔ Counted p s m := by
  rw [Counted, Counted, occurrences_cons_of_not h, List.drop_succ_cons, List.forall_mem_map]
  refine and_congr_right fun _ => ?_
  exact forall₂_congr fun j _ => by omega

end Cons

theorem mem_occurrences (hp : p ≠ []) (i : ℕ) : i ∈ occurrences p s ↔ Counted p s i := by
  have hlength : 0 < p.length := List.length_pos_iff.mpr hp
  induction hn : s.length using Nat.strong_induction_on generalizing s i with
  | _ n ih =>
    cases s with
    | nil => exact iff_of_false List.not_mem_nil (not_counted_nil hp i)
    | cons c s =>
      rw [List.length_cons] at hn
      by_cases h : p <+: c :: s
      · rw [occurrences_cons_of_stands hp h, List.mem_cons]
        by_cases hi : i < p.length
        · rw [counted_inside hp h hi, or_iff_left]
          intro hmem
          obtain ⟨j, -, rfl⟩ := List.mem_map.mp hmem
          omega
        · obtain ⟨m, rfl⟩ := Nat.exists_eq_add_of_le' (not_lt.mp hi)
          have hshort : ((c :: s).drop p.length).length < n := by
            rw [List.length_drop, List.length_cons]
            omega
          rw [counted_behind hp h, mem_map_add, or_iff_right (by omega)]
          exact ih _ hshort m rfl
      · rw [occurrences_cons_of_not h]
        cases i with
        | zero => exact iff_of_false (by simp) fun hcounted => h hcounted.1
        | succ i =>
          rw [counted_succ h, mem_map_add]
          exact ih s.length (by omega) i rfl

section Letter

variable {c : α}

theorem mem_occurrences_singleton (i : ℕ) : i ∈ occurrences [c] s ↔ s[i]? = some c := by
  have hbehind : ∀ j ∈ occurrences [c] s, j < i → j + [c].length ≤ i := fun j _ hj => hj
  rw [mem_occurrences (List.cons_ne_nil c []), Counted, and_iff_left hbehind,
    List.singleton_prefix_iff_head?_eq_some, List.head?_drop]

theorem length_occurrences_singleton : (occurrences [c] s).length = s.count c := by
  induction s with
  | nil => rfl
  | cons a s ih =>
    by_cases h : c = a
    · rw [occurrences_cons_of_stands (List.cons_ne_nil c []) (by simp [h]), List.length_cons,
        List.length_map, h, List.count_cons_self, ← h]
      exact congrArg (· + 1) ih
    · rw [occurrences_cons_of_not (by simp [h]), List.length_map, ih,
        List.count_cons_of_ne (Ne.symm h)]

theorem endsInside_singleton : EndsInside [c] s ↔ s = [] ∨ s.getLast? = some c := by
  rw [EndsInside, List.getLast?_eq_getElem?]
  refine or_congr_right' fun hsome => ?_
  have hlength := List.length_pos_iff.mpr hsome
  constructor
  · rintro ⟨i, hi, hend⟩
    rw [mem_occurrences_singleton] at hi
    rwa [← hend, List.length_singleton, Nat.add_sub_cancel]
  · intro hlast
    exact ⟨s.length - 1, (mem_occurrences_singleton _).mpr hlast, Nat.sub_add_cancel hlength⟩

end Letter

end Occurrences
