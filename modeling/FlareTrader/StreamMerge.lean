import Mathlib

/-! Several streams merged by a key: the smallest head is taken, the first of those with the
same key. -/

namespace StreamMerge

variable {α κ : Type*} [LinearOrder κ] {key : α → κ}

/-- The stream at the index has the smallest head, and none before it has one as small. -/
structure Least (key : α → κ) (streams : List (List α)) (i : ℕ) (x : α) : Prop where
  head : ∃ s, streams[i]? = some (x :: s)
  le : ∀ (j : ℕ) (y : α) (s : List α), streams[j]? = some (y :: s) → key x ≤ key y
  first : ∀ (j : ℕ) (y : α) (s : List α), streams[j]? = some (y :: s) → j < i → key x < key y

/-- The output when the least head is taken until all streams are empty. -/
inductive Merged (key : α → κ) : List (List α) → List α → Prop where
  | done {streams : List (List α)} (h : ∀ s ∈ streams, s = []) : Merged key streams []
  | next {streams : List (List α)} {i : ℕ} {x : α} {s out : List α}
    (hleast : Least key streams i x) (hs : streams[i]? = some (x :: s))
    (hrest : Merged key (streams.set i s) out) : Merged key streams (x :: out)

section Pick

def better (key : α → κ) (best : Option (ℕ × α)) (i : ℕ) (x : α) : Option (ℕ × α) :=
  match best with
  | none => some (i, x)
  | some (j, y) => if key x < key y then some (i, x) else some (j, y)

def pick (key : α → κ) : ℕ → Option (ℕ × α) → List (List α) → Option (ℕ × α)
  | _, best, [] => best
  | i, best, [] :: streams => pick key (i + 1) best streams
  | i, best, (x :: _) :: streams => pick key (i + 1) (better key best i x) streams

def Best (key : α → κ) (streams : List (List α)) : Option (ℕ × α) → Prop
  | none => ∀ s ∈ streams, s = []
  | some (i, x) => Least key streams i x

variable {streams front : List (List α)} {best : Option (ℕ × α)} {i : ℕ} {x : α} {s out : List α}

theorem getElem?_snoc {l : List (List α)} {a b : List α} {j : ℕ} (h : (l ++ [a])[j]? = some b) :
    l[j]? = some b ∨ j = l.length ∧ b = a := by
  rcases Nat.lt_or_ge j l.length with hj | hj
  · exact Or.inl (List.getElem?_append_left hj ▸ h)
  · rw [List.getElem?_append_right hj, List.getElem?_singleton] at h
    split_ifs at h with hzero
    exact Or.inr ⟨by omega, (Option.some.inj h).symm⟩

theorem Least.lt_length (h : Least key front i x) : i < front.length := by
  obtain ⟨s, hs⟩ := h.head
  exact (List.getElem?_eq_some_iff.mp hs).1

theorem Best.snoc_nil (h : Best key front best) : Best key (front ++ [[]]) best := by
  cases best with
  | none =>
    intro s hs
    rcases List.mem_append.mp hs with hs | hs
    · exact h s hs
    · exact List.mem_singleton.mp hs
  | some b =>
    have hleast : Least key front b.1 b.2 := h
    obtain ⟨s, hs⟩ := hleast.head
    have hold : ∀ (j : ℕ) (y : α) (t : List α), (front ++ [[]])[j]? = some (y :: t) →
        front[j]? = some (y :: t) := by
      intro j y t ht
      rcases getElem?_snoc ht with ht | ⟨-, hnil⟩
      · exact ht
      · cases hnil
    exact ⟨⟨s, by rw [List.getElem?_append_left hleast.lt_length, hs]⟩,
      fun j y t ht => hleast.le j y t (hold j y t ht),
      fun j y t ht => hleast.first j y t (hold j y t ht)⟩

theorem Best.snoc_cons (h : Best key front best) (x : α) (s : List α) :
    Best key (front ++ [x :: s]) (better key best front.length x) := by
  have hnew : (front ++ [x :: s])[front.length]? = some (x :: s) := List.getElem?_concat_length
  cases best with
  | none =>
    have hnone : ∀ (j : ℕ) (y : α) (t : List α), front[j]? ≠ some (y :: t) := by
      intro j y t ht
      cases h (y :: t) (List.mem_of_getElem? ht)
    refine ⟨⟨s, hnew⟩, fun j y t ht => ?_, fun j y t ht hj => ?_⟩
    · rcases getElem?_snoc ht with ht | ⟨-, heq⟩
      · exact absurd ht (hnone j y t)
      · cases heq
        exact le_rfl
    · rw [List.getElem?_append_left hj] at ht
      exact absurd ht (hnone j y t)
  | some b =>
    obtain ⟨i, b⟩ := b
    have hleast : Least key front i b := h
    rw [better]
    split_ifs with hlt
    · refine ⟨⟨s, hnew⟩, fun j y t ht => ?_, fun j y t ht hj => ?_⟩
      · rcases getElem?_snoc ht with ht | ⟨-, heq⟩
        · exact hlt.le.trans (hleast.le j y t ht)
        · cases heq
          exact le_rfl
      · rw [List.getElem?_append_left hj] at ht
        exact hlt.trans_le (hleast.le j y t ht)
    · obtain ⟨u, hu⟩ := hleast.head
      have hi := hleast.lt_length
      refine ⟨⟨u, by rw [List.getElem?_append_left hi, hu]⟩, fun j y t ht => ?_,
        fun j y t ht hj => ?_⟩
      · rcases getElem?_snoc ht with ht | ⟨-, heq⟩
        · exact hleast.le j y t ht
        · cases heq
          exact not_lt.mp hlt
      · rw [List.getElem?_append_left (hj.trans hi)] at ht
        exact hleast.first j y t ht hj

theorem pick_best (h : Best key front best) :
    Best key (front ++ streams) (pick key front.length best streams) := by
  induction streams generalizing front best with
  | nil =>
    rw [List.append_nil]
    exact h
  | cons s streams ih =>
    have hsplit : front ++ s :: streams = front ++ [s] ++ streams := by simp
    have hlength : front.length + 1 = (front ++ [s]).length := by simp
    rw [hsplit]
    cases s with
    | nil =>
      rw [pick, hlength]
      exact ih h.snoc_nil
    | cons x s =>
      rw [pick, hlength]
      exact ih (h.snoc_cons x s)

theorem pick_spec (key : α → κ) (streams : List (List α)) :
    Best key streams (pick key 0 none streams) := by
  have hnone : Best key ([] : List (List α)) none := fun _ h => absurd h List.not_mem_nil
  exact pick_best hnone

end Pick

section Merged

variable {streams : List (List α)} {i : ℕ} {x : α} {s out : List α}

theorem flatten_perm_set (hs : streams[i]? = some (x :: s)) :
    streams.flatten.Perm (x :: (streams.set i s).flatten) := by
  obtain ⟨hi, hget⟩ := List.getElem?_eq_some_iff.mp hs
  have hold : streams.flatten =
      (streams.take i).flatten ++ (x :: (s ++ (streams.drop (i + 1)).flatten)) := by
    rw [← List.cons_append, ← hget, ← List.flatten_cons, List.cons_getElem_drop_succ,
      ← List.flatten_append, List.take_append_drop]
  have hnew : (streams.set i s).flatten =
      (streams.take i).flatten ++ (s ++ (streams.drop (i + 1)).flatten) := by
    rw [List.set_eq_take_append_cons_drop, if_pos hi, List.flatten_append, List.flatten_cons]
  rw [hold, hnew]
  exact List.perm_middle

theorem Merged.perm (h : Merged key streams out) : out.Perm streams.flatten := by
  induction h with
  | done h =>
    rw [List.flatten_eq_nil_iff.mpr h]
  | next hleast hs hrest ih => exact (ih.cons _).trans (flatten_perm_set hs).symm

theorem Merged.sublist (h : Merged key streams out) {j : ℕ} {t : List α}
    (ht : streams[j]? = some t) : t.Sublist out := by
  induction h generalizing t with
  | done h =>
    rw [h t (List.mem_of_getElem? ht)]
  | @next streams i x s out hleast hs hrest ih =>
    rcases eq_or_ne i j with rfl | hij
    · rw [hs] at ht
      cases ht
      have hi := (List.getElem?_eq_some_iff.mp hs).1
      exact (ih (List.getElem?_set_self hi)).cons_cons x
    · exact (ih (by rw [List.getElem?_set_ne hij, ht])).cons x

theorem sorted_set (h : ∀ s ∈ streams, s.Pairwise fun a b => key a ≤ key b)
    (hs : streams[i]? = some (x :: s)) :
    ∀ t ∈ streams.set i s, t.Pairwise fun a b => key a ≤ key b := by
  intro t ht
  rcases List.mem_or_eq_of_mem_set ht with ht | rfl
  · exact h t ht
  · exact (List.pairwise_cons.mp (h _ (List.mem_of_getElem? hs))).2

theorem Merged.sorted (h : Merged key streams out)
    (hsorted : ∀ s ∈ streams, s.Pairwise fun a b => key a ≤ key b) :
    out.Pairwise fun a b => key a ≤ key b := by
  induction h with
  | done h => exact List.Pairwise.nil
  | @next streams i x s out hleast hs hrest ih =>
    refine List.pairwise_cons.mpr ⟨fun y hy => ?_, ih (sorted_set hsorted hs)⟩
    have hmem : y ∈ streams.flatten :=
      (flatten_perm_set hs).mem_iff.mpr (List.mem_cons_of_mem _ (hrest.perm.mem_iff.mp hy))
    obtain ⟨t, ht, hyt⟩ := List.mem_flatten.mp hmem
    obtain ⟨j, hj⟩ := List.mem_iff_getElem?.mp ht
    cases t with
    | nil => cases hyt
    | cons z t =>
      have hxz := hleast.le j z t hj
      rcases List.mem_cons.mp hyt with rfl | hyt
      · exact hxz
      · exact hxz.trans ((List.pairwise_cons.mp (hsorted _ ht)).1 y hyt)

end Merged

end StreamMerge
