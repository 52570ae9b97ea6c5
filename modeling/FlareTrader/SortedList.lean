import Mathlib

/-! Splitting a sorted list at the end of a test. If the test is inherited
downwards along the order, the longest prefix that passes it is everything that
passes it. -/

namespace SortedList

variable {α : Type*} {r : α → α → Prop} {p : α → Bool} {l : List α}

theorem dropWhile_eq_filter (hl : l.Pairwise r) (hp : ∀ a b, r a b → p b = true → p a = true) :
    l.dropWhile p = l.filter fun x => !p x := by
  induction l with
  | nil => rfl
  | cons a l ih =>
    by_cases ha : p a = true
    · simp only [List.dropWhile_cons_of_pos ha, List.filter_cons, ha, Bool.not_true]
      exact ih hl.of_cons
    · have hall : ∀ b ∈ a :: l, (!p b) = true := by
        intro b hb
        rcases List.mem_cons.mp hb with rfl | hb
        · simpa using ha
        · have hb' := mt (hp a b (List.rel_of_pairwise_cons hl hb)) ha
          simpa using hb'
      rw [List.dropWhile_cons_of_neg ha, List.filter_eq_self.mpr hall]

theorem takeWhile_eq_filter (hl : l.Pairwise r) (hp : ∀ a b, r a b → p b = true → p a = true) :
    l.takeWhile p = l.filter p := by
  induction l with
  | nil => rfl
  | cons a l ih =>
    by_cases ha : p a = true
    · rw [List.takeWhile_cons_of_pos ha, List.filter_cons_of_pos ha, ih hl.of_cons]
    · have hnone : ∀ b ∈ a :: l, ¬ p b = true := by
        intro b hb
        rcases List.mem_cons.mp hb with rfl | hb
        · exact ha
        · exact mt (hp a b (List.rel_of_pairwise_cons hl hb)) ha
      rw [List.takeWhile_cons_of_neg ha, List.filter_eq_nil_iff.mpr hnone]

theorem of_mem_dropWhile (hl : l.Pairwise r) (hp : ∀ a b, r a b → p b = true → p a = true)
    {x : α} (hx : x ∈ l.dropWhile p) : p x = false := by
  rw [dropWhile_eq_filter hl hp] at hx
  simpa using (List.mem_filter.mp hx).2

theorem le_of_mem_take [Preorder α] (hl : l.Pairwise (· ≤ ·)) {i : ℕ} {t x : α}
    (ht : l[i]? = some t) (hx : x ∈ l.take (i + 1)) : x ≤ t := by
  obtain ⟨hi, rfl⟩ := List.getElem?_eq_some_iff.mp ht
  obtain ⟨j, hj, rfl⟩ := List.mem_iff_getElem.mp hx
  rw [List.getElem_take]
  simp only [List.length_take] at hj
  rcases Nat.lt_or_ge j i with hji | hji
  · exact List.pairwise_iff_getElem.mp hl j i _ hi hji
  · have hij : j = i := by omega
    subst hij
    exact le_rfl

end SortedList
