import Mathlib

/-! Running weighted means. A weight and a mean are enough to take in further
values one by one: what counts of the values taken in is their weighted sum, so
neither their order nor the way a weight is split up matters. -/

/-- The total weight of the values taken in so far, and their mean. -/
@[ext] structure Lot (K : Type*) where
  weight : K
  mean : K
  deriving DecidableEq

namespace Lot

section Field

variable {K : Type*} [Field K] {l l' : Lot K} {v w x y : K}

def mass (l : Lot K) : K := l.weight * l.mean

def add (w x : K) (l : Lot K) : Lot K where
  weight := l.weight + w
  mean := (l.mass + w * x) / (l.weight + w)

theorem mean_eq_div (h : l.weight ≠ 0) : l.mean = l.mass / l.weight :=
  (mul_div_cancel_left₀ l.mean h).symm

theorem mass_add (h : l.weight + w ≠ 0) : (l.add w x).mass = l.mass + w * x :=
  mul_div_cancel₀ _ h

theorem add_add (h : l.weight + v ≠ 0) :
    (l.add v x).add w y =
      ⟨l.weight + v + w, (l.mass + v * x + w * y) / (l.weight + v + w)⟩ := by
  rw [add, mass_add h]
  rfl

theorem add_add_self (h : l.weight + v ≠ 0) : (l.add v x).add w x = l.add (v + w) x := by
  rw [add_add h, add, add_mul, add_assoc l.weight, add_assoc l.mass]

theorem add_swap (hv : l.weight + v ≠ 0) (hw : l.weight + w ≠ 0) :
    (l.add v x).add w y = (l.add w y).add v x := by
  rw [add_add hv, add_add hw, add_right_comm l.weight, add_right_comm l.mass]

def addAll (xs : List (K × K)) (l : Lot K) : Lot K := xs.foldl (fun l x => l.add x.1 x.2) l

theorem weight_addAll (xs : List (K × K)) (l : Lot K) :
    (l.addAll xs).weight = l.weight + (xs.map Prod.fst).sum := by
  induction xs generalizing l with
  | nil => exact (add_zero l.weight).symm
  | cons x xs ih =>
    rw [List.map_cons, List.sum_cons, ← add_assoc]
    exact ih (l.add x.1 x.2)

end Field

section Ordered

variable {K : Type*} [Field K] [LinearOrder K] [IsStrictOrderedRing K]

theorem mass_addAll {xs : List (K × K)} (hxs : ∀ x ∈ xs, 0 < x.1) {l : Lot K}
    (hl : 0 ≤ l.weight) : (l.addAll xs).mass = l.mass + (xs.map fun x => x.1 * x.2).sum := by
  induction xs generalizing l with
  | nil => exact (add_zero l.mass).symm
  | cons x xs ih =>
    have hpos : 0 < l.weight + x.1 := add_pos_of_nonneg_of_pos hl (hxs x List.mem_cons_self)
    have hrest := ih (fun y hy => hxs y (List.mem_cons_of_mem x hy)) (l := l.add x.1 x.2) hpos.le
    rw [mass_add hpos.ne', add_assoc] at hrest
    rw [List.map_cons, List.sum_cons]
    exact hrest

theorem mean_addAll {xs : List (K × K)} (hne : xs ≠ []) (hxs : ∀ x ∈ xs, 0 < x.1) {l : Lot K}
    (hl : l.weight = 0) :
    (l.addAll xs).mean = (xs.map fun x => x.1 * x.2).sum / (xs.map Prod.fst).sum := by
  have hweight : (l.addAll xs).weight = (xs.map Prod.fst).sum := by
    rw [weight_addAll, hl, zero_add]
  have hpos : 0 < (xs.map Prod.fst).sum := by
    apply List.sum_pos
    · intro w hw
      obtain ⟨x, hx, rfl⟩ := List.mem_map.mp hw
      exact hxs x hx
    · rwa [ne_eq, List.map_eq_nil_iff]
  have hmass : l.mass = 0 := by rw [mass, hl, zero_mul]
  rw [mean_eq_div (hweight ▸ hpos.ne'), mass_addAll hxs hl.ge, hmass, zero_add, hweight]

end Ordered

end Lot
