import Mathlib

/-! Tokens in places. Where a step hands a token on to a place without one, the places are
permuted, and every token keeps the number of places that hold it. -/

namespace Custody

variable {π τ : Type*}

def Rearranged (before after : π → Option τ) : Prop := ∃ σ : Equiv.Perm π, after = before ∘ σ

variable {before after later : π → Option τ}

theorem Rearranged.refl (content : π → Option τ) : Rearranged content content := ⟨1, rfl⟩

theorem Rearranged.trans (h : Rearranged before after) (h' : Rearranged after later) :
    Rearranged before later := by
  obtain ⟨σ, rfl⟩ := h
  obtain ⟨σ', rfl⟩ := h'
  exact ⟨σ * σ', rfl⟩

theorem Rearranged.existsUnique (h : Rearranged before after) {token : τ}
    (hone : ∃! place, before place = some token) : ∃! place, after place = some token := by
  obtain ⟨σ, rfl⟩ := h
  obtain ⟨place, hplace, hunique⟩ := hone
  refine ⟨σ.symm place, ?_, fun other hother => ?_⟩
  · simp [hplace]
  · rw [← hunique (σ other) hother, Equiv.symm_apply_apply]

theorem Rearranged.exists_place (h : Rearranged before after) {place : π} {token : τ}
    (hplace : after place = some token) : ∃ place', before place' = some token := by
  obtain ⟨σ, rfl⟩ := h
  exact ⟨σ place, hplace⟩

variable [DecidableEq π]

def handOver (src dst : π) (content : π → Option τ) : π → Option τ :=
  Function.update (Function.update content src none) dst (content src)

theorem rearranged_handOver {content : π → Option τ} (src : π) {dst : π} (h : content dst = none) :
    Rearranged content (handOver src dst content) := by
  refine ⟨Equiv.swap src dst, funext fun place => ?_⟩
  rw [handOver, Function.comp_apply]
  by_cases hdst : place = dst
  · rw [hdst, Function.update_self, Equiv.swap_apply_right]
  · rw [Function.update_of_ne hdst]
    by_cases hsrc : place = src
    · rw [hsrc, Function.update_self, Equiv.swap_apply_left, h]
    · rw [Function.update_of_ne hsrc, Equiv.swap_apply_of_ne_of_ne hsrc hdst]

end Custody
