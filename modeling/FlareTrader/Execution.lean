import Mathlib

/-! Finite executions of a partial step function under a condition on each
step, and the induction that carries an invariant along them. -/

namespace Execution

variable {σ α : Type*}

def run (step : σ → α → Option σ) : σ → List α → Option σ
  | s, [] => some s
  | s, a :: as => (step s a).bind fun s' => run step s' as

def Along (step : σ → α → Option σ) (ok : σ → α → Prop) : σ → List α → Prop
  | _, [] => True
  | s, a :: as => ok s a ∧ ∀ s', step s a = some s' → Along step ok s' as

def Reaches (step : σ → α → Option σ) (ok : σ → α → Prop) (s s' : σ) : Prop :=
  ∃ as, Along step ok s as ∧ run step s as = some s'

variable {step : σ → α → Option σ} {ok : σ → α → Prop}

theorem run_append (s : σ) (as bs : List α) :
    run step s (as ++ bs) = (run step s as).bind fun s' => run step s' bs := by
  induction as generalizing s with
  | nil => rfl
  | cons a as ih =>
    simp only [List.cons_append, run, Option.bind_assoc]
    exact Option.bind_congr fun s' _ => ih s'

theorem Along.append {s s' : σ} {as bs : List α} (ha : Along step ok s as)
    (hr : run step s as = some s') (hb : Along step ok s' bs) : Along step ok s (as ++ bs) := by
  induction as generalizing s with
  | nil =>
    cases hr
    exact hb
  | cons a as ih =>
    refine ⟨ha.1, fun t ht => ih (ha.2 t ht) ?_⟩
    simpa [run, ht] using hr

theorem Reaches.refl (s : σ) : Reaches step ok s s := ⟨[], trivial, rfl⟩

theorem Reaches.tail {s t u : σ} (h : Reaches step ok s t) (a : α) (ha : ok t a)
    (hs : step t a = some u) : Reaches step ok s u := by
  obtain ⟨as, hal, hrun⟩ := h
  refine ⟨as ++ [a], hal.append hrun ⟨ha, fun _ _ => trivial⟩, ?_⟩
  rw [run_append, hrun]
  simp [run, hs]

theorem Reaches.head {s t u : σ} {a : α} (ha : ok s a) (hs : step s a = some t)
    (h : Reaches step ok t u) : Reaches step ok s u := by
  obtain ⟨as, hal, hrun⟩ := h
  refine ⟨a :: as, ⟨ha, fun t' ht' => ?_⟩, ?_⟩
  · obtain rfl : t = t' := Option.some.inj (hs.symm.trans ht')
    exact hal
  · rw [run, hs]
    exact hrun

theorem Reaches.trans {s t u : σ} (h : Reaches step ok s t) (h' : Reaches step ok t u) :
    Reaches step ok s u := by
  obtain ⟨as, hal, hrun⟩ := h
  obtain ⟨bs, hbl, hrun'⟩ := h'
  refine ⟨as ++ bs, hal.append hrun hbl, ?_⟩
  rw [run_append, hrun]
  exact hrun'

theorem Reaches.mono {ok' : σ → α → Prop} {s t : σ} (h : Reaches step ok s t)
    (hok : ∀ s a, ok s a → ok' s a) : Reaches step ok' s t := by
  obtain ⟨as, hal, hrun⟩ := h
  refine ⟨as, ?_, hrun⟩
  clear hrun
  induction as generalizing s with
  | nil => trivial
  | cons a as ih => exact ⟨hok s a hal.1, fun s' hs' => ih (hal.2 s' hs')⟩

/-- What every permitted step preserves holds wherever an execution ends. -/
theorem Reaches.invariant {s s' : σ} (h : Reaches step ok s s') (P : σ → Prop)
    (hstep : ∀ t a t', P t → ok t a → step t a = some t' → P t') (hs : P s) : P s' := by
  obtain ⟨as, hal, hrun⟩ := h
  induction as generalizing s with
  | nil =>
    cases hrun
    exact hs
  | cons a as ih =>
    obtain ⟨t, ht, hrest⟩ := Option.bind_eq_some_iff.mp hrun
    exact ih (hstep s a t hs hal.1 ht) (hal.2 t ht) hrest

end Execution
