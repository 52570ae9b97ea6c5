import Mathlib

/-! The maximal runs of equal keys in a list, as they grow when the list is
extended at its end. -/

namespace Runs

variable {α κ : Type*} [DecidableEq κ] {key : α → κ}

def runsBy (key : α → κ) (l : List α) : List (List α) := l.splitBy fun a b => key a = key b

@[simp] theorem runsBy_nil (key : α → κ) : runsBy key [] = [] := rfl

@[simp] theorem runsBy_singleton (key : α → κ) (a : α) : runsBy key [a] = [[a]] := rfl

theorem exists_concat {l : List α} (h : l ≠ []) : ∃ runs run, runsBy key l = runs ++ [run] := by
  have hne : runsBy key l ≠ [] := List.splitBy_ne_nil.mpr h
  exact ⟨_, _, (List.dropLast_append_getLast hne).symm⟩

theorem ne_nil_of_mem {l run : List α} (h : run ∈ runsBy key l) : run ≠ [] :=
  List.ne_nil_of_mem_splitBy h

theorem key_eq {l run : List α} (h : run ∈ runsBy key l) {a b : α} (ha : a ∈ run) (hb : b ∈ run) :
    key a = key b := by
  have hchain : run.IsChain fun x y => key x = key y := by
    simpa only [decide_eq_true_eq] using List.isChain_of_mem_splitBy h
  have htrans : IsTrans α fun x y => key x = key y := ⟨fun _ _ _ => Eq.trans⟩
  have hpair := List.isChain_iff_pairwise.mp hchain
  have hsymm : Std.Symm fun x y => key x = key y := ⟨fun _ _ => Eq.symm⟩
  exact List.Pairwise.forall_of_forall (R := fun x y => key x = key y) (fun _ _ => rfl) hpair ha hb

theorem runsBy_concat_same {l run : List α} {runs : List (List α)}
    (h : runsBy key l = runs ++ [run]) {a x : α} (ha : a ∈ run) (hx : key a = key x) :
    runsBy key (l ++ [x]) = runs ++ [run ++ [x]] := by
  have hkey : ∀ b ∈ run, key b = key x := fun b hb =>
    (key_eq (h ▸ List.mem_append_right _ List.mem_cons_self) hb ha).trans hx
  obtain ⟨hflat, hnil, hchains, hbreaks⟩ := List.splitBy_eq_iff.mp h
  have hrun : run ≠ [] := List.ne_nil_of_mem ha
  apply List.splitBy_eq_iff.mpr
  refine ⟨by simp [hflat], ?_, fun m hm => ?_, ?_⟩
  · simp only [List.mem_append, List.mem_singleton, not_or] at hnil ⊢
    exact ⟨hnil.1, by simp⟩
  · rcases List.mem_append.mp hm with hm | hm
    · exact hchains m (List.mem_append_left _ hm)
    · rw [List.mem_singleton.mp hm]
      refine List.isChain_append.mpr ⟨hchains run (List.mem_append_right _ List.mem_cons_self),
        List.isChain_singleton x, fun b hb y hy => ?_⟩
      cases hy
      exact decide_eq_true (hkey b (List.mem_of_mem_getLast? hb))
  · obtain ⟨hruns, -, hbreak⟩ := List.isChain_append.mp hbreaks
    refine List.isChain_append.mpr ⟨hruns, List.isChain_singleton _, fun m hm y hy => ?_⟩
    obtain ⟨hne, hne', hdiffer⟩ := hbreak m hm run rfl
    cases hy
    exact ⟨hne, by simp, by rwa [List.head_append_of_ne_nil hne']⟩

theorem runsBy_concat_new {l run : List α} {runs : List (List α)}
    (h : runsBy key l = runs ++ [run]) {a x : α} (ha : a ∈ run) (hx : key a ≠ key x) :
    runsBy key (l ++ [x]) = runs ++ [run] ++ [[x]] := by
  have hmem : run ∈ runsBy key l := h ▸ List.mem_append_right _ List.mem_cons_self
  rw [← h]
  refine (List.splitBy_append_cons [] fun b hb => ?_).trans rfl
  apply decide_eq_false
  have hlast : b ∈ run := by
    have hflat : l = runs.flatten ++ run := by
      rw [← List.flatten_splitBy (fun a b => decide (key a = key b)) l]
      change (runsBy key l).flatten = _
      rw [h, List.flatten_concat]
    rw [hflat, List.getLast?_append_of_ne_nil _ (List.ne_nil_of_mem ha)] at hb
    exact List.mem_of_mem_getLast? hb
  rw [key_eq hmem hlast ha]
  exact hx

end Runs
