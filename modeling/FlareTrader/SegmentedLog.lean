import Mathlib

/-! A log in segments of which only the last grows, and positions in it that stay what they
are while it grows. -/

namespace SegmentedLog

variable {α : Type*}

def upTo (segments : List (List α)) (i k : ℕ) : List α :=
  (segments.take i).flatten ++ ((segments[i]?).getD []).take k

/-- Segments are added behind the last, and entries behind the last of that segment. -/
structure Grown (old new : List (List α)) : Prop where
  length_le : old.length ≤ new.length
  same : ∀ i : ℕ, i + 1 < old.length → new[i]? = old[i]?
  longer : ∀ (i : ℕ) (s : List α), old[i]? = some s → ∃ s', new[i]? = some s' ∧ s <+: s'

variable {old new new' : List (List α)} {i k : ℕ} {s : List α} {x : α}

theorem Grown.refl (segments : List (List α)) : Grown segments segments :=
  ⟨le_rfl, fun _ _ => rfl, fun _ s hs => ⟨s, hs, List.prefix_refl s⟩⟩

theorem Grown.trans (h : Grown old new) (h' : Grown new new') : Grown old new' where
  length_le := h.length_le.trans h'.length_le
  same := fun i hi => (h'.same i (hi.trans_le h.length_le)).trans (h.same i hi)
  longer := by
    intro i s hs
    obtain ⟨t, ht, hst⟩ := h.longer i s hs
    obtain ⟨t', ht', htt⟩ := h'.longer i t ht
    exact ⟨t', ht', hst.trans htt⟩

theorem Grown.concat (segments : List (List α)) (s : List α) :
    Grown segments (segments ++ [s]) where
  length_le := by simp
  same := fun _ hi => List.getElem?_append_left (by omega)
  longer := by
    intro i t ht
    obtain ⟨hi, -⟩ := List.getElem?_eq_some_iff.mp ht
    exact ⟨t, by rw [List.getElem?_append_left hi, ht], List.prefix_refl t⟩

theorem Grown.setLast (hs : old[i]? = some s) (hlast : i + 1 = old.length) (more : List α) :
    Grown old (old.set i (s ++ more)) where
  length_le := (List.length_set).ge
  same := fun j hj => List.getElem?_set_ne (by omega)
  longer := by
    intro j t ht
    rw [List.getElem?_set]
    split_ifs with hij hi
    · subst hij
      rw [hs] at ht
      cases ht
      exact ⟨s ++ more, rfl, List.prefix_append s more⟩
    · omega
    · exact ⟨t, ht, List.prefix_refl t⟩

@[simp] theorem upTo_zero (segments : List (List α)) : upTo segments 0 0 = [] := rfl

theorem upTo_prefix (segments : List (List α)) (i k : ℕ) :
    upTo segments i k <+: segments.flatten := by
  cases hs : segments[i]? with
  | none =>
    have hi : segments.length ≤ i := List.getElem?_eq_none_iff.mp hs
    rw [upTo, hs, Option.getD_none, List.take_nil, List.append_nil, List.take_of_length_le hi]
  | some s =>
    obtain ⟨hi, rfl⟩ := List.getElem?_eq_some_iff.mp hs
    have hsplit : segments.flatten =
        (segments.take i).flatten ++ (segments[i] ++ (segments.drop (i + 1)).flatten) := by
      rw [← List.flatten_cons, List.cons_getElem_drop_succ, ← List.flatten_append,
        List.take_append_drop]
    rw [upTo, hs, Option.getD_some, hsplit]
    exact (List.prefix_append_right_inj _).mpr
      ((List.take_prefix _ _).trans (List.prefix_append _ _))

theorem upTo_succ (hs : old[i]? = some s) (hk : k < s.length) :
    upTo old i (k + 1) = upTo old i k ++ [s[k]] := by
  rw [upTo, upTo, hs, Option.getD_some, List.append_assoc, List.take_succ_eq_append_getElem hk]

theorem upTo_length (hs : old[i]? = some s) : upTo old i s.length = upTo old (i + 1) 0 := by
  obtain ⟨hi, rfl⟩ := List.getElem?_eq_some_iff.mp hs
  rw [upTo, upTo, hs, Option.getD_some, List.take_length, List.take_zero, List.append_nil,
    List.take_succ_eq_append_getElem hi, List.flatten_append, List.flatten_singleton]

theorem upTo_last (hs : old[i]? = some s) (hlast : i + 1 = old.length) :
    upTo old i s.length = old.flatten := by
  rw [upTo_length hs, upTo, List.take_zero, List.append_nil, hlast, List.take_length]

theorem Grown.take_eq (h : Grown old new) (hi : i < old.length) : new.take i = old.take i := by
  apply List.ext_getElem?
  intro j
  rw [List.getElem?_take, List.getElem?_take]
  split_ifs with hj
  · exact h.same j (by omega)
  · rfl

theorem Grown.upTo_eq (h : Grown old new) (hs : old[i]? = some s) (hk : k ≤ s.length) :
    upTo new i k = upTo old i k := by
  obtain ⟨s', hs', more, rfl⟩ := h.longer i s hs
  rw [upTo, upTo, hs, hs', Option.getD_some, Option.getD_some,
    h.take_eq (List.getElem?_eq_some_iff.mp hs).1, List.take_append_of_le_length hk]

theorem Grown.flatten_prefix (h : Grown old new) : old.flatten <+: new.flatten := by
  rcases Nat.eq_zero_or_pos old.length with hzero | hpos
  · rw [List.length_eq_zero_iff.mp hzero]
    exact List.nil_prefix
  · have hs : old[old.length - 1]? = some old[old.length - 1] := List.getElem?_eq_getElem (by omega)
    rw [← upTo_last hs (by omega), ← h.upTo_eq hs le_rfl]
    exact upTo_prefix _ _ _

theorem flatten_setLast (hs : old[i]? = some s) (hlast : i + 1 = old.length) (more : List α) :
    (old.set i (s ++ more)).flatten = old.flatten ++ more := by
  obtain ⟨hi, rfl⟩ := List.getElem?_eq_some_iff.mp hs
  have hsplit := List.take_append_drop i old
  have hdrop : old.drop i = [old[i]] := by
    rw [List.drop_eq_getElem_cons hi, List.drop_of_length_le hlast.ge]
  have hset : old.set i (old[i] ++ more) = old.take i ++ [old[i] ++ more] := by
    rw [List.set_eq_take_append_cons_drop, if_pos hi, List.drop_of_length_le hlast.ge]
  rw [hset, List.flatten_append, List.flatten_singleton]
  conv_rhs => rw [← hsplit, hdrop, List.flatten_append, List.flatten_singleton, List.append_assoc]

end SegmentedLog
