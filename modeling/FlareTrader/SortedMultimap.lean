import Mathlib

/-! Multimaps as sorted association lists. A new entry goes behind those with its key. -/

structure SortedMultimap (κ β : Type*) [LinearOrder κ] where
  entries : List (κ × β)
  sorted : entries.Pairwise fun a b => a.1 ≤ b.1

namespace SortedMultimap

variable {κ β : Type*} [LinearOrder κ]

def empty : SortedMultimap κ β := ⟨[], .nil⟩

instance : Inhabited (SortedMultimap κ β) := ⟨empty⟩

def front? (m : SortedMultimap κ β) : Option ((κ × β) × SortedMultimap κ β) :=
  match m with
  | ⟨[], _⟩ => none
  | ⟨e :: es, h⟩ => some (e, ⟨es, h.of_cons⟩)

def insertEntry (k : κ) (v : β) : List (κ × β) → List (κ × β)
  | [] => [(k, v)]
  | e :: es => if k < e.1 then (k, v) :: e :: es else e :: insertEntry k v es

theorem insertEntry_perm (k : κ) (v : β) (l : List (κ × β)) :
    (insertEntry k v l).Perm ((k, v) :: l) := by
  induction l with
  | nil => rfl
  | cons e es ih =>
    simp only [insertEntry]
    split_ifs
    · rfl
    · exact (ih.cons e).trans (List.Perm.swap _ _ _)

theorem insertEntry_sorted {k : κ} {v : β} {l : List (κ × β)}
    (hl : l.Pairwise fun a b => a.1 ≤ b.1) :
    (insertEntry k v l).Pairwise fun a b => a.1 ≤ b.1 := by
  induction l with
  | nil => exact List.pairwise_singleton _ _
  | cons e es ih =>
    have hrest : ∀ b ∈ es, e.1 ≤ b.1 := fun b hb => List.rel_of_pairwise_cons hl hb
    simp only [insertEntry]
    split_ifs with hlt
    · refine List.pairwise_cons.mpr ⟨fun b hb => ?_, hl⟩
      rcases List.mem_cons.mp hb with rfl | hb
      · exact hlt.le
      · exact hlt.le.trans (hrest b hb)
    · refine List.pairwise_cons.mpr ⟨fun b hb => ?_, ih hl.of_cons⟩
      rcases List.mem_cons.mp ((insertEntry_perm k v es).mem_iff.mp hb) with rfl | hb
      · exact not_lt.mp hlt
      · exact hrest b hb

def emplace (m : SortedMultimap κ β) (k : κ) (v : β) : SortedMultimap κ β :=
  ⟨insertEntry k v m.entries, insertEntry_sorted m.sorted⟩

variable {m rest : SortedMultimap κ β} {e : κ × β}

theorem emplace_perm (m : SortedMultimap κ β) (k : κ) (v : β) :
    (m.emplace k v).entries.Perm ((k, v) :: m.entries) :=
  insertEntry_perm k v m.entries

theorem mem_emplace {k : κ} {v : β} : e ∈ (m.emplace k v).entries ↔ e = (k, v) ∨ e ∈ m.entries := by
  rw [(m.emplace_perm k v).mem_iff, List.mem_cons]

theorem front?_eq_none : m.front? = none ↔ m.entries = [] := by
  obtain ⟨l, hl⟩ := m
  cases l <;> simp [front?]

theorem front?_eq_some : m.front? = some (e, rest) ↔ m.entries = e :: rest.entries := by
  obtain ⟨l, hl⟩ := m
  obtain ⟨l', hl'⟩ := rest
  cases l <;> simp [front?]

theorem front_le (h : m.front? = some (e, rest)) {e' : κ × β} (he' : e' ∈ m.entries) :
    e.1 ≤ e'.1 := by
  have hentries := front?_eq_some.mp h
  have hsorted := m.sorted
  rw [hentries] at hsorted he'
  rcases List.mem_cons.mp he' with rfl | hmem
  · exact le_rfl
  · exact List.rel_of_pairwise_cons hsorted hmem

end SortedMultimap
