import FlareTrader.SortedList

/-! Finite maps as sorted association lists. The key order is a parameter, so
one structure serves maps that iterate upwards and downwards. Membership of a
pair in the entry list is the normal form: every operation is described by it,
and sums over the values follow from permutations of the entries. -/

structure SortedMap (κ β : Type*) (r : κ → κ → Prop) where
  entries : List (κ × β)
  sorted : entries.Pairwise fun a b => r a.1 b.1

namespace SortedMap

variable {κ β : Type*} {r : κ → κ → Prop}

def empty : SortedMap κ β r := ⟨[], .nil⟩

instance : Inhabited (SortedMap κ β r) := ⟨empty⟩

def keys (m : SortedMap κ β r) : List κ := m.entries.map Prod.fst
def values (m : SortedMap κ β r) : List β := m.entries.map Prod.snd

@[ext] theorem ext {m m' : SortedMap κ β r} (h : m.entries = m'.entries) : m = m' := by
  cases m
  cases m'
  simpa using h

def filter (p : κ × β → Bool) (m : SortedMap κ β r) : SortedMap κ β r :=
  ⟨m.entries.filter p, m.sorted.filter p⟩

def dropWhile (p : κ × β → Bool) (m : SortedMap κ β r) : SortedMap κ β r :=
  ⟨m.entries.dropWhile p, m.sorted.sublist (List.dropWhile_sublist p)⟩

@[simp] theorem entries_empty : (empty : SortedMap κ β r).entries = [] := rfl

@[simp] theorem mem_filter {p : κ × β → Bool} {m : SortedMap κ β r} {e : κ × β} :
    e ∈ (m.filter p).entries ↔ e ∈ m.entries ∧ p e = true := List.mem_filter

theorem of_mem_dropWhile {p : κ → Bool} (hp : ∀ a b, r a b → p b = true → p a = true)
    {m : SortedMap κ β r} {e : κ × β} (he : e ∈ (m.dropWhile fun x => p x.1).entries) :
    p e.1 = false :=
  SortedList.of_mem_dropWhile m.sorted (fun a b => hp a.1 b.1) he

section Keys

variable [Std.Irrefl r]

theorem keys_nodup (m : SortedMap κ β r) : m.keys.Nodup := by
  rw [keys, List.Nodup, List.pairwise_map]
  refine m.sorted.imp fun {a b} h (he : a.1 = b.1) => ?_
  rw [he] at h
  exact irrefl_of r b.1 h

theorem entries_nodup (m : SortedMap κ β r) : m.entries.Nodup := m.keys_nodup.of_map _

theorem eq_of_mem {m : SortedMap κ β r} {k : κ} {v w : β}
    (hv : (k, v) ∈ m.entries) (hw : (k, w) ∈ m.entries) : v = w := by
  have h := List.inj_on_of_nodup_map m.keys_nodup hv hw rfl
  exact congrArg Prod.snd h

end Keys

section Lookup

variable [DecidableEq κ]

def find? (m : SortedMap κ β r) (k : κ) : Option β :=
  (m.entries.find? fun e => e.1 = k).map Prod.snd

def contains (m : SortedMap κ β r) (k : κ) : Bool := (m.find? k).isSome

def erase (m : SortedMap κ β r) (k : κ) : SortedMap κ β r := m.filter fun e => e.1 ≠ k

@[simp] theorem find?_empty (k : κ) : (empty : SortedMap κ β r).find? k = none := rfl

@[simp] theorem mem_erase {m : SortedMap κ β r} {k : κ} {e : κ × β} :
    e ∈ (m.erase k).entries ↔ e ∈ m.entries ∧ e.1 ≠ k := by
  simp [erase]

variable [Std.Irrefl r]

theorem find?_eq_some {m : SortedMap κ β r} {k : κ} {v : β} :
    m.find? k = some v ↔ (k, v) ∈ m.entries := by
  constructor
  · intro h
    obtain ⟨e, he, rfl⟩ := Option.map_eq_some_iff.mp h
    have hk : e.1 = k := by simpa using List.find?_some he
    have hm := List.mem_of_find?_eq_some he
    rwa [← hk]
  · intro h
    cases hf : m.entries.find? fun e => e.1 = k with
    | none =>
      have hn := List.find?_eq_none.mp hf (k, v) h
      simp at hn
    | some e =>
      have hk : e.1 = k := by simpa using List.find?_some hf
      have hm := List.mem_of_find?_eq_some hf
      have hv : e.2 = v := eq_of_mem (by rw [← hk]; exact hm) h
      simp [find?, hf, hv]

theorem find?_eq_none {m : SortedMap κ β r} {k : κ} :
    m.find? k = none ↔ ∀ v, (k, v) ∉ m.entries := by
  rw [Option.eq_none_iff_forall_not_mem]
  exact forall_congr' fun v => not_congr find?_eq_some

theorem find?_congr {m m' : SortedMap κ β r} {k : κ}
    (h : ∀ v, (k, v) ∈ m.entries ↔ (k, v) ∈ m'.entries) : m.find? k = m'.find? k := by
  ext v
  rw [find?_eq_some, find?_eq_some, h v]

@[simp] theorem find?_erase_self (m : SortedMap κ β r) (k : κ) : (m.erase k).find? k = none := by
  simp [find?_eq_none]

@[simp] theorem find?_erase_of_ne (m : SortedMap κ β r) {k k' : κ} (h : k' ≠ k) :
    (m.erase k).find? k' = m.find? k' :=
  find?_congr fun v => by simp [h]

theorem find?_erase (m : SortedMap κ β r) (k k' : κ) :
    (m.erase k).find? k' = if k' = k then none else m.find? k' := by
  split_ifs with h
  · rw [h, find?_erase_self]
  · exact find?_erase_of_ne m h

theorem erase_of_find?_none {m : SortedMap κ β r} {k : κ} (h : m.find? k = none) :
    m.erase k = m := by
  refine ext (List.filter_eq_self.mpr fun e he => ?_)
  have hk : e.1 ≠ k := fun hk => find?_eq_none.mp h e.2 (by rwa [← hk])
  simpa using hk

theorem mem_values_iff {m : SortedMap κ β r} {v : β} :
    v ∈ m.values ↔ ∃ k, m.find? k = some v := by
  simp only [values, List.mem_map, Prod.exists, exists_eq_right, find?_eq_some]

theorem mem_keys_iff {m : SortedMap κ β r} {k : κ} : k ∈ m.keys ↔ ∃ v, m.find? k = some v := by
  simp only [keys, List.mem_map, Prod.exists, exists_and_right, exists_eq_right, find?_eq_some]

theorem values_head? (m : SortedMap κ β r) :
    m.values.head? = none ∧ (∀ k, m.find? k = none) ∨
      ∃ k, m.values.head? = m.find? k ∧ m.values.head? ≠ none ∧
        ∀ k', m.find? k' ≠ none → k' = k ∨ r k k' := by
  have hlookup : ∀ k', m.find? k' ≠ none → ∃ v, (k', v) ∈ m.entries := by
    intro k' hk'
    obtain ⟨v, hv⟩ := Option.ne_none_iff_exists'.mp hk'
    exact ⟨v, find?_eq_some.mp hv⟩
  cases hentries : m.entries with
  | nil =>
    refine Or.inl ⟨by rw [values, hentries]; rfl, fun k => ?_⟩
    by_contra hk
    obtain ⟨v, hv⟩ := hlookup k hk
    rw [hentries] at hv
    cases hv
  | cons e es =>
    have hhead : m.values.head? = some e.2 := by rw [values, hentries]; rfl
    have hfind : m.find? e.1 = some e.2 := find?_eq_some.mpr (hentries ▸ List.mem_cons_self)
    have hsorted := m.sorted
    rw [hentries] at hsorted
    refine Or.inr ⟨e.1, hhead.trans hfind.symm, by rw [hhead]; exact Option.some_ne_none _,
      fun k' hk' => ?_⟩
    obtain ⟨v, hv⟩ := hlookup k' hk'
    rw [hentries] at hv
    rcases List.mem_cons.mp hv with heq | hmem
    · exact Or.inl (congrArg Prod.fst heq)
    · exact Or.inr (List.rel_of_pairwise_cons hsorted hmem)

theorem erase_perm {m : SortedMap κ β r} {k : κ} {v : β} (h : m.find? k = some v) :
    m.entries.Perm ((k, v) :: (m.erase k).entries) := by
  have hn : ((k, v) :: (m.erase k).entries).Nodup := by
    refine List.nodup_cons.mpr ⟨by simp, entries_nodup _⟩
  apply (List.perm_ext_iff_of_nodup m.entries_nodup hn).mpr
  intro e
  rw [List.mem_cons, mem_erase]
  constructor
  · intro he
    by_cases hk : e.1 = k
    · left
      have hv : e.2 = v := eq_of_mem (by rw [← hk]; exact he) (find?_eq_some.mp h)
      exact Prod.ext hk hv
    · exact Or.inr ⟨he, hk⟩
  · rintro (rfl | ⟨he, -⟩)
    · exact find?_eq_some.mp h
    · exact he

theorem values_perm {m : SortedMap κ β r} {k : κ} {v : β} (h : m.find? k = some v) :
    m.values.Perm (v :: (m.erase k).values) := (erase_perm h).map Prod.snd

end Lookup

section Insert

variable [DecidableEq κ] [DecidableRel r]

def insertEntry (r : κ → κ → Prop) [DecidableRel r] (k : κ) (v : β) : List (κ × β) → List (κ × β)
  | [] => [(k, v)]
  | e :: es =>
    if r k e.1 then (k, v) :: e :: es
    else if e.1 = k then (k, v) :: es
    else e :: insertEntry r k v es

theorem mem_insertEntry [IsStrictTotalOrder κ r] {k : κ} {v : β} {l : List (κ × β)}
    (hl : l.Pairwise fun a b => r a.1 b.1) {e : κ × β} :
    e ∈ insertEntry r k v l ↔ e = (k, v) ∨ (e ∈ l ∧ e.1 ≠ k) := by
  induction l with
  | nil => simp [insertEntry]
  | cons a l ih =>
    have hrest : ∀ b ∈ l, r a.1 b.1 := fun b hb => List.rel_of_pairwise_cons hl hb
    simp only [insertEntry]
    split_ifs with hka hak
    · have hne : ∀ b ∈ a :: l, b.1 ≠ k := by
        intro b hb hbk
        rcases List.mem_cons.mp hb with rfl | hb
        · exact irrefl_of r b.1 (by simpa [hbk] using hka)
        · exact irrefl_of r k (by simpa [hbk] using trans_of r hka (hrest b hb))
      rw [List.mem_cons]
      exact or_congr_right ⟨fun h => ⟨h, hne e h⟩, fun h => h.1⟩
    · have hne : ∀ b ∈ l, b.1 ≠ k := fun b hb hbk =>
        irrefl_of r k (by simpa [hak, hbk] using hrest b hb)
      rw [List.mem_cons, List.mem_cons]
      refine or_congr_right ⟨fun h => ⟨Or.inr h, hne e h⟩, ?_⟩
      rintro ⟨rfl | h, hk⟩
      · exact absurd hak hk
      · exact h
    · rw [List.mem_cons, ih hl.of_cons, List.mem_cons]
      constructor
      · rintro (rfl | rfl | ⟨h, hk⟩)
        · exact Or.inr ⟨Or.inl rfl, hak⟩
        · exact Or.inl rfl
        · exact Or.inr ⟨Or.inr h, hk⟩
      · rintro (rfl | ⟨rfl | h, hk⟩)
        · exact Or.inr (Or.inl rfl)
        · exact Or.inl rfl
        · exact Or.inr (Or.inr ⟨h, hk⟩)

theorem insertEntry_sorted [IsStrictTotalOrder κ r] {k : κ} {v : β} {l : List (κ × β)}
    (hl : l.Pairwise fun a b => r a.1 b.1) :
    (insertEntry r k v l).Pairwise fun a b => r a.1 b.1 := by
  induction l with
  | nil => simp [insertEntry]
  | cons a l ih =>
    have hrest : ∀ b ∈ l, r a.1 b.1 := fun b hb => List.rel_of_pairwise_cons hl hb
    simp only [insertEntry]
    split_ifs with hka hak
    · refine List.pairwise_cons.mpr ⟨fun b hb => ?_, hl⟩
      rcases List.mem_cons.mp hb with rfl | hb
      · exact hka
      · exact trans_of r hka (hrest b hb)
    · exact List.pairwise_cons.mpr ⟨fun b hb => hak ▸ hrest b hb, hl.of_cons⟩
    · refine List.pairwise_cons.mpr ⟨fun b hb => ?_, ih hl.of_cons⟩
      rcases (mem_insertEntry hl.of_cons).mp hb with rfl | ⟨hb, -⟩
      · rcases trichotomous_of r a.1 k with h | h | h
        · exact h
        · exact absurd h hak
        · exact absurd h hka
      · exact hrest b hb

variable [IsStrictTotalOrder κ r]

def insert (m : SortedMap κ β r) (k : κ) (v : β) : SortedMap κ β r :=
  ⟨insertEntry r k v m.entries, insertEntry_sorted m.sorted⟩

/-- `m[k]` handed to an update, a missing key showing as `none`. -/
def upsert (m : SortedMap κ β r) (k : κ) (f : Option β → β) : SortedMap κ β r :=
  m.insert k (f (m.find? k))

def emplace (m : SortedMap κ β r) (k : κ) (v : β) : SortedMap κ β r :=
  if m.contains k then m else m.insert k v

@[simp] theorem mem_insert {m : SortedMap κ β r} {k : κ} {v : β} {e : κ × β} :
    e ∈ (m.insert k v).entries ↔ e = (k, v) ∨ (e ∈ m.entries ∧ e.1 ≠ k) :=
  mem_insertEntry m.sorted

@[simp] theorem find?_insert_self (m : SortedMap κ β r) (k : κ) (v : β) :
    (m.insert k v).find? k = some v := by
  simp [find?_eq_some]

@[simp] theorem find?_insert_of_ne (m : SortedMap κ β r) {k k' : κ} (h : k' ≠ k) (v : β) :
    (m.insert k v).find? k' = m.find? k' :=
  find?_congr fun w => by simp [h]

theorem find?_insert (m : SortedMap κ β r) (k k' : κ) (v : β) :
    (m.insert k v).find? k' = if k' = k then some v else m.find? k' := by
  split_ifs with h
  · rw [h, find?_insert_self]
  · exact find?_insert_of_ne m h v

theorem find?_insert_of_find?_none {m : SortedMap κ β r} {k k' : κ} {w : β}
    (hnone : m.find? k = none) (v : β) (hfind : m.find? k' = some w) :
    (m.insert k v).find? k' = some w := by
  have hne : k' ≠ k := by
    rintro rfl
    rw [hnone] at hfind
    cases hfind
  exact (find?_insert_of_ne m hne v).trans hfind

theorem emplace_of_find?_none {m : SortedMap κ β r} {k : κ} (h : m.find? k = none) (v : β) :
    m.emplace k v = m.insert k v := by
  simp [emplace, contains, h]

theorem find?_emplace_of_ne (m : SortedMap κ β r) {k k' : κ} (h : k' ≠ k) (v : β) :
    (m.emplace k v).find? k' = m.find? k' := by
  unfold emplace
  split_ifs
  · rfl
  · exact find?_insert_of_ne m h v

theorem contains_emplace (m : SortedMap κ β r) (k : κ) (v : β) :
    (m.emplace k v).contains k = true := by
  unfold emplace
  split_ifs with h
  · exact h
  · simp [contains]

theorem contains_emplace_iff {m : SortedMap κ β r} {k k' : κ} {v : β} :
    (m.emplace k v).contains k' = true ↔ m.contains k' = true ∨ k' = k := by
  by_cases h : k' = k
  · rw [h]
    exact iff_of_true (contains_emplace m k v) (Or.inr rfl)
  · rw [contains, find?_emplace_of_ne m h, ← contains, or_iff_left h]

omit [DecidableRel r] in
theorem eq_of_find? {m m' : SortedMap κ β r} (h : ∀ k, m.find? k = m'.find? k) : m = m' := by
  have hmem : ∀ e, e ∈ m.entries ↔ e ∈ m'.entries := fun e => by
    obtain ⟨k, v⟩ := e
    rw [← find?_eq_some, ← find?_eq_some, h]
  have hperm := (List.perm_ext_iff_of_nodup m.entries_nodup m'.entries_nodup).mpr hmem
  refine ext (hperm.eq_of_pairwise (fun a b _ _ hab hba => ?_) m.sorted m'.sorted)
  exact absurd (trans_of r hab hba) (irrefl_of r a.1)

theorem insert_perm (m : SortedMap κ β r) (k : κ) (v : β) :
    (m.insert k v).entries.Perm ((k, v) :: (m.erase k).entries) := by
  have hn : ((k, v) :: (m.erase k).entries).Nodup :=
    List.nodup_cons.mpr ⟨by simp, entries_nodup _⟩
  apply (List.perm_ext_iff_of_nodup (entries_nodup _) hn).mpr
  intro e
  rw [mem_insert, List.mem_cons, mem_erase]

theorem values_insert_perm {m : SortedMap κ β r} {k : κ} (h : m.find? k = none) (v : β) :
    (m.insert k v).values.Perm (v :: m.values) := by
  have hp := (insert_perm m k v).map Prod.snd
  rwa [erase_of_find?_none h] at hp

end Insert

section Sum

variable {M : Type*} [AddCommMonoid M]

def sum (m : SortedMap κ β r) (f : κ → β → M) : M := (m.entries.map fun e => f e.1 e.2).sum

@[simp] theorem sum_empty (f : κ → β → M) : (empty : SortedMap κ β r).sum f = 0 := rfl

variable [DecidableEq κ]

theorem sum_eq_add [Std.Irrefl r] (m : SortedMap κ β r) (k : κ) (f : κ → β → M) :
    m.sum f = (m.find? k).elim 0 (f k) + (m.erase k).sum f := by
  cases h : m.find? k with
  | none => simp [erase_of_find?_none h]
  | some v =>
    have hs := ((erase_perm h).map fun e => f e.1 e.2).sum_eq
    simpa only [sum, List.map_cons, List.sum_cons, Option.elim_some] using hs

theorem sum_insert_eq_add [DecidableRel r] [IsStrictTotalOrder κ r] (m : SortedMap κ β r) (k : κ)
    (v : β) (f : κ → β → M) : (m.insert k v).sum f = f k v + (m.erase k).sum f := by
  have hs := ((insert_perm m k v).map fun e => f e.1 e.2).sum_eq
  simpa only [sum, List.map_cons, List.sum_cons] using hs

theorem sum_insert {M : Type*} [AddCommGroup M] [DecidableRel r] [IsStrictTotalOrder κ r]
    (m : SortedMap κ β r) (k : κ) (v : β) (f : κ → β → M) :
    (m.insert k v).sum f = m.sum f - (m.find? k).elim 0 (f k) + f k v := by
  rw [sum_insert_eq_add, sum_eq_add m k f]
  abel

theorem sum_of_find? {M : Type*} [AddCommGroup M] [DecidableRel r] [IsStrictTotalOrder κ r]
    {m m' : SortedMap κ β r} {k : κ} {v : Option β}
    (h : ∀ k', m'.find? k' = if k' = k then v else m.find? k') (f : κ → β → M) :
    m'.sum f = m.sum f - (m.find? k).elim 0 (f k) + v.elim 0 (f k) := by
  have hrest : m'.erase k = m.erase k := eq_of_find? fun k' => by
    rw [find?_erase, find?_erase, h]
    split_ifs <;> rfl
  rw [sum_eq_add m' k, sum_eq_add m k, h, if_pos rfl, hrest]
  abel

omit [DecidableEq κ] in
theorem mem_sum {α : Type*} {m : SortedMap κ β r} {f : κ → β → Multiset α} {a : α} :
    a ∈ m.sum f ↔ ∃ k v, (k, v) ∈ m.entries ∧ a ∈ f k v := by
  unfold sum
  induction m.entries with
  | nil => simp
  | cons e l ih =>
    rw [List.map_cons, List.sum_cons, Multiset.mem_add, ih]
    constructor
    · rintro (h | ⟨k, v, hkv, h⟩)
      · exact ⟨e.1, e.2, List.mem_cons_self, h⟩
      · exact ⟨k, v, List.mem_cons_of_mem e hkv, h⟩
    · rintro ⟨k, v, hkv, h⟩
      rcases List.mem_cons.mp hkv with rfl | hkv
      · exact Or.inl h
      · exact Or.inr ⟨k, v, hkv, h⟩

theorem sum_congr [Std.Irrefl r] (m : SortedMap κ β r) {f g : κ → β → M}
    (h : ∀ k v, m.find? k = some v → f k v = g k v) : m.sum f = m.sum g := by
  refine congrArg List.sum (List.map_congr_left fun e he => ?_)
  exact h e.1 e.2 (find?_eq_some.mpr he)

end Sum

end SortedMap
