import FlareTrader.Framing

/-! A block of bytes that is written one byte at a time, and the values read off it. -/

namespace ByteMemory

open Framing (leBytes leValue length_leBytes leValue_leBytes)

abbrev Memory := ℕ → UInt8

def load (m : Memory) (address count : ℕ) : List UInt8 :=
  (List.range count).map fun i => m (address + i)

def place (address : ℕ) : List UInt8 → List (ℕ × UInt8)
  | [] => []
  | b :: bs => (address, b) :: place (address + 1) bs

def storeAll (m : Memory) (stores : List (ℕ × UInt8)) : Memory :=
  stores.foldl (fun m s => Function.update m s.1 s.2) m

section Load

variable {m m' : Memory} {address count : ℕ}

theorem load_congr (h : ∀ i, address ≤ i → i < address + count → m i = m' i) :
    load m address count = load m' address count := by
  apply List.map_congr_left
  intro i hi
  rw [List.mem_range] at hi
  exact h _ (Nat.le_add_right _ _) (Nat.add_lt_add_left hi _)

theorem load_succ (m : Memory) (address count : ℕ) :
    load m address (count + 1) = m address :: load m (address + 1) count := by
  rw [load, List.range_succ_eq_map, List.map_cons, List.map_map, load, Nat.add_zero]
  congr 1
  apply List.map_congr_left
  intro i _
  rw [Function.comp_apply, Nat.succ_eq_add_one, Nat.add_assoc, Nat.add_comm 1 i]

end Load

section Stores

variable {m m' : Memory} {stores stores' : List (ℕ × UInt8)} {address i : ℕ} {bs : List UInt8}

@[simp] theorem storeAll_nil (m : Memory) : storeAll m [] = m := rfl

@[simp] theorem storeAll_cons (m : Memory) (s : ℕ × UInt8) (stores : List (ℕ × UInt8)) :
    storeAll m (s :: stores) = storeAll (Function.update m s.1 s.2) stores := rfl

theorem storeAll_append (m : Memory) (stores stores' : List (ℕ × UInt8)) :
    storeAll m (stores ++ stores') = storeAll (storeAll m stores) stores' :=
  List.foldl_append

theorem storeAll_of_ne (h : ∀ s ∈ stores, s.1 ≠ i) : storeAll m stores i = m i := by
  induction stores generalizing m with
  | nil => rfl
  | cons s stores ih =>
    rw [storeAll_cons, ih fun t ht => h t (List.mem_cons_of_mem _ ht)]
    exact Function.update_of_ne (h s List.mem_cons_self).symm _ _

theorem mem_place {s : ℕ × UInt8} (h : s ∈ place address bs) :
    address ≤ s.1 ∧ s.1 < address + bs.length := by
  induction bs generalizing address with
  | nil => cases h
  | cons b bs ih =>
    rw [place, List.mem_cons] at h
    rw [List.length_cons]
    rcases h with rfl | h
    · exact ⟨le_rfl, by omega⟩
    · have hrest := ih h
      omega

theorem storeAll_place_of_lt (h : i < address ∨ address + bs.length ≤ i) :
    storeAll m (place address bs) i = m i := by
  apply storeAll_of_ne
  intro s hs
  have hrange := mem_place hs
  omega

theorem load_place (m : Memory) (address : ℕ) (bs : List UInt8) :
    load (storeAll m (place address bs)) address bs.length = bs := by
  induction bs generalizing m address with
  | nil => rfl
  | cons b bs ih =>
    rw [List.length_cons, load_succ, place, storeAll_cons, ih,
      storeAll_place_of_lt (Or.inl (Nat.lt_succ_self address)), Function.update_self]

theorem load_storeAll_of_beside {count : ℕ}
    (h : ∀ s ∈ stores, s.1 < address ∨ address + count ≤ s.1) :
    load (storeAll m stores) address count = load m address count := by
  apply load_congr
  intro i hlow hhigh
  apply storeAll_of_ne
  intro s hs
  have hs' := h s hs
  omega

def placeAll (fields : List (ℕ × List UInt8)) : List (ℕ × UInt8) :=
  fields.flatMap fun field => place field.1 field.2

def Beside (field field' : ℕ × List UInt8) : Prop :=
  field.1 + field.2.length ≤ field'.1 ∨ field'.1 + field'.2.length ≤ field.1

theorem load_placeAll {fields : List (ℕ × List UInt8)} (h : fields.Pairwise Beside)
    {field : ℕ × List UInt8} (hmem : field ∈ fields) (m : Memory) :
    load (storeAll m (placeAll fields)) field.1 field.2.length = field.2 := by
  induction fields generalizing m with
  | nil => cases hmem
  | cons first fields ih =>
    rw [List.pairwise_cons] at h
    rw [placeAll, List.flatMap_cons, storeAll_append]
    rcases List.mem_cons.mp hmem with rfl | hmem
    · rw [load_storeAll_of_beside, load_place]
      intro s hs
      obtain ⟨field', hfield', hs'⟩ := List.mem_flatMap.mp hs
      have hbeside := h.1 field' hfield'
      have hrange := mem_place hs'
      rw [Beside] at hbeside
      omega
    · exact ih h.2 hmem _

theorem mem_placeAll {fields : List (ℕ × List UInt8)} {a b : ℕ}
    (h : ∀ field ∈ fields, a ≤ field.1 ∧ field.1 + field.2.length ≤ b) {s : ℕ × UInt8}
    (hs : s ∈ placeAll fields) : a ≤ s.1 ∧ s.1 < b := by
  obtain ⟨field, hfield, hs'⟩ := List.mem_flatMap.mp hs
  have hbounds := h field hfield
  have hrange := mem_place hs'
  omega

end Stores

section Integers

def int16Bytes (n : Int16) : List UInt8 := leBytes 2 n.toUInt16.toNat

def int32Bytes (n : Int32) : List UInt8 := leBytes 4 n.toUInt32.toNat

def int64Bytes (n : Int64) : List UInt8 := leBytes 8 n.toUInt64.toNat

def int16Of (bs : List UInt8) : Int16 := (UInt16.ofNat (leValue bs)).toInt16

def int32Of (bs : List UInt8) : Int32 := (UInt32.ofNat (leValue bs)).toInt32

def int64Of (bs : List UInt8) : Int64 := (UInt64.ofNat (leValue bs)).toInt64

@[simp] theorem length_int16Bytes (n : Int16) : (int16Bytes n).length = 2 := length_leBytes _ _

@[simp] theorem length_int32Bytes (n : Int32) : (int32Bytes n).length = 4 := length_leBytes _ _

@[simp] theorem length_int64Bytes (n : Int64) : (int64Bytes n).length = 8 := length_leBytes _ _

@[simp] theorem int16Of_int16Bytes (n : Int16) : int16Of (int16Bytes n) = n := by
  have hlt : n.toUInt16.toNat < 256 ^ 2 := n.toUInt16.toNat_lt
  rw [int16Of, int16Bytes, leValue_leBytes, Nat.mod_eq_of_lt hlt, UInt16.ofNat_toNat]
  exact Int16.toInt16_toUInt16 n

@[simp] theorem int32Of_int32Bytes (n : Int32) : int32Of (int32Bytes n) = n := by
  have hlt : n.toUInt32.toNat < 256 ^ 4 := n.toUInt32.toNat_lt
  rw [int32Of, int32Bytes, leValue_leBytes, Nat.mod_eq_of_lt hlt, UInt32.ofNat_toNat]
  exact Int32.toInt32_toUInt32 n

@[simp] theorem int64Of_int64Bytes (n : Int64) : int64Of (int64Bytes n) = n := by
  have hlt : n.toUInt64.toNat < 256 ^ 8 := n.toUInt64.toNat_lt
  rw [int64Of, int64Bytes, leValue_leBytes, Nat.mod_eq_of_lt hlt, UInt64.ofNat_toNat]
  exact Int64.toInt64_toUInt64 n

end Integers

end ByteMemory
