import FlareTrader.ByteMemory

/-! Records as they lie in memory: fields of fixed sizes one after another, padding, arrays of
characters and enumerations. -/

namespace RecordLayout

open Framing ByteMemory

/-- Values laid out in a fixed number of bytes, out of which those that fit are read back. -/
structure Layout (α : Type*) where
  size : ℕ
  Fits : α → Prop
  put : α → List UInt8
  get : List UInt8 → α
  length_put : ∀ a, (put a).length = size
  get_put : ∀ a, Fits a → get (put a) = a

namespace Layout

variable {α β : Type*}

def natural (count : ℕ) : Layout ℕ where
  size := count
  Fits n := n < 256 ^ count
  put := leBytes count
  get := leValue
  length_put := length_leBytes count
  get_put n hn := by rw [leValue_leBytes, Nat.mod_eq_of_lt hn]

def int32 : Layout ℤ where
  size := 4
  Fits n := -2 ^ 31 ≤ n ∧ n < 2 ^ 31
  put n := int32Bytes (.ofInt n)
  get bs := (int32Of bs).toInt
  length_put n := length_int32Bytes _
  get_put n hn := by rw [int32Of_int32Bytes, Int32.toInt_ofInt_of_le hn.1 hn.2]

def code (toByte : α → UInt8) (ofByte : UInt8 → α) (h : ∀ a, ofByte (toByte a) = a) : Layout α where
  size := 1
  Fits _ := True
  put a := [toByte a]
  get bs := ofByte (bs.headD 0)
  length_put _ := rfl
  get_put a _ := h a

def bool : Layout Bool := code (fun b => if b then 1 else 0) (· ≠ 0) (by decide)

def raw (count : ℕ) : Layout (List UInt8) where
  size := count
  Fits bs := bs.length = count
  put bs := bs.takeD count 0
  get bs := bs
  length_put bs := List.takeD_length count bs 0
  get_put bs hbs := by rw [List.takeD_eq_take _ hbs.ge, List.take_of_length_le hbs.le]

def ofChars (s : String) : List UInt8 := s.toList.map fun c => UInt8.ofNat c.toNat

def toChars (bs : List UInt8) : String :=
  .ofList ((bs.takeWhile (· ≠ 0)).map fun b => Char.ofNat b.toNat)

theorem toChars_ofChars {s : String} (hs : ∀ c ∈ s.toList, 0 < c.toNat ∧ c.toNat < 256)
    {count : ℕ} (hcount : 0 < count) : toChars (ofChars s ++ List.replicate count 0) = s := by
  have hbyte : ∀ c ∈ s.toList, (UInt8.ofNat c.toNat).toNat = c.toNat := fun c hc => by
    rw [UInt8.toNat_ofNat', Nat.mod_eq_of_lt (hs c hc).2]
  have hstop : (List.replicate count (0 : UInt8)).takeWhile (· ≠ 0) = [] := by
    obtain ⟨count, rfl⟩ := Nat.exists_eq_succ_of_ne_zero hcount.ne'
    rfl
  have hpass : ∀ b ∈ ofChars s, decide (b ≠ 0) = true := by
    intro b hb
    obtain ⟨c, hc, rfl⟩ := List.mem_map.mp hb
    refine decide_eq_true fun hzero => ?_
    have hnat := congrArg UInt8.toNat hzero
    rw [hbyte c hc] at hnat
    exact (hs c hc).1.ne' hnat
  have hback : (ofChars s).map (fun b => Char.ofNat b.toNat) = s.toList := by
    rw [ofChars, List.map_map]
    refine (List.map_congr_left fun c hc => ?_).trans (List.map_id _)
    rw [Function.comp_apply, hbyte c hc, Char.ofNat_toNat, id_eq]
  rw [toChars, List.takeWhile_append_of_pos hpass, hstop, List.append_nil, hback,
    String.ofList_toList]

def chars (count : ℕ) : Layout String where
  size := count
  Fits s := s.toList.length < count ∧ ∀ c ∈ s.toList, 0 < c.toNat ∧ c.toNat < 256
  put s := (ofChars s ++ List.replicate count 0).take count
  get := toChars
  length_put s := by
    rw [List.length_take, List.length_append, List.length_replicate]
    omega
  get_put s hs := by
    have hlength : (ofChars s).length = s.toList.length := List.length_map _
    rw [List.take_append, List.take_of_length_le (by omega), List.take_replicate,
      toChars_ofChars hs.2 (by omega)]

def padded (l : Layout α) (count : ℕ) : Layout α where
  size := l.size + count
  Fits := l.Fits
  put a := l.put a ++ List.replicate count 0
  get bs := l.get (bs.take l.size)
  length_put a := by rw [List.length_append, l.length_put, List.length_replicate]
  get_put a ha := by rw [List.take_left' (l.length_put a), l.get_put a ha]

def pair (l : Layout α) (l' : Layout β) : Layout (α × β) where
  size := l.size + l'.size
  Fits p := l.Fits p.1 ∧ l'.Fits p.2
  put p := l.put p.1 ++ l'.put p.2
  get bs := (l.get (bs.take l.size), l'.get (bs.drop l.size))
  length_put p := by rw [List.length_append, l.length_put, l'.length_put]
  get_put p hp := by
    rw [List.take_left' (l.length_put _), List.drop_left' (l.length_put _), l.get_put _ hp.1,
      l'.get_put _ hp.2]

def via (l : Layout α) (toRecord : β → α) (ofRecord : α → β) (Fits : β → Prop)
    (h : ∀ b, Fits b → l.Fits (toRecord b) ∧ ofRecord (toRecord b) = b) : Layout β where
  size := l.size
  Fits := Fits
  put b := l.put (toRecord b)
  get bs := ofRecord (l.get bs)
  length_put b := l.length_put _
  get_put b hb := by rw [l.get_put _ (h b hb).1, (h b hb).2]

end Layout

end RecordLayout
