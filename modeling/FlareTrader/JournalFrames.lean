import FlareTrader.ByteMemory

/-! The frames of a journal page: the stores that write one into the page's buffer, and what
is read at its address. -/

namespace Yijinjing

open ByteMemory

def basicFrameHeaderLength : ℕ := 20

def journalFrameStatusRaw : UInt8 := 0

def journalFrameStatusWritten : UInt8 := 1

def journalFrameStatusPageEnd : UInt8 := 2

structure Frame where
  nano : Int64
  msgType : Int16
  lastFlag : UInt8
  data : List UInt8
deriving DecidableEq

namespace Frame

def length (f : Frame) : ℕ := basicFrameHeaderLength + f.data.length

section Getters

variable (m : Memory) (frame : ℕ)

def getStatus : UInt8 := m frame

def getNano : Int64 := int64Of (load m (frame + 1) 8)

def getFrameLength : Int32 := int32Of (load m (frame + 9) 4)

def getMsgType : Int16 := int16Of (load m (frame + 17) 2)

def getLastFlag : UInt8 := m (frame + 19)

def getDataLength : ℤ := (getFrameLength m frame).toInt - basicFrameHeaderLength

def getData : List UInt8 :=
  load m (frame + basicFrameHeaderLength) (getDataLength m frame).toNat

def getNextEntry : ℕ := ((frame : ℤ) + (getFrameLength m frame).toInt).toNat

def get : Frame where
  nano := getNano m frame
  msgType := getMsgType m frame
  lastFlag := getLastFlag m frame
  data := getData m frame

end Getters

section Setters

variable (frame : ℕ)

def setNano (nano : Int64) : List (ℕ × UInt8) := place (frame + 1) (int64Bytes nano)

def setFrameLength (length : Int32) : List (ℕ × UInt8) := place (frame + 9) (int32Bytes length)

def setMsgType (msgType : Int16) : List (ℕ × UInt8) := place (frame + 17) (int16Bytes msgType)

def setLastFlag (lastFlag : UInt8) : List (ℕ × UInt8) := place (frame + 19) [lastFlag]

def setDataLength (dataLength : ℕ) : List (ℕ × UInt8) :=
  setFrameLength frame (.ofNat (basicFrameHeaderLength + dataLength))

def setData (data : List UInt8) : List (ℕ × UInt8) :=
  place (frame + basicFrameHeaderLength) data ++
    setFrameLength frame (.ofNat (basicFrameHeaderLength + data.length))

/-- The next entry is marked first, the frame itself is published last. -/
def setStatusWritten (m : Memory) : List (ℕ × UInt8) :=
  [(getNextEntry m frame, journalFrameStatusRaw), (frame, journalFrameStatusWritten)]

end Setters

structure IsAt (m : Memory) (frame : ℕ) (f : Frame) : Prop where
  length_eq : (getFrameLength m frame).toInt = f.length
  get_eq : get m frame = f

section IsAt

variable {m m' : Memory} {frame : ℕ} {f : Frame}

theorem IsAt.nextEntry_eq (h : IsAt m frame f) : getNextEntry m frame = frame + f.length := by
  rw [getNextEntry, h.length_eq]
  omega

theorem IsAt.nano_eq (h : IsAt m frame f) : getNano m frame = f.nano := by
  have hget := h.get_eq
  rw [get] at hget
  rw [← hget]

theorem header_le_length (f : Frame) : 20 ≤ f.length := Nat.le_add_right _ _

theorem isAt_of_load (hfit : f.length < 2 ^ 31)
    (hnano : load m (frame + 1) 8 = int64Bytes f.nano)
    (hlength : load m (frame + 9) 4 = int32Bytes (.ofNat f.length))
    (hmsgType : load m (frame + 17) 2 = int16Bytes f.msgType)
    (hlastFlag : load m (frame + 19) 1 = [f.lastFlag])
    (hdata : load m (frame + basicFrameHeaderLength) f.data.length = f.data) :
    IsAt m frame f := by
  have hlen : (getFrameLength m frame).toInt = f.length := by
    rw [getFrameLength, hlength, int32Of_int32Bytes]
    exact Int32.toInt_ofNat_of_lt hfit
  have hcount : (getDataLength m frame).toNat = f.data.length := by
    rw [getDataLength, hlen, length]
    omega
  refine ⟨hlen, ?_⟩
  rw [get, getNano, hnano, int64Of_int64Bytes, getMsgType, hmsgType, int16Of_int16Bytes, getData,
    hcount, hdata, getLastFlag]
  rw [load_succ] at hlastFlag
  rw [(List.cons.inj hlastFlag).1]

/-- What stands at an address depends on the bytes of the frame behind its status only. -/
theorem IsAt.congr (h : IsAt m frame f)
    (hm : ∀ i, frame < i → i < frame + f.length → m i = m' i) : IsAt m' frame f := by
  have hheader := f.header_le_length
  have hload : ∀ k count, 0 < k → k + count ≤ f.length →
      load m' (frame + k) count = load m (frame + k) count := fun k count hk hle =>
    (load_congr fun i hlow hhigh => hm i (by omega) (by omega)).symm
  have hlen : getFrameLength m' frame = getFrameLength m frame := by
    rw [getFrameLength, hload 9 4 (by omega) (by omega), getFrameLength]
  have hdata : getData m' frame = getData m frame := by
    have hcount : (getDataLength m frame).toNat = f.data.length := by
      rw [getDataLength, h.length_eq, length]
      omega
    rw [getData, getDataLength, hlen, ← getDataLength, hcount, getData, hcount]
    exact hload basicFrameHeaderLength _ (by decide) le_rfl
  refine ⟨by rw [hlen, h.length_eq], ?_⟩
  have hflag : m' (frame + 19) = m (frame + 19) := (hm _ (by omega) (by omega)).symm
  rw [← h.get_eq, get, get, hdata, getNano, hload 1 8 (by omega) (by omega), getMsgType,
    hload 17 2 (by omega) (by omega), getLastFlag, hflag]
  rfl

end IsAt

end Frame

def frameFields (frame : ℕ) (f : Frame) : List (ℕ × UInt8) :=
  Frame.setMsgType frame f.msgType ++ Frame.setLastFlag frame f.lastFlag ++
    Frame.setData frame f.data ++ Frame.setNano frame f.nano

/-- The stores between `locateFrame` and the end of `passFrame`, before the frame is published,
where the caller puts the data in between. -/
def passedFields (frame : ℕ) (f : Frame) : List (ℕ × UInt8) :=
  Frame.setNano frame f.nano ++ place (frame + basicFrameHeaderLength) f.data ++
    Frame.setMsgType frame f.msgType ++ Frame.setLastFlag frame f.lastFlag ++
      Frame.setDataLength frame f.data.length

section Fields

variable {m : Memory} {frame : ℕ} {f : Frame}

def fieldsOf (frame : ℕ) (f : Frame) : List (ℕ × List UInt8) :=
  [(frame + 17, int16Bytes f.msgType), (frame + 19, [f.lastFlag]),
    (frame + basicFrameHeaderLength, f.data), (frame + 9, int32Bytes (.ofNat f.length)),
    (frame + 1, int64Bytes f.nano)]

def passedFieldsOf (frame : ℕ) (f : Frame) : List (ℕ × List UInt8) :=
  [(frame + 1, int64Bytes f.nano), (frame + basicFrameHeaderLength, f.data),
    (frame + 17, int16Bytes f.msgType), (frame + 19, [f.lastFlag]),
    (frame + 9, int32Bytes (.ofNat f.length))]

theorem frameFields_eq (frame : ℕ) (f : Frame) :
    frameFields frame f = placeAll (fieldsOf frame f) := by
  simp only [frameFields, fieldsOf, placeAll, Frame.setMsgType, Frame.setLastFlag, Frame.setData,
    Frame.setFrameLength, Frame.setNano, Frame.length, List.flatMap_cons, List.flatMap_nil,
    List.append_assoc, List.append_nil]

theorem passedFields_eq (frame : ℕ) (f : Frame) :
    passedFields frame f = placeAll (passedFieldsOf frame f) := by
  simp only [passedFields, passedFieldsOf, placeAll, Frame.setMsgType, Frame.setLastFlag,
    Frame.setDataLength, Frame.setFrameLength, Frame.setNano, Frame.length, List.flatMap_cons,
    List.flatMap_nil, List.append_assoc, List.append_nil]

theorem isAt_of_fields (hfit : f.length < 2 ^ 31) {fields : List (ℕ × List UInt8)}
    (hbeside : fields.Pairwise Beside) (hfields : ∀ field ∈ fieldsOf frame f, field ∈ fields) :
    Frame.IsAt (storeAll m (placeAll fields)) frame f := by
  have hload : ∀ field ∈ fieldsOf frame f,
      load (storeAll m (placeAll fields)) field.1 field.2.length = field.2 :=
    fun field hfield => load_placeAll hbeside (hfields field hfield) m
  simp only [fieldsOf, List.forall_mem_cons, length_int16Bytes, length_int32Bytes,
    length_int64Bytes] at hload
  obtain ⟨hmsgType, hlastFlag, hdata, hlength, hnano, -⟩ := hload
  exact Frame.isAt_of_load hfit hnano hlength hmsgType hlastFlag hdata

structure Fills (m : Memory) (frame : ℕ) (f : Frame) (stores : List (ℕ × UInt8)) : Prop where
  behind : ∀ s ∈ stores, frame < s.1 ∧ s.1 < frame + f.length
  isAt : Frame.IsAt (storeAll m stores) frame f

theorem behind_of_fields {fields : List (ℕ × List UInt8)}
    (h : ∀ field ∈ fields, field ∈ fieldsOf frame f) :
    ∀ s ∈ placeAll fields, frame < s.1 ∧ s.1 < frame + f.length := by
  intro s hs
  refine mem_placeAll (a := frame + 1) (fun field hfield => ?_) hs
  have hheader := f.header_le_length
  have hmem := h field hfield
  simp only [fieldsOf, List.mem_cons, List.not_mem_nil, or_false] at hmem
  rcases hmem with rfl | rfl | rfl | rfl | rfl <;>
    simp only [length_int16Bytes, length_int32Bytes, length_int64Bytes, List.length_singleton] <;>
    simp only [Frame.length, basicFrameHeaderLength] at hheader ⊢ <;> omega

theorem frameFields_fills (hfit : f.length < 2 ^ 31) (m : Memory) (frame : ℕ) :
    Fills m frame f (frameFields frame f) := by
  rw [frameFields_eq]
  refine ⟨behind_of_fields fun _ h => h, isAt_of_fields hfit ?_ fun _ h => h⟩
  simp only [fieldsOf, List.pairwise_cons, List.forall_mem_cons, Beside, length_int16Bytes,
    length_int32Bytes, length_int64Bytes, List.length_singleton, basicFrameHeaderLength,
    List.not_mem_nil, false_imp_iff, implies_true, List.Pairwise.nil, and_true]
  omega

theorem passedFields_fills (hfit : f.length < 2 ^ 31) (m : Memory) (frame : ℕ) :
    Fills m frame f (passedFields frame f) := by
  rw [passedFields_eq]
  refine ⟨behind_of_fields fun field h => ?_, isAt_of_fields hfit ?_ fun field h => ?_⟩
  · simp only [passedFieldsOf, fieldsOf, List.mem_cons, List.not_mem_nil, or_false] at h ⊢
    tauto
  · simp only [passedFieldsOf, List.pairwise_cons, List.forall_mem_cons, Beside, length_int16Bytes,
      length_int32Bytes, length_int64Bytes, List.length_singleton, basicFrameHeaderLength,
      List.not_mem_nil, false_imp_iff, implies_true, List.Pairwise.nil, and_true]
    omega
  · simp only [passedFieldsOf, fieldsOf, List.mem_cons, List.not_mem_nil, or_false] at h ⊢
    tauto

end Fields

end Yijinjing
