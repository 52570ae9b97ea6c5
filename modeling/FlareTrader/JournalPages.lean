import FlareTrader.JournalFrames

/-! The pages of a journal, files of one size in a directory that a writer and the readers
map, and how a journal moves along them. A function of a writer gives the stores it makes, and
opening a page file is two of them: it is made without content and then stretched. -/

namespace Yijinjing

open ByteMemory

def journalPageSize : ℕ := 128 * 1024 * 1024

def pageMinHeadroom : ℕ := 2 * 1024 * 1024

def pageInitPosition : ℕ := 137

def journalPageStatusRaw : UInt8 := 0

def journalPageStatusInited : UInt8 := 1

def frameHeaderVersion : Int16 := 2

def timeFromFirst : Int64 := 0

def timeToLast : Int64 := -1

namespace PageHeader

def status (m : Memory) : UInt8 := m 0

def startNano (m : Memory) : Int64 := int64Of (load m 33 8)

def frameNum (m : Memory) : Int32 := int32Of (load m 49 4)

def lastPos (m : Memory) : Int32 := int32Of (load m 53 4)

def frameVersion (m : Memory) : Int16 := int16Of (load m 57 2)

/-- The header of a new page. The status is set before the version. -/
def init (jname : List UInt8) (pageNum : Int16) (nano : Int64) : List (ℕ × UInt8) :=
  place 1 (jname ++ [0]) ++ place 33 (int64Bytes nano) ++ place 41 (int64Bytes (-1)) ++
    place 31 (int16Bytes pageNum) ++ [(0, journalPageStatusInited)] ++
      place 57 (int16Bytes frameHeaderVersion)

end PageHeader

/-- A change of the directory: a page file is made where there is none, or stretched by its last
byte, or one byte of a mapped page is set. -/
inductive Store where
  | openPage (pageNum : Int16)
  | stretch (pageNum : Int16)
  | byte (pageNum : Int16) (address : ℕ) (value : UInt8)

structure Directory where
  pageNums : List Int16 := []
  size : Int16 → ℕ := fun _ => 0
  buffer : Int16 → Memory := fun _ _ => 0

/-- What ends a process: an exception that nobody catches, or an access to a mapped page beyond
the end of its file. -/
inductive Fault where
  | runtimeError (what : String)
  | busError

namespace Directory

def apply (d : Directory) : Store → Directory
  | .openPage n =>
    if n ∈ d.pageNums then d
    else ⟨d.pageNums ++ [n], Function.update d.size n 0, Function.update d.buffer n fun _ => 0⟩
  | .stretch n =>
    { d with
      size := Function.update d.size n journalPageSize
      buffer := Function.update d.buffer n
        (Function.update (d.buffer n) (journalPageSize - 1) 0) }
  | .byte n address value =>
    { d with buffer := Function.update d.buffer n (Function.update (d.buffer n) address value) }

def applyAll (d : Directory) (stores : List Store) : Directory := stores.foldl apply d

def getPageNums (d : Directory) : List Int16 := d.pageNums.mergeSort fun a b => a ≤ b

def lastPageNum (d : Directory) : Int16 := d.getPageNums.getLast?.getD 1

def firstPageNum (d : Directory) : Int16 := d.getPageNums.head?.getD 1

/-- The time in the header that `GetPageHeader` gives. A file that is too short leaves it unread,
and a header that is not filled in yet may be read in part. -/
def headerNano (d : Directory) (unread : Int64) (pageNum : Int16) : Int64 :=
  if d.size pageNum < pageInitPosition ∨
      PageHeader.status (d.buffer pageNum) = journalPageStatusRaw then unread
  else PageHeader.startNano (d.buffer pageNum)

def getPageNumWithTime (d : Directory) (unread : Int16 → Int64) (time : Int64) : Int16 :=
  (d.getPageNums.reverse.find? fun n => d.headerNano (unread n) n < time).getD 1

end Directory

def onPage (pageNum : Int16) (stores : List (ℕ × UInt8)) : List Store :=
  stores.map fun s => .byte pageNum s.1 s.2

structure Page where
  pageNum : Int16
  position : ℕ
  frameNum : ℕ
deriving DecidableEq

namespace Page

def getCurStatus (d : Directory) (p : Page) : UInt8 :=
  Frame.getStatus (d.buffer p.pageNum) p.position

def isAtPageEnd (d : Directory) (p : Page) : Bool := p.getCurStatus d = journalFrameStatusPageEnd

def locateReadableFrame (d : Directory) (p : Page) : Option ℕ :=
  if p.getCurStatus d = journalFrameStatusWritten then some p.position else none

def passFrame (d : Directory) (p : Page) : Page :=
  { p with
    position := Frame.getNextEntry (d.buffer p.pageNum) p.position
    frameNum := p.frameNum + 1 }

def passLoop (d : Directory) : ℕ → Page → Page
  | 0, p => p
  | fuel + 1, p =>
    if p.getCurStatus d = journalFrameStatusWritten then passLoop d fuel (p.passFrame d) else p

def passWrittenFrame (d : Directory) (p : Page) : Page := passLoop d journalPageSize p

def isWritable (d : Directory) (p : Page) : Bool :=
  p.getCurStatus d = journalFrameStatusRaw ∧ p.position + pageMinHeadroom < journalPageSize

def finishPage (p : Page) (closeNano : Int64) : List (ℕ × UInt8) :=
  place 41 (int64Bytes closeNano) ++ place 49 (int32Bytes (.ofNat p.frameNum)) ++
    place 53 (int32Bytes (.ofNat p.position)) ++ [(p.position, journalFrameStatusPageEnd)]

def checkVersion (m : Memory) : Except Fault Unit :=
  let version := PageHeader.frameVersion m
  if 0 < version ∧ version ≠ frameHeaderVersion then
    .error (.runtimeError ("page version mismatch: (program)" ++ toString frameHeaderVersion ++
      " (page)" ++ toString version))
  else .ok ()

def start (pageNum : Int16) : Page := ⟨pageNum, pageInitPosition, 0⟩

def loadPageBuffer (pageNum : Int16) : List Store := [.openPage pageNum, .stretch pageNum]

def loadWriting (d : Directory) (jname : List UInt8) (pageNum : Int16) (nano : Int64) :
    Except Fault (List Store × Page) :=
  let opening := loadPageBuffer pageNum
  let m := (d.applyAll opening).buffer pageNum
  if PageHeader.status m = journalPageStatusRaw then
    .ok (opening ++ onPage pageNum (PageHeader.init jname pageNum nano), start pageNum)
  else (checkVersion m).map fun _ => (opening, start pageNum)

/-- `Page::load` of a reader, which has no page where there is none or it is still raw. The
header of a file that has not been stretched cannot be accessed. -/
def loadReading (d : Directory) (pageNum : Int16) : Except Fault (Option Page) :=
  if pageNum ∉ d.pageNums then .ok none
  else if d.size pageNum < journalPageSize then .error .busError
  else if PageHeader.status (d.buffer pageNum) = journalPageStatusRaw then .ok none
  else (checkVersion (d.buffer pageNum)).map fun _ => some (start pageNum)

end Page

def publish (fields : ℕ → Frame → List (ℕ × UInt8)) (m : Memory) (frame : ℕ) (f : Frame) :
    List (ℕ × UInt8) :=
  fields frame f ++ Frame.setStatusWritten frame (storeAll m (fields frame f))

structure Journal where
  expired : Bool := false
  curPage : Option Page := none
deriving DecidableEq

namespace Journal

def seekPageNum (d : Directory) (unread : Int16 → Int64) (time : Int64) : Int16 :=
  if time = timeToLast then d.lastPageNum
  else if time = timeFromFirst then d.firstPageNum
  else d.getPageNumWithTime unread time

def seekPage (d : Directory) (pageNum : Int16) : Except Fault Journal :=
  (Page.loadReading d pageNum).map fun page => ⟨page.isNone, page⟩

def seekPasses (d : Directory) (time : Int64) (p : Page) : Bool :=
  p.getCurStatus d = journalFrameStatusWritten ∧
    (time = timeToLast ∨ time ≠ timeFromFirst ∧
      Frame.getNano (d.buffer p.pageNum) p.position < time)

def loadNextPage (d : Directory) (j : Journal) : Except Fault Journal :=
  if j.expired then .ok j
  else
    let pageNum := match j.curPage with
      | none => 1
      | some p => p.pageNum + 1
    (Page.loadReading d pageNum).map fun page => { j with curPage := page }

def needsPage (d : Directory) (j : Journal) : Bool :=
  match j.curPage with
  | none => true
  | some p => p.isAtPageEnd d

def expire (_ : Journal) : Journal := ⟨true, none⟩

end Journal

end Yijinjing
