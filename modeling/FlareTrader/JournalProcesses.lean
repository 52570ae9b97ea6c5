import FlareTrader.JournalPages

/-! One writer and any number of readers of a journal, each in a process of its own. The
writer makes its stores one by one, a reader that seeks a time reads the page headers one by one
and then loads the page, and it reads the status of a frame and later its content, in any
interleaving; the writer can be killed between any two stores. -/

namespace Yijinjing

open ByteMemory

inductive Call where
  | writeFrame
  | passFrame

def Call.fields : Call → ℕ → Frame → List (ℕ × UInt8)
  | .writeFrame => frameFields
  | .passFrame => passedFields

/-- Where the writer is: not running, between two calls, before `locateWritableFrame` with the
frame to write, or before `passFrame` of the journal. -/
inductive Control where
  | down
  | ready (page : Page)
  | locating (page : Page) (job : Option (Call × Frame))
  | passing (page : Page) (f : Frame)

structure Writer where
  stores : List Store := []
  control : Control := .down

def Writer.atRest : Writer → Bool
  | ⟨[], .down⟩ | ⟨[], .ready _⟩ => true
  | _ => false

inductive WriterAction where
  | create (nano : Int64)
  | call (kind : Call) (f : Frame)
  | locate (startNano closeNano : Int64)
  | store
  | pass
  | crash

/-- Where a reader is: between two calls; in `seekTime`, before the header of the first of these
pages is read, before a page is loaded, or in the loop over its frames; in `getNextFrame` after a
page was loaded where one was needed, or after the frame was found; or killed. -/
inductive Reading where
  | ready
  | choosing (time : Int64) (pageNums : List Int16)
  | loading (time : Int64) (pageNum : Int16)
  | seeking (time : Int64)
  | checked
  | located
  | killed
deriving DecidableEq

def Reading.ofSeek (d : Directory) (time : Int64) : Reading :=
  if time = timeToLast then .loading time d.lastPageNum
  else if time = timeFromFirst then .loading time d.firstPageNum
  else .choosing time d.getPageNums.reverse

/-- A reader, with what it has returned since it was last sought to a time. -/
structure Reader where
  journal : Journal := {}
  reading : Reading := .ready
  sought : Int64 := timeFromFirst
  out : List Frame := []

inductive ReaderAction where
  | seek (time : Int64)
  | header (unread : Int64)
  | load
  | pass
  | next
  | look
  | take
  | expire

def Reader.step (d : Directory) (r : Reader) : ReaderAction → Option (Except Fault Reader)
  | .seek time =>
    if r.reading = .ready then some (.ok { r with reading := .ofSeek d time }) else none
  | .header unread =>
    match r.reading with
    | .choosing time [] => some (.ok { r with reading := .loading time 1 })
    | .choosing time (n :: ns) =>
      some (.ok { r with
        reading :=
          if d.headerNano unread n < time then .loading time n else .choosing time ns })
    | _ => none
  | .load =>
    match r.reading with
    | .loading time n => some ((Journal.seekPage d n).map fun j => ⟨j, .seeking time, time, []⟩)
    | _ => none
  | .pass =>
    match r.reading, r.journal.curPage with
    | .seeking time, some p =>
      some (.ok (if Journal.seekPasses d time p then
        { r with journal := { r.journal with curPage := some (p.passFrame d) } }
      else { r with reading := .ready }))
    | .seeking _, none => some (.ok { r with reading := .ready })
    | _, _ => none
  | .next =>
    if r.reading = .ready then
      some (if r.journal.expired then .ok r
        else if r.journal.needsPage d then
          (r.journal.loadNextPage d).map fun j => { r with journal := j, reading := .checked }
        else .ok { r with reading := .checked })
    else none
  | .look =>
    if r.reading = .checked then
      let found := (r.journal.curPage.bind (Page.locateReadableFrame d)).isSome
      some (.ok { r with reading := if found then .located else .ready })
    else none
  | .take =>
    match r.reading, r.journal.curPage with
    | .located, some p =>
      some (.ok { r with
        journal := { r.journal with curPage := some (p.passFrame d) }
        reading := .ready
        out := r.out ++ [Frame.get (d.buffer p.pageNum) p.position] })
    | _, _ => none
  | .expire =>
    if r.reading = .ready then some (.ok { r with journal := r.journal.expire }) else none

/-- What a step of a reader can do, one case for each way it can end. -/
inductive Reader.Steps (d : Directory) (r : Reader) : ReaderAction → Except Fault Reader → Prop where
  | seek (time : Int64) (hready : r.reading = .ready) :
    Steps d r (.seek time) (.ok { r with reading := .ofSeek d time })
  | lastHeader (unread time : Int64) (hreading : r.reading = .choosing time []) :
    Steps d r (.header unread) (.ok { r with reading := .loading time 1 })
  | header (unread time : Int64) (n : Int16) (ns : List Int16)
    (hreading : r.reading = .choosing time (n :: ns)) :
    Steps d r (.header unread) (.ok { r with
      reading := if d.headerNano unread n < time then .loading time n else .choosing time ns })
  | load (time : Int64) (n : Int16) (j : Journal) (hreading : r.reading = .loading time n)
    (hpage : Journal.seekPage d n = .ok j) : Steps d r .load (.ok ⟨j, .seeking time, time, []⟩)
  | loadFault (time : Int64) (n : Int16) (fault : Fault) (hreading : r.reading = .loading time n)
    (hpage : Journal.seekPage d n = .error fault) : Steps d r .load (.error fault)
  | pass (time : Int64) (p : Page) (hreading : r.reading = .seeking time)
    (hp : r.journal.curPage = some p) (hpasses : Journal.seekPasses d time p = true) :
    Steps d r .pass (.ok { r with journal := { r.journal with curPage := some (p.passFrame d) } })
  | arrive (time : Int64) (hreading : r.reading = .seeking time) :
    Steps d r .pass (.ok { r with reading := .ready })
  | expired (hready : r.reading = .ready) (hexpired : r.journal.expired = true) :
    Steps d r .next (.ok r)
  | nextPage (j : Journal) (hready : r.reading = .ready) (hexpired : r.journal.expired = false)
    (hneeds : r.journal.needsPage d = true) (hpage : r.journal.loadNextPage d = .ok j) :
    Steps d r .next (.ok { r with journal := j, reading := .checked })
  | nextPageFault (fault : Fault) (hready : r.reading = .ready)
    (hexpired : r.journal.expired = false) (hneeds : r.journal.needsPage d = true)
    (hpage : r.journal.loadNextPage d = .error fault) : Steps d r .next (.error fault)
  | samePage (hready : r.reading = .ready) (hexpired : r.journal.expired = false)
    (hneeds : r.journal.needsPage d = false) :
    Steps d r .next (.ok { r with reading := .checked })
  | found (hreading : r.reading = .checked)
    (hfound : (r.journal.curPage.bind (Page.locateReadableFrame d)).isSome = true) :
    Steps d r .look (.ok { r with reading := .located })
  | nothing (hreading : r.reading = .checked)
    (hfound : (r.journal.curPage.bind (Page.locateReadableFrame d)).isSome = false) :
    Steps d r .look (.ok { r with reading := .ready })
  | take (p : Page) (hreading : r.reading = .located) (hp : r.journal.curPage = some p) :
    Steps d r .take (.ok { r with
      journal := { r.journal with curPage := some (p.passFrame d) }
      reading := .ready
      out := r.out ++ [Frame.get (d.buffer p.pageNum) p.position] })
  | expire (hready : r.reading = .ready) :
    Steps d r .expire (.ok { r with journal := r.journal.expire })

theorem Reader.step_cases {d : Directory} {r : Reader} {a : ReaderAction}
    {result : Except Fault Reader} (h : r.step d a = some result) : Reader.Steps d r a result := by
  cases a with
  | seek time =>
    rw [Reader.step] at h
    split_ifs at h with hready
    cases h
    exact .seek time hready
  | header unread =>
    rw [Reader.step] at h
    split at h
    next time hreading =>
      cases h
      exact .lastHeader unread time hreading
    next time n ns hreading =>
      cases h
      exact .header unread time n ns hreading
    next => cases h
  | load =>
    rw [Reader.step] at h
    split at h
    next time n hreading =>
      cases hpage : Journal.seekPage d n with
      | ok j =>
        rw [hpage] at h
        cases h
        exact .load time n j hreading hpage
      | error fault =>
        rw [hpage] at h
        cases h
        exact .loadFault time n fault hreading hpage
    next => cases h
  | pass =>
    rw [Reader.step] at h
    split at h
    next time p hreading hp =>
      split_ifs at h with hpasses
      · cases h
        exact .pass time p hreading hp hpasses
      · cases h
        exact .arrive time hreading
    next time hreading hp =>
      cases h
      exact .arrive time hreading
    next => cases h
  | next =>
    rw [Reader.step] at h
    split_ifs at h with hready hexpired hneeds
    · cases h
      exact .expired hready hexpired
    · cases hpage : r.journal.loadNextPage d with
      | ok j =>
        rw [hpage] at h
        cases h
        exact .nextPage j hready (Bool.not_eq_true _ ▸ hexpired) hneeds hpage
      | error fault =>
        rw [hpage] at h
        cases h
        exact .nextPageFault fault hready (Bool.not_eq_true _ ▸ hexpired) hneeds hpage
    · cases h
      exact .samePage hready (Bool.not_eq_true _ ▸ hexpired) (Bool.not_eq_true _ ▸ hneeds)
  | look =>
    rw [Reader.step] at h
    split_ifs at h with hreading
    cases hfound : (r.journal.curPage.bind (Page.locateReadableFrame d)).isSome with
    | true =>
      rw [hfound] at h
      cases h
      exact .found hreading hfound
    | false =>
      rw [hfound] at h
      cases h
      exact .nothing hreading hfound
  | take =>
    rw [Reader.step] at h
    split at h
    next p hreading hp =>
      cases h
      exact .take p hreading hp
    next => cases h
  | expire =>
    rw [Reader.step] at h
    split_ifs at h with hready
    cases h
    exact .expire hready

/-- The directory with its writer and readers. The frames handed to the writer, those whose
call has returned, and whether it was killed in between are noted. -/
structure System where
  directory : Directory := {}
  writer : Writer := {}
  readers : ℕ → Reader := fun _ => {}
  clock : Int64 := 0
  sent : List Frame := []
  returned : List Frame := []
  interrupted : Bool := false
  failed : Bool := false

inductive Action where
  | writer (a : WriterAction)
  | reader (i : ℕ) (a : ReaderAction)

namespace System

def create (jname : List UInt8) (s : System) (nano : Int64) : System :=
  let pageNum := s.directory.lastPageNum
  match Page.loadWriting s.directory jname pageNum nano with
  | .ok (stores, page) =>
    let page := page.passWrittenFrame (s.directory.applyAll stores)
    { s with writer := ⟨stores, .locating page none⟩, clock := nano }
  | .error _ => { s with writer := ⟨Page.loadPageBuffer pageNum, .down⟩, failed := true }

def locate (jname : List UInt8) (s : System) (page : Page) (job : Option (Call × Frame))
    (startNano closeNano : Int64) : System :=
  let d := s.directory
  let page := page.passWrittenFrame d
  if page.isWritable d then
    match job with
    | none => { s with writer := ⟨[], .ready page⟩ }
    | some (kind, f) =>
      let stores := publish kind.fields (d.buffer page.pageNum) page.position f
      { s with writer := ⟨onPage page.pageNum stores, .passing page f⟩ }
  else
    match Page.loadWriting d jname (page.pageNum + 1) startNano with
    | .ok (stores, newPage) =>
      let finish := onPage page.pageNum (page.finishPage closeNano)
      { s with writer := ⟨stores ++ finish, .locating newPage job⟩, clock := closeNano }
    | .error _ =>
      { s with writer := ⟨Page.loadPageBuffer (page.pageNum + 1), .down⟩, failed := true }

def stepWriter (jname : List UInt8) (s : System) (a : WriterAction) : Option System :=
  match a, s.writer with
  | .store, ⟨store :: stores, control⟩ =>
    some { s with directory := s.directory.apply store, writer := ⟨stores, control⟩ }
  | .crash, writer =>
    some { s with writer := {}, interrupted := s.interrupted || !writer.atRest }
  | .create nano, ⟨[], .down⟩ => some (s.create jname nano)
  | .call kind f, ⟨[], .ready page⟩ =>
    some { s with
      writer := ⟨[], .locating page (some (kind, f))⟩
      clock := f.nano
      sent := s.sent ++ [f] }
  | .locate startNano closeNano, ⟨[], .locating page job⟩ =>
    some (s.locate jname page job startNano closeNano)
  | .pass, ⟨[], .passing page f⟩ =>
    some { s with
      writer := ⟨[], .ready (page.passFrame s.directory)⟩
      returned := s.returned ++ [f] }
  | _, _ => none

def stepReader (s : System) (i : ℕ) (a : ReaderAction) : Option System :=
  ((s.readers i).step s.directory a).map fun
    | .ok r => { s with readers := Function.update s.readers i r }
    | .error .busError =>
      { s with
        readers := Function.update s.readers i { s.readers i with reading := .killed } }
    | .error (.runtimeError _) => { s with failed := true }

def step (jname : List UInt8) (s : System) : Action → Option System
  | .writer a => s.stepWriter jname a
  | .reader i a => s.stepReader i a

end System

/-- A frame fits where the page has its headroom, and the page numbers do not run out. -/
def Permitted (s : System) : Action → Prop
  | .writer (.call _ f) => f.length ≤ pageMinHeadroom
  | .writer (.locate _ _) => s.directory.pageNums.length + 1 < 2 ^ 15
  | _ => True

def Directory.Inited (d : Directory) (pageNum : Int16) : Prop :=
  pageNum ∈ d.pageNums ∧ d.size pageNum = journalPageSize ∧
    PageHeader.status (d.buffer pageNum) ≠ journalPageStatusRaw

/-- The clock of the writer never goes back, and a reader that seeks a time comes to no page
whose header is not filled in yet. -/
def Ticking (s : System) : Action → Prop
  | .writer (.create nano) => s.clock ≤ nano
  | .writer (.call _ f) => s.clock ≤ f.nano
  | .writer (.locate startNano closeNano) => s.clock ≤ startNano ∧ startNano ≤ closeNano
  | .reader i (.header _) => ∀ time n ns, (s.readers i).reading = .choosing time (n :: ns) →
      s.directory.Inited n
  | _ => True

def Timely (s : System) (a : Action) : Prop := Permitted s a ∧ Ticking s a

end Yijinjing
