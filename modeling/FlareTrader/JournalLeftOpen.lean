import FlareTrader.JournalGuarantees

/-! A page that was not closed when its writer was killed, and has one behind it: no later
writer comes back to it, and a reader at its end stays there. -/

namespace Yijinjing

open SegmentedLog

def Unsought (i : ℕ) (s : System) (a : Action) : Prop :=
  Permitted s a ∧ ∀ time, a ≠ .reader i (.seek time)

/-- The reader is at the end of an open page, and is not sought. -/
structure Stranded (s : System) (v v' : View) (i j : ℕ) (q : PageView) (out : List Frame) :
    Prop where
  running : Running False s v v'
  past : Past v v' j
  get : v[j]? = some q
  taking : q.phase = .taking
  journal : (s.readers i).journal = ⟨false, some ⟨numberOf j, q.tail, q.frames.length⟩⟩ ∨
    (s.readers i).journal = ⟨true, none⟩
  reading : (s.readers i).reading = .ready ∨ (s.readers i).reading = .checked
  out_eq : (s.readers i).out = out

theorem unsought_of_working {jname : List UInt8} {i : ℕ} {s t : System}
    (h : Execution.Reaches (System.step jname) Working s t) :
    Execution.Reaches (System.step jname) (Unsought i) s t := by
  refine h.mono fun s a hworking => ⟨hworking.1.1, fun time ha => ?_⟩
  rw [ha] at hworking
  exact hworking.2

section Stranded

variable {jname : List UInt8} {s s' : System} {v v' : View} {i j : ℕ} {q : PageView}
  {out : List Frame}

theorem Stranded.status (h : Stranded s v v' i j q out) :
    Page.getCurStatus s.directory ⟨numberOf j, q.tail, q.frames.length⟩ =
      journalFrameStatusRaw := by
  have hstatus := status_at h.running.writing.shows h.get le_rfl
  rw [List.take_length, if_neg (lt_irrefl _), h.taking, if_neg (by decide)] at hstatus
  exact hstatus

theorem Stranded.of_same (h : Stranded s v v' i j q out) {w w' : View}
    (hrunning : Running False s' w w')
    (hpast : Past w w' j ∧ w[j]? = v[j]?) (hreader : s'.readers i = s.readers i) :
    Stranded s' w w' i j q out where
  running := hrunning
  past := hpast.1
  get := hpast.2.trans h.get
  taking := h.taking
  journal := by rw [hreader]; exact h.journal
  reading := by rw [hreader]; exact h.reading
  out_eq := by rw [hreader]; exact h.out_eq

/-- No step of the reader but a seek takes it on. -/
theorem Stranded.step_reader (h : Stranded s v v' i j q out) {a : ReaderAction}
    {result : Except Fault Reader} (ha : ∀ time, a ≠ .seek time)
    (hstep : (s.readers i).step s.directory a = some result) :
    ∃ r, result = .ok r ∧
      (r.journal = ⟨false, some ⟨numberOf j, q.tail, q.frames.length⟩⟩ ∨
        r.journal = ⟨true, none⟩) ∧
      (r.reading = .ready ∨ r.reading = .checked) ∧ r.out = out := by
  have hstatus := h.status
  have hjournal := h.journal
  have hreading := h.reading
  have hout := h.out_eq
  generalize s.readers i = old at hstep hjournal hreading hout
  have hidle : ∀ {reading}, old.reading = reading → reading = .ready ∨ reading = .checked :=
    fun hr => hr ▸ hreading
  -- the page is open, so that no other one is loaded and no frame is found
  have hneeds : old.journal.expired = false → old.journal.needsPage s.directory = false := by
    intro hexpired
    rcases hjournal with hjournal | hjournal
    · rw [hjournal]
      change Page.isAtPageEnd s.directory _ = false
      rw [Page.isAtPageEnd, hstatus]
      rfl
    · rw [hjournal] at hexpired
      cases hexpired
  have hnothing : old.journal.curPage.bind (Page.locateReadableFrame s.directory) = none := by
    rcases hjournal with hjournal | hjournal
    · rw [hjournal, Option.bind_some, Page.locateReadableFrame, hstatus]
      rfl
    · rw [hjournal]
      rfl
  cases Reader.step_cases hstep with
  | seek time => exact absurd rfl (ha time)
  | lastHeader unread time hchoosing => exact absurd (hidle hchoosing) (by simp)
  | header unread time n ns hchoosing => exact absurd (hidle hchoosing) (by simp)
  | load time n j hloading => exact absurd (hidle hloading) (by simp)
  | loadFault time n fault hloading => exact absurd (hidle hloading) (by simp)
  | pass time p hseeking => exact absurd (hidle hseeking) (by simp)
  | arrive time hseeking => exact absurd (hidle hseeking) (by simp)
  | take p hlocated => exact absurd (hidle hlocated) (by simp)
  | expire => exact ⟨_, rfl, Or.inr rfl, hreading, hout⟩
  | expired => exact ⟨_, rfl, hjournal, hreading, hout⟩
  | nextPage j hready hexpired hload =>
    rw [hneeds hexpired] at hload
    cases hload
  | nextPageFault fault hready hexpired hload =>
    rw [hneeds hexpired] at hload
    cases hload
  | samePage => exact ⟨_, rfl, hjournal, Or.inr rfl, hout⟩
  | found _ hfound =>
    rw [hnothing] at hfound
    cases hfound
  | nothing => exact ⟨_, rfl, hjournal, Or.inl rfl, hout⟩

theorem Stranded.step (h : Stranded s v v' i j q out) (hname : jname.length < 30) {a : Action}
    (ha : Unsought i s a) (hstep : s.step jname a = some s') :
    ∃ w w', Stranded s' w w' i j q out := by
  cases a with
  | writer a =>
    obtain ⟨w, w', hrunning, hreaders, hpast⟩ := h.running.writer hname ha.1 False.elim hstep
    exact ⟨w, w', h.of_same hrunning (hpast j h.past) (congrFun hreaders i)⟩
  | reader k a =>
    have hrunning := h.running.reader False.elim hstep
    rcases eq_or_ne i k with rfl | hk
    · obtain ⟨result, hresult, hs'⟩ := Option.map_eq_some_iff.mp hstep
      obtain ⟨r, rfl, hjournal, hreading, hout⟩ := h.step_reader
        (fun time hseek => ha.2 time (congrArg (Action.reader i) hseek)) hresult
      have hr : s'.readers i = r := by
        rw [← hs']
        exact Function.update_self _ _ _
      rw [← hr] at hjournal hreading hout
      exact ⟨v, v', hrunning, h.past, h.get, h.taking, hjournal, hreading, hout⟩
    · have hsame : s'.readers i = s.readers i := by
        obtain ⟨r, -, rfl, -⟩ := h.running.reader_cases False.elim hstep
        exact Function.update_of_ne hk _ _
      exact ⟨v, v', h.of_same hrunning ⟨h.past, rfl⟩ hsame⟩

theorem Shows.lt_of_numberOf_mem {d : Directory} (h : Shows d v) (hj : j < 2 ^ 15)
    (hmem : numberOf j ∈ d.pageNums) : j < v.length := by
  rcases Nat.lt_or_ge (j + 1) (2 ^ 15) with hlt | hge
  · exact (h.mem_pageNums hlt).mp hmem
  · obtain ⟨k, r, hk, hr⟩ := h.exists_of_mem hmem
    have hfew := h.few
    have hklt := lt_length hr
    have hnum : (numberOf j).toInt = -2 ^ 15 := by
      obtain rfl : j = 2 ^ 15 - 1 := by omega
      decide
    rw [hk, toInt_numberOf (by omega)] at hnum
    omega

end Stranded

section Bulk

def bulk : Frame := ⟨0, 0, 0, List.replicate (pageMinHeadroom - basicFrameHeaderLength) 0⟩

theorem length_bulk : bulk.length = pageMinHeadroom := by
  have hdata : bulk.data.length = pageMinHeadroom - basicFrameHeaderLength :=
    List.length_replicate
  have hle : basicFrameHeaderLength ≤ pageMinHeadroom := by decide
  rw [Frame.length, hdata]
  omega

theorem endOf_bulk (a n : ℕ) : endOf a (List.replicate n bulk) = a + n * pageMinHeadroom := by
  induction n generalizing a with
  | zero => rw [List.replicate_zero, endOf, Nat.zero_mul, Nat.add_zero]
  | succ n ih =>
    rw [List.replicate_succ, endOf, length_bulk, ih, Nat.succ_mul]
    omega

variable {s : System} {v : View} {page : Page} {job : Option (Call × Frame)} {fs : List Frame}

theorem single_page {i k : ℕ} {q : PageView} (hlength : v.length = 1)
    (hwithin : Within v page i k q) :
    v = [q] ∧ i = 0 ∧ v.log = q.frames := by
  obtain ⟨p, rfl⟩ := List.length_eq_one_iff.mp hlength
  have hlast := hwithin.last
  obtain rfl : i = 0 := by rw [hlength] at hlast; omega
  obtain rfl : p = q := Option.some.inj hwithin.get
  exact ⟨rfl, rfl, List.append_nil _⟩

theorem Writing.length_eq_one (h : Writing False s v v)
    (hwriter : s.writer = ⟨[], .locating page job⟩)
    (hlength : v.length ≤ 1) : v.length = 1 := by
  obtain ⟨-, ⟨i, k, q, hwithin⟩, -⟩ := h.locating hwriter
  have hlast := hwithin.last
  omega

theorem finishes_single (h : Writing False s v v) (hwriter : s.writer = ⟨[], .locating page job⟩)
    (hlength : v.length = 1)
    (hroom : endOf pageInitPosition v.log + pageMinHeadroom < journalPageSize) :
    ∃ t, Execution.Reaches (System.step []) Working s t ∧
      Finished s t (job.map Prod.snd).toList 0 := by
  obtain ⟨-, ⟨i, k, q, hwithin⟩, hfits⟩ := h.locating hwriter
  obtain ⟨-, -, hlog⟩ := single_page hlength hwithin
  rw [hlog] at hroom
  exact finishes_room [] h hwriter hwithin hroom hfits (by rw [hlength]; decide)

theorem reaches_single (n : ℕ) (hn : n ≤ 63) :
    ∃ s page, Execution.Reaches (System.step []) Permitted {} s ∧
      s.writer = ⟨[], .ready page⟩ ∧ s.sent = List.replicate n bulk ∧ s.interrupted = false ∧
      s.directory.pageNums.length ≤ 1 ∧ s.readers = fun _ => {} := by
  induction n with
  | zero =>
    have hticking : False → (0 : Int64) ≤ 0 := False.elim
    obtain ⟨w, page, hw, -, hlength, -, hcontrol⟩ :=
      (writing_start False).create (show ([] : List UInt8).length < 30 by decide) rfl hticking
    obtain ⟨hreaders, hsent, -, hinterrupted⟩ := create_frame [] {} 0
    have hdrained := hw.drained
    have hwriter : (System.create [] {} 0).drained.writer = ⟨[], .locating page none⟩ :=
      congrArg (Writer.mk []) hcontrol
    have hlog : w.log = [] := by
      have hsublist := hw.log_sublist
      rw [hsent] at hsublist
      exact List.sublist_nil.mp hsublist
    obtain ⟨u, hreaches, hfinished⟩ := finishes_single hdrained hwriter
      (hdrained.length_eq_one hwriter hlength) (by rw [hlog]; decide)
    obtain ⟨page', hready⟩ := hfinished.ready
    have hreached := (reaches_drained [] (System.create [] {} 0)).trans hreaches
    refine ⟨u, page', .head (a := .writer (.create 0)) trivial rfl
      (permitted_of_timely [] (timely_of_working [] hreached)), hready, ?_, ?_, ?_, ?_⟩
    · exact hfinished.sent.trans hsent
    · exact hfinished.interrupted.trans hinterrupted
    · have hpages := hfinished.pages
      rw [hdrained.shows.length_pageNums] at hpages
      exact hpages.trans hlength
    · exact hfinished.readers.trans hreaders
  | succ n ih =>
    obtain ⟨s, page, hreach, hwriter, hsent, hinterrupted, hpages, hreaders⟩ := ih (by omega)
    obtain ⟨v, v', hrunning⟩ := running_of_permitted (by decide) hreach
    obtain rfl := hrunning.writing.eq_of_nil hwriter
    have hlength : v'.length ≤ 1 := hrunning.writing.shows.length_pageNums ▸ hpages
    have hlog := (hrunning.writing.exact hinterrupted).1
    rw [hwriter, Control.rest_ready, List.append_nil, hsent] at hlog
    have hcall := hrunning.writing.call hwriter .writeFrame length_bulk.le False.elim
    have hone := hcall.length_eq_one rfl hlength
    obtain ⟨u, hreaches, hfinished⟩ := finishes_single hcall rfl hone (by
      rw [hlog, endOf_bulk]
      simp only [pageInitPosition, pageMinHeadroom, journalPageSize]
      omega)
    obtain ⟨page', hready⟩ := hfinished.ready
    have hreached := permitted_of_timely [] (timely_of_working [] hreaches)
    refine ⟨u, page', (hreach.tail (.writer (.call .writeFrame bulk)) length_bulk.le
      (step_call [] hwriter _ _)).trans hreached, hready, ?_, ?_, ?_,
        hfinished.readers.trans hreaders⟩
    · rw [hfinished.sent, List.replicate_succ']
      exact congrArg (· ++ [bulk]) hsent
    · exact hfinished.interrupted.trans hinterrupted
    · exact hfinished.pages.trans hpages

theorem reads_frame (s : System) (i : ℕ) {p : Page}
    (hwritten : p.getCurStatus s.directory = journalFrameStatusWritten) (sought : Int64)
    (out : List Frame) :
    ∃ f, Execution.Reaches (System.step []) Permitted
      (s.withReader i ⟨⟨false, some p⟩, .ready, sought, out⟩)
      (s.withReader i ⟨⟨false, some (p.passFrame s.directory)⟩, .ready, sought, out ++ [f]⟩) := by
  have hneeds : Journal.needsPage s.directory ⟨false, some p⟩ = false := by
    change Page.isAtPageEnd s.directory p = false
    rw [Page.isAtPageEnd, hwritten]
    rfl
  have hfound : Page.locateReadableFrame s.directory p = some p.position := if_pos hwritten
  have hnext : Reader.step s.directory ⟨⟨false, some p⟩, .ready, sought, out⟩ .next =
      some (.ok ⟨⟨false, some p⟩, .checked, sought, out⟩) := by
    rw [Reader.step, if_pos rfl, hneeds]
    rfl
  have hlook : Reader.step s.directory ⟨⟨false, some p⟩, .checked, sought, out⟩ .look =
      some (.ok ⟨⟨false, some p⟩, .located, sought, out⟩) := by
    rw [Reader.step, if_pos rfl]
    dsimp only
    rw [Option.bind_some, hfound]
    rfl
  have htake : Reader.step s.directory ⟨⟨false, some p⟩, .located, sought, out⟩ .take =
      some (.ok ⟨⟨false, some (p.passFrame s.directory)⟩, .ready, sought,
        out ++ [Frame.get (s.directory.buffer p.pageNum) p.position]⟩) := rfl
  exact ⟨_, .head (a := .reader i .next) trivial (step_withReader [] s i _ hnext)
    (.head (a := .reader i .look) trivial (step_withReader [] s i _ hlook)
      (.head (a := .reader i .take) trivial (step_withReader [] s i _ htake) (.refl _)))⟩

theorem reaches_end (hd : Shows s.directory v) (i : ℕ) {j k : ℕ} {q : PageView}
    (hq : v[j]? = some q) (hk : k ≤ q.frames.length) (sought : Int64) (out : List Frame) :
    ∃ out', Execution.Reaches (System.step []) Permitted
      (s.withReader i ⟨⟨false, some ⟨numberOf j, endOf pageInitPosition (q.frames.take k), k⟩⟩,
        .ready, sought, out⟩)
      (s.withReader i ⟨⟨false, some ⟨numberOf j, q.tail, q.frames.length⟩⟩, .ready, sought,
        out'⟩) := by
  induction hleft : q.frames.length - k generalizing k out with
  | zero =>
    obtain rfl : k = q.frames.length := by omega
    rw [List.take_length]
    exact ⟨out, .refl _⟩
  | succ left ih =>
    have hlt : k < q.frames.length := by omega
    obtain ⟨f, hread⟩ := reads_frame s i ((written_iff hd hq hk).mpr hlt) sought out
    rw [passFrame_eq (hd.page j q hq) hlt] at hread
    obtain ⟨out', hrest⟩ := ih hlt (out ++ [f]) (by omega)
    exact ⟨out', hread.trans hrest⟩

theorem reaches_end_of_first (hd : Shows s.directory v) (i : ℕ) {q : PageView}
    (hq : v[0]? = some q) (hphase : q.phase ≠ .fresh) (hready : (s.readers i).reading = .ready) :
    ∃ out, Execution.Reaches (System.step []) Permitted s
      (s.withReader i ⟨⟨false, some ⟨numberOf 0, q.tail, q.frames.length⟩⟩, .ready,
        timeFromFirst, out⟩) := by
  have hseek : Reader.step s.directory (s.readers i) (.seek timeFromFirst) =
      some (.ok { s.readers i with reading := .loading timeFromFirst (numberOf 0) }) := by
    rw [Reader.step, if_pos hready, Reading.ofSeek, if_neg (by decide), if_pos rfl,
      hd.firstPageNum_eq]
  have hload : Reader.step s.directory
      { s.readers i with reading := .loading timeFromFirst (numberOf 0) } .load =
        some (.ok ⟨⟨false, some (Page.start (numberOf 0))⟩, .seeking timeFromFirst, timeFromFirst,
          []⟩) := by
    change some ((Journal.seekPage s.directory (numberOf 0)).map _) = _
    rw [Journal.seekPage, loadReading_of_get hd hq hphase]
    rfl
  have hstays : Journal.seekPasses s.directory timeFromFirst (Page.start (numberOf 0)) = false := by
    rw [Journal.seekPasses, decide_eq_false_iff_not]
    rintro ⟨-, hlast | ⟨hnot, -⟩⟩
    · exact absurd hlast (by decide)
    · exact hnot rfl
  have hpass : Reader.step s.directory ⟨⟨false, some (Page.start (numberOf 0))⟩,
      .seeking timeFromFirst, timeFromFirst, []⟩ .pass =
        some (.ok ⟨⟨false, some (Page.start (numberOf 0))⟩, .ready, timeFromFirst, []⟩) := by
    change some (Except.ok (if Journal.seekPasses s.directory timeFromFirst _ then _ else _)) = _
    rw [hstays]
    rfl
  obtain ⟨out, hreaches⟩ := reaches_end hd i hq (Nat.zero_le _) timeFromFirst []
  have hsought := step_withReader [] s i (s.readers i) hseek
  rw [withReader_readers] at hsought
  exact ⟨out, .head (a := .reader i (.seek timeFromFirst)) trivial hsought
    (.head (a := .reader i .load) trivial (step_withReader [] s i _ hload)
      (.head (a := .reader i .pass) trivial (step_withReader [] s i _ hpass) hreaches))⟩

theorem loadWriting_stores {d : Directory} {jname : List UInt8} {n : Int16} {nano : Int64}
    {stores : List Store} {newPage : Page}
    (h : Page.loadWriting d jname n nano = .ok (stores, newPage)) :
    (∀ m ≠ n, (d.applyAll stores).buffer m = d.buffer m) ∧ n ∈ (d.applyAll stores).pageNums ∧
      (d.applyAll stores).pageNums.length ≤ d.pageNums.length + 1 := by
  have hopen : ∀ m ≠ n, (d.applyAll (Page.loadPageBuffer n)).buffer m = d.buffer m := by
    intro m hm
    change Function.update (d.apply (.openPage n)).buffer n _ m = d.buffer m
    rw [Function.update_of_ne hm, Directory.apply]
    split_ifs
    · rfl
    · exact Function.update_of_ne hm _ _
  have hnums : n ∈ (d.applyAll (Page.loadPageBuffer n)).pageNums ∧
      (d.applyAll (Page.loadPageBuffer n)).pageNums.length ≤ d.pageNums.length + 1 := by
    change n ∈ (d.apply (.openPage n)).pageNums ∧
      (d.apply (.openPage n)).pageNums.length ≤ d.pageNums.length + 1
    rw [Directory.apply]
    split_ifs with hmem
    · exact ⟨hmem, Nat.le_succ _⟩
    · exact ⟨List.mem_append_right _ List.mem_cons_self, by rw [List.length_append]; rfl⟩
  rw [Page.loadWriting] at h
  split_ifs at h with hraw
  · cases h
    refine ⟨fun m hm => ?_, ?_⟩
    · rw [applyAll_append, buffer_onPage_of_ne _ hm, hopen m hm]
    · rw [applyAll_append, pageNums_onPage]
      exact hnums
  · cases hversion : Page.checkVersion ((d.applyAll (Page.loadPageBuffer n)).buffer n) with
    | error text =>
      rw [hversion] at h
      cases h
    | ok =>
      rw [hversion] at h
      cases h
      exact ⟨hopen, hnums⟩

theorem reaches_killed (hwriter : s.writer = ⟨[], .ready page⟩)
    (hunwritable : (page.passWrittenFrame s.directory).isWritable s.directory ≠ true)
    {stores : List Store} {newPage : Page} (hload : Page.loadWriting s.directory []
      ((page.passWrittenFrame s.directory).pageNum + 1) 0 = .ok (stores, newPage))
    (hfew : s.directory.pageNums.length + 1 < 2 ^ 15) :
    ∃ t, Execution.Reaches (System.step []) Permitted s t ∧ t.writer = {} ∧
      t.readers = s.readers ∧ t.directory = s.directory.applyAll stores := by
  have hcall := step_call [] hwriter .writeFrame bulk
  obtain ⟨s₂, hs₂⟩ : ∃ s₂ : System, s₂ = { s with
      writer := ⟨[], .locating page (some (.writeFrame, bulk))⟩
      clock := bulk.nano
      sent := s.sent ++ [bulk] } := ⟨_, rfl⟩
  rw [← hs₂] at hcall
  have hwriter₂ : s₂.writer = ⟨[], .locating page (some (.writeFrame, bulk))⟩ := by rw [hs₂]
  have hdirectory : s₂.directory = s.directory := by rw [hs₂]
  have hreaders : s₂.readers = s.readers := by rw [hs₂]
  rw [← hdirectory] at hunwritable hload hfew ⊢
  rw [← hreaders]
  have hlocate := step_locate [] hwriter₂ 0 0
  rw [locate_next hunwritable hload] at hlocate
  obtain ⟨s₃, hlocate₃, rest, control, hwriter₃, hdirectory₃, hreaders₃⟩ :
      ∃ s₃, s₂.step [] (.writer (.locate 0 0)) = some s₃ ∧ ∃ rest control,
        s₃.writer = ⟨stores ++ rest, control⟩ ∧ s₃.directory = s₂.directory ∧
          s₃.readers = s₂.readers := ⟨_, hlocate, _, _, rfl, rfl, rfl⟩
  rw [← hdirectory₃, ← hreaders₃]
  have hstored := permitted_of_timely [] (timely_of_working [] (reaches_stores [] s₃ hwriter₃))
  exact ⟨_, .head (a := .writer (.call .writeFrame bulk)) length_bulk.le hcall
    (.head (a := .writer (.locate 0 0)) hfew hlocate₃ (hstored.tail (.writer .crash) trivial rfl)),
    rfl, rfl, rfl⟩

/-- The first page is full and open, the writer was killed after it had made the second one, and
a reader is at the end of the first. -/
theorem reaches_open_page :
    ∃ s p, Execution.Reaches (System.step []) Permitted {} s ∧ s.writer = {} ∧
      (s.readers 0).journal = ⟨false, some p⟩ ∧ (s.readers 0).reading = .ready ∧
      p.getCurStatus s.directory = journalFrameStatusRaw ∧
      p.pageNum + 1 ∈ s.directory.pageNums ∧ s.directory.pageNums.length ≤ 2 := by
  obtain ⟨s₀, page, hreach, hwriter, hsent, hinterrupted, hpages, hreaders⟩ :=
    reaches_single 63 le_rfl
  obtain ⟨v, v', hrunning⟩ := running_of_permitted (by decide) hreach
  obtain rfl := hrunning.writing.eq_of_nil hwriter
  have hw := hrunning.writing
  have hlength : v'.length ≤ 1 := hw.shows.length_pageNums ▸ hpages
  have hlog := (hw.exact hinterrupted).1
  rw [hwriter, Control.rest_ready, List.append_nil, hsent] at hlog
  have hcontrol := hw.control
  rw [hwriter] at hcontrol
  obtain ⟨i, q, hwithin⟩ := hcontrol
  have hlast := hwithin.last
  obtain ⟨-, rfl, hframes⟩ := single_page (by omega) hwithin
  have hopen : q.phase ≠ .fresh := by simp [hwithin.phase]
  have hstatus := status_at hw.shows hwithin.get le_rfl
  rw [List.take_length, if_neg (lt_irrefl _), hwithin.phase, if_neg (by decide)] at hstatus
  have hfull : journalPageSize ≤ q.tail + pageMinHeadroom := by
    rw [PageView.tail, ← hframes, hlog, endOf_bulk]
    decide
  -- the reader goes to the end of the page
  obtain ⟨out, hread⟩ := reaches_end_of_first hw.shows 0 hwithin.get hopen (by rw [hreaders])
  -- the writer makes the next page, and is killed before it closes this one
  obtain ⟨stores, w, r, hload, -⟩ := load_next (show ([] : List UInt8).length < 30 by decide)
    hw.shows hwithin.last hwithin.get hwithin.phase hfull (by omega) 0 0
  obtain ⟨hothers, hmem, hcount⟩ := loadWriting_stores hload
  have hpage := (hwithin.passWritten hw.shows).1
  have hnum : (page.passWrittenFrame s₀.directory).pageNum + 1 = numberOf 1 := by
    rw [hpage, numberOf_succ]
  have hunwritable : (page.passWrittenFrame s₀.directory).isWritable s₀.directory ≠ true :=
    fun hwritable => absurd ((hwithin.isWritable_iff hw.shows).mp hwritable) (not_lt.mpr hfull)
  obtain ⟨t, hkilled, hdown, hstays, hdirectory⟩ := reaches_killed (s := s₀.withReader 0
    ⟨⟨false, some ⟨numberOf 0, q.tail, q.frames.length⟩⟩, .ready, timeFromFirst, out⟩)
    hwriter hunwritable (by rw [← hnum] at hload; exact hload)
    (Nat.lt_of_le_of_lt (Nat.add_le_add_right hpages 1) (by decide))
  have hzero : numberOf 0 ≠ numberOf (0 + 1) := by decide
  refine ⟨t, ⟨numberOf 0, q.tail, q.frames.length⟩, (hreach.trans hread).trans hkilled, hdown,
    ?_, ?_, ?_, ?_, ?_⟩
  · rw [hstays, withReader_self]
  · rw [hstays, withReader_self]
  · rw [Page.getCurStatus, hdirectory]
    change ((s₀.directory.applyAll stores).buffer (numberOf 0)) q.tail = _
    rw [hothers _ hzero]
    exact hstatus
  · rw [hdirectory]
    exact hmem
  · rw [hdirectory]
    exact hcount.trans (Nat.add_le_add_right hpages 1)

end Bulk

end Yijinjing
