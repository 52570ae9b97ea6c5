import FlareTrader.JournalWriting

/-! A reader of a journal: it is before one of the frames of a page, and what it has returned
is what stands before that one, behind the frames that it skipped when it was sought. -/

namespace Yijinjing

open ByteMemory SegmentedLog

structure At (v : View) (r : Reader) (skipped : List Frame) (i k : ℕ) (q : PageView) : Prop where
  get : v[i]? = some q
  loaded : q.phase ≠ .fresh
  le : k ≤ q.frames.length
  journal_eq : r.journal =
    ⟨false, some ⟨numberOf i, endOf pageInitPosition (q.frames.take k), k⟩⟩
  upTo_eq : skipped ++ r.out = upTo v.segments i k
  located : r.reading = .located → k < q.frames.length

/-- The reader has no page, because it waits for the first or is expired, or is on one. -/
inductive Placed (v : View) (r : Reader) (skipped : List Frame) : Prop where
  | waiting (hjournal : r.journal = ⟨false, none⟩) (hout : r.out = []) (hskipped : skipped = [])
  | expired (hjournal : r.journal = ⟨true, none⟩) (hlog : skipped ++ r.out <+: v.log)
  | paged {i k : ℕ} {q : PageView} (hat : At v r skipped i k q)

/-- What was passed over when a journal was sought to a time: nothing at the beginning of the
journal, and only frames from before any other time. -/
structure PassedOver (time : Int64) (skipped : List Frame) : Prop where
  first : time = timeFromFirst → skipped = []
  below : time ≠ timeToLast → ∀ f ∈ skipped, f.nano < time

/-- The page that `seekTime` is about to load: the first page, or one that was started before the
time. -/
structure Chosen (timed : Prop) (v : View) (time : Int64) (n : Int16) : Prop where
  first : time = timeFromFirst → n = numberOf 0
  below : timed → time ≠ timeToLast → n = numberOf 0 ∨
    ∃ i q, n = numberOf i ∧ v[i]? = some q ∧ q.phase ≠ .fresh ∧ q.startNano < time

/-- What holds of a reader between any two steps. Where the clock never goes back, the frames
it skipped are from before the time that it was sought to. -/
structure Reader.Ok (timed : Prop) (v : View) (r : Reader) (skipped : List Frame) : Prop where
  placed : Placed v r skipped
  first : r.sought = timeFromFirst → skipped = []
  below : timed → r.sought ≠ timeToLast → ∀ f ∈ skipped, f.nano < r.sought
  choosing : ∀ time ns, r.reading = .choosing time ns → time ≠ timeFromFirst
  loading : ∀ time n, r.reading = .loading time n → Chosen timed v time n
  seeking : ∀ time, r.reading = .seeking time → r.out = [] ∧ r.sought = time

section Reading

variable {d : Directory} {v v' : View} {r r' : Reader} {skipped : List Frame} {timed : Prop}
  {i k : ℕ} {q : PageView}

theorem Reader.ok_start (timed : Prop) (v : View) : Reader.Ok timed v {} [] where
  placed := .waiting rfl rfl rfl
  first := fun _ => rfl
  below := fun _ _ _ h => by cases h
  choosing := fun _ _ h => by cases h
  loading := fun _ _ h => by cases h
  seeking := fun _ h => by cases h

theorem Reader.Ok.passedOver (h : r.Ok True v skipped) : PassedOver r.sought skipped :=
  ⟨h.first, h.below trivial⟩

theorem Reader.Ok.out_prefix (h : r.Ok timed v skipped) : skipped ++ r.out <+: v.log := by
  cases h.placed with
  | waiting hjournal hout hskipped =>
    rw [hout, hskipped]
    exact List.nil_prefix
  | expired hjournal hlog => exact hlog
  | paged hat =>
    rw [hat.upTo_eq]
    exact upTo_prefix _ _ _

theorem At.mono (h : At v r skipped i k q) (hgrows : v.Grows v') :
    ∃ q', At v' r skipped i k q' := by
  obtain ⟨q', hq', hphase, -⟩ := hgrows.loaded i q h.get h.loaded
  obtain ⟨fs, hfs, hprefix⟩ := hgrows.grown.longer i q.frames (segments_getElem? h.get)
  have hframes : q.frames <+: q'.frames := by
    rw [segments_getElem? hq'] at hfs
    cases hfs
    exact hprefix
  have hlength := hframes.length_le
  have htake : q'.frames.take k = q.frames.take k := by
    obtain ⟨more, hmore⟩ := hframes
    rw [← hmore, List.take_append_of_le_length h.le]
  refine ⟨q', hq', hphase, h.le.trans hlength, ?_, ?_, fun hlocated =>
    (h.located hlocated).trans_le hlength⟩
  · rw [htake]
    exact h.journal_eq
  · rw [h.upTo_eq, hgrows.grown.upTo_eq (segments_getElem? h.get) h.le]

theorem Chosen.mono {time : Int64} {n : Int16} (h : Chosen timed v time n)
    (hgrows : v.Grows v') : Chosen timed v' time n := by
  refine ⟨h.first, fun hclock hlast => ?_⟩
  rcases h.below hclock hlast with hzero | ⟨i, q, hn, hq, hphase, hstart⟩
  · exact Or.inl hzero
  · obtain ⟨q', hq', hphase', hnano⟩ := hgrows.loaded i q hq hphase
    exact Or.inr ⟨i, q', hn, hq', hphase', hnano ▸ hstart⟩

theorem Reader.Ok.mono (h : r.Ok timed v skipped) (hgrows : v.Grows v') :
    r.Ok timed v' skipped := by
  refine ⟨?_, h.first, h.below, h.choosing, fun time n hn => (h.loading time n hn).mono hgrows,
    h.seeking⟩
  cases h.placed with
  | waiting hjournal hout hskipped => exact .waiting hjournal hout hskipped
  | expired hjournal hlog => exact .expired hjournal (hlog.trans hgrows.log_prefix)
  | paged hat =>
    obtain ⟨q', hat'⟩ := hat.mono hgrows
    exact .paged hat'

theorem Shows.exists_of_mem (h : Shows d v) {n : Int16} (hn : n ∈ d.pageNums) :
    ∃ i q, n = numberOf i ∧ v[i]? = some q := by
  rw [h.pageNums_eq, List.mem_map] at hn
  obtain ⟨i, hi, rfl⟩ := hn
  rw [List.mem_range] at hi
  exact ⟨i, v[i], rfl, List.getElem?_eq_getElem hi⟩

theorem loadReading_of_get (h : Shows d v) (hq : v[i]? = some q) (hphase : q.phase ≠ .fresh) :
    Page.loadReading d (numberOf i) = .ok (some (Page.start (numberOf i))) := by
  have hi := lt_length hq
  have hfew := h.few
  have hpage := h.page i q hq
  have hthere : numberOf i ∈ d.pageNums := (h.mem_pageNums (by omega)).mpr hi
  have hsize := h.sized i q hq hphase
  rw [Page.loadReading, if_neg (not_not.mpr hthere), if_neg (by rw [hsize]; exact lt_irrefl _),
    if_neg fun hraw => hphase (hpage.status_iff.mp hraw), checkVersion_ok hpage]
  rfl

theorem loadReading_cases (h : Shows d v) (n : Int16) :
    Page.loadReading d n = .ok none ∨
      (∃ i q, n = numberOf i ∧ v[i]? = some q ∧ q.phase ≠ .fresh ∧
        Page.loadReading d n = .ok (some (Page.start n))) ∨
      Page.loadReading d n = .error .busError ∧ n ∈ d.pageNums ∧ d.size n < journalPageSize := by
  by_cases hthere : n ∈ d.pageNums
  · obtain ⟨i, q, rfl, hq⟩ := h.exists_of_mem hthere
    by_cases hphase : q.phase = .fresh
    · rw [Page.loadReading, if_neg (not_not.mpr hthere)]
      split_ifs with hsize hraw
      · exact Or.inr (Or.inr ⟨rfl, hthere, hsize⟩)
      · exact Or.inl rfl
      · exact absurd ((h.page i q hq).status_iff.mpr hphase) hraw
    · exact Or.inr (Or.inl ⟨i, q, rfl, hq, hphase, loadReading_of_get h hq hphase⟩)
  · left
    rw [Page.loadReading, if_pos hthere]

theorem status_at (hd : Shows d v) (hq : v[i]? = some q) (hle : k ≤ q.frames.length) :
    Page.getCurStatus d ⟨numberOf i, endOf pageInitPosition (q.frames.take k), k⟩ =
      if k < q.frames.length then journalFrameStatusWritten
      else if q.phase = .closed then journalFrameStatusPageEnd else journalFrameStatusRaw := by
  have hpage := hd.page i q hq
  rcases hle.lt_or_eq with hk | rfl
  · rw [if_pos hk]
    exact getCurStatus_written hpage hk
  · rw [if_neg (lt_irrefl _), List.take_length]
    exact hpage.tail_status

theorem written_iff (hd : Shows d v) (hq : v[i]? = some q) (hle : k ≤ q.frames.length) :
    Page.getCurStatus d ⟨numberOf i, endOf pageInitPosition (q.frames.take k), k⟩ =
      journalFrameStatusWritten ↔ k < q.frames.length := by
  rw [status_at hd hq hle]
  split_ifs with hk hclosed
  · exact iff_of_true rfl hk
  · exact iff_of_false (by decide) hk
  · exact iff_of_false (by decide) hk

theorem isAtPageEnd_iff (hd : Shows d v) (hq : v[i]? = some q) (hle : k ≤ q.frames.length) :
    Page.isAtPageEnd d ⟨numberOf i, endOf pageInitPosition (q.frames.take k), k⟩ = true ↔
      k = q.frames.length ∧ q.phase = .closed := by
  rw [Page.isAtPageEnd, decide_eq_true_eq, status_at hd hq hle]
  split_ifs with hk hclosed
  · exact iff_of_false (by decide) fun h => absurd h.1 hk.ne
  · exact iff_of_true rfl ⟨by omega, hclosed⟩
  · exact iff_of_false (by decide) fun h => hclosed h.2

theorem nextEntry_lt (hd : Shows d v) (hq : v[i]? = some q) (hk : k < q.frames.length) :
    endOf pageInitPosition (q.frames.take k) + basicFrameHeaderLength ≤
        Frame.getNextEntry (d.buffer (numberOf i)) (endOf pageInitPosition (q.frames.take k)) ∧
      Frame.getNextEntry (d.buffer (numberOf i)) (endOf pageInitPosition (q.frames.take k)) <
        journalPageSize := by
  have hpage := hd.page i q hq
  have hlength := q.frames[k].header_le_length
  rw [(hpage.chain.get hk).2.nextEntry_eq, ← endOf_take_succ hk]
  refine ⟨?_, (endOf_take_le _ _ _).trans_lt hpage.tail_lt⟩
  rw [endOf_take_succ hk]
  exact Nat.add_le_add_left hlength _

theorem headerNano_of_inited (hd : Shows d v) {n : Int16} (hn : d.Inited n) (unread : Int64) :
    ∃ i q, n = numberOf i ∧ v[i]? = some q ∧ q.phase ≠ .fresh ∧
      d.headerNano unread n = q.startNano := by
  obtain ⟨hthere, hsize, hstatus⟩ := hn
  obtain ⟨i, q, rfl, hq⟩ := hd.exists_of_mem hthere
  have hphase : q.phase ≠ .fresh := fun hfresh =>
    hstatus ((hd.page i q hq).status_iff.mpr hfresh)
  refine ⟨i, q, rfl, hq, hphase, ?_⟩
  have hlong : ¬ d.size (numberOf i) < pageInitPosition := by
    rw [hsize]
    decide
  rw [Directory.headerNano, if_neg (not_or.mpr ⟨hlong, hstatus⟩)]
  exact (hd.page i q hq).startNano_eq hphase

theorem chosen_first (timed : Prop) (v : View) (time : Int64) :
    Chosen timed v time (numberOf 0) :=
  ⟨fun _ => rfl, fun _ _ => Or.inl rfl⟩

theorem Reader.Ok.setReading (h : r.Ok timed v skipped) {reading : Reading}
    (hchoosing : ∀ time ns, reading = .choosing time ns → time ≠ timeFromFirst)
    (hloading : ∀ time n, reading = .loading time n → Chosen timed v time n)
    (hseeking : ∀ time, reading ≠ .seeking time)
    (hlocated : ∀ i k q, At v r skipped i k q → reading = .located → k < q.frames.length) :
    Reader.Ok timed v { r with reading := reading } skipped := by
  refine ⟨?_, h.first, h.below, hchoosing, hloading, fun time htime => absurd htime (hseeking time)⟩
  cases h.placed with
  | waiting hjournal hout hskipped => exact .waiting hjournal hout hskipped
  | expired hjournal hlog => exact .expired hjournal hlog
  | paged hat =>
    exact .paged ⟨hat.get, hat.loaded, hat.le, hat.journal_eq, hat.upTo_eq, hlocated _ _ _ hat⟩

theorem Reader.Ok.setRest (h : r.Ok timed v skipped) {reading : Reading}
    (hrest : reading = .ready ∨ reading = .checked ∨ reading = .killed) :
    Reader.Ok timed v { r with reading := reading } skipped := by
  refine h.setReading (fun _ _ hr => ?_) (fun _ _ hr => ?_) (fun _ hr => ?_) fun _ _ _ _ hr => ?_
  all_goals
    rw [hr] at hrest
    rcases hrest with hrest | hrest | hrest <;> cases hrest

theorem Reader.Ok.setLoading (h : r.Ok timed v skipped) {time : Int64} {n : Int16}
    (hchosen : Chosen timed v time n) :
    Reader.Ok timed v { r with reading := .loading time n } skipped := by
  refine h.setReading (fun _ _ hr => by cases hr) (fun _ _ hr => ?_) (fun _ hr => by cases hr)
    fun _ _ _ _ hr => by cases hr
  cases hr
  exact hchosen

theorem Reader.Ok.setChoosing (h : r.Ok timed v skipped) {time : Int64} {ns : List Int16}
    (htime : time ≠ timeFromFirst) :
    Reader.Ok timed v { r with reading := .choosing time ns } skipped := by
  refine h.setReading (fun _ _ hr => ?_) (fun _ _ hr => by cases hr) (fun _ hr => by cases hr)
    fun _ _ _ _ hr => by cases hr
  cases hr
  exact htime

theorem Reader.Ok.seek (h : r.Ok timed v skipped) (hd : Shows d v) (time : Int64) :
    Reader.Ok timed v { r with reading := .ofSeek d time } skipped := by
  unfold Reading.ofSeek
  split_ifs with hlast hfirst
  · refine h.setLoading ⟨fun hfirst => ?_, fun _ hnot => absurd hlast hnot⟩
    rw [hlast] at hfirst
    exact absurd hfirst (by decide)
  · refine h.setLoading ?_
    rw [hd.firstPageNum_eq]
    exact chosen_first timed v time
  · exact h.setChoosing hfirst

theorem Reader.Ok.header (h : r.Ok timed v skipped) (hd : Shows d v) {time : Int64} {n : Int16}
    {ns : List Int16} (hreading : r.reading = .choosing time (n :: ns))
    (hinited : timed → d.Inited n) (unread : Int64) :
    Reader.Ok timed v { r with
      reading :=
        if d.headerNano unread n < time then .loading time n else .choosing time ns } skipped := by
  have hnot := h.choosing time _ hreading
  split_ifs with hbefore
  · refine h.setLoading ⟨fun hfirst => absurd hfirst hnot, fun hclock _ => Or.inr ?_⟩
    obtain ⟨i, q, hn, hq, hphase, hnano⟩ := headerNano_of_inited hd (hinited hclock) unread
    exact ⟨i, q, hn, hq, hphase, hnano ▸ hbefore⟩
  · exact h.setChoosing hnot

theorem seekPage_fault (hd : Shows d v) {n : Int16} {fault : Fault}
    (hj : Journal.seekPage d n = .error fault) :
    fault = .busError ∧ n ∈ d.pageNums ∧ d.size n < journalPageSize := by
  rw [Journal.seekPage] at hj
  rcases loadReading_cases hd n with hnone | ⟨i, q, -, -, -, hsome⟩ | ⟨hbus, hthere, hsize⟩
  · rw [hnone] at hj
    cases hj
  · rw [hsome] at hj
    cases hj
  · rw [hbus] at hj
    cases hj
    exact ⟨rfl, hthere, hsize⟩

theorem ok_of_seekPage (hd : Shows d v) (htimed : timed → Timed v) {time : Int64} {n : Int16}
    (hchosen : Chosen timed v time n) {j : Journal} (hj : Journal.seekPage d n = .ok j) :
    ∃ skipped, Reader.Ok timed v ⟨j, .seeking time, time, []⟩ skipped := by
  have hseeking : ∀ t, Reading.seeking time = .seeking t → ([] : List Frame) = [] ∧ time = t := by
    intro t ht
    cases ht
    exact ⟨rfl, rfl⟩
  rw [Journal.seekPage] at hj
  rcases loadReading_cases hd n with hnone | ⟨i, q, rfl, hq, hphase, hsome⟩ | ⟨hbus, -⟩
  · rw [hnone] at hj
    cases hj
    exact ⟨[], .expired rfl List.nil_prefix, fun _ => rfl, fun _ _ _ h => (by cases h),
      fun _ _ h => (by cases h), fun _ _ h => (by cases h), hseeking⟩
  · have hi := lt_length hq
    have hfew := hd.few
    have hfirst : numberOf i = numberOf 0 → upTo v.segments i 0 = [] := by
      intro hzero
      rw [numberOf_inj (by omega) (by omega) hzero]
      rfl
    rw [hsome] at hj
    cases hj
    refine ⟨upTo v.segments i 0, .paged ⟨hq, hphase, Nat.zero_le _, rfl, List.append_nil _,
      fun hlocated => by cases hlocated⟩, fun htime => hfirst (hchosen.first htime),
      fun hclock hlast f hf => ?_, fun _ _ h => (by cases h), fun _ _ h => (by cases h), hseeking⟩
    rcases hchosen.below hclock hlast with hzero | ⟨i', q', hn, hq', hphase', hstart⟩
    · rw [hfirst hzero] at hf
      cases hf
    · have hi' := lt_length hq'
      obtain rfl := numberOf_inj (by omega) (by omega) hn
      rw [hq] at hq'
      cases hq'
      exact Int64.lt_of_le_of_lt (htimed hclock i q hq hphase f hf) hstart
  · rw [hbus] at hj
    cases hj

theorem Reader.Ok.pass (h : r.Ok timed v skipped) (hd : Shows d v) {time : Int64}
    (hreading : r.reading = .seeking time) {p : Page} (hp : r.journal.curPage = some p)
    (hpasses : Journal.seekPasses d time p = true) :
    ∃ skipped', Reader.Ok timed v
      { r with journal := { r.journal with curPage := some (p.passFrame d) } } skipped' := by
  obtain ⟨hout, hsought⟩ := h.seeking time hreading
  rw [Journal.seekPasses, decide_eq_true_eq] at hpasses
  obtain ⟨hwritten, htime⟩ := hpasses
  cases h.placed with
  | waiting hjournal hout' hskipped => rw [hjournal] at hp; cases hp
  | expired hjournal hlog => rw [hjournal] at hp; cases hp
  | @paged i k q hat =>
    have hpage := hd.page i q hat.get
    obtain rfl : p = ⟨numberOf i, endOf pageInitPosition (q.frames.take k), k⟩ := by
      rw [hat.journal_eq] at hp
      exact (Option.some.inj hp).symm
    have hk := (written_iff hd hat.get hat.le).mp hwritten
    have hupTo := upTo_succ (segments_getElem? hat.get) hk
    have hskipped : skipped = upTo v.segments i k := by
      rw [← hat.upTo_eq, hout, List.append_nil]
    refine ⟨skipped ++ [q.frames[k]], .paged ⟨hat.get, hat.loaded, hk, ?_, ?_, fun hlocated => ?_⟩,
      fun hfirst => ?_, fun hclock hlast f hf => ?_, h.choosing, h.loading, h.seeking⟩
    · rw [passFrame_eq hpage hk, hat.journal_eq]
    · change skipped ++ [q.frames[k]] ++ r.out = _
      rw [hout, List.append_nil, hskipped, hupTo]
    · change r.reading = .located at hlocated
      rw [hreading] at hlocated
      cases hlocated
    · have hnot : time ≠ timeFromFirst := by
        rcases htime with hlast | ⟨hnot, -⟩
        · rw [hlast]
          decide
        · exact hnot
      exact absurd (hsought.symm.trans hfirst) hnot
    · rcases List.mem_append.mp hf with hf | hf
      · exact h.below hclock hlast f hf
      · rw [List.mem_singleton.mp hf]
        change r.sought ≠ timeToLast at hlast
        change _ < r.sought
        rw [hsought] at hlast ⊢
        rw [← (hpage.chain.get hk).2.nano_eq]
        exact (htime.resolve_left hlast).2

/-- Where a page is loaded, it is the one after the reader's, or the first. The page after the
reader's has its size. -/
theorem Reader.Ok.next (h : r.Ok timed v skipped) (hd : Shows d v)
    (hneeds : r.journal.needsPage d = true) (hexpired : r.journal.expired = false) :
    (∃ j, r.journal.loadNextPage d = .ok j ∧
      Reader.Ok timed v { r with journal := j, reading := .checked } skipped) ∨
    r.journal.loadNextPage d = .error .busError ∧ ∃ n ∈ d.pageNums, d.size n < journalPageSize := by
  have hrest : ∀ {j}, Placed v { r with journal := j, reading := .checked } skipped →
      Reader.Ok timed v { r with journal := j, reading := .checked } skipped := fun hplaced =>
    ⟨hplaced, h.first, h.below, fun _ _ hr => (by cases hr), fun _ _ hr => (by cases hr),
      fun _ hr => (by cases hr)⟩
  cases h.placed with
  | expired hjournal hlog => rw [hjournal] at hexpired; cases hexpired
  | waiting hjournal hout hskipped =>
    have hload : r.journal.loadNextPage d =
        (Page.loadReading d (numberOf 0)).map fun page => { r.journal with curPage := page } := by
      rw [Journal.loadNextPage, hexpired, hjournal]
      rfl
    rw [hload, hjournal]
    rcases loadReading_cases hd (numberOf 0) with hnone | ⟨i, q, hn, hq, hphase, hsome⟩ |
      ⟨hbus, hthere, hsize⟩
    · rw [hnone]
      exact Or.inl ⟨_, rfl, hrest (.waiting rfl hout hskipped)⟩
    · have hi := lt_length hq
      have hfew := hd.few
      obtain rfl : 0 = i := numberOf_inj (by decide) (by omega) hn
      rw [hsome]
      refine Or.inl ⟨_, rfl, hrest (.paged ⟨hq, hphase, Nat.zero_le _, rfl, ?_, fun hlocated => ?_⟩)⟩
      · change skipped ++ r.out = _
        rw [hout, hskipped]
        rfl
      · cases hlocated
    · rw [hbus]
      exact Or.inr ⟨rfl, _, hthere, hsize⟩
  | @paged i k q hat =>
    have hend : k = q.frames.length ∧ q.phase = .closed := by
      rw [Journal.needsPage, hat.journal_eq] at hneeds
      exact (isAtPageEnd_iff hd hat.get hat.le).mp hneeds
    obtain ⟨rfl, hclosed⟩ := hend
    obtain ⟨q', hq', hphase⟩ := hd.closed_next i q hat.get hclosed
    have hload : r.journal.loadNextPage d = (Page.loadReading d (numberOf (i + 1))).map fun page =>
        { r.journal with curPage := page } := by
      rw [Journal.loadNextPage, hexpired, ← numberOf_succ, hat.journal_eq]
      rfl
    rw [hload, loadReading_of_get hd hq' hphase, hat.journal_eq]
    refine Or.inl ⟨_, rfl, hrest (.paged ⟨hq', hphase, Nat.zero_le _, rfl, ?_, fun hlocated => ?_⟩)⟩
    · change skipped ++ r.out = _
      rw [hat.upTo_eq, upTo_length (segments_getElem? hat.get)]
    · cases hlocated

theorem Reader.Ok.take (h : r.Ok timed v skipped) (hd : Shows d v) (hlocated : r.reading = .located)
    {p : Page} (hp : r.journal.curPage = some p) :
    Reader.Ok timed v { r with
      journal := { r.journal with curPage := some (p.passFrame d) }
      reading := .ready
      out := r.out ++ [Frame.get (d.buffer p.pageNum) p.position] } skipped := by
  refine ⟨?_, h.first, h.below, fun _ _ hr => (by cases hr), fun _ _ hr => (by cases hr),
    fun _ hr => (by cases hr)⟩
  cases h.placed with
  | waiting hjournal hout hskipped => rw [hjournal] at hp; cases hp
  | expired hjournal hlog => rw [hjournal] at hp; cases hp
  | @paged i k q hat =>
    have hpage := hd.page i q hat.get
    have hk := hat.located hlocated
    obtain rfl : p = ⟨numberOf i, endOf pageInitPosition (q.frames.take k), k⟩ := by
      rw [hat.journal_eq] at hp
      exact (Option.some.inj hp).symm
    refine .paged ⟨hat.get, hat.loaded, hk, ?_, ?_, fun hready => by cases hready⟩
    · rw [passFrame_eq hpage hk, hat.journal_eq]
    · rw [upTo_succ (segments_getElem? hat.get) hk, ← hat.upTo_eq, List.append_assoc]
      rw [(hpage.chain.get hk).2.get_eq]

/-- A step of a reader keeps what it is about, and throws nothing. It ends in a bus error where
it loads a page file that was made and not stretched yet. -/
theorem Reader.Ok.step (h : r.Ok timed v skipped) (hd : Shows d v) (htimed : timed → Timed v)
    {a : ReaderAction} (hinited : timed → ∀ unread time n ns, a = .header unread →
      r.reading = .choosing time (n :: ns) → d.Inited n)
    {result : Except Fault Reader} (hstep : r.step d a = some result) :
    (∃ r' skipped', result = .ok r' ∧ Reader.Ok timed v r' skipped') ∨
      result = .error .busError ∧ ∃ n ∈ d.pageNums, d.size n < journalPageSize := by
  cases Reader.step_cases hstep with
  | seek time => exact Or.inl ⟨_, skipped, rfl, h.seek hd time⟩
  | lastHeader unread time =>
    exact Or.inl ⟨_, skipped, rfl, h.setLoading (chosen_first timed v time)⟩
  | header unread time n ns hreading =>
    exact Or.inl ⟨_, skipped, rfl, h.header hd hreading
      (fun hclock => hinited hclock unread time n ns rfl hreading) unread⟩
  | load time n j hreading hpage =>
    obtain ⟨skipped', hok⟩ := ok_of_seekPage hd htimed (h.loading time n hreading) hpage
    exact Or.inl ⟨_, skipped', rfl, hok⟩
  | loadFault time n fault hreading hpage =>
    obtain ⟨rfl, hthere⟩ := seekPage_fault hd hpage
    exact Or.inr ⟨rfl, n, hthere⟩
  | pass time p hreading hp hpasses =>
    obtain ⟨skipped', hok⟩ := h.pass hd hreading hp hpasses
    exact Or.inl ⟨_, skipped', rfl, hok⟩
  | arrive time => exact Or.inl ⟨_, skipped, rfl, h.setRest (Or.inl rfl)⟩
  | expired => exact Or.inl ⟨r, skipped, rfl, h⟩
  | nextPage j hready hexpired hneeds hpage =>
    rcases h.next hd hneeds hexpired with ⟨j', hload, hok⟩ | ⟨hbus, -⟩
    · rw [hload] at hpage
      cases hpage
      exact Or.inl ⟨_, skipped, rfl, hok⟩
    · rw [hbus] at hpage
      cases hpage
  | nextPageFault fault hready hexpired hneeds hpage =>
    rcases h.next hd hneeds hexpired with ⟨j, hload, -⟩ | ⟨hbus, hthere⟩
    · rw [hload] at hpage
      cases hpage
    · rw [hbus] at hpage
      cases hpage
      exact Or.inr ⟨rfl, hthere⟩
  | samePage => exact Or.inl ⟨_, skipped, rfl, h.setRest (Or.inr (Or.inl rfl))⟩
  | found hreading hfound =>
    refine Or.inl ⟨_, skipped, rfl, h.setReading (fun _ _ hr => by cases hr)
      (fun _ _ hr => by cases hr) (fun _ hr => by cases hr) fun i k q hat _ => ?_⟩
    -- only a frame that is marked as written can be located
    rw [hat.journal_eq, Option.bind_some, Page.locateReadableFrame] at hfound
    split_ifs at hfound with hwritten
    · exact (written_iff hd hat.get hat.le).mp hwritten
    · cases hfound
  | nothing => exact Or.inl ⟨_, skipped, rfl, h.setRest (Or.inl rfl)⟩
  | take p hreading hp => exact Or.inl ⟨_, skipped, rfl, h.take hd hreading hp⟩
  | expire =>
    exact Or.inl ⟨_, skipped, rfl, .expired rfl h.out_prefix, h.first, h.below, h.choosing,
      h.loading, h.seeking⟩

theorem Reader.Ok.killed (h : r.Ok timed v skipped) :
    Reader.Ok timed v { r with reading := .killed } skipped :=
  h.setRest (Or.inr (Or.inr rfl))

end Reading

end Yijinjing
