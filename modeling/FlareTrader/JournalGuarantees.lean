import FlareTrader.JournalProgress

/-! What the readers of a journal can rely on, whatever the order of the steps is and wherever
the writer is killed. -/

namespace Yijinjing

open ByteMemory SegmentedLog StreamMerge Execution

section Greetings

def hello : Frame := ⟨3, 1, 1, [104, 105]⟩

def goodbye : Frame := ⟨5, 2, 1, [98, 121, 101]⟩

def greetings : List Frame := [hello, goodbye]

theorem reaches_greetings (time : Int64) :
    ∃ s, Reaches (System.step []) Timely {} s ∧ s.writer.atRest = true ∧ s.sent = greetings ∧
      s.returned = greetings ∧ s.interrupted = false ∧ s.readers 1 = {} ∧
      (s.readers 0).sought = time ∧ ∃ skipped, skipped ++ (s.readers 0).out = greetings ∧
        PassedOver time skipped := by
  obtain ⟨s, h, hrest, hsent, hreturned, hinterrupted, hreaders⟩ :=
    @reaches_written [] (by decide) .writeFrame greetings (by decide) (by decide) (by decide)
      (by decide)
  obtain ⟨v, v', hrunning⟩ := running_of_timely (by decide) h
  obtain ⟨hlog, hsealed⟩ := hrunning.quiet hinterrupted hrest
  have hshows := hrunning.writing.shows
  obtain ⟨j, skipped, rest, hseek, hremaining, hsplit, hskipped⟩ := reaches_seekTime []
    (i := 0) hshows hsealed (by rw [hreaders]) time
  obtain ⟨r, hread, -, hsought, hout, -⟩ :=
    reads_all [] hshows hsealed 0 (r := ⟨j, .ready, time, []⟩) hremaining rfl
  refine ⟨s.withReader 0 r, (h.trans hseek).trans hread, hrest, hsent, hreturned, hinterrupted,
    ?_, ?_, skipped, ?_, hskipped (hrunning.writing.timed_view trivial)⟩
  · rw [System.withReader, hreaders]
    exact Function.update_of_ne (show (1 : ℕ) ≠ 0 by decide) r _
  · rw [withReader_self]
    exact hsought
  · rw [withReader_self, hout, List.nil_append, hsplit, hlog, hsent]

end Greetings

/-- Where the clock never goes back, the frames that a reader skipped are from before the time
that it was sought to, on whatever page it began. -/
theorem readers_skip_earlier_frames {jname : List UInt8} (hname : jname.length < 30) {s : System}
    (h : Reaches (System.step jname) Timely {} s) :
    ∃ log : List Frame, s.returned.Sublist log ∧ log.Sublist s.sent ∧
      (log.Pairwise fun f g => f.nano ≤ g.nano) ∧
      ∀ i, ∃ skipped, skipped ++ (s.readers i).out <+: log ∧
        PassedOver (s.readers i).sought skipped := by
  obtain ⟨v, v', hrunning⟩ := running_of_timely hname h
  have hwriting := hrunning.writing
  have hlog : v.log.Sublist s.sent := hwriting.log_prefix.sublist.trans hwriting.log_sublist
  refine ⟨v.log, hwriting.returned, hlog, (hwriting.early trivial).2.1.sublist hlog, fun i => ?_⟩
  obtain ⟨skipped, hok⟩ := hrunning.readers i
  exact ⟨skipped, hok.out_prefix, hok.passedOver⟩

theorem readers_skip_earlier_frames_greetings :
    ∃ s : System, (s.readers 0).sought = 4 ∧ goodbye ∈ (s.readers 0).out ∧
      ∃ log : List Frame, s.returned.Sublist log ∧
      log.Sublist s.sent ∧ (log.Pairwise fun f g => f.nano ≤ g.nano) ∧
      ∀ i, ∃ skipped, skipped ++ (s.readers i).out <+: log ∧
        PassedOver (s.readers i).sought skipped := by
  obtain ⟨s, h, -, -, -, -, -, hsought, skipped, hout, hskipped⟩ := reaches_greetings 4
  refine ⟨s, hsought, ?_, readers_skip_earlier_frames (by decide) h⟩
  have hmem : goodbye ∈ skipped ++ (s.readers 0).out := by
    rw [hout]
    decide
  refine (List.mem_append.mp hmem).resolve_left fun hpassed => ?_
  exact absurd (hskipped.below (by decide) goodbye hpassed) (by decide)

/-- Nothing is stored outside the page files, and no reader reads outside the page it has. -/
theorem accesses_stay_in_pages {jname : List UInt8} (hname : jname.length < 30) {s : System}
    (h : Reaches (System.step jname) Permitted {} s) :
    InPages s.directory s.writer.stores ∧
      ∀ i p, (s.readers i).journal.curPage = some p →
        p.pageNum ∈ s.directory.pageNums ∧ s.directory.size p.pageNum = journalPageSize ∧
          p.position < journalPageSize ∧
          (p.getCurStatus s.directory = journalFrameStatusWritten →
            let next := Frame.getNextEntry (s.directory.buffer p.pageNum) p.position
            p.position + basicFrameHeaderLength ≤ next ∧ next < journalPageSize) := by
  obtain ⟨v, v', hrunning⟩ := running_of_permitted hname h
  have hshows := hrunning.writing.shows
  refine ⟨hrunning.writing.exec.inPages hshows, fun i p hp => ?_⟩
  obtain ⟨skipped, hok⟩ := hrunning.readers i
  cases hok.placed with
  | waiting hjournal hout hskipped => rw [hjournal] at hp; cases hp
  | expired hjournal hlog => rw [hjournal] at hp; cases hp
  | @paged i k q hat =>
    rw [hat.journal_eq] at hp
    cases hp
    refine ⟨hshows.numberOf_mem hat.get, hshows.sized i q hat.get hat.loaded, ?_,
      fun hwritten => ?_⟩
    · exact (endOf_take_le _ _ _).trans_lt (hshows.page i q hat.get).tail_lt
    · exact nextEntry_lt hshows hat.get ((written_iff hshows hat.get hat.le).mp hwritten)

theorem accesses_stay_in_pages_greetings :
    ∃ s : System, (s.readers 0).out = greetings ∧ InPages s.directory s.writer.stores ∧
      ∀ i p, (s.readers i).journal.curPage = some p →
        p.pageNum ∈ s.directory.pageNums ∧ s.directory.size p.pageNum = journalPageSize ∧
          p.position < journalPageSize ∧
          (p.getCurStatus s.directory = journalFrameStatusWritten →
            let next := Frame.getNextEntry (s.directory.buffer p.pageNum) p.position
            p.position + basicFrameHeaderLength ≤ next ∧ next < journalPageSize) := by
  obtain ⟨s, h, -, -, -, -, -, -, skipped, hout, hskipped⟩ := reaches_greetings timeFromFirst
  rw [hskipped.first rfl, List.nil_append] at hout
  exact ⟨s, hout, accesses_stay_in_pages (by decide) (permitted_of_timely [] h)⟩

theorem reaches_opened_page :
    ∃ s, Reaches (System.step []) Permitted {} s ∧ s.directory.pageNums = [1] ∧
      s.directory.size 1 = 0 ∧ s.writer.stores.head? = some (.stretch 1) := by
  have hlast : Directory.lastPageNum {} = 1 := by
    simp [Directory.lastPageNum, Directory.getPageNums]
  have hload : Page.loadWriting {} [] 1 1 =
      .ok (Page.loadPageBuffer 1 ++ onPage 1 (PageHeader.init [] 1 1), Page.start 1) := by
    rw [Page.loadWriting]
    exact if_pos (by rfl)
  obtain ⟨control, hcreate⟩ : ∃ control, System.create [] {} 1 =
      { writer := ⟨.openPage 1 :: .stretch 1 :: onPage 1 (PageHeader.init [] 1 1), control⟩,
        clock := 1 } := by
    refine ⟨.locating ((Page.start 1).passWrittenFrame (Directory.applyAll {}
      (Page.loadPageBuffer 1 ++ onPage 1 (PageHeader.init [] 1 1)))) none, ?_⟩
    rw [System.create]
    simp only [hlast, hload]
    rfl
  have hstart : Reaches (System.step []) Permitted {} {} := .refl _
  have hcreated := hstart.tail (.writer (.create 1)) trivial (congrArg some hcreate)
  exact ⟨_, hcreated.tail (.writer .store) trivial rfl, rfl, rfl, rfl⟩
/-- When the writer is at rest and was never killed within a call, a reader that goes on
reading gets all the other frames that were sent, and then no more. -/
theorem reader_catches_up {jname : List UInt8} (hname : jname.length < 30) {s : System}
    (h : Reaches (System.step jname) Permitted {} s)
    (hinterrupted : s.interrupted = false) (hrest : s.writer.atRest = true)
    (hclock : ∀ f ∈ s.sent, f.nano ≠ timeToLast) (i : ℕ)
    (hexpired : (s.readers i).journal.expired = false) :
    ∃ skipped rest, skipped ++ (s.readers i).out ++ rest = s.sent ∧
      ((s.readers i).sought = timeFromFirst → skipped = []) ∧
      ∀ fuel, rest.length < fuel → ∃ r,
        JournalReader.readAll (fun _ => s.directory) fuel ⟨[(s.readers i).journal], none⟩ =
          .ok (r, rest) := by
  obtain ⟨v, v', hrunning⟩ := running_of_permitted hname h
  obtain ⟨hsent, hsealed⟩ := hrunning.quiet hinterrupted hrest
  obtain ⟨skipped, hok⟩ := hrunning.readers i
  obtain ⟨rest, hremaining, hsplit⟩ := hok.remaining hexpired
  have hquiet : Quiet (fun _ => s.directory) fun _ => v :=
    ⟨fun _ => hrunning.writing.shows, fun _ => hsealed, fun _ f hf => hclock f (hsent ▸ hf)⟩
  refine ⟨skipped, rest, hsplit.trans hsent, hok.first, fun fuel hfuel => ?_⟩
  obtain ⟨r, out, hread, hmerged⟩ := readAll_spec hquiet
    (r := ⟨[(s.readers i).journal], none⟩) (.cons hremaining (.nil 1))
    (by rwa [List.flatten_singleton])
  rw [merged_single hmerged] at hread
  exact ⟨r, hread⟩

theorem reader_catches_up_greetings :
    ∃ s : System, s.sent = greetings ∧ ∃ r,
      JournalReader.readAll (fun _ => s.directory) 3 ⟨[(s.readers 1).journal], none⟩ =
        .ok (r, greetings) := by
  obtain ⟨s, h, hrest, hsent, -, hinterrupted, hreader, -⟩ := reaches_greetings timeFromFirst
  have hclock : ∀ f ∈ s.sent, f.nano ≠ timeToLast := by
    rw [hsent]
    decide
  obtain ⟨skipped, rest, hsplit, hfirst, hread⟩ :=
    reader_catches_up (by decide) (permitted_of_timely [] h) hinterrupted hrest hclock 1
      (by rw [hreader])
  have hall : rest = greetings := by
    rw [hfirst (by rw [hreader]), hreader, hsent] at hsplit
    exact hsplit
  rw [hall] at hread
  exact ⟨s, hsent, hread 3 (by decide)⟩

theorem quiet_directories {jnames : List (List UInt8)} (hnames : ∀ n ∈ jnames, n.length < 30)
    {systems : ℕ → System}
    (h : ∀ i n, jnames[i]? = some n → Reaches (System.step n) Timely {} (systems i))
    (hinterrupted : ∀ i < jnames.length, (systems i).interrupted = false)
    (hrest : ∀ i < jnames.length, (systems i).writer.atRest = true)
    (hclock : ∀ i < jnames.length, ∀ f ∈ (systems i).sent, f.nano ≠ timeToLast) (k : ℕ) :
    let journalMap := JournalReader.addJournals jnames
    ∃ v, Shows (JournalReader.directories journalMap (fun i => (systems i).directory) k) v ∧
      v.Sealed ∧ Clocked v ∧ Timed v ∧ ∀ n i, journalMap[k]? = some (n, i) →
        v.log = (systems i).sent ∧ (systems i).sent.Pairwise fun f g => timeOf f ≤ timeOf g := by
  intro journalMap
  cases hk : journalMap[k]? with
  | none =>
    refine ⟨[], ?_, fun _ _ hp => (by cases hp), fun _ hf => (by cases hf),
      fun _ _ hp => (by cases hp), fun _ _ hget => (by cases hget)⟩
    rw [JournalReader.directories, hk]
    exact shows_empty
  | some entry =>
    obtain ⟨n, i⟩ := entry
    have hget : jnames[i]? = some n := mem_addJournals (List.mem_of_getElem? hk)
    have hi := (List.getElem?_eq_some_iff.mp hget).1
    obtain ⟨v, v', hrunning⟩ := running_of_timely (hnames n (List.mem_of_getElem? hget))
      (h i n hget)
    obtain ⟨hlog, hsealed⟩ := hrunning.quiet (hinterrupted i hi) (hrest i hi)
    refine ⟨v, ?_, hsealed, fun f hf => hclock i hi f (hlog ▸ hf),
      hrunning.writing.timed_view trivial, fun n' i' hsame => ?_⟩
    · rw [JournalReader.directories, hk]
      exact hrunning.writing.shows
    · cases hsame
      exact ⟨hlog, (hrunning.writing.early trivial).2.1.imp Int64.le_iff_toInt_le.mp⟩

end Yijinjing
