import FlareTrader.JournalReaders
import FlareTrader.Execution

/-! What every run of a writer and the readers of its journal keeps, whatever the order of
their steps is and wherever the writer is killed. -/

namespace Yijinjing

open ByteMemory SegmentedLog StreamMerge

/-- The views of the writer, and where every reader is in the first of them. -/
structure Running (timed : Prop) (s : System) (v v' : View) : Prop where
  writing : Writing timed s v v'
  failed : s.failed = false
  readers : ∀ i, ∃ skipped, (s.readers i).Ok timed v skipped

section Running

variable {jname : List UInt8} {s s' : System} {v v' : View} {timed : Prop}

theorem running_start (timed : Prop) : Running timed {} [] [] where
  writing := writing_start timed
  failed := rfl
  readers := fun _ => ⟨[], Reader.ok_start timed []⟩

theorem Running.setReader (h : Running timed s v v') {i : ℕ} {r : Reader} {skipped : List Frame}
    (hok : r.Ok timed v skipped) :
    Running timed { s with readers := Function.update s.readers i r } v v' := by
  refine ⟨⟨h.writing.shows, h.writing.exec, h.writing.control, h.writing.sublist,
    h.writing.returned, h.writing.exact, h.writing.early⟩, h.failed, fun j => ?_⟩
  change ∃ skipped, Reader.Ok timed v (Function.update s.readers i r j) skipped
  rcases eq_or_ne j i with rfl | hj
  · rw [Function.update_self]
    exact ⟨skipped, hok⟩
  · rw [Function.update_of_ne hj]
    exact h.readers j

theorem Running.reader_cases (h : Running timed s v v') {i : ℕ} {a : ReaderAction}
    (hticking : timed → Ticking s (.reader i a)) (hstep : s.stepReader i a = some s') :
    ∃ r skipped, s' = { s with readers := Function.update s.readers i r } ∧
      r.Ok timed v skipped ∧ ((s.readers i).step s.directory a = some (.ok r) ∨
        r.reading = .killed ∧ ∃ n ∈ s.directory.pageNums,
          s.directory.size n < journalPageSize) := by
  obtain ⟨skipped, hok⟩ := h.readers i
  obtain ⟨result, hresult, hs'⟩ := Option.map_eq_some_iff.mp hstep
  have hinited : timed → ∀ unread time n ns, a = .header unread →
      (s.readers i).reading = .choosing time (n :: ns) → s.directory.Inited n := by
    rintro hclock unread time n ns rfl hreading
    exact hticking hclock time n ns hreading
  rcases hok.step h.writing.shows h.writing.timed_view hinited hresult with
    ⟨r, skipped', rfl, hr⟩ | ⟨rfl, hthere⟩
  · exact ⟨r, skipped', hs'.symm, hr, Or.inl hresult⟩
  · exact ⟨_, skipped, hs'.symm, hok.killed, Or.inr ⟨rfl, hthere⟩⟩

theorem Running.reader (h : Running timed s v v') {i : ℕ} {a : ReaderAction}
    (hticking : timed → Ticking s (.reader i a)) (hstep : s.stepReader i a = some s') :
    Running timed s' v v' := by
  obtain ⟨r, skipped, rfl, hr, -⟩ := h.reader_cases hticking hstep
  exact h.setReader hr

theorem reading_of_ok {d : Directory} {r r' : Reader} {a : ReaderAction}
    (h : r.step d a = some (.ok r')) : r'.reading ≠ .killed := by
  cases Reader.step_cases h with
  | seek time =>
    unfold Reading.ofSeek
    dsimp only
    split_ifs <;> simp
  | header unread time n ns =>
    dsimp only
    split_ifs <;> simp
  | pass time p hreading => simp [hreading]
  | expired hready => simp [hready]
  | expire hready => simp [hready]
  | lastHeader => simp
  | load => simp
  | arrive => simp
  | nextPage => simp
  | samePage => simp
  | found => simp
  | nothing => simp
  | take => simp

/-- A reader is killed only where it maps a page file that was made and not stretched yet. -/
theorem Running.killed (h : Running timed s v v') {i : ℕ} {a : ReaderAction}
    (hticking : timed → Ticking s (.reader i a)) (hstep : s.stepReader i a = some s')
    (hkilled : (s'.readers i).reading = .killed) :
    ∃ n ∈ s.directory.pageNums, s.directory.size n < journalPageSize := by
  obtain ⟨r, skipped, rfl, -, hr | ⟨-, hthere⟩⟩ := h.reader_cases hticking hstep
  · have hread : (Function.update s.readers i r i).reading = .killed := hkilled
    rw [Function.update_self] at hread
    exact absurd hread (reading_of_ok hr)
  · exact hthere

theorem Running.writer (h : Running timed s v v') (hname : jname.length < 30) {a : WriterAction}
    (hpermitted : Permitted s (.writer a)) (hticking : timed → Ticking s (.writer a))
    (hstep : s.stepWriter jname a = some s') :
    ∃ w w', Running timed s' w w' ∧ s'.readers = s.readers ∧
      ∀ j, Past v v' j → Past w w' j ∧ w[j]? = v[j]? := by
  obtain ⟨w, w', hwriting, hgrows, hfailed, hreaders, hpast⟩ :=
    h.writing.step hname hpermitted hticking hstep
  refine ⟨w, w', ⟨hwriting, hfailed.trans h.failed, fun i => ?_⟩, hreaders, hpast⟩
  obtain ⟨skipped, hok⟩ := h.readers i
  rw [hreaders]
  exact ⟨skipped, hok.mono hgrows⟩

theorem Running.step (h : Running timed s v v') (hname : jname.length < 30) {a : Action}
    (hpermitted : Permitted s a) (hticking : timed → Ticking s a)
    (hstep : s.step jname a = some s') : ∃ w w', Running timed s' w w' := by
  cases a with
  | writer a =>
    obtain ⟨w, w', hrunning, -⟩ := h.writer hname hpermitted hticking hstep
    exact ⟨w, w', hrunning⟩
  | reader i a => exact ⟨v, v', h.reader hticking hstep⟩

theorem running_of_reaches (hname : jname.length < 30) {ok : System → Action → Prop}
    (hok : ∀ s a, ok s a → Permitted s a ∧ (timed → Ticking s a))
    (h : Execution.Reaches (System.step jname) ok {} s) :
    ∃ v v', Running timed s v v' := by
  refine h.invariant (fun s => ∃ v v', Running timed s v v') ?_ ⟨[], [], running_start timed⟩
  rintro t a t' ⟨v, v', hrunning⟩ hta hstep
  obtain ⟨hpermitted, hticking⟩ := hok t a hta
  exact hrunning.step hname hpermitted hticking hstep

theorem running_of_timely (hname : jname.length < 30)
    (h : Execution.Reaches (System.step jname) Timely {} s) : ∃ v v', Running True s v v' :=
  running_of_reaches hname (fun _ _ htimely => ⟨htimely.1, fun _ => htimely.2⟩) h

theorem running_of_permitted (hname : jname.length < 30)
    (h : Execution.Reaches (System.step jname) Permitted {} s) :
    ∃ v v', Running False s v v' :=
  running_of_reaches hname (fun _ _ hpermitted => ⟨hpermitted, False.elim⟩) h

end Running

section Quiet

variable {jname : List UInt8} {s : System}

/-- A writer at rest that was never killed in the middle of a call has made all its stores. -/
theorem Running.quiet {v v' : View} {timed : Prop} (h : Running timed s v v')
    (hinterrupted : s.interrupted = false) (hrest : s.writer.atRest = true) :
    v.log = s.sent ∧ v.Sealed := by
  obtain ⟨hnil, hnothing⟩ := Writer.of_atRest hrest
  have hexec := h.writing.exec
  rw [hnil] at hexec
  obtain ⟨hexact, hsealed⟩ := h.writing.exact hinterrupted
  rw [hnothing, List.append_nil] at hexact
  rw [hexec.eq_of_nil] at hexact hsealed
  exact ⟨hexact, hsealed⟩

theorem Reader.Ok.remaining {timed : Prop} {v : View} {r : Reader} {skipped : List Frame}
    (h : r.Ok timed v skipped) (hexpired : r.journal.expired = false) :
    ∃ rest, Remaining v r.journal rest ∧ skipped ++ r.out ++ rest = v.log := by
  cases h.placed with
  | waiting hjournal hout hskipped =>
    rw [hjournal, hout, hskipped]
    exact ⟨v.log, .waiting, rfl⟩
  | expired hjournal hlog =>
    rw [hjournal] at hexpired
    cases hexpired
  | paged hat =>
    obtain ⟨rest, hrest⟩ := h.out_prefix
    rw [hat.journal_eq]
    refine ⟨rest, .paged hat.get hat.loaded hat.le ?_, hrest⟩
    rw [← hat.upTo_eq, hrest]

theorem merged_single {rest out : List Frame} (h : Merged timeOf [rest] out) : out = rest := by
  have hperm := h.perm
  rw [List.flatten_singleton] at hperm
  exact ((h.sublist (j := 0) rfl).eq_of_length hperm.length_eq.symm).symm

end Quiet

end Yijinjing
