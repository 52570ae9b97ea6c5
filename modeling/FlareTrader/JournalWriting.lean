import FlareTrader.JournalProcesses
import FlareTrader.JournalStores

/-! The writer of a journal: wherever it is in its program, the stores that it still makes are
ones that take the directory from view to view, and it is at the end of the last page. -/

namespace Yijinjing

open ByteMemory

structure Within (v : View) (p : Page) (i k : ℕ) (q : PageView) : Prop where
  last : i + 1 = v.length
  get : v[i]? = some q
  phase : q.phase = .taking
  le : k ≤ q.frames.length
  page_eq : p = ⟨numberOf i, endOf pageInitPosition (q.frames.take k), k⟩

def Control.rest : Control → List Frame
  | .locating _ job => (job.map Prod.snd).toList
  | _ => []

@[simp] theorem Control.rest_ready (page : Page) : (Control.ready page).rest = [] := rfl

@[simp] theorem Control.rest_passing (page : Page) (f : Frame) :
    (Control.passing page f).rest = [] := rfl

def Control.Ok (v : View) (returned : List Frame) : Control → Prop
  | .down => True
  | .ready p => ∃ i q, Within v p i q.frames.length q
  | .locating p job =>
    (∃ i k q, Within v p i k q) ∧ ∀ kind f, job = some (kind, f) → f.length ≤ pageMinHeadroom
  | .passing p f =>
    (∃ i fs q, Within v p i fs.length q ∧ q.frames = fs ++ [f]) ∧
      (returned ++ [f]).Sublist v.log

section Loop

variable {d : Directory} {v : View} {p : Page} {i k : ℕ} {q : PageView}

theorem endOf_take_succ {fs : List Frame} {k : ℕ} (hk : k < fs.length) (a : ℕ) :
    endOf a (fs.take (k + 1)) = endOf a (fs.take k) + fs[k].length := by
  rw [List.take_succ_eq_append_getElem hk, endOf_append]
  rfl

theorem passFrame_eq (h : ShowsPage (d.buffer (numberOf i)) q) (hk : k < q.frames.length) :
    Page.passFrame d ⟨numberOf i, endOf pageInitPosition (q.frames.take k), k⟩ =
      ⟨numberOf i, endOf pageInitPosition (q.frames.take (k + 1)), k + 1⟩ := by
  have hat := (h.chain.get hk).2
  rw [Page.passFrame, hat.nextEntry_eq, endOf_take_succ hk]

theorem getCurStatus_written (h : ShowsPage (d.buffer (numberOf i)) q) (hk : k < q.frames.length) :
    Page.getCurStatus d ⟨numberOf i, endOf pageInitPosition (q.frames.take k), k⟩ =
      journalFrameStatusWritten :=
  (h.chain.get hk).1

theorem passLoop_eq (h : ShowsPage (d.buffer (numberOf i)) q) {fuel : ℕ}
    (hk : k ≤ q.frames.length) (hfuel : q.frames.length - k ≤ fuel) :
    Page.passLoop d fuel ⟨numberOf i, endOf pageInitPosition (q.frames.take k), k⟩ =
      ⟨numberOf i, q.tail, q.frames.length⟩ := by
  induction fuel generalizing k with
  | zero =>
    obtain rfl : k = q.frames.length := by omega
    rw [List.take_length]
    rfl
  | succ fuel ih =>
    rcases Nat.lt_or_ge k q.frames.length with hlt | hge
    · rw [Page.passLoop, if_pos (getCurStatus_written h hlt), passFrame_eq h hlt]
      exact ih hlt (by omega)
    · obtain rfl : k = q.frames.length := by omega
      have hend : Page.getCurStatus d ⟨numberOf i, endOf pageInitPosition
          (q.frames.take q.frames.length), q.frames.length⟩ ≠ journalFrameStatusWritten := by
        rw [List.take_length, Page.getCurStatus, Frame.getStatus]
        refine ne_of_eq_of_ne h.tail_status ?_
        split_ifs <;> decide
      rw [Page.passLoop, if_neg hend, List.take_length]
      rfl

/-- The frames of a page are fewer than its bytes, so that the loop comes to their end. -/
theorem length_frames_lt (h : ShowsPage (d.buffer (numberOf i)) q) :
    q.frames.length ≤ journalPageSize := by
  have htail := h.tail_lt
  have hle := le_endOf pageInitPosition q.frames
  rw [PageView.tail] at htail
  omega

theorem Within.passWritten (hw : Within v p i k q) (hd : Shows d v) :
    p.passWrittenFrame d = ⟨numberOf i, q.tail, q.frames.length⟩ ∧
      Within v (p.passWrittenFrame d) i q.frames.length q := by
  have hpage := hd.page i q hw.get
  have hloop : p.passWrittenFrame d = ⟨numberOf i, q.tail, q.frames.length⟩ := by
    rw [Page.passWrittenFrame, hw.page_eq]
    exact passLoop_eq hpage hw.le ((Nat.sub_le _ _).trans (length_frames_lt hpage))
  refine ⟨hloop, hw.last, hw.get, hw.phase, le_rfl, ?_⟩
  rw [hloop, List.take_length]
  rfl

theorem Within.isWritable_iff (hw : Within v p i k q) (hd : Shows d v) :
    (p.passWrittenFrame d).isWritable d = true ↔ q.tail + pageMinHeadroom < journalPageSize := by
  have hraw := (hd.page i q hw.get).tail_status
  rw [hw.phase, if_neg (by decide)] at hraw
  rw [(hw.passWritten hd).1, Page.isWritable, decide_eq_true_eq]
  exact and_iff_right hraw

theorem numberOf_succ (i : ℕ) : numberOf i + 1 = numberOf (i + 1) := by
  rw [numberOf, numberOf, Int16.ofNat_add (i + 1) 1]
  rfl

end Loop

section PageNums

variable {d : Directory} {v : View}

theorem numberOf_le {i j : ℕ} (hij : i ≤ j) (hj : j + 1 < 2 ^ 15) : numberOf i ≤ numberOf j := by
  rw [Int16.le_iff_toInt_le, toInt_numberOf (by omega), toInt_numberOf hj]
  omega

theorem Shows.getPageNums_eq (h : Shows d v) :
    d.getPageNums = (List.range v.length).map numberOf := by
  have hfew := h.few
  rw [Directory.getPageNums, h.pageNums_eq]
  apply List.mergeSort_of_pairwise
  rw [List.pairwise_map]
  refine List.pairwise_lt_range.imp_of_mem fun {i j} _ hj hij => ?_
  rw [List.mem_range] at hj
  exact decide_eq_true (numberOf_le hij.le (by omega))

theorem Shows.lastPageNum_eq (h : Shows d v) : d.lastPageNum = numberOf (v.length - 1) := by
  rw [Directory.lastPageNum, h.getPageNums_eq, List.getLast?_map, List.getLast?_range]
  split_ifs with hzero
  · rw [hzero]
    rfl
  · rfl

theorem Shows.firstPageNum_eq (h : Shows d v) : d.firstPageNum = numberOf 0 := by
  rw [Directory.firstPageNum, h.getPageNums_eq, List.head?_map, List.head?_range]
  split_ifs <;> rfl

end PageNums

section Views

variable {v : View} {i : ℕ} {p q : PageView}

theorem log_set_same (hp : v[i]? = some p) (h : q.frames = p.frames) :
    View.log (v.set i q) = v.log := by
  obtain ⟨hi, hget⟩ := List.getElem?_eq_some_iff.mp (segments_getElem? hp)
  have hset : v.segments.set i p.frames = v.segments := hget ▸ List.set_getElem_self hi
  rw [View.log, View.segments, List.map_set, h]
  exact congrArg List.flatten hset

theorem log_concat (v : View) (phase : Phase) (nano : Int64) :
    View.log (v ++ [⟨[], phase, nano⟩]) = v.log := by
  rw [View.log, View.segments, List.map_append, List.flatten_append, List.map_singleton,
    List.flatten_singleton]
  exact List.append_nil _

theorem log_publish (hp : v[i]? = some p) (hlast : i + 1 = v.length) (f : Frame) (nano : Int64) :
    View.log (v.set i ⟨p.frames ++ [f], .taking, nano⟩) = v.log ++ [f] := by
  rw [View.log, View.segments, List.map_set]
  exact SegmentedLog.flatten_setLast (segments_getElem? hp)
    (by rwa [View.segments, List.length_map]) [f]

/-- Every page but the last is closed, and that one has its header. -/
def View.Sealed (v : View) : Prop :=
  ∀ (i : ℕ) (p : PageView), v[i]? = some p →
    p.phase ≠ .fresh ∧ (i + 1 < v.length → p.phase = .closed)

theorem Timed.setLast (h : Timed v) (hp : v[i]? = some p) (hphase : p.phase = .fresh)
    {nano : Int64} (hnano : ∀ f ∈ v.log, f.nano ≤ nano) :
    Timed (v.set i ⟨p.frames, .taking, nano⟩) := by
  have hgrows : v.Grows (v.set i ⟨p.frames, .taking, nano⟩) :=
    grows_set hp _ (fun hopen => absurd hphase hopen) (Or.inl rfl)
  exact h.set hp hgrows fun f hf => hnano f ((SegmentedLog.upTo_prefix _ _ _).subset hf)

theorem View.Sealed.setLast (h : v.Sealed) (hlast : i + 1 = v.length) {q : PageView}
    (hq : q.phase ≠ .fresh) : View.Sealed (v.set i q) := by
  intro j r hr
  rw [List.length_set]
  rw [List.getElem?_set] at hr
  split_ifs at hr with hij
  · cases hr
    exact ⟨hq, fun hj => by omega⟩
  · exact h j r hr

end Views

def View.Keeps (v v' : View) : Prop :=
  v.length ≤ v'.length ∧ ∀ j : ℕ, j + 1 < v.length → v'[j]? = v[j]?

theorem keeps_setLast {v : View} {i : ℕ} (hlast : i + 1 = v.length) (q : PageView) :
    v.Keeps (v.set i q) :=
  ⟨List.length_set.ge, fun j hj => List.getElem?_set_ne (by omega)⟩

section Load

variable {d : Directory} {v : View} {i k : ℕ} {p q : PageView} {jname : List UInt8}

/-- The page that a writer begins with is the last one, or the first one where there is none. -/
theorem load_last (hname : jname.length < 30) (hd : Shows d v) (nano : Int64) :
    ∃ stores v' i q, Page.loadWriting d jname (numberOf (v.length - 1)) nano =
        .ok (stores, Page.start (numberOf (v.length - 1))) ∧
      Exec d v stores v' ∧ v'.log = v.log ∧ (v.Sealed → v'.Sealed) ∧
      (Timed v → (∀ f ∈ v.log, f.nano ≤ nano) → Timed v') ∧ v'.length ≤ v.length + 1 ∧
      v.Keeps v' ∧ Within v' (Page.start (numberOf (v.length - 1))) i 0 q := by
  rcases List.eq_nil_or_concat v with rfl | ⟨front, p, hv⟩
  · have hopening : Exec d [] (Page.loadPageBuffer (numberOf 0)) [newPage] :=
      exec_loadPageBuffer rfl (by decide) (.opens (by decide) (by simp))
    obtain ⟨stores, hload, hexec⟩ := loadWriting_fresh hname hd hopening rfl rfl nano
    refine ⟨stores, _, 0, ⟨[], .taking, nano⟩, hload, hexec, rfl, fun _ j r hr => ?_,
      fun _ _ j r hr _ f hf => ?_, le_rfl,
      ⟨Nat.zero_le _, fun j hj => absurd hj (Nat.not_lt_zero _)⟩,
      rfl, rfl, rfl, le_rfl, rfl⟩
    · obtain rfl : j = 0 := Nat.lt_one_iff.mp (lt_length hr)
      cases hr
      exact ⟨by simp, fun hlt => absurd hlt (lt_irrefl _)⟩
    · obtain rfl : j = 0 := Nat.lt_one_iff.mp (lt_length hr)
      cases hf
  · obtain ⟨i, hlast⟩ : ∃ i, i + 1 = v.length := ⟨front.length, by rw [hv]; simp⟩
    have hp : v[i]? = some p := by
      have hi : i = front.length := by
        rw [hv, List.concat_eq_append, List.length_append] at hlast
        exact Nat.succ.inj hlast
      rw [hv, hi, List.concat_eq_append, List.getElem?_concat_length]
    have hnotClosed : p.phase ≠ .closed := fun hclosed => by
      obtain ⟨q, hq, -⟩ := hd.closed_next i p hp hclosed
      exact absurd (lt_length hq) (by omega)
    have hopening : Exec d v (Page.loadPageBuffer (numberOf i)) v :=
      exec_loadPageBuffer hp hnotClosed (.opened (by omega))
    have hindex : v.length - 1 = i := by omega
    rw [hindex]
    cases hphase : p.phase with
    | fresh =>
      obtain ⟨stores, hload, hexec⟩ := loadWriting_fresh hname hd hopening hp hphase nano
      refine ⟨stores, _, i, ⟨p.frames, .taking, nano⟩, hload, hexec, log_set_same hp rfl,
        fun hsealed => hsealed.setLast hlast (by simp),
        fun htimed hnano => htimed.setLast hp hphase hnano, ?_, keeps_setLast hlast _, ?_, ?_, rfl,
        Nat.zero_le _, rfl⟩
      · rw [List.length_set]
        exact Nat.le_succ _
      · rwa [List.length_set]
      · rw [List.getElem?_set_self (by omega)]
    | taking =>
      exact ⟨_, v, i, p, loadWriting_taking hd hopening hp hphase nano, hopening, rfl, id,
        fun htimed _ => htimed, Nat.le_succ _, ⟨le_rfl, fun _ _ => rfl⟩, hlast, hp, hphase,
        Nat.zero_le _, rfl⟩
    | closed => exact absurd hphase hnotClosed

/-- A page that has no room left is closed after the next one has been made. -/
theorem load_next (hname : jname.length < 30) (hd : Shows d v) (hlast : i + 1 = v.length)
    (hp : v[i]? = some p) (hphase : p.phase = .taking)
    (hfull : journalPageSize ≤ p.tail + pageMinHeadroom) (hfew : v.length + 1 < 2 ^ 15)
    (startNano closeNano : Int64) :
    ∃ stores v' q, Page.loadWriting d jname (numberOf (i + 1)) startNano =
        .ok (stores, Page.start (numberOf (i + 1))) ∧
      Exec d v (stores ++ onPage (numberOf i)
        (Page.finishPage ⟨numberOf i, p.tail, p.frames.length⟩ closeNano)) v' ∧
      v'.log = v.log ∧ (v.Sealed → v'.Sealed) ∧
      (Timed v → (∀ f ∈ v.log, f.nano ≤ startNano) → Timed v') ∧ v'.length = v.length + 1 ∧
      q.frames = [] ∧ v.Keeps v' ∧ Within v' (Page.start (numberOf (i + 1))) (i + 1) 0 q := by
  have hready : ∀ r ∈ v, r.phase ≠ .fresh := by
    intro r hr hfresh
    obtain ⟨j, hj⟩ := List.mem_iff_getElem?.mp hr
    have hjlast := hd.fresh_last j r hj hfresh
    obtain rfl : j = i := by omega
    rw [hp] at hj
    cases hj
    rw [hphase] at hfresh
    cases hfresh
  have hnew : (v ++ [newPage])[i + 1]? = some newPage := by
    rw [hlast, List.getElem?_concat_length]
  have hopens : Effect d v (.openPage (numberOf (i + 1))) (v ++ [newPage]) := by
    rw [hlast]
    exact .opens hfew hready
  have hopening : Exec d v (Page.loadPageBuffer (numberOf (i + 1))) (v ++ [newPage]) :=
    exec_loadPageBuffer hnew (by decide) hopens
  obtain ⟨stores, hload, hexec⟩ := loadWriting_fresh hname hd hopening hnew rfl startNano
  have hset : ((v ++ [newPage]).set (i + 1) ⟨[], .taking, startNano⟩) =
      v ++ [⟨[], .taking, startNano⟩] := by
    rw [hlast, List.set_append_right _ _ le_rfl, Nat.sub_self]
    rfl
  rw [show newPage.frames = [] from rfl, hset] at hexec
  have hp' : (v ++ [(⟨[], .taking, startNano⟩ : PageView)])[i]? = some p := by
    rw [List.getElem?_append_left (by omega), hp]
  have hnext : (v ++ [(⟨[], .taking, startNano⟩ : PageView)])[i + 1]? =
      some ⟨[], .taking, startNano⟩ := by
    rw [hlast, List.getElem?_concat_length]
  have hsize : (d.applyAll stores).size (numberOf i) = journalPageSize :=
    (hexec.shows hd).sized i p hp' (by simp [hphase])
  refine ⟨stores, _, ⟨[], .taking, startNano⟩, hload, hexec.append
    (exec_finishPage hp' hphase hnext (by simp) hfull hsize _ closeNano), ?_, fun hsealed => ?_,
    fun htimed hnano => ?_, ?_, rfl, ⟨?_, fun j hj => ?_⟩, ?_, ?_, rfl, le_rfl, rfl⟩
  · exact (log_set_same hp' (q := ⟨p.frames, .closed, p.startNano⟩) rfl).trans (log_concat v _ _)
  · intro j r hr
    rw [List.length_set, List.length_append, List.length_singleton]
    rw [List.getElem?_set] at hr
    split_ifs at hr with hij hlt
    · cases hr
      exact ⟨by simp, fun _ => rfl⟩
    · rcases getElem?_concat hr with hr | ⟨rfl, rfl⟩
      · have hboth := hsealed j r hr
        have hj := lt_length hr
        exact ⟨hboth.1, fun _ => hboth.2 (by omega)⟩
      · exact ⟨by simp, fun hj => absurd hj (lt_irrefl _)⟩
  · have hconcat := htimed.concat (q := ⟨[], .taking, startNano⟩) hnano
    refine hconcat.set hp' (grows_set hp' _ (fun _ => ⟨by simp, rfl⟩) (Or.inl rfl)) ?_
    exact hconcat i p hp' (by simp [hphase])
  · rw [List.length_set, List.length_append, List.length_singleton]
  · rw [List.length_set, List.length_append]
    exact Nat.le_add_right _ _
  · rw [List.getElem?_set_ne (by omega), List.getElem?_append_left (by omega)]
  · rw [List.length_set, List.length_append, List.length_singleton, hlast]
  · rw [List.getElem?_set_ne (by omega), hnext]

end Load

/-- What holds of the writer between any two steps: the view that the directory shows, and the
one that it shows when the writer has made its stores. The last field is for a clock that never
goes back. -/
structure Writing (timed : Prop) (s : System) (v v' : View) : Prop where
  shows : Shows s.directory v
  exec : Exec s.directory v s.writer.stores v'
  control : s.writer.control.Ok v' s.returned
  sublist : (v'.log ++ s.writer.control.rest).Sublist s.sent
  returned : s.returned.Sublist v.log
  exact : s.interrupted = false → v'.log ++ s.writer.control.rest = s.sent ∧ v'.Sealed
  early : timed → Timed v' ∧ (s.sent.Pairwise fun f g => f.nano ≤ g.nano) ∧
    ∀ f ∈ s.sent, f.nano ≤ s.clock

section Writing

variable {timed : Prop} {s s' : System} {v v' : View} {jname : List UInt8} {a : WriterAction}

theorem Exec.eq_of_nil {d : Directory} (h : Exec d v [] v') : v' = v := by
  cases h
  rfl

theorem Writing.log_prefix (h : Writing timed s v v') : v.log <+: v'.log :=
  h.exec.grows.log_prefix

theorem Writing.timed_view (h : Writing timed s v v') (htimed : timed) : Timed v :=
  h.exec.grows.timed (h.early htimed).1

theorem Writing.log_sublist (h : Writing timed s v v') : v'.log.Sublist s.sent :=
  (List.sublist_append_left _ _).trans h.sublist

theorem Writing.le_clock (h : Writing timed s v v') (htimed : timed) {nano : Int64}
    (hnano : s.clock ≤ nano) : ∀ f ∈ v'.log, f.nano ≤ nano := fun f hf =>
  Int64.le_trans ((h.early htimed).2.2 f (h.log_sublist.subset hf)) hnano

theorem Writer.of_atRest {w : Writer} (h : w.atRest = true) :
    w.stores = [] ∧ w.control.rest = [] := by
  obtain ⟨stores, control⟩ := w
  cases stores with
  | cons => cases h
  | nil =>
    cases control with
    | down => exact ⟨rfl, rfl⟩
    | ready => exact ⟨rfl, rfl⟩
    | locating => cases h
    | passing => cases h

theorem writing_start (timed : Prop) : Writing timed {} [] [] where
  shows := shows_empty
  exec := .nil
  control := trivial
  sublist := List.Sublist.refl _
  returned := List.Sublist.refl _
  exact := fun _ => ⟨rfl, fun _ _ h => by cases h⟩
  early := fun _ => ⟨fun _ _ h => by (cases h), .nil, fun _ h => by cases h⟩

theorem Writing.store (h : Writing timed s v v') {store : Store} {stores : List Store}
    (hstores : s.writer.stores = store :: stores) :
    ∃ w, Writing timed { s with
      directory := s.directory.apply store
      writer := ⟨stores, s.writer.control⟩ } w v' ∧ v.Grows w ∧
      ∀ (j : ℕ) p, v[j]? = some p → v'[j]? = some p → w[j]? = some p := by
  have hexec := h.exec
  rw [hstores] at hexec
  cases hexec with
  | cons he hrest =>
    exact ⟨_, ⟨h.shows.step he, hrest, h.control, h.sublist,
      h.returned.trans he.grows.log_prefix.sublist, h.exact, h.early⟩, he.grows,
      fun j p hp hp' => hrest.between he hp hp'⟩

theorem Writing.crash (h : Writing timed s v v') :
    Writing timed
      { s with
        writer := {}
        interrupted := s.interrupted || !s.writer.atRest } v v := by
  have hlog : v.log.Sublist s.sent := h.log_prefix.sublist.trans h.log_sublist
  refine ⟨h.shows, .nil, trivial, ?_, h.returned, fun hinterrupted => ?_, fun htimed =>
    ⟨h.timed_view htimed, (h.early htimed).2⟩⟩
  · simpa only [Control.rest, List.append_nil] using hlog
  · rw [Bool.or_eq_false_iff, Bool.not_eq_false'] at hinterrupted
    obtain ⟨hexact, hsealed⟩ := h.exact hinterrupted.1
    obtain ⟨hnil, hrest⟩ := Writer.of_atRest hinterrupted.2
    have hexec := h.exec
    rw [hnil] at hexec
    rw [hexec.eq_of_nil, hrest] at hexact
    rw [hexec.eq_of_nil] at hsealed
    exact ⟨hexact, hsealed⟩

theorem Writing.create (h : Writing timed s v v') (hname : jname.length < 30)
    (hwriter : s.writer = ⟨[], .down⟩) {nano : Int64} (hclock : timed → s.clock ≤ nano) :
    ∃ w page, Writing timed (s.create jname nano) v w ∧
      (s.create jname nano).failed = s.failed ∧ w.length ≤ v.length + 1 ∧ v.Keeps w ∧
      (s.create jname nano).writer.control = .locating page none := by
  have hsame : v' = v := by
    have hexec := h.exec
    rw [hwriter] at hexec
    exact hexec.eq_of_nil
  subst hsame
  obtain ⟨stores, w, i, q, hload, hexec, hlog, hsealed, htimes, hlength, hkeeps, hwithin⟩ :=
    load_last hname h.shows nano
  have hrest : s.writer.control.rest = [] := by rw [hwriter]; rfl
  have hsublist := h.sublist
  have hexact := h.exact
  rw [hrest] at hsublist hexact
  rw [System.create, h.shows.lastPageNum_eq, hload]
  refine ⟨w, _, ⟨h.shows, hexec, ⟨⟨i, _, q, (hwithin.passWritten (hexec.shows h.shows)).2⟩,
    fun _ _ hjob => by cases hjob⟩, ?_, h.returned, fun hinterrupted => ?_, fun htimed => ?_⟩, rfl,
    hlength, hkeeps, rfl⟩
  · change (w.log ++ []).Sublist s.sent
    rwa [hlog]
  · have hboth := hexact hinterrupted
    change w.log ++ [] = s.sent ∧ w.Sealed
    rw [hlog]
    exact ⟨hboth.1, hsealed hboth.2⟩
  · obtain ⟨htimes', hsorted, hbelow⟩ := h.early htimed
    exact ⟨htimes htimes' (h.le_clock htimed (hclock htimed)), hsorted, fun f hf =>
      Int64.le_trans (hbelow f hf) (hclock htimed)⟩

theorem Writing.clock_create (h : Writing timed s v v') (hname : jname.length < 30) (nano : Int64) :
    (s.create jname nano).clock = nano := by
  obtain ⟨stores, w, i, q, hload, -⟩ := load_last hname h.shows nano
  rw [System.create, h.shows.lastPageNum_eq, hload]

theorem Writing.call (h : Writing timed s v v') {page : Page}
    (hwriter : s.writer = ⟨[], .ready page⟩) (kind : Call) {f : Frame}
    (hfit : f.length ≤ pageMinHeadroom) (hclock : timed → s.clock ≤ f.nano) :
    Writing timed { s with
      writer := ⟨[], .locating page (some (kind, f))⟩
      clock := f.nano
      sent := s.sent ++ [f] } v v := by
  have hexec := h.exec
  have hcontrol := h.control
  have hsublist := h.sublist
  have hexact := h.exact
  rw [hwriter] at hexec hcontrol hsublist hexact
  rw [hexec.eq_of_nil] at hcontrol hsublist hexact
  obtain ⟨i, q, hwithin⟩ := hcontrol
  refine ⟨h.shows, .nil, ⟨⟨i, _, q, hwithin⟩, fun _ _ hjob => ?_⟩, ?_, h.returned,
    fun hinterrupted => ?_, fun htimed => ⟨h.timed_view htimed, ?_⟩⟩
  · cases hjob
    exact hfit
  · rw [Control.rest_ready, List.append_nil] at hsublist
    exact hsublist.append_right [f]
  · obtain ⟨hlog, hsealed⟩ := hexact hinterrupted
    rw [Control.rest_ready, List.append_nil] at hlog
    exact ⟨congrArg (· ++ [f]) hlog, hsealed⟩
  · obtain ⟨-, hsorted, hbelow⟩ := h.early htimed
    have hle : ∀ g ∈ s.sent, g.nano ≤ f.nano := fun g hg =>
      Int64.le_trans (hbelow g hg) (hclock htimed)
    refine ⟨List.pairwise_append.mpr ⟨hsorted, List.pairwise_singleton _ _, fun g hg g' hg' => ?_⟩,
      fun g hg => ?_⟩
    · rw [List.mem_singleton.mp hg']
      exact hle g hg
    · rcases List.mem_append.mp hg with hg | hg
      · exact hle g hg
      · rw [List.mem_singleton.mp hg]
        exact Int64.le_refl _

theorem Writing.pass (h : Writing timed s v v') {page : Page} {f : Frame}
    (hwriter : s.writer = ⟨[], .passing page f⟩) :
    Writing timed { s with
      writer := ⟨[], .ready (page.passFrame s.directory)⟩
      returned := s.returned ++ [f] } v v := by
  have hexec := h.exec
  have hcontrol := h.control
  have hsublist := h.sublist
  have hexact := h.exact
  rw [hwriter] at hexec hcontrol hsublist hexact
  rw [hexec.eq_of_nil] at hcontrol hsublist hexact
  obtain ⟨⟨i, fs, q, hwithin, hframes⟩, hreturned⟩ := hcontrol
  have hlength : q.frames.length = fs.length + 1 := by rw [hframes, List.length_append]; rfl
  refine ⟨h.shows, .nil, ⟨i, q, hwithin.last, hwithin.get, hwithin.phase, le_rfl, ?_⟩, hsublist,
    hreturned, hexact, fun htimed => ⟨h.timed_view htimed, (h.early htimed).2⟩⟩
  rw [hwithin.page_eq, passFrame_eq (h.shows.page i q hwithin.get) (by omega), hlength]

theorem fields_fills (kind : Call) {f : Frame} (hfit : f.length ≤ pageMinHeadroom) (frame : ℕ)
    (m : Memory) : Fills m frame f (kind.fields frame f) := by
  have hlt : f.length < 2 ^ 31 := hfit.trans_lt (by decide)
  cases kind with
  | writeFrame => exact frameFields_fills hlt m frame
  | passFrame => exact passedFields_fills hlt m frame

section Locate

variable {page : Page} {startNano closeNano : Int64}

theorem locate_none (h : (page.passWrittenFrame s.directory).isWritable s.directory = true) :
    s.locate jname page none startNano closeNano =
      { s with writer := ⟨[], .ready (page.passWrittenFrame s.directory)⟩ } := if_pos h

theorem locate_some (h : (page.passWrittenFrame s.directory).isWritable s.directory = true)
    (kind : Call) (f : Frame) :
    s.locate jname page (some (kind, f)) startNano closeNano =
      let page := page.passWrittenFrame s.directory
      { s with writer := ⟨onPage page.pageNum (publish kind.fields (s.directory.buffer page.pageNum)
          page.position f), .passing page f⟩ } := if_pos h

theorem locate_next (h : (page.passWrittenFrame s.directory).isWritable s.directory ≠ true)
    {job : Option (Call × Frame)} {stores : List Store} {newPage : Page}
    (hload : Page.loadWriting s.directory jname
      ((page.passWrittenFrame s.directory).pageNum + 1) startNano = .ok (stores, newPage)) :
    s.locate jname page job startNano closeNano =
      let page := page.passWrittenFrame s.directory
      { s with
        writer := ⟨stores ++ onPage page.pageNum (page.finishPage closeNano), .locating newPage job⟩
        clock := closeNano } := by
  refine (if_neg h).trans ?_
  rw [hload]

end Locate

def Control.atPage (page : Page) : Option (Call × Frame) → Control
  | none => .ready page
  | some (_, f) => .passing page f

section Locate

variable {page : Page} {job : Option (Call × Frame)} {i k : ℕ} {q : PageView}

theorem Writing.locating (h : Writing timed s v v')
    (hwriter : s.writer = ⟨[], .locating page job⟩) :
    v' = v ∧ (∃ i k q, Within v page i k q) ∧
      ∀ kind f, job = some (kind, f) → f.length ≤ pageMinHeadroom := by
  have hexec := h.exec
  have hcontrol := h.control
  rw [hwriter] at hexec hcontrol
  obtain rfl := hexec.eq_of_nil
  exact ⟨rfl, hcontrol⟩

theorem Writing.locate_room (h : Writing timed s v v)
    (hwriter : s.writer = ⟨[], .locating page job⟩)
    (hwithin : Within v page i k q) (hroom : q.tail + pageMinHeadroom < journalPageSize)
    (hfits : ∀ kind f, job = some (kind, f) → f.length ≤ pageMinHeadroom) (jname : List UInt8)
    (startNano closeNano : Int64) :
    ∃ w, Writing timed (s.locate jname page job startNano closeNano) v w ∧
      (s.locate jname page job startNano closeNano).failed = s.failed ∧ w.length = v.length ∧
      v.Keeps w ∧
      (s.locate jname page job startNano closeNano).writer.control =
        .atPage (page.passWrittenFrame s.directory) job := by
  have hsublist := h.sublist
  have hexact := h.exact
  rw [hwriter] at hsublist hexact
  obtain ⟨hpage, hend⟩ := hwithin.passWritten h.shows
  have hwritable := (hwithin.isWritable_iff h.shows).mpr hroom
  cases job with
  | none =>
    rw [locate_none hwritable]
    exact ⟨v, ⟨h.shows, .nil, ⟨i, q, hend⟩, hsublist, h.returned, hexact, h.early⟩, rfl, rfl,
      ⟨le_rfl, fun _ _ => rfl⟩, rfl⟩
  | some job =>
    obtain ⟨kind, f⟩ := job
    have hfit := hfits kind f rfl
    have hsize := h.shows.sized i q hwithin.get (by simp [hwithin.phase])
    have hpublish := exec_publish hwithin.get hwithin.last hwithin.phase hsize
      (fields_fills kind hfit q.tail) (by omega)
    have hlog := log_publish hwithin.get hwithin.last f q.startNano
    have hi := lt_length hwithin.get
    rw [locate_some hwritable, hpage]
    refine ⟨_, ⟨h.shows, hpublish, ⟨⟨i, q.frames, _, ⟨?_, List.getElem?_set_self hi, rfl, ?_, ?_⟩,
      rfl⟩, ?_⟩, ?_, h.returned, fun hinterrupted => ?_,
      fun htimed => ⟨?_, (h.early htimed).2⟩⟩, rfl,
      List.length_set, keeps_setLast hwithin.last _, rfl⟩
    · rw [List.length_set]
      exact hwithin.last
    · rw [List.length_append]
      exact Nat.le_add_right _ _
    · rw [List.take_left]
      rfl
    · rw [hlog]
      exact h.returned.append_right [f]
    · rw [hlog, Control.rest_passing, List.append_nil]
      exact hsublist
    · obtain ⟨hsent, hsealed⟩ := hexact hinterrupted
      rw [hlog, Control.rest_passing, List.append_nil]
      exact ⟨hsent, hsealed.setLast hwithin.last (by simp)⟩
    · exact (h.early htimed).1.set hwithin.get hpublish.grows
        ((h.early htimed).1 i q hwithin.get (by simp [hwithin.phase]))

theorem Writing.locate_full (h : Writing timed s v v) (hname : jname.length < 30)
    (hwriter : s.writer = ⟨[], .locating page job⟩) (hwithin : Within v page i k q)
    (hfull : journalPageSize ≤ q.tail + pageMinHeadroom)
    (hfits : ∀ kind f, job = some (kind, f) → f.length ≤ pageMinHeadroom)
    (hfew : v.length + 1 < 2 ^ 15) {startNano closeNano : Int64}
    (hclock : timed → s.clock ≤ startNano ∧ startNano ≤ closeNano) :
    ∃ w newPage r, Writing timed (s.locate jname page job startNano closeNano) v w ∧
      (s.locate jname page job startNano closeNano).failed = s.failed ∧
      w.length = v.length + 1 ∧ v.Keeps w ∧
      (s.locate jname page job startNano closeNano).writer.control = .locating newPage job ∧
      r.frames = [] ∧ Within w newPage (i + 1) 0 r := by
  have hsublist := h.sublist
  have hexact := h.exact
  rw [hwriter] at hsublist hexact
  obtain ⟨hpage, -⟩ := hwithin.passWritten h.shows
  have hunwritable : (page.passWrittenFrame s.directory).isWritable s.directory ≠ true :=
    fun hwritable => absurd ((hwithin.isWritable_iff h.shows).mp hwritable) (not_lt.mpr hfull)
  obtain ⟨stores, w, r, hload, hexec, hlog, hsealed, htimes, hlength, hempty, hkeeps, hstart⟩ :=
    load_next hname h.shows hwithin.last hwithin.get hwithin.phase hfull hfew startNano closeNano
  have hpageNum : (page.passWrittenFrame s.directory).pageNum + 1 = numberOf (i + 1) := by
    rw [hpage, numberOf_succ]
  rw [locate_next hunwritable (by rw [hpageNum]; exact hload), hpage]
  refine ⟨w, _, r, ⟨h.shows, hexec, ⟨⟨i + 1, 0, r, hstart⟩, hfits⟩, ?_, h.returned,
    fun hinterrupted => ?_, fun htimed => ?_⟩, rfl, hlength, hkeeps, rfl, hempty, hstart⟩
  · change (w.log ++ (Control.locating _ job).rest).Sublist s.sent
    rw [hlog]
    exact hsublist
  · obtain ⟨hsent, hwhole⟩ := hexact hinterrupted
    change w.log ++ (Control.locating _ job).rest = s.sent ∧ w.Sealed
    rw [hlog]
    exact ⟨hsent, hsealed hwhole⟩
  · obtain ⟨htimes', hsorted, hbelow⟩ := h.early htimed
    obtain ⟨hstarted, hclosed⟩ := hclock htimed
    refine ⟨htimes htimes' (h.le_clock htimed hstarted), hsorted, fun f hf => ?_⟩
    exact Int64.le_trans (Int64.le_trans (hbelow f hf) hstarted) hclosed

end Locate

theorem Shows.length_pageNums {d : Directory} (hd : Shows d v) : d.pageNums.length = v.length := by
  rw [hd.pageNums_eq, List.length_map, List.length_range]

theorem Writing.locate (h : Writing timed s v v') (hname : jname.length < 30) {page : Page}
    {job : Option (Call × Frame)} (hwriter : s.writer = ⟨[], .locating page job⟩)
    (hfew : s.directory.pageNums.length + 1 < 2 ^ 15) {startNano closeNano : Int64}
    (hclock : timed → s.clock ≤ startNano ∧ startNano ≤ closeNano) :
    ∃ w, Writing timed (s.locate jname page job startNano closeNano) v w ∧
      (s.locate jname page job startNano closeNano).failed = s.failed ∧ v.Keeps w := by
  obtain ⟨rfl, ⟨i, k, q, hwithin⟩, hfits⟩ := h.locating hwriter
  rw [h.shows.length_pageNums] at hfew
  rcases Nat.lt_or_ge (q.tail + pageMinHeadroom) journalPageSize with hroom | hfull
  · obtain ⟨w, hw, hfailed, -, hkeeps, -⟩ := h.locate_room hwriter hwithin hroom hfits jname _ _
    exact ⟨w, hw, hfailed, hkeeps⟩
  · obtain ⟨w, -, -, hw, hfailed, -, hkeeps, -⟩ :=
      h.locate_full hname hwriter hwithin hfull hfits hfew hclock
    exact ⟨w, hw, hfailed, hkeeps⟩

theorem readers_create (s : System) (nano : Int64) :
    (s.create jname nano).readers = s.readers := by
  unfold System.create
  dsimp only
  split <;> rfl

theorem readers_locate (s : System) (page : Page) (job : Option (Call × Frame))
    (startNano closeNano : Int64) :
    (s.locate jname page job startNano closeNano).readers = s.readers := by
  unfold System.locate
  dsimp only
  repeat' split
  all_goals rfl

def Past (v v' : View) (j : ℕ) : Prop := j + 1 < v.length ∧ v'[j]? = v[j]?

theorem Writing.eq_of_nil (h : Writing timed s v v') {control : Control}
    (hwriter : s.writer = ⟨[], control⟩) : v' = v := by
  have hexec := h.exec
  rw [hwriter] at hexec
  exact hexec.eq_of_nil

theorem View.Keeps.past (h : v.Keeps v') {j : ℕ} (hj : j + 1 < v.length) : Past v v' j :=
  ⟨hj, h.2 j hj⟩

/-- A step of the writer keeps what it is about, and no page is refused. -/
theorem Writing.step (h : Writing timed s v v') (hname : jname.length < 30)
    (hpermitted : Permitted s (.writer a)) (hticking : timed → Ticking s (.writer a))
    (hstep : s.stepWriter jname a = some s') :
    ∃ w w', Writing timed s' w w' ∧ v.Grows w ∧ s'.failed = s.failed ∧ s'.readers = s.readers ∧
      ∀ j, Past v v' j → Past w w' j ∧ w[j]? = v[j]? := by
  unfold System.stepWriter at hstep
  split at hstep
  next store stores control hwriter =>
    cases hstep
    have hstores : s.writer.stores = store :: stores := by rw [hwriter]
    obtain ⟨w, hw, hgrows, hbetween⟩ := h.store hstores
    have hcontrol : s.writer.control = control := by rw [hwriter]
    rw [hcontrol] at hw
    refine ⟨w, v', hw, hgrows, rfl, rfl, fun j hpast => ?_⟩
    have hj : j < v.length := Nat.lt_of_succ_lt hpast.1
    have hp : v[j]? = some v[j] := List.getElem?_eq_getElem hj
    have hw := hbetween j v[j] hp (hpast.2.trans hp)
    have hlength : v.length ≤ w.length := by
      have hle := hgrows.grown.length_le
      rwa [View.segments, View.segments, List.length_map, List.length_map] at hle
    exact ⟨⟨hpast.1.trans_le hlength, hpast.2.trans (hp.trans hw.symm)⟩, hw.trans hp.symm⟩
  next writer =>
    cases hstep
    exact ⟨v, v, h.crash, .refl v, rfl, rfl, fun j hpast => ⟨⟨hpast.1, rfl⟩, rfl⟩⟩
  next nano hwriter =>
    cases hstep
    obtain ⟨w, -, hw, hfailed, -, hkeeps, -⟩ := h.create hname hwriter hticking
    exact ⟨v, w, hw, .refl v, hfailed, readers_create s nano, fun j hpast =>
      ⟨hkeeps.past hpast.1, rfl⟩⟩
  next kind f page hwriter =>
    cases hstep
    exact ⟨v, v, h.call hwriter kind hpermitted hticking, .refl v, rfl, rfl, fun j hpast =>
      ⟨⟨hpast.1, rfl⟩, rfl⟩⟩
  next startNano closeNano page job hwriter =>
    cases hstep
    obtain ⟨w, hw, hfailed, hkeeps⟩ := h.locate hname hwriter hpermitted hticking
    exact ⟨v, w, hw, .refl v, hfailed, readers_locate s page job startNano closeNano,
      fun j hpast => ⟨hkeeps.past hpast.1, rfl⟩⟩
  next page f hwriter =>
    cases hstep
    exact ⟨v, v, h.pass hwriter, .refl v, rfl, rfl, fun j hpast => ⟨⟨hpast.1, rfl⟩, rfl⟩⟩
  next => cases hstep

end Writing

end Yijinjing
