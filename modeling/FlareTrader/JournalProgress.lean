import FlareTrader.JournalRuns

/-! A writer that is left to itself comes to the end of its call, also one that takes the place
of a writer that was killed, and a reader that is left to itself gets the next frame. -/

namespace Yijinjing

open Execution

def Action.working : Action → Prop
  | .writer .store => True
  | .writer .pass => True
  | .writer (.locate _ _) => True
  | _ => False

def Working (s : System) (a : Action) : Prop := Timely s a ∧ a.working

def System.drained (s : System) : System :=
  { s with
    directory := s.directory.applyAll s.writer.stores
    writer := ⟨[], s.writer.control⟩ }

structure Finished (s s' : System) (more : List Frame) (pages : ℕ) : Prop where
  ready : ∃ page, s'.writer = ⟨[], .ready page⟩
  sent : s'.sent = s.sent
  returned : s'.returned = s.returned ++ more
  interrupted : s'.interrupted = s.interrupted
  clock : s'.clock = s.clock
  readers : s'.readers = s.readers
  pages : s'.directory.pageNums.length ≤ s.directory.pageNums.length + pages

section Progress

variable {timed : Prop} {s t : System} {v v' : View} (jname : List UInt8) {page : Page}
  {job : Option (Call × Frame)} {i k : ℕ} {q : PageView}

theorem reaches_stores (s : System) {stores rest : List Store} {control : Control}
    (hwriter : s.writer = ⟨stores ++ rest, control⟩) :
    Reaches (System.step jname) Working s
      { s with
        directory := s.directory.applyAll stores
        writer := ⟨rest, control⟩ } := by
  obtain ⟨d, writer, readers, clock, sent, returned, interrupted, failed⟩ := s
  cases hwriter
  induction stores generalizing d with
  | nil => exact .refl _
  | cons store stores ih =>
    exact .head (a := .writer .store) ⟨⟨trivial, trivial⟩, trivial⟩ rfl (ih (d.apply store))

theorem reaches_drained (s : System) :
    Reaches (System.step jname) Working s s.drained := by
  apply reaches_stores
  rw [List.append_nil]

theorem Writing.drained (h : Writing timed s v v') : Writing timed s.drained v' v' where
  shows := h.exec.shows h.shows
  exec := .nil
  control := h.control
  sublist := h.sublist
  returned := h.returned.trans h.log_prefix.sublist
  exact := h.exact
  early := h.early

theorem locate_frame (s : System) (page : Page) (job : Option (Call × Frame)) :
    let s' := s.locate jname page job s.clock s.clock
    s'.readers = s.readers ∧ s'.sent = s.sent ∧ s'.returned = s.returned ∧
      s'.interrupted = s.interrupted ∧ s'.clock = s.clock := by
  unfold System.locate
  dsimp only
  repeat' split
  all_goals exact ⟨rfl, rfl, rfl, rfl, rfl⟩

theorem create_frame (s : System) (nano : Int64) :
    let s' := s.create jname nano
    s'.readers = s.readers ∧ s'.sent = s.sent ∧ s'.returned = s.returned ∧
      s'.interrupted = s.interrupted := by
  unfold System.create
  dsimp only
  split <;> exact ⟨rfl, rfl, rfl, rfl⟩

theorem step_locate (hwriter : s.writer = ⟨[], .locating page job⟩) (startNano closeNano : Int64) :
    s.step jname (.writer (.locate startNano closeNano)) =
      some (s.locate jname page job startNano closeNano) := by
  obtain ⟨d, writer, readers, clock, sent, returned, interrupted, failed⟩ := s
  cases hwriter
  rfl

theorem step_pass {f : Frame} (hwriter : s.writer = ⟨[], .passing page f⟩) :
    s.step jname (.writer .pass) =
      some { s with
        writer := ⟨[], .ready (page.passFrame s.directory)⟩
        returned := s.returned ++ [f] } := by
  obtain ⟨d, writer, readers, clock, sent, returned, interrupted, failed⟩ := s
  cases hwriter
  rfl

theorem step_call (hwriter : s.writer = ⟨[], .ready page⟩) (kind : Call) (f : Frame) :
    s.step jname (.writer (.call kind f)) =
      some { s with
        writer := ⟨[], .locating page (some (kind, f))⟩
        clock := f.nano
        sent := s.sent ++ [f] } := by
  obtain ⟨d, writer, readers, clock, sent, returned, interrupted, failed⟩ := s
  cases hwriter
  rfl

theorem step_create (hwriter : s.writer = ⟨[], .down⟩) (nano : Int64) :
    s.step jname (.writer (.create nano)) = some (s.create jname nano) := by
  obtain ⟨d, writer, readers, clock, sent, returned, interrupted, failed⟩ := s
  cases hwriter
  rfl

theorem reaches_located (hwriter : s.writer = ⟨[], .locating page job⟩)
    (hfew : s.directory.pageNums.length + 1 < 2 ^ 15) :
    Reaches (System.step jname) Working s (s.locate jname page job s.clock s.clock).drained :=
  .head (a := .writer (.locate s.clock s.clock))
    ⟨⟨hfew, Int64.le_refl _, Int64.le_refl _⟩, trivial⟩ (step_locate jname hwriter _ _)
    (reaches_drained jname _)

theorem finishes_room (h : Writing timed s v v) (hwriter : s.writer = ⟨[], .locating page job⟩)
    (hwithin : Within v page i k q) (hroom : q.tail + pageMinHeadroom < journalPageSize)
    (hfits : ∀ kind f, job = some (kind, f) → f.length ≤ pageMinHeadroom)
    (hfew : v.length + 1 < 2 ^ 15) :
    ∃ t, Reaches (System.step jname) Working s t ∧
      Finished s t (job.map Prod.snd).toList 0 := by
  obtain ⟨w, hw, -, hlength, -, hcontrol⟩ :=
    h.locate_room hwriter hwithin hroom hfits jname s.clock s.clock
  obtain ⟨hreaders, hsent, hreturned, hinterrupted, hclock⟩ := locate_frame jname s page job
  have hreaches := reaches_located jname hwriter (by rwa [h.shows.length_pageNums])
  have hpages : (s.locate jname page job s.clock s.clock).drained.directory.pageNums.length =
      s.directory.pageNums.length := by
    rw [hw.drained.shows.length_pageNums, hlength, h.shows.length_pageNums]
  cases job with
  | none =>
    refine ⟨_, hreaches, ⟨_, congrArg (Writer.mk []) hcontrol⟩, hsent, ?_, hinterrupted, hclock,
      hreaders, hpages.le⟩
    exact hreturned.trans (List.append_nil _).symm
  | some job =>
    obtain ⟨kind, f⟩ := job
    have hpass := step_pass jname
      (s := (s.locate jname page (some (kind, f)) s.clock s.clock).drained)
      (congrArg (Writer.mk []) hcontrol)
    refine ⟨_, hreaches.tail (.writer .pass) ⟨⟨trivial, trivial⟩, trivial⟩ hpass, ⟨_, rfl⟩, hsent,
      ?_, hinterrupted, hclock, hreaders, hpages.le⟩
    exact congrArg (· ++ [f]) hreturned

theorem Finished.after {u : System} {more : List Frame} {pages pages' : ℕ}
    (h : Finished t u more pages) (hsent : t.sent = s.sent) (hreturned : t.returned = s.returned)
    (hinterrupted : t.interrupted = s.interrupted) (hclock : t.clock = s.clock)
    (hreaders : t.readers = s.readers)
    (hpages : t.directory.pageNums.length + pages ≤ s.directory.pageNums.length + pages') :
    Finished s u more pages' where
  ready := h.ready
  sent := h.sent.trans hsent
  returned := by rw [h.returned, hreturned]
  interrupted := h.interrupted.trans hinterrupted
  clock := h.clock.trans hclock
  readers := h.readers.trans hreaders
  pages := h.pages.trans hpages

/-- A call ends with at most one new page. -/
theorem finishes {jname : List UInt8} (h : Writing False s v v) (hname : jname.length < 30)
    (hwriter : s.writer = ⟨[], .locating page job⟩) (hfew : v.length + 2 < 2 ^ 15) :
    ∃ t, Reaches (System.step jname) Working s t ∧
      Finished s t (job.map Prod.snd).toList 1 := by
  obtain ⟨-, ⟨i, k, q, hwithin⟩, hfits⟩ := h.locating hwriter
  rcases Nat.lt_or_ge (q.tail + pageMinHeadroom) journalPageSize with hroom | hfull
  · obtain ⟨t, hreaches, hfinished⟩ :=
      finishes_room jname h hwriter hwithin hroom hfits (by omega)
    exact ⟨t, hreaches, hfinished.after rfl rfl rfl rfl rfl (Nat.le_succ _)⟩
  · have hticking : False → s.clock ≤ s.clock ∧ s.clock ≤ s.clock := False.elim
    obtain ⟨w, newPage, r, hw, -, hlength, -, hcontrol, hempty, hstart⟩ :=
      h.locate_full hname hwriter hwithin hfull hfits (by omega) hticking
    obtain ⟨hreaders, hsent, hreturned, hinterrupted, hclock⟩ := locate_frame jname s page job
    have hreaches := reaches_located jname hwriter
      (by rw [h.shows.length_pageNums]; omega)
    have hroom : r.tail + pageMinHeadroom < journalPageSize := by
      rw [PageView.tail, hempty]
      decide
    obtain ⟨t, hnext, hfinished⟩ := finishes_room jname hw.drained
      (congrArg (Writer.mk []) hcontrol) hstart hroom hfits (by omega)
    refine ⟨t, hreaches.trans hnext,
      hfinished.after hsent hreturned hinterrupted hclock hreaders ?_⟩
    rw [hw.drained.shows.length_pageNums, hlength, h.shows.length_pageNums]

theorem timely_of_working {s t : System} (h : Reaches (System.step jname) Working s t) :
    Reaches (System.step jname) Timely s t := h.mono fun _ _ hboth => hboth.1

theorem permitted_of_timely {s t : System} (h : Reaches (System.step jname) Timely s t) :
    Reaches (System.step jname) Permitted s t := h.mono fun _ _ hboth => hboth.1

/-- A new writer, after at most two new pages, is between two calls. -/
theorem create_finishes {jname : List UInt8} (h : Writing False s v v') (hname : jname.length < 30)
    (hwriter : s.writer = ⟨[], .down⟩) (hfew : v.length + 3 < 2 ^ 15) (nano : Int64) :
    ∃ t u, s.step jname (.writer (.create nano)) = some t ∧
      Reaches (System.step jname) Working t u ∧ Finished { s with clock := nano } u [] 2 := by
  have hticking : False → s.clock ≤ nano := False.elim
  obtain ⟨w, page, hw, -, hlength, -, hcontrol⟩ := h.create hname hwriter hticking
  have hclock := h.clock_create hname nano
  obtain ⟨hreaders, hsent, hreturned, hinterrupted⟩ := create_frame jname s nano
  have hdrained := hw.drained
  obtain ⟨u, hreaches, hfinished⟩ := finishes hdrained hname (congrArg (Writer.mk []) hcontrol)
    (by omega)
  refine ⟨_, u, step_create jname hwriter nano, (reaches_drained jname _).trans hreaches,
    hfinished.after hsent hreturned hinterrupted hclock hreaders ?_⟩
  rw [hdrained.shows.length_pageNums, h.shows.length_pageNums]
  omega

/-- A call ends, after at most one new page, with its frame in the journal. -/
theorem call_finishes {jname : List UInt8} (h : Writing False s v v') (hname : jname.length < 30)
    (hwriter : s.writer = ⟨[], .ready page⟩) (hfew : s.directory.pageNums.length + 2 < 2 ^ 15)
    (kind : Call) {f : Frame} (hfit : f.length ≤ pageMinHeadroom) :
    ∃ t u, s.step jname (.writer (.call kind f)) = some t ∧
      Reaches (System.step jname) Working t u ∧ t.sent = s.sent ++ [f] ∧
      t.readers = s.readers ∧ Finished t u [f] 1 ∧ t.returned = s.returned ∧
      t.interrupted = s.interrupted ∧ t.clock = f.nano ∧ t.directory = s.directory := by
  rw [h.shows.length_pageNums] at hfew
  obtain ⟨u, hreaches, hfinished⟩ := finishes (h.call hwriter kind hfit False.elim) hname rfl hfew
  exact ⟨_, u, step_call jname hwriter kind f, hreaches, rfl, rfl, hfinished, rfl, rfl,
    rfl, rfl⟩

theorem calls_finish {jname : List UInt8} (hname : jname.length < 30) (kind : Call)
    {fs : List Frame} (hfits : ∀ f ∈ fs, f.length ≤ pageMinHeadroom)
    (hsorted : fs.Pairwise fun f g => f.nano ≤ g.nano) (hclock : ∀ f ∈ fs, s.clock ≤ f.nano)
    (h : Reaches (System.step jname) Timely {} s) (hwriter : s.writer = ⟨[], .ready page⟩)
    (hfew : s.directory.pageNums.length + fs.length + 2 < 2 ^ 15) :
    ∃ t, Reaches (System.step jname) Timely {} t ∧ t.writer.atRest = true ∧
      t.sent = s.sent ++ fs ∧ t.returned = s.returned ++ fs ∧ t.interrupted = s.interrupted ∧
      t.readers = s.readers := by
  induction fs generalizing s page with
  | nil =>
    refine ⟨s, h, ?_, (List.append_nil _).symm, (List.append_nil _).symm, rfl, rfl⟩
    rw [hwriter]
    rfl
  | cons f fs ih =>
    obtain ⟨hfit, hfits'⟩ := List.forall_mem_cons.mp hfits
    obtain ⟨hlater, hsorted'⟩ := List.pairwise_cons.mp hsorted
    rw [List.length_cons] at hfew
    obtain ⟨v, v', hrunning⟩ := running_of_permitted hname (permitted_of_timely jname h)
    obtain ⟨t, u, hcall, hreaches, hsent, hreaders, hfinished, hreturned, hinterrupted, hnano,
      hpages⟩ := call_finishes hrunning.writing hname hwriter (by omega) kind hfit
    have hreached : Reaches (System.step jname) Timely {} u :=
      (h.tail (.writer (.call kind f)) ⟨hfit, hclock f List.mem_cons_self⟩ hcall).trans
        (timely_of_working jname hreaches)
    obtain ⟨page', hready⟩ := hfinished.ready
    have hmore := hfinished.pages
    rw [hpages] at hmore
    obtain ⟨w, hw, hrest, hsent', hreturned', hinterrupted', hreaders'⟩ :=
      ih hfits' hsorted' (by rwa [hfinished.clock, hnano]) hreached hready (by omega)
    refine ⟨w, hw, hrest, ?_, ?_, ?_, ?_⟩
    · rw [hsent', hfinished.sent, hsent, List.append_assoc, List.singleton_append]
    · rw [hreturned', hfinished.returned, hreturned, List.append_assoc, List.singleton_append]
    · rw [hinterrupted', hfinished.interrupted, hinterrupted]
    · rw [hreaders', hfinished.readers, hreaders]

theorem reaches_written {jname : List UInt8} (hname : jname.length < 30) (kind : Call)
    {fs : List Frame} (hfits : ∀ f ∈ fs, f.length ≤ pageMinHeadroom)
    (hsorted : fs.Pairwise fun f g => f.nano ≤ g.nano) (hclock : ∀ f ∈ fs, 0 ≤ f.nano)
    (hfew : fs.length + 4 < 2 ^ 15) :
    ∃ s, Reaches (System.step jname) Timely {} s ∧ s.writer.atRest = true ∧ s.sent = fs ∧
      s.returned = fs ∧ s.interrupted = false ∧ s.readers = fun _ => {} := by
  obtain ⟨t, u, hcreate, hreaches, hfinished⟩ :=
    create_finishes (writing_start False) hname rfl (by decide) 0
  have hreached : Reaches (System.step jname) Timely {} u :=
    .head (a := .writer (.create 0)) ⟨trivial, Int64.le_refl _⟩ hcreate
      (timely_of_working jname hreaches)
  obtain ⟨page, hready⟩ := hfinished.ready
  have hpages : u.directory.pageNums.length ≤ 0 + 2 := hfinished.pages
  obtain ⟨w, hw, hrest, hsent, hreturned, hinterrupted, hreaders⟩ :=
    calls_finish hname kind hfits hsorted (by rwa [hfinished.clock]) hreached hready (by omega)
  refine ⟨w, hw, hrest, ?_, ?_, ?_, ?_⟩
  · rw [hsent, hfinished.sent]
    rfl
  · rw [hreturned, hfinished.returned]
    rfl
  · rw [hinterrupted, hfinished.interrupted]
  · rw [hreaders, hfinished.readers]

end Progress

theorem Remaining.locate_frame {d : Directory} {v : View} {j : Journal} {f : Frame}
    {rest : List Frame} (h : Remaining v j (f :: rest)) (hd : Shows d v) (hsealed : v.Sealed) :
    ∃ j' p, j.expired = false ∧ (if j.needsPage d then j.loadNextPage d else .ok j) = .ok j' ∧
      j'.curPage = some p ∧ (p.locateReadableFrame d).isSome ∧
      Frame.get (d.buffer p.pageNum) p.position = f ∧ Remaining v (j'.passFrame d) rest := by
  obtain ⟨j', found, hlocate, hfound⟩ := h.locate hd hsealed
  cases hfound with
  | @frame f rest n a hstays hat hpass =>
    have hexpired : j.expired ≠ true := by
      intro hexpired
      rw [Journal.locateFrame, if_pos hexpired] at hlocate
      cases hlocate
    rw [Journal.locateFrame, if_neg hexpired] at hlocate
    generalize hpage : (if j.needsPage d then j.loadNextPage d else .ok j) = located at hlocate
    cases located with
    | error => cases hlocate
    | ok j'' =>
      simp only [Except.map, Except.ok.injEq, Prod.mk.injEq] at hlocate
      obtain ⟨rfl, hfound⟩ := hlocate
      obtain ⟨p, hp, hfound⟩ := Option.bind_eq_some_iff.mp hfound
      obtain ⟨b, hb, hsame⟩ := Option.map_eq_some_iff.mp hfound
      obtain ⟨hn, ha⟩ := Prod.mk.inj hsame
      have hposition : p.position = b := by
        rw [Page.locateReadableFrame] at hb
        split_ifs at hb
        exact Option.some.inj hb
      refine ⟨j'', p, Bool.eq_false_iff.mpr hexpired, rfl, hp, Option.isSome_of_eq_some hb, ?_,
        hpass⟩
      rw [hposition, hn, ha]
      exact hat.get_eq

/-- A reader that is left to itself gets the next frame. -/
theorem Reader.gets {d : Directory} {v : View} {r : Reader} {f : Frame} {rest : List Frame}
    (h : Remaining v r.journal (f :: rest)) (hd : Shows d v) (hsealed : v.Sealed)
    (hready : r.reading = .ready) :
    ∃ r₁ r₂ r₃, r.step d .next = some (.ok r₁) ∧ r₁.step d .look = some (.ok r₂) ∧
      r₂.step d .take = some (.ok r₃) ∧ r₃.reading = .ready ∧ r₃.sought = r.sought ∧
      r₃.out = r.out ++ [f] ∧ Remaining v r₃.journal rest := by
  obtain ⟨j, p, hexpired, hlocate, hp, hfound, hframe, hpass⟩ := h.locate_frame hd hsealed
  refine ⟨{ r with journal := j, reading := .checked },
    { r with journal := j, reading := .located },
    { r with
      journal := j.passFrame d
      reading := .ready
      out := r.out ++ [f] }, ?_, ?_, ?_, rfl, rfl, rfl, hpass⟩
  · simp only [Reader.step, if_pos hready, hexpired, Bool.false_eq_true, if_false]
    split_ifs at hlocate ⊢
    · rw [hlocate]
      rfl
    · cases hlocate
      rfl
  · simp only [Reader.step, if_true, hp, Option.bind_some, hfound]
  · simp only [Reader.step, hp, hframe, Journal.passFrame, Option.map_some]

def System.withReader (s : System) (i : ℕ) (r : Reader) : System :=
  { s with readers := Function.update s.readers i r }

theorem withReader_self (s : System) (i : ℕ) (r : Reader) : (s.withReader i r).readers i = r :=
  Function.update_self _ _ _

theorem withReader_again (s : System) (i : ℕ) (r r' : Reader) :
    (s.withReader i r).withReader i r' = s.withReader i r' := by
  rw [System.withReader, System.withReader, System.withReader]
  exact congrArg (fun readers => { s with readers }) (Function.update_idem _ _ _)

theorem withReader_readers (s : System) (i : ℕ) : s.withReader i (s.readers i) = s := by
  rw [System.withReader, Function.update_eq_self]

theorem step_withReader (jname : List UInt8) (s : System) (i : ℕ) (r : Reader) {a : ReaderAction}
    {r' : Reader} (h : r.step s.directory a = some (.ok r')) :
    (s.withReader i r).step jname (.reader i a) = some (s.withReader i r') := by
  have hstep : (s.withReader i r).stepReader i a = some ((s.withReader i r).withReader i r') := by
    rw [System.stepReader, withReader_self]
    exact congrArg (Option.map _) h
  rw [withReader_again] at hstep
  exact hstep

section Alone

variable (jname : List UInt8) {s : System} {v : View} {i : ℕ} {j : Journal} {time sought : Int64}
  {out : List Frame}

/-- A reader that is left to itself gets all the frames that are to come. -/
theorem reads_all (hd : Shows s.directory v) (hsealed : v.Sealed) (i : ℕ) {r : Reader}
    {rest : List Frame} (h : Remaining v r.journal rest) (hready : r.reading = .ready) :
    ∃ r', Reaches (System.step jname) Timely (s.withReader i r) (s.withReader i r') ∧
      r'.reading = .ready ∧ r'.sought = r.sought ∧ r'.out = r.out ++ rest ∧
      Remaining v r'.journal [] := by
  induction rest generalizing r with
  | nil => exact ⟨r, .refl _, hready, rfl, (List.append_nil _).symm, h⟩
  | cons f rest ih =>
    obtain ⟨r₁, r₂, r₃, hnext, hlook, htake, hready₃, hsought, hout, hremaining⟩ :=
      Reader.gets h hd hsealed hready
    obtain ⟨r', hreaches, hready', hsought', hout', hend⟩ := ih hremaining hready₃
    refine ⟨r', .head (a := .reader i .next) ⟨trivial, trivial⟩ (step_withReader jname s i r hnext)
      (.head (a := .reader i .look) ⟨trivial, trivial⟩ (step_withReader jname s i r₁ hlook)
        (.head (a := .reader i .take) ⟨trivial, trivial⟩ (step_withReader jname s i r₂ htake)
          hreaches)), hready', hsought'.trans hsought, ?_, hend⟩
    rw [hout', hout, List.append_assoc]
    rfl

theorem reads_headers (unread : Int16 → Int64) {ns : List Int16}
    (hinited : ∀ n ∈ ns, s.directory.Inited n) :
    Reaches (System.step jname) Timely (s.withReader i ⟨j, .choosing time ns, sought, out⟩)
      (s.withReader i ⟨j, .loading time
        ((ns.find? fun n => s.directory.headerNano (unread n) n < time).getD 1), sought, out⟩) := by
  induction ns with
  | nil =>
    refine .head (a := .reader i (.header 0)) ⟨trivial, fun time n ns hreading => ?_⟩
      (step_withReader jname s i _ rfl) (.refl _)
    rw [withReader_self] at hreading
    cases hreading
  | cons n ns ih =>
    obtain ⟨hn, hns⟩ := List.forall_mem_cons.mp hinited
    have hticking : Timely (s.withReader i ⟨j, .choosing time (n :: ns), sought, out⟩)
        (.reader i (.header (unread n))) := by
      refine ⟨trivial, fun time' n' ns' hreading => ?_⟩
      rw [withReader_self] at hreading
      cases hreading
      exact hn
    have hstep : Reader.step s.directory ⟨j, .choosing time (n :: ns), sought, out⟩
        (.header (unread n)) = some (.ok ⟨j,
          if s.directory.headerNano (unread n) n < time then .loading time n
          else .choosing time ns, sought, out⟩) := rfl
    have hhead := step_withReader jname s i _ hstep
    rw [List.find?_cons]
    by_cases hbefore : s.directory.headerNano (unread n) n < time
    · rw [if_pos hbefore] at hhead
      rw [decide_eq_true hbefore]
      exact .head hticking hhead (.refl _)
    · rw [if_neg hbefore] at hhead
      rw [decide_eq_false hbefore]
      exact .head hticking hhead (ih hns)

theorem passes_frames (fuel : ℕ)
    (hend : (Journal.seekLoop s.directory time fuel j).curPage.any
      (Journal.seekPasses s.directory time) = false) :
    Reaches (System.step jname) Timely (s.withReader i ⟨j, .seeking time, time, []⟩)
      (s.withReader i ⟨Journal.seekLoop s.directory time fuel j, .ready, time, []⟩) := by
  have hstop : ∀ j : Journal, j.curPage.any (Journal.seekPasses s.directory time) = false →
      Reader.step s.directory ⟨j, .seeking time, time, []⟩ .pass =
        some (.ok ⟨j, .ready, time, []⟩) := by
    rintro ⟨expired, curPage⟩ hstays
    cases curPage with
    | none => rfl
    | some p =>
      have hstays' : Journal.seekPasses s.directory time p = false := hstays
      change some (Except.ok (if Journal.seekPasses s.directory time p then _ else _)) = _
      rw [hstays']
      rfl
  induction fuel generalizing j with
  | zero =>
    exact .head (a := .reader i .pass) ⟨trivial, trivial⟩
      (step_withReader jname s i _ (hstop j hend)) (.refl _)
  | succ fuel ih =>
    rw [Journal.seekLoop] at hend ⊢
    by_cases hpasses : j.curPage.any (Journal.seekPasses s.directory time) = true
    · rw [if_pos hpasses] at hend ⊢
      have hstep : Reader.step s.directory ⟨j, .seeking time, time, []⟩ .pass =
          some (.ok ⟨j.passFrame s.directory, .seeking time, time, []⟩) := by
        obtain ⟨expired, curPage⟩ := j
        cases curPage with
        | none => cases hpasses
        | some p =>
          have hpasses' : Journal.seekPasses s.directory time p = true := hpasses
          change some (Except.ok (if Journal.seekPasses s.directory time p then _ else _)) = _
          rw [hpasses']
          rfl
      exact .head (a := .reader i .pass) ⟨trivial, trivial⟩ (step_withReader jname s i _ hstep)
        (ih hend)
    · rw [if_neg hpasses] at hend ⊢
      exact .head (a := .reader i .pass) ⟨trivial, trivial⟩
        (step_withReader jname s i _ (hstop j (Bool.eq_false_iff.mpr hpasses))) (.refl _)

theorem seekLoop_ends {d : Directory} (hd : Shows d v) {l k : ℕ} {q : PageView}
    (hq : v[l]? = some q) (hk : k ≤ q.frames.length) {fuel : ℕ}
    (hfuel : q.frames.length ≤ k + fuel) (time : Int64) :
    (Journal.seekLoop d time fuel
      ⟨false, some ⟨numberOf l, endOf pageInitPosition (q.frames.take k), k⟩⟩).curPage.any
        (Journal.seekPasses d time) = false := by
  induction fuel generalizing k with
  | zero =>
    have hnot : ¬ k < q.frames.length := by omega
    change Journal.seekPasses d time _ = false
    rw [Journal.seekPasses, decide_eq_false_iff_not]
    exact fun h => hnot ((written_iff hd hq hk).mp h.1)
  | succ fuel ih =>
    rw [Journal.seekLoop]
    split_ifs with hpasses
    · rw [Option.any_some, Journal.seekPasses, decide_eq_true_eq] at hpasses
      have hlt := (written_iff hd hq hk).mp hpasses.1
      rw [Journal.passFrame, Option.map_some, passFrame_eq (hd.page l q hq) hlt]
      exact ih hlt (by omega)
    · exact Bool.eq_false_iff.mpr hpasses

theorem Remaining.seekLoop_ends {d : Directory} {rest : List Frame} (h : Remaining v j rest)
    (hd : Shows d v) (time : Int64) :
    (Journal.seekLoop d time journalPageSize j).curPage.any (Journal.seekPasses d time) =
      false := by
  have hnone : ∀ expired fuel, (Journal.seekLoop d time fuel ⟨expired, none⟩).curPage.any
      (Journal.seekPasses d time) = false := by
    intro expired fuel
    cases fuel <;> rfl
  cases h with
  | waiting => exact hnone false _
  | expired => exact hnone true _
  | @paged l k q rest hq hphase hk hrest =>
    have hlow := le_endOf pageInitPosition q.frames
    have hlt : endOf pageInitPosition q.frames < journalPageSize := (hd.page l q hq).tail_lt
    exact Yijinjing.seekLoop_ends hd hq hk (by omega) time

theorem reaches_seekTime (hd : Shows s.directory v) (hsealed : v.Sealed)
    (hready : (s.readers i).reading = .ready) (time : Int64) :
    ∃ j skipped rest, Reaches (System.step jname) Timely s
        (s.withReader i ⟨j, .ready, time, []⟩) ∧ Remaining v j rest ∧
      skipped ++ rest = v.log ∧ (Timed v → PassedOver time skipped) := by
  have hpage := seekPage_spec hd hsealed (fun _ => 0) time
  obtain ⟨j, -, rest, hpage, hremaining, -⟩ := hpage
  obtain ⟨j', skipped, rest', hseek, hrest, hsplit, hskipped⟩ :=
    seekTime_spec hd hsealed (fun _ => 0) time
  rw [Journal.seekTime, hpage] at hseek
  cases hseek
  have hsought := step_withReader jname s i (s.readers i) (a := .seek time)
    (by rw [Reader.step, if_pos hready])
  rw [withReader_readers] at hsought
  have hchosen : Reaches (System.step jname) Timely
      (s.withReader i { s.readers i with reading := .ofSeek s.directory time })
      (s.withReader i { s.readers i with
        reading := .loading time (Journal.seekPageNum s.directory (fun _ => 0) time) }) := by
    unfold Reading.ofSeek Journal.seekPageNum
    split_ifs
    · exact .refl _
    · exact .refl _
    · exact reads_headers jname _ fun n hn => inited_of_sealed hd hsealed (List.mem_reverse.mp hn)
  have hload : Reader.step s.directory { s.readers i with
      reading := .loading time (Journal.seekPageNum s.directory (fun _ => 0) time) } .load =
        some (.ok ⟨j, .seeking time, time, []⟩) := by
    change some ((Journal.seekPage s.directory _).map _) = _
    rw [hpage]
    rfl
  have hloaded := hchosen.tail (.reader i .load) ⟨trivial, trivial⟩
    (step_withReader jname s i _ hload)
  exact ⟨_, skipped, rest', (Reaches.head (a := .reader i (.seek time)) ⟨trivial, trivial⟩ hsought
    hloaded).trans (passes_frames jname journalPageSize (hremaining.seekLoop_ends hd time)), hrest,
    hsplit, hskipped⟩

end Alone

end Yijinjing
