import FlareTrader.JournalViews

/-! The stores that a writer makes for one step of its program, one by one: each of them leaves
a directory that shows a view, so that the writer can stop between any two. -/

namespace Yijinjing

open ByteMemory

/-- The stores take the directory from view to view. -/
inductive Exec : Directory → View → List Store → View → Prop where
  | nil {d : Directory} {v : View} : Exec d v [] v
  | cons {d : Directory} {v v₁ v' : View} {s : Store} {stores : List Store}
    (h : Effect d v s v₁) (hrest : Exec (d.apply s) v₁ stores v') : Exec d v (s :: stores) v'

section Exec

variable {d : Directory} {v v₁ v' : View} {stores stores' : List Store}

theorem Exec.single {s : Store} (h : Effect d v s v') : Exec d v [s] v' := .cons h .nil

theorem Exec.append (h : Exec d v stores v₁) (h' : Exec (d.applyAll stores) v₁ stores' v') :
    Exec d v (stores ++ stores') v' := by
  induction h with
  | nil => exact h'
  | cons he _ ih => exact .cons he (ih h')

theorem Exec.shows (h : Exec d v stores v') (hd : Shows d v) : Shows (d.applyAll stores) v' := by
  induction h with
  | nil => exact hd
  | cons he _ ih => exact ih (hd.step he)

theorem Exec.grows (h : Exec d v stores v') : v.Grows v' := by
  induction h with
  | nil => exact .refl _
  | cons he _ ih => exact he.grows.trans ih

theorem Exec.progress (h : Exec d v stores v') {i : ℕ} {p : PageView} (hp : v[i]? = some p) :
    v'[i]? = some p ∨ ∃ q, v'[i]? = some q ∧ p.progress < q.progress := by
  induction h generalizing p with
  | nil => exact Or.inl hp
  | cons he _ ih =>
    rcases he.progress hp with hsame | ⟨q, hq, hless⟩
    · exact ih hsame
    · rcases ih hq with hsame | ⟨r, hr, hless'⟩
      · exact Or.inr ⟨q, hsame, hless⟩
      · exact Or.inr ⟨r, hr, hless.trans hless'⟩

/-- A page that shows the same in the end does so in between. -/
theorem Exec.between {s : Store} (he : Effect d v s v₁) (h : Exec (d.apply s) v₁ stores v')
    {i : ℕ} {p : PageView} (hp : v[i]? = some p) (hp' : v'[i]? = some p) : v₁[i]? = some p := by
  rcases he.progress hp with hsame | ⟨q, hq, hless⟩
  · exact hsame
  · rcases h.progress hq with hsame | ⟨r, hr, hless'⟩
    · rw [hp'] at hsame
      cases hsame
      exact absurd hless (lt_irrefl _)
    · rw [hp'] at hr
      cases hr
      exact absurd (hless.trans hless') (lt_irrefl _)

def Store.InPage (d : Directory) : Store → Prop
  | .openPage _ => True
  | .stretch n => n ∈ d.pageNums
  | .byte n a _ => n ∈ d.pageNums ∧ a < d.size n

def InPages : Directory → List Store → Prop
  | _, [] => True
  | d, s :: stores => s.InPage d ∧ InPages (d.apply s) stores

theorem Shows.numberOf_mem (hd : Shows d v) {i : ℕ} {p : PageView} (hp : v[i]? = some p) :
    numberOf i ∈ d.pageNums := by
  have hi := lt_length hp
  have hfew := hd.few
  exact (hd.mem_pageNums (by omega)).mpr hi

theorem Effect.inPage {s : Store} (h : Effect d v s v') (hd : Shows d v) : s.InPage d := by
  cases h with
  | opens hfew hready => trivial
  | opened hi => trivial
  | stretches hp hphase => exact hd.numberOf_mem hp
  | spare b hp hsize ha =>
    refine ⟨hd.numberOf_mem hp, ?_⟩
    rw [hsize]
    rcases ha with ⟨-, -, hhigh⟩ | ⟨-, -, hhigh⟩ | ⟨-, -, hhigh⟩
    · exact hhigh.trans (by decide)
    · exact hhigh.trans (by decide)
    · exact hhigh
  | stamps hp hphase hb =>
    refine ⟨hd.numberOf_mem hp, ?_⟩
    rw [hd.sized _ _ hp hphase]
    rcases hb with ⟨rfl, -⟩ | ⟨rfl, -⟩ <;> decide
  | inits hp hphase hsize =>
    refine ⟨hd.numberOf_mem hp, ?_⟩
    rw [hsize]
    decide
  | closes hp hphase hq hnext hframeNum hlastPos hfull =>
    refine ⟨hd.numberOf_mem hp, ?_⟩
    rw [hd.sized _ _ hp (by simp [hphase])]
    exact (hd.page _ _ hp).tail_lt
  | publishes hp hlast hphase hat hraw hroom =>
    refine ⟨hd.numberOf_mem hp, ?_⟩
    rw [hd.sized _ _ hp (by simp [hphase])]
    exact (hd.page _ _ hp).tail_lt

theorem Exec.inPages (h : Exec d v stores v') (hd : Shows d v) : InPages d stores := by
  induction h with
  | nil => trivial
  | cons he _ ih => exact ⟨he.inPage hd, ih (hd.step he)⟩

theorem exec_onPage (n : Int16) (hsize : d.size n = journalPageSize) (ws : List (ℕ × UInt8))
    (h : ∀ (d : Directory), d.size n = journalPageSize → ∀ w ∈ ws,
      Effect d v (.byte n w.1 w.2) v) : Exec d v (onPage n ws) v := by
  induction ws generalizing d with
  | nil => exact .nil
  | cons w ws ih =>
    exact .cons (h d hsize w List.mem_cons_self)
      (ih hsize fun d hd w' hw' => h d hd w' (List.mem_cons_of_mem _ hw'))

theorem exec_spare {i : ℕ} {p : PageView} (hp : v[i]? = some p)
    (hsize : d.size (numberOf i) = journalPageSize) {ws : List (ℕ × UInt8)}
    (h : ∀ w ∈ ws, p.Spare w.1) : Exec d v (onPage (numberOf i) ws) v :=
  exec_onPage _ hsize _ fun _ hd w hw => .spare w.2 hp hd (h w hw)

end Exec

section Apply

variable {d : Directory} {n : Int16}

theorem applyAll_append (d : Directory) (stores stores' : List Store) :
    d.applyAll (stores ++ stores') = (d.applyAll stores).applyAll stores' :=
  List.foldl_append

theorem onPage_append (n : Int16) (ws ws' : List (ℕ × UInt8)) :
    onPage n (ws ++ ws') = onPage n ws ++ onPage n ws' := List.map_append

theorem buffer_byte (d : Directory) (n : Int16) (a : ℕ) (b : UInt8) :
    (d.apply (.byte n a b)).buffer n = Function.update (d.buffer n) a b :=
  Function.update_self _ _ _

theorem buffer_onPage (d : Directory) (n : Int16) (ws : List (ℕ × UInt8)) :
    (d.applyAll (onPage n ws)).buffer n = storeAll (d.buffer n) ws := by
  induction ws generalizing d with
  | nil => rfl
  | cons w ws ih =>
    have hrest := ih (d.apply (.byte n w.1 w.2))
    rw [buffer_byte] at hrest
    exact hrest

theorem buffer_onPage_of_ne (d : Directory) {n n' : Int16} (h : n' ≠ n) (ws : List (ℕ × UInt8)) :
    (d.applyAll (onPage n ws)).buffer n' = d.buffer n' := by
  induction ws generalizing d with
  | nil => rfl
  | cons w ws ih =>
    refine (ih (d.apply (.byte n w.1 w.2))).trans ?_
    exact Function.update_of_ne h _ _

theorem size_onPage (d : Directory) (n : Int16) (ws : List (ℕ × UInt8)) :
    (d.applyAll (onPage n ws)).size = d.size := by
  induction ws generalizing d with
  | nil => rfl
  | cons w ws ih => exact ih (d.apply (.byte n w.1 w.2))

theorem pageNums_onPage (d : Directory) (n : Int16) (ws : List (ℕ × UInt8)) :
    (d.applyAll (onPage n ws)).pageNums = d.pageNums := by
  induction ws generalizing d with
  | nil => rfl
  | cons w ws ih => exact ih (d.apply (.byte n w.1 w.2))

end Apply

section Programs

variable {d : Directory} {v : View} {i : ℕ} {p : PageView}

/-- `write_frame` and `passFrame` publish the frame with their last store. -/
theorem exec_publish {fields : ℕ → Frame → List (ℕ × UInt8)} {f : Frame} (hp : v[i]? = some p)
    (hlast : i + 1 = v.length) (hphase : p.phase = .taking)
    (hsize : d.size (numberOf i) = journalPageSize)
    (hfills : ∀ m, Fills m p.tail f (fields p.tail f))
    (hroom : p.tail + f.length < journalPageSize) :
    Exec d v (onPage (numberOf i) (publish fields (d.buffer (numberOf i)) p.tail f))
      (v.set i ⟨p.frames ++ [f], .taking, p.startNano⟩) := by
  have hopen : p.phase ≠ .closed := by simp [hphase]
  have hfill := hfills (d.buffer (numberOf i))
  have hspare : ∀ a, p.tail < a → a < journalPageSize → p.Spare a := fun a hlow hhigh =>
    Or.inr (Or.inr ⟨hopen, hlow, hhigh⟩)
  have hlen := f.header_le_length
  rw [publish, Frame.setStatusWritten, hfill.isAt.nextEntry_eq, onPage_append]
  refine (exec_spare hp hsize fun w hw => ?_).append
    (.cons (.spare journalFrameStatusRaw hp ?_ (hspare _ (by omega) hroom)) (.single ?_))
  · have hrange := hfill.behind w hw
    exact hspare _ hrange.1 (by omega)
  · rwa [size_onPage]
  · have hbuffer : ((d.applyAll (onPage (numberOf i) (fields p.tail f))).apply
        (.byte (numberOf i) (p.tail + f.length) journalFrameStatusRaw)).buffer (numberOf i) =
        Function.update (storeAll (d.buffer (numberOf i)) (fields p.tail f)) (p.tail + f.length)
          journalFrameStatusRaw := by
      rw [buffer_byte, buffer_onPage]
    refine .publishes hp hlast hphase ?_ ?_ hroom
    · rw [hbuffer]
      apply hfill.isAt.congr
      intro a _ hhigh
      exact (Function.update_of_ne hhigh.ne _ _).symm
    · rw [hbuffer, Function.update_self]

def finishFields (p : Page) (nano : Int64) : List (ℕ × List UInt8) :=
  [(41, int64Bytes nano), (49, int32Bytes (.ofNat p.frameNum)),
    (53, int32Bytes (.ofNat p.position))]

theorem finishPage_eq (p : Page) (nano : Int64) :
    p.finishPage nano =
      placeAll (finishFields p nano) ++ [(p.position, journalFrameStatusPageEnd)] := by
  simp only [Page.finishPage, finishFields, placeAll, List.flatMap_cons, List.flatMap_nil,
    List.append_assoc, List.append_nil]

theorem finishFields_beside (p : Page) (nano : Int64) :
    (finishFields p nano).Pairwise Beside := by
  simp only [finishFields, List.pairwise_cons, List.forall_mem_cons, Beside, length_int32Bytes,
    length_int64Bytes, List.not_mem_nil, false_imp_iff, implies_true, List.Pairwise.nil, and_true]
  omega

theorem finishFields_range (p : Page) (nano : Int64) {w : ℕ × UInt8}
    (hw : w ∈ placeAll (finishFields p nano)) : 41 ≤ w.1 ∧ w.1 < 57 := by
  refine mem_placeAll (fun field hfield => ?_) hw
  simp only [finishFields, List.mem_cons, List.not_mem_nil, or_false] at hfield
  rcases hfield with rfl | rfl | rfl <;>
    simp only [length_int64Bytes, length_int32Bytes] <;> omega

theorem exec_finishPage {q : PageView} (hp : v[i]? = some p) (hphase : p.phase = .taking)
    (hq : v[i + 1]? = some q) (hnext : q.phase ≠ .fresh)
    (hfull : journalPageSize ≤ p.tail + pageMinHeadroom)
    (hsize : d.size (numberOf i) = journalPageSize) (n : Int16) (nano : Int64) :
    Exec d v (onPage (numberOf i) (Page.finishPage ⟨n, p.tail, p.frames.length⟩ nano))
      (v.set i ⟨p.frames, .closed, p.startNano⟩) := by
  have hload : ∀ field ∈ finishFields ⟨n, p.tail, p.frames.length⟩ nano, _ := fun field hfield =>
    load_placeAll (finishFields_beside ⟨n, p.tail, p.frames.length⟩ nano) hfield
      (d.buffer (numberOf i))
  simp only [finishFields, List.forall_mem_cons, length_int32Bytes, length_int64Bytes] at hload
  obtain ⟨-, hframeNum, hlastPos, -⟩ := hload
  rw [finishPage_eq, onPage_append]
  refine (exec_spare hp hsize fun w hw => ?_).append
    (.single (.closes hp hphase hq hnext ?_ ?_ hfull))
  · exact Or.inr (Or.inl ⟨hphase, finishFields_range _ _ hw⟩)
  · rw [buffer_onPage, PageHeader.frameNum]
    refine (congrArg int32Of hframeNum).trans (int32Of_int32Bytes _)
  · rw [buffer_onPage, PageHeader.lastPos]
    exact (congrArg int32Of hlastPos).trans (int32Of_int32Bytes _)

def initFields (jname : List UInt8) (n : Int16) (nano : Int64) : List (ℕ × List UInt8) :=
  [(1, jname ++ [0]), (33, int64Bytes nano), (41, int64Bytes (-1)), (31, int16Bytes n)]

theorem init_eq (jname : List UInt8) (n : Int16) (nano : Int64) :
    PageHeader.init jname n nano =
      placeAll (initFields jname n nano) ++ (0, journalPageStatusInited) :: [(57, 2), (58, 0)] := by
  have hversion : place 57 (int16Bytes frameHeaderVersion) = [(57, 2), (58, 0)] := by decide
  simp only [PageHeader.init, initFields, placeAll, hversion, List.flatMap_cons,
    List.flatMap_nil, List.append_assoc, List.append_nil, List.cons_append, List.nil_append]

theorem initFields_beside {jname : List UInt8} (h : jname.length < 30) (n : Int16) (nano : Int64) :
    (initFields jname n nano).Pairwise Beside := by
  simp only [initFields, List.pairwise_cons, List.forall_mem_cons, Beside, length_int16Bytes,
    length_int64Bytes, List.length_append, List.length_singleton, List.not_mem_nil, false_imp_iff,
    implies_true, List.Pairwise.nil, and_true]
  omega

theorem initFields_range {jname : List UInt8} (h : jname.length < 30) {n : Int16} {nano : Int64}
    {w : ℕ × UInt8} (hw : w ∈ placeAll (initFields jname n nano)) : 1 ≤ w.1 ∧ w.1 < 57 := by
  refine mem_placeAll (fun field hfield => ?_) hw
  simp only [initFields, List.mem_cons, List.not_mem_nil, or_false] at hfield
  rcases hfield with rfl | rfl | rfl | rfl <;>
    simp only [length_int64Bytes, length_int16Bytes, List.length_append, List.length_singleton] <;>
    omega

theorem exec_init {jname : List UInt8} (hname : jname.length < 30) (hp : v[i]? = some p)
    (hphase : p.phase = .fresh) (hsize : d.size (numberOf i) = journalPageSize) (n : Int16)
    (nano : Int64) :
    Exec d v (onPage (numberOf i) (PageHeader.init jname n nano))
      (v.set i ⟨p.frames, .taking, nano⟩) := by
  have hi := lt_length hp
  have hload : ∀ field ∈ initFields jname n nano, _ := fun field hfield =>
    load_placeAll (initFields_beside hname n nano) hfield (d.buffer (numberOf i))
  simp only [initFields, List.forall_mem_cons, length_int64Bytes] at hload
  obtain ⟨-, hstart, -⟩ := hload
  have hnano : PageHeader.startNano ((d.applyAll (onPage (numberOf i)
      (placeAll (initFields jname n nano)))).buffer (numberOf i)) = nano := by
    rw [buffer_onPage, PageHeader.startNano]
    exact (congrArg int64Of hstart).trans (int64Of_int64Bytes _)
  have hset : (v.set i ⟨p.frames, .taking, nano⟩)[i]? = some ⟨p.frames, .taking, nano⟩ := by
    rw [List.getElem?_set_self hi]
  rw [init_eq, onPage_append]
  refine (exec_spare hp hsize fun w hw => ?_).append (.cons ?_ (.cons
    (.stamps hset (by simp) (Or.inl ⟨rfl, rfl⟩)) (.single (.stamps hset (by simp)
      (Or.inr ⟨rfl, rfl⟩)))))
  · have hrange := initFields_range hname hw
    exact Or.inl ⟨hphase, by omega⟩
  · have hinits := Effect.inits (d := d.applyAll (onPage (numberOf i)
      (placeAll (initFields jname n nano)))) hp hphase (by rwa [size_onPage])
    rwa [hnano] at hinits

theorem checkVersion_ok {m : Memory} (h : ShowsPage m p) : Page.checkVersion m = .ok () := by
  have hload : load m 57 2 = [m 57, m 58] := rfl
  rw [Page.checkVersion, PageHeader.frameVersion, hload, h.version_high]
  rcases h.version_low with hlow | hlow <;> rw [hlow] <;> rfl

theorem exec_loadPageBuffer {v₁ : View} (hp : v₁[i]? = some p) (hphase : p.phase ≠ .closed)
    (hopen : Effect d v (.openPage (numberOf i)) v₁) :
    Exec d v (Page.loadPageBuffer (numberOf i)) v₁ :=
  .cons hopen (.single (.stretches hp hphase))

theorem size_loadPageBuffer (d : Directory) (n : Int16) :
    (d.applyAll (Page.loadPageBuffer n)).size n = journalPageSize :=
  Function.update_self _ _ _

section Load

variable {v₁ : View} {jname : List UInt8}

theorem loadWriting_fresh (hname : jname.length < 30) (hd : Shows d v)
    (hopening : Exec d v (Page.loadPageBuffer (numberOf i)) v₁) (hp : v₁[i]? = some p)
    (hphase : p.phase = .fresh) (nano : Int64) :
    ∃ stores, Page.loadWriting d jname (numberOf i) nano = .ok (stores, Page.start (numberOf i)) ∧
      Exec d v stores (v₁.set i ⟨p.frames, .taking, nano⟩) := by
  have hraw := ((hopening.shows hd).page i p hp).status_iff.mpr hphase
  rw [Page.loadWriting, if_pos hraw]
  exact ⟨_, rfl, hopening.append (exec_init hname hp hphase (size_loadPageBuffer d _) _ nano)⟩

theorem loadWriting_taking (hd : Shows d v)
    (hopening : Exec d v (Page.loadPageBuffer (numberOf i)) v₁) (hp : v₁[i]? = some p)
    (hphase : p.phase = .taking) (nano : Int64) :
    Page.loadWriting d jname (numberOf i) nano =
      .ok (Page.loadPageBuffer (numberOf i), Page.start (numberOf i)) := by
  have hpage := (hopening.shows hd).page i p hp
  have hraw : ¬ PageHeader.status ((d.applyAll (Page.loadPageBuffer (numberOf i))).buffer
      (numberOf i)) = journalPageStatusRaw := by
    rw [hpage.status_iff, hphase]
    decide
  rw [Page.loadWriting, if_neg hraw, checkVersion_ok hpage]
  rfl

end Load

end Programs

end Yijinjing
