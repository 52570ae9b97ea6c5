import FlareTrader.JournalPages
import FlareTrader.SegmentedLog

/-! What the pages of a journal hold: the frames of each, and how far the page has come. One
store changes this in one of a few ways. -/

namespace Yijinjing

open ByteMemory

section Chain

def Chain (m : Memory) : ℕ → List Frame → Prop
  | _, [] => True
  | a, f :: fs => m a = journalFrameStatusWritten ∧ Frame.IsAt m a f ∧ Chain m (a + f.length) fs

def endOf : ℕ → List Frame → ℕ
  | a, [] => a
  | a, f :: fs => endOf (a + f.length) fs

variable {m m' : Memory} {a : ℕ} {f : Frame} {fs gs : List Frame}

theorem endOf_append (a : ℕ) (fs gs : List Frame) :
    endOf a (fs ++ gs) = endOf (endOf a fs) gs := by
  induction fs generalizing a with
  | nil => rfl
  | cons f fs ih => exact ih _

theorem le_endOf (a : ℕ) (fs : List Frame) : a + 20 * fs.length ≤ endOf a fs := by
  induction fs generalizing a with
  | nil => exact le_rfl
  | cons f fs ih =>
    have hrest := ih (a + f.length)
    have hlen := f.header_le_length
    rw [endOf, List.length_cons]
    omega

theorem endOf_take_le (a : ℕ) (fs : List Frame) (k : ℕ) : endOf a (fs.take k) ≤ endOf a fs := by
  have hsplit := endOf_append a (fs.take k) (fs.drop k)
  rw [List.take_append_drop] at hsplit
  rw [hsplit]
  exact (Nat.le_add_right _ _).trans (le_endOf _ _)

theorem chain_append :
    Chain m a (fs ++ gs) ↔ Chain m a fs ∧ Chain m (endOf a fs) gs := by
  induction fs generalizing a with
  | nil => exact ⟨fun h => ⟨trivial, h⟩, fun h => h.2⟩
  | cons f fs ih => rw [List.cons_append, Chain, Chain, endOf, ih, and_assoc, and_assoc]

theorem Chain.congr (h : Chain m a fs) (hm : ∀ i, a ≤ i → i < endOf a fs → m i = m' i) :
    Chain m' a fs := by
  induction fs generalizing a with
  | nil => trivial
  | cons f fs ih =>
    obtain ⟨hstatus, hat, hrest⟩ := h
    have hend := le_endOf (a + f.length) fs
    have hlen := f.header_le_length
    rw [endOf] at hm
    refine ⟨?_, hat.congr fun i hlow hhigh => hm i hlow.le (by omega), ih hrest fun i hlow =>
      hm i (by omega)⟩
    rw [← hm a le_rfl (by omega), hstatus]

theorem Chain.update {i : ℕ} {b : UInt8} (h : Chain m a fs) (hi : i < a ∨ endOf a fs ≤ i) :
    Chain (Function.update m i b) a fs := by
  apply h.congr
  intro j hlow hhigh
  exact (Function.update_of_ne (by omega) _ _).symm

theorem Chain.get (h : Chain m a fs) {k : ℕ} (hk : k < fs.length) :
    m (endOf a (fs.take k)) = journalFrameStatusWritten ∧
      Frame.IsAt m (endOf a (fs.take k)) fs[k] := by
  have hsplit : fs = fs.take k ++ fs[k] :: fs.drop (k + 1) := by
    rw [List.cons_getElem_drop_succ, List.take_append_drop]
  rw [hsplit] at h
  exact ⟨(chain_append.mp h).2.1, (chain_append.mp h).2.2.1⟩

end Chain

/-- Whether the header of a page is not complete yet, or the page takes frames, or a next page
has taken over. -/
inductive Phase where
  | fresh
  | taking
  | closed
deriving DecidableEq

structure PageView where
  frames : List Frame
  phase : Phase
  startNano : Int64

abbrev View := List PageView

def View.segments (v : View) : List (List Frame) := v.map PageView.frames

def View.log (v : View) : List Frame := v.segments.flatten

def PageView.tail (p : PageView) : ℕ := endOf pageInitPosition p.frames

def newPage : PageView := ⟨[], .fresh, 0⟩

def numberOf (i : ℕ) : Int16 := .ofNat (i + 1)

structure ShowsPage (m : Memory) (p : PageView) : Prop where
  chain : Chain m pageInitPosition p.frames
  tail_lt : p.tail < journalPageSize
  tail_status : m p.tail =
    if p.phase = .closed then journalFrameStatusPageEnd else journalFrameStatusRaw
  status_iff : PageHeader.status m = journalPageStatusRaw ↔ p.phase = .fresh
  fresh_frames : p.phase = .fresh → p.frames = []
  version_low : m 57 = 0 ∨ m 57 = 2
  version_high : m 58 = 0
  startNano_eq : p.phase ≠ .fresh → PageHeader.startNano m = p.startNano
  totals : p.phase = .closed →
    PageHeader.frameNum m = .ofNat p.frames.length ∧ PageHeader.lastPos m = .ofNat p.tail
  full : p.phase = .closed → journalPageSize ≤ p.tail + pageMinHeadroom

/-- The directory has the pages of the view, numbered from one on. -/
structure Shows (d : Directory) (v : View) : Prop where
  pageNums_eq : d.pageNums = (List.range v.length).map numberOf
  few : v.length < 2 ^ 15
  page : ∀ i p, v[i]? = some p → ShowsPage (d.buffer (numberOf i)) p
  fresh_last : ∀ i p, v[i]? = some p → p.phase = .fresh → i + 1 = v.length
  closed_next : ∀ i p, v[i]? = some p → p.phase = .closed →
    ∃ q, v[i + 1]? = some q ∧ q.phase ≠ .fresh
  sized : ∀ i p, v[i]? = some p → p.phase ≠ .fresh → d.size (numberOf i) = journalPageSize

def PageView.Spare (p : PageView) (a : ℕ) : Prop :=
  p.phase = .fresh ∧ 0 < a ∧ a < 57 ∨ p.phase = .taking ∧ 41 ≤ a ∧ a < 57 ∨
    p.phase ≠ .closed ∧ p.tail < a ∧ a < journalPageSize

/-- What a store does to the view. -/
inductive Effect (d : Directory) (v : View) : Store → View → Prop where
  | opens (hfew : v.length + 1 < 2 ^ 15) (hready : ∀ p ∈ v, p.phase ≠ .fresh) :
    Effect d v (.openPage (numberOf v.length)) (v ++ [newPage])
  | opened {i : ℕ} (h : i < v.length) : Effect d v (.openPage (numberOf i)) v
  | stretches {i : ℕ} {p : PageView} (hp : v[i]? = some p) (hphase : p.phase ≠ .closed) :
    Effect d v (.stretch (numberOf i)) v
  | spare {i a : ℕ} {p : PageView} (b : UInt8) (hp : v[i]? = some p)
    (hsize : d.size (numberOf i) = journalPageSize) (ha : p.Spare a) :
    Effect d v (.byte (numberOf i) a b) v
  | stamps {i a : ℕ} {b : UInt8} {p : PageView} (hp : v[i]? = some p) (hphase : p.phase ≠ .fresh)
    (hb : a = 57 ∧ b = 2 ∨ a = 58 ∧ b = 0) : Effect d v (.byte (numberOf i) a b) v
  | inits {i : ℕ} {p : PageView} (hp : v[i]? = some p) (hphase : p.phase = .fresh)
    (hsize : d.size (numberOf i) = journalPageSize) :
    Effect d v (.byte (numberOf i) 0 journalPageStatusInited)
      (v.set i ⟨p.frames, .taking, PageHeader.startNano (d.buffer (numberOf i))⟩)
  | closes {i : ℕ} {p q : PageView} (hp : v[i]? = some p) (hphase : p.phase = .taking)
    (hq : v[i + 1]? = some q) (hnext : q.phase ≠ .fresh)
    (hframeNum : PageHeader.frameNum (d.buffer (numberOf i)) = .ofNat p.frames.length)
    (hlastPos : PageHeader.lastPos (d.buffer (numberOf i)) = .ofNat p.tail)
    (hfull : journalPageSize ≤ p.tail + pageMinHeadroom) :
    Effect d v (.byte (numberOf i) p.tail journalFrameStatusPageEnd)
      (v.set i ⟨p.frames, .closed, p.startNano⟩)
  | publishes {i : ℕ} {p : PageView} {f : Frame} (hp : v[i]? = some p) (hlast : i + 1 = v.length)
    (hphase : p.phase = .taking) (hat : Frame.IsAt (d.buffer (numberOf i)) p.tail f)
    (hraw : d.buffer (numberOf i) (p.tail + f.length) = journalFrameStatusRaw)
    (hroom : p.tail + f.length < journalPageSize) :
    Effect d v (.byte (numberOf i) p.tail journalFrameStatusWritten)
      (v.set i ⟨p.frames ++ [f], .taking, p.startNano⟩)

section ShowsPage

variable {m : Memory} {p : PageView} {a : ℕ} {b : UInt8}

theorem pageInitPosition_le_tail (p : PageView) : pageInitPosition ≤ p.tail :=
  (Nat.le_add_right _ _).trans (le_endOf _ _)

theorem load_update_of_beside {start count : ℕ} (h : a < start ∨ start + count ≤ a) :
    load (Function.update m a b) start count = load m start count := by
  apply load_congr
  intro i hlow hhigh
  exact Function.update_of_ne (by omega) _ _

theorem tail_ge (p : PageView) : 137 ≤ p.tail := pageInitPosition_le_tail p

theorem ShowsPage.spare (h : ShowsPage m p) (ha : p.Spare a) (b : UInt8) :
    ShowsPage (Function.update m a b) p := by
  have htail := tail_ge p
  have hne : ∀ i, (i = 0 ∨ i = 57 ∨ i = 58 ∨ i = p.tail) → Function.update m a b i = m i := by
    intro i hi
    apply Function.update_of_ne
    rcases ha with ⟨-, hlow, hhigh⟩ | ⟨-, hlow, hhigh⟩ | ⟨-, hlow, hhigh⟩ <;> omega
  refine ⟨h.chain.update ?_, h.tail_lt, ?_, ?_, h.fresh_frames, ?_, ?_, fun hphase => ?_,
    fun hphase => ?_, h.full⟩
  · rcases ha with ⟨-, -, hhigh⟩ | ⟨-, -, hhigh⟩ | ⟨-, hlow, -⟩
    · exact Or.inl (hhigh.trans (by decide))
    · exact Or.inl (hhigh.trans (by decide))
    · exact Or.inr hlow.le
  · rw [hne _ (by tauto), h.tail_status]
  · rw [PageHeader.status, hne 0 (by tauto)]
    exact h.status_iff
  · rw [hne 57 (by tauto)]
    exact h.version_low
  · rw [hne 58 (by tauto)]
    exact h.version_high
  · rw [PageHeader.startNano, load_update_of_beside, ← PageHeader.startNano, h.startNano_eq hphase]
    rcases ha with ⟨hfresh, -⟩ | ⟨-, hlow, -⟩ | ⟨-, hlow, -⟩
    · exact absurd hfresh hphase
    · omega
    · omega
  · rcases ha with ⟨hfresh, -⟩ | ⟨htaking, -⟩ | ⟨hopen, -⟩
    · rw [hphase] at hfresh
      cases hfresh
    · rw [hphase] at htaking
      cases htaking
    · exact absurd hphase hopen

theorem ShowsPage.stamps (h : ShowsPage m p) (hb : a = 57 ∧ b = 2 ∨ a = 58 ∧ b = 0) :
    ShowsPage (Function.update m a b) p := by
  have htail := tail_ge p
  have hne : ∀ i, i < 57 ∨ 58 < i → Function.update m a b i = m i := by
    intro i hi
    exact Function.update_of_ne (by omega) _ _
  refine ⟨h.chain.update (Or.inl ?_), h.tail_lt, ?_, ?_, h.fresh_frames, ?_, ?_, fun hphase => ?_,
    fun hphase => ?_, h.full⟩
  · rw [pageInitPosition]
    omega
  · rw [hne _ (by omega), h.tail_status]
  · rw [PageHeader.status, hne 0 (by omega)]
    exact h.status_iff
  · rcases hb with ⟨rfl, rfl⟩ | ⟨rfl, rfl⟩
    · exact Or.inr (Function.update_self _ _ _)
    · rw [Function.update_of_ne (by decide)]
      exact h.version_low
  · rcases hb with ⟨rfl, rfl⟩ | ⟨rfl, rfl⟩
    · rw [Function.update_of_ne (by decide)]
      exact h.version_high
    · exact Function.update_self _ _ _
  · rw [PageHeader.startNano, load_update_of_beside (by omega)]
    exact h.startNano_eq hphase
  · rw [PageHeader.frameNum, load_update_of_beside (by omega), PageHeader.lastPos,
      load_update_of_beside (by omega)]
    exact h.totals hphase

theorem ShowsPage.marks (h : ShowsPage m p) {q : PageView} (hframes : q.frames = p.frames)
    (hnano : q.startNano = p.startNano) (hfresh : q.phase = .fresh ↔ p.phase = .fresh)
    (hb : b = if q.phase = .closed then journalFrameStatusPageEnd else journalFrameStatusRaw)
    (htotals : q.phase = .closed →
      PageHeader.frameNum m = .ofNat p.frames.length ∧ PageHeader.lastPos m = .ofNat p.tail)
    (hfull : q.phase = .closed → journalPageSize ≤ p.tail + pageMinHeadroom) :
    ShowsPage (Function.update m p.tail b) q := by
  have htail := tail_ge p
  have hqtail : q.tail = p.tail := by rw [PageView.tail, hframes, PageView.tail]
  have hne : ∀ i < 137, Function.update m p.tail b i = m i := by
    intro i hi
    exact Function.update_of_ne (by omega) _ _
  refine ⟨?_, ?_, ?_, ?_, fun hphase => ?_, ?_, ?_, fun hphase => ?_, fun hphase => ?_,
    fun hphase => ?_⟩
  · rw [hframes]
    exact h.chain.update (Or.inr le_rfl)
  · rw [hqtail]
    exact h.tail_lt
  · rw [hqtail, Function.update_self, hb]
  · rw [PageHeader.status, hne 0 (by decide), hfresh]
    exact h.status_iff
  · rw [hframes]
    exact h.fresh_frames (hfresh.mp hphase)
  · rw [hne 57 (by decide)]
    exact h.version_low
  · rw [hne 58 (by decide)]
    exact h.version_high
  · rw [PageHeader.startNano, load_update_of_beside (by omega), hnano]
    exact h.startNano_eq fun hpfresh => hphase (hfresh.mpr hpfresh)
  · rw [PageHeader.frameNum, load_update_of_beside (by omega), PageHeader.lastPos,
      load_update_of_beside (by omega), hframes, hqtail]
    exact htotals hphase
  · rw [hqtail]
    exact hfull hphase

theorem ShowsPage.stretches (h : ShowsPage m p) (hphase : p.phase ≠ .closed) :
    ShowsPage (Function.update m (journalPageSize - 1) 0) p := by
  have htail := h.tail_lt
  rcases Nat.lt_or_ge p.tail (journalPageSize - 1) with hlt | hge
  · exact h.spare (Or.inr (Or.inr ⟨hphase, hlt, by decide⟩)) 0
  · have heq : journalPageSize - 1 = p.tail := by omega
    rw [heq]
    exact h.marks rfl rfl Iff.rfl (if_neg hphase).symm h.totals h.full

theorem ShowsPage.inits (h : ShowsPage m p) (hphase : p.phase = .fresh) :
    ShowsPage (Function.update m 0 journalPageStatusInited)
      ⟨p.frames, .taking, PageHeader.startNano m⟩ := by
  have htail := tail_ge p
  have hne : ∀ i, i ≠ 0 → Function.update m 0 journalPageStatusInited i = m i := fun i hi =>
    Function.update_of_ne hi _ _
  refine ⟨h.chain.update (Or.inl (by decide)), h.tail_lt, ?_, ?_, fun hfresh => ?_, ?_, ?_,
    fun _ => ?_, fun hclosed => ?_, fun hclosed => ?_⟩
  · have hstatus := h.tail_status
    rw [hphase] at hstatus
    exact (hne _ (Nat.ne_of_gt (Nat.lt_of_lt_of_le (by decide) htail))).trans hstatus
  · rw [PageHeader.status, Function.update_self]
    exact iff_of_false (by decide) (by simp)
  · cases hfresh
  · rw [hne 57 (by decide)]
    exact h.version_low
  · rw [hne 58 (by decide)]
    exact h.version_high
  · rw [PageHeader.startNano, load_update_of_beside (by omega), PageHeader.startNano]
  · cases hclosed
  · cases hclosed

theorem ShowsPage.publishes (h : ShowsPage m p) (hphase : p.phase = .taking) {f : Frame}
    (hat : Frame.IsAt m p.tail f) (hraw : m (p.tail + f.length) = journalFrameStatusRaw)
    (hroom : p.tail + f.length < journalPageSize) :
    ShowsPage (Function.update m p.tail journalFrameStatusWritten)
      ⟨p.frames ++ [f], .taking, p.startNano⟩ := by
  have htail := tail_ge p
  have hlen := f.header_le_length
  have hend : PageView.tail ⟨p.frames ++ [f], .taking, p.startNano⟩ = p.tail + f.length :=
    endOf_append _ _ _
  have hne : ∀ i, i ≠ p.tail → Function.update m p.tail journalFrameStatusWritten i = m i :=
    fun i hi => Function.update_of_ne hi _ _
  refine ⟨chain_append.mpr ⟨h.chain.update (Or.inr le_rfl), ?_⟩, ?_, ?_, ?_, fun hfresh => ?_, ?_,
    ?_, fun _ => ?_, fun hclosed => ?_, fun hclosed => ?_⟩
  · refine ⟨Function.update_self _ _ _, hat.congr fun i hlow _ => ?_, trivial⟩
    exact (hne i hlow.ne').symm
  · rw [hend]
    exact hroom
  · rw [hend, hne _ (by omega)]
    exact hraw
  · have hopen : p.phase ≠ .fresh := by
      rw [hphase]
      decide
    rw [PageHeader.status, hne 0 (by omega)]
    exact iff_of_false (fun hstatus => hopen (h.status_iff.mp hstatus)) (by simp)
  · cases hfresh
  · rw [hne 57 (by omega)]
    exact h.version_low
  · rw [hne 58 (by omega)]
    exact h.version_high
  · rw [PageHeader.startNano, load_update_of_beside (by omega)]
    exact h.startNano_eq (by simp [hphase])
  · cases hclosed
  · cases hclosed

theorem showsPage_newPage : ShowsPage (fun _ => 0) newPage := by
  refine ⟨trivial, by decide, rfl, by simp [PageHeader.status, newPage, journalPageStatusRaw],
    fun _ => rfl, Or.inl rfl, rfl, fun hphase => absurd rfl hphase, fun hphase => ?_,
    fun hphase => ?_⟩
  · cases hphase
  · cases hphase

end ShowsPage

section Shows

variable {d : Directory} {v v' : View} {s : Store}

theorem toInt_numberOf {i : ℕ} (h : i + 1 < 2 ^ 15) : (numberOf i).toInt = i + 1 := by
  rw [numberOf, Int16.toInt_ofNat_of_lt h]
  push_cast
  rfl

theorem numberOf_inj {i j : ℕ} (hi : i + 1 < 2 ^ 15) (hj : j + 1 < 2 ^ 15)
    (h : numberOf i = numberOf j) : i = j := by
  have hint := congrArg Int16.toInt h
  rw [toInt_numberOf hi, toInt_numberOf hj] at hint
  omega

theorem lt_length {v : View} {i : ℕ} {p : PageView} (h : v[i]? = some p) : i < v.length :=
  (List.getElem?_eq_some_iff.mp h).1

theorem Shows.mem_pageNums (h : Shows d v) {i : ℕ} (hi : i + 1 < 2 ^ 15) :
    numberOf i ∈ d.pageNums ↔ i < v.length := by
  rw [h.pageNums_eq, List.mem_map]
  constructor
  · rintro ⟨j, hj, heq⟩
    rw [List.mem_range] at hj
    have hfew := h.few
    rwa [← numberOf_inj (by omega) hi heq]
  · intro hlt
    exact ⟨i, List.mem_range.mpr hlt, rfl⟩

theorem shows_empty : Shows {} [] where
  pageNums_eq := rfl
  few := by decide
  page := fun _ _ h => by cases h
  fresh_last := fun _ _ h => by cases h
  closed_next := fun _ _ h => by cases h
  sized := fun _ _ h => by cases h

theorem Shows.setPage (h : Shows d v) {d' : Directory} {i : ℕ} {m : Memory} {p q : PageView}
    (hp : v[i]? = some p) (hnums : d'.pageNums = d.pageNums)
    (hbuffer : d'.buffer = Function.update d.buffer (numberOf i) m)
    (hsize : ∀ n, d.size n = journalPageSize → d'.size n = journalPageSize)
    (hq : ShowsPage m q) (hfresh : q.phase = .fresh → p.phase = .fresh)
    (hsized : q.phase ≠ .fresh → d'.size (numberOf i) = journalPageSize)
    (hclosed : q.phase = .closed → ∃ r, v[i + 1]? = some r ∧ r.phase ≠ .fresh) :
    Shows d' (v.set i q) := by
  have hi := lt_length hp
  have hfew := h.few
  refine ⟨?_, ?_, fun j r hr => ?_, fun j r hr hphase => ?_, fun j r hr hphase => ?_,
    fun j r hr hphase => ?_⟩
  · rw [List.length_set, hnums]
    exact h.pageNums_eq
  · rwa [List.length_set]
  · rw [List.getElem?_set] at hr
    rw [hbuffer]
    split_ifs at hr with hij
    · rw [← hij, Function.update_self]
      cases hr
      exact hq
    · have hj := lt_length hr
      rw [Function.update_of_ne fun heq => hij (numberOf_inj (by omega) (by omega) heq.symm)]
      exact h.page j r hr
  · rw [List.length_set]
    rw [List.getElem?_set] at hr
    split_ifs at hr with hij
    · cases hr
      rw [← hij]
      exact h.fresh_last i p hp (hfresh hphase)
    · exact h.fresh_last j r hr hphase
  · have hnext : ∃ r', v[j + 1]? = some r' ∧ r'.phase ≠ .fresh := by
      rw [List.getElem?_set] at hr
      split_ifs at hr with hij
      · cases hr
        rw [← hij]
        exact hclosed hphase
      · exact h.closed_next j r hr hphase
    obtain ⟨r', hr', hopen⟩ := hnext
    rw [List.getElem?_set]
    split_ifs with hij
    · refine ⟨q, rfl, fun hqfresh => hopen ?_⟩
      rw [← hij, hp] at hr'
      cases hr'
      exact hfresh hqfresh
    · exact ⟨r', hr', hopen⟩
  · rw [List.getElem?_set] at hr
    split_ifs at hr with hij
    · cases hr
      rw [← hij]
      exact hsized hphase
    · exact hsize _ (h.sized j r hr hphase)

theorem Shows.samePage (h : Shows d v) {d' : Directory} {i : ℕ} {m : Memory} {p : PageView}
    (hp : v[i]? = some p) (hnums : d'.pageNums = d.pageNums)
    (hbuffer : d'.buffer = Function.update d.buffer (numberOf i) m)
    (hsize : ∀ n, d.size n = journalPageSize → d'.size n = journalPageSize)
    (hpage : ShowsPage m p) : Shows d' v := by
  have hset := h.setPage hp hnums hbuffer hsize hpage (fun hfresh => hfresh)
    (fun hphase => hsize _ (h.sized i p hp hphase)) (h.closed_next i p hp)
  obtain ⟨hi, rfl⟩ := List.getElem?_eq_some_iff.mp hp
  rwa [List.set_getElem_self] at hset

theorem getElem?_concat {v : View} {x r : PageView} {j : ℕ} (h : (v ++ [x])[j]? = some r) :
    v[j]? = some r ∨ j = v.length ∧ r = x := by
  rcases Nat.lt_or_ge j v.length with hj | hj
  · exact Or.inl (List.getElem?_append_left hj ▸ h)
  · rw [List.getElem?_append_right hj, List.getElem?_singleton] at h
    split_ifs at h with hzero
    exact Or.inr ⟨by omega, (Option.some.inj h).symm⟩

theorem Shows.opens (h : Shows d v) (hfew : v.length + 1 < 2 ^ 15)
    (hready : ∀ p ∈ v, p.phase ≠ .fresh) :
    Shows (d.apply (.openPage (numberOf v.length))) (v ++ [newPage]) := by
  have hnew : numberOf v.length ∉ d.pageNums := by
    rw [h.mem_pageNums hfew]
    exact lt_irrefl _
  rw [Directory.apply, if_neg hnew]
  refine ⟨?_, ?_, fun j r hr => ?_, fun j r hr hphase => ?_, fun j r hr hphase => ?_,
    fun j r hr hphase => ?_⟩
  · rw [List.length_append, List.length_singleton, List.range_succ, List.map_append,
      h.pageNums_eq, List.map_singleton]
  · rwa [List.length_append]
  · change ShowsPage (Function.update d.buffer (numberOf v.length) (fun _ => 0) (numberOf j)) r
    rcases getElem?_concat hr with hr | ⟨rfl, rfl⟩
    · have hj := lt_length hr
      rw [Function.update_of_ne fun heq => hj.ne (numberOf_inj (by omega) hfew heq)]
      exact h.page j r hr
    · rw [Function.update_self]
      exact showsPage_newPage
  · rcases getElem?_concat hr with hr | ⟨rfl, rfl⟩
    · exact absurd hphase (hready r (List.mem_of_getElem? hr))
    · rw [List.length_append, List.length_singleton]
  · rcases getElem?_concat hr with hr | ⟨rfl, rfl⟩
    · obtain ⟨q, hq, hopen⟩ := h.closed_next j r hr hphase
      exact ⟨q, by rw [List.getElem?_append_left (lt_length hq), hq], hopen⟩
    · cases hphase
  · change Function.update d.size (numberOf v.length) 0 (numberOf j) = journalPageSize
    rcases getElem?_concat hr with hr | ⟨rfl, rfl⟩
    · have hj := lt_length hr
      rw [Function.update_of_ne fun heq => hj.ne (numberOf_inj (by omega) hfew heq)]
      exact h.sized j r hr hphase
    · exact absurd rfl hphase

theorem Shows.step (h : Shows d v) (he : Effect d v s v') : Shows (d.apply s) v' := by
  cases he with
  | opens hfew hready => exact h.opens hfew hready
  | opened hi =>
    have hfew := h.few
    rwa [Directory.apply, if_pos ((h.mem_pageNums (by omega)).mpr hi)]
  | stretches hp hphase =>
    refine h.samePage hp rfl rfl (fun n hn => ?_) ((h.page _ _ hp).stretches hphase)
    change Function.update d.size _ journalPageSize n = journalPageSize
    rw [Function.update_apply, hn, ite_self]
  | spare b hp hsize ha =>
    exact h.samePage hp rfl rfl (fun _ hn => hn) ((h.page _ _ hp).spare ha b)
  | stamps hp hphase hb => exact h.samePage hp rfl rfl (fun _ hn => hn) ((h.page _ _ hp).stamps hb)
  | inits hp hphase hsize =>
    refine h.setPage hp rfl rfl (fun _ hn => hn) ((h.page _ _ hp).inits hphase) (fun hfresh => ?_)
      (fun _ => hsize) fun hclosed => ?_
    · cases hfresh
    · cases hclosed
  | @closes i p q hp hphase hq hnext hframeNum hlastPos hfull =>
    have hopen : p.phase ≠ .fresh := by simp [hphase]
    have hmarks := (h.page i p hp).marks (q := ⟨p.frames, .closed, p.startNano⟩) rfl rfl
      (by simp [hphase]) rfl (fun _ => ⟨hframeNum, hlastPos⟩) fun _ => hfull
    exact h.setPage hp rfl rfl (fun _ hn => hn) hmarks (fun hfresh => by cases hfresh)
      (fun _ => h.sized i p hp hopen) fun _ => ⟨q, hq, hnext⟩
  | @publishes i p f hp hlast hphase hat hraw hroom =>
    have hopen : p.phase ≠ .fresh := by simp [hphase]
    refine h.setPage hp rfl rfl (fun _ hn => hn) ((h.page _ _ hp).publishes hphase hat hraw hroom)
      (fun hfresh => ?_) (fun _ => h.sized i p hp hopen) fun hclosed => ?_
    · cases hfresh
    · cases hclosed

end Shows

section Grows

open SegmentedLog

/-- The frames stay where they are, and a page that can be loaded stays one. -/
structure View.Grows (v v' : View) : Prop where
  grown : Grown v.segments v'.segments
  loaded : ∀ (i : ℕ) (p : PageView), v[i]? = some p → p.phase ≠ .fresh →
    ∃ p', v'[i]? = some p' ∧ p'.phase ≠ .fresh ∧ p'.startNano = p.startNano

variable {d : Directory} {v v' v'' : View} {s : Store} {i : ℕ} {p : PageView}

theorem View.Grows.refl (v : View) : v.Grows v :=
  ⟨Grown.refl _, fun _ p hp hphase => ⟨p, hp, hphase, rfl⟩⟩

theorem View.Grows.trans (h : v.Grows v') (h' : v'.Grows v'') : v.Grows v'' := by
  refine ⟨h.grown.trans h'.grown, fun i p hp hphase => ?_⟩
  obtain ⟨q, hq, hqphase, hnano⟩ := h.loaded i p hp hphase
  obtain ⟨r, hr, hrphase, hnano'⟩ := h'.loaded i q hq hqphase
  exact ⟨r, hr, hrphase, hnano'.trans hnano⟩

theorem segments_getElem? (hp : v[i]? = some p) : v.segments[i]? = some p.frames := by
  rw [View.segments, List.getElem?_map, hp]
  rfl

theorem grows_set (hp : v[i]? = some p) (q : PageView)
    (hphase : p.phase ≠ .fresh → q.phase ≠ .fresh ∧ q.startNano = p.startNano)
    (hframes : q.frames = p.frames ∨ i + 1 = v.length ∧ ∃ f, q.frames = p.frames ++ [f]) :
    v.Grows (v.set i q) := by
  refine ⟨?_, fun j r hr hopen => ?_⟩
  · have hsegments := segments_getElem? hp
    rw [View.segments, View.segments, List.map_set]
    rcases hframes with hsame | ⟨hlast, f, hmore⟩
    · obtain ⟨hi, hget⟩ := List.getElem?_eq_some_iff.mp hsegments
      rw [hsame, ← hget]
      exact (List.set_getElem_self hi).symm ▸ Grown.refl _
    · rw [hmore]
      exact Grown.setLast hsegments (by rwa [View.segments, List.length_map]) [f]
  · rw [List.getElem?_set]
    split_ifs with hij hi
    · subst hij
      rw [hp] at hr
      cases hr
      exact ⟨q, rfl, hphase hopen⟩
    · exact absurd (lt_length hp) hi
    · exact ⟨r, hr, hopen, rfl⟩

theorem Effect.grows (h : Effect d v s v') : v.Grows v' := by
  cases h with
  | opens hfew hready =>
    refine ⟨?_, fun i p hp hphase => ⟨p, ?_, hphase, rfl⟩⟩
    · rw [View.segments, View.segments, List.map_append]
      exact Grown.concat _ _
    · rw [List.getElem?_append_left (lt_length hp), hp]
  | opened hi => exact View.Grows.refl v
  | stretches hp hphase => exact View.Grows.refl v
  | spare b hp hsize ha => exact View.Grows.refl v
  | stamps hp hphase hb => exact View.Grows.refl v
  | inits hp hphase hsize => exact grows_set hp _ (fun hopen => absurd hphase hopen) (Or.inl rfl)
  | closes hp hphase hq hnext hframeNum hlastPos hfull =>
    exact grows_set hp _ (fun _ => ⟨by simp, rfl⟩) (Or.inl rfl)
  | publishes hp hlast hphase hat hraw hroom =>
    exact grows_set hp _ (fun _ => ⟨by simp, rfl⟩) (Or.inr ⟨hlast, _, rfl⟩)

def Phase.rank : Phase → ℕ
  | .fresh => 0
  | .taking => 1
  | .closed => 2

/-- How far a page has come. A store that changes what the page shows takes it further. -/
def PageView.progress (p : PageView) : ℕ := p.phase.rank + p.frames.length

theorem progress_set {j : ℕ} {r q : PageView} (hr : v[j]? = some r)
    (hq : r.progress < q.progress) (hp : v[i]? = some p) :
    (v.set j q)[i]? = some p ∨ ∃ p', (v.set j q)[i]? = some p' ∧ p.progress < p'.progress := by
  rw [List.getElem?_set]
  split_ifs with hij hj
  · subst hij
    rw [hr] at hp
    cases hp
    exact Or.inr ⟨q, rfl, hq⟩
  · exact absurd (lt_length hr) hj
  · exact Or.inl hp

theorem Effect.progress (h : Effect d v s v') (hp : v[i]? = some p) :
    v'[i]? = some p ∨ ∃ p', v'[i]? = some p' ∧ p.progress < p'.progress := by
  cases h with
  | opens hfew hready => exact Or.inl (by rw [List.getElem?_append_left (lt_length hp), hp])
  | opened hi => exact Or.inl hp
  | stretches hr hphase => exact Or.inl hp
  | spare b hr hsize ha => exact Or.inl hp
  | stamps hr hphase hb => exact Or.inl hp
  | inits hr hphase hsize =>
    refine progress_set hr ?_ hp
    rw [PageView.progress, PageView.progress, hphase]
    exact Nat.add_lt_add_right Nat.zero_lt_one _
  | closes hr hphase hq hnext hframeNum hlastPos hfull =>
    refine progress_set hr ?_ hp
    rw [PageView.progress, PageView.progress, hphase]
    exact Nat.add_lt_add_right Nat.one_lt_two _
  | publishes hr hlast hphase hat hraw hroom =>
    refine progress_set hr ?_ hp
    rw [PageView.progress, PageView.progress, hphase, List.length_append]
    exact Nat.lt_succ_self _

theorem View.Grows.log_prefix (h : v.Grows v') : v.log <+: v'.log := h.grown.flatten_prefix

/-- A page was started when the frames on the pages before it had been taken. -/
def Timed (v : View) : Prop :=
  ∀ (i : ℕ) (p : PageView), v[i]? = some p → p.phase ≠ .fresh →
    ∀ f ∈ upTo v.segments i 0, f.nano ≤ p.startNano

theorem View.Grows.upTo_eq (h : v.Grows v') (hp : v[i]? = some p) :
    upTo v'.segments i 0 = upTo v.segments i 0 :=
  h.grown.upTo_eq (segments_getElem? hp) (Nat.zero_le _)

theorem View.Grows.timed (h : v.Grows v') (htimed : Timed v') : Timed v := by
  intro i p hp hphase f hf
  obtain ⟨q, hq, hopen, hnano⟩ := h.loaded i p hp hphase
  rw [← h.upTo_eq hp] at hf
  rw [← hnano]
  exact htimed i q hq hopen f hf

theorem Timed.set (h : Timed v) (hp : v[i]? = some p) {q : PageView} (hgrows : v.Grows (v.set i q))
    (hq : ∀ f ∈ upTo v.segments i 0, f.nano ≤ q.startNano) : Timed (v.set i q) := by
  intro j r hr hphase f hf
  rw [List.getElem?_set] at hr
  split_ifs at hr with hij
  · cases hr
    rw [← hij, hgrows.upTo_eq hp] at hf
    exact hq f hf
  · rw [hgrows.upTo_eq hr] at hf
    exact h j r hr hphase f hf

theorem Timed.concat (h : Timed v) {q : PageView} (hq : ∀ f ∈ v.log, f.nano ≤ q.startNano) :
    Timed (v ++ [q]) := by
  intro j r hr hphase f hf
  have hsegments : View.segments (v ++ [q]) = v.segments ++ [q.frames] := List.map_append
  rw [hsegments] at hf
  rcases getElem?_concat hr with hr | ⟨rfl, rfl⟩
  · rw [(Grown.concat v.segments q.frames).upTo_eq (segments_getElem? hr) (Nat.zero_le _)] at hf
    exact h j r hr hphase f hf
  · have hlength : v.segments.length = v.length := List.length_map _
    rw [upTo, List.take_zero, List.append_nil, List.take_left' hlength] at hf
    exact hq f hf

end Grows

end Yijinjing
