import FlareTrader.JournalReading
import FlareTrader.StreamMerge

/-! A reader of several journals, which takes the frame with the smallest time. -/

namespace Yijinjing

open ByteMemory SegmentedLog StreamMerge

namespace Journal

def locateFrame (d : Directory) (j : Journal) : Except Fault (Journal × Option (Int16 × ℕ)) :=
  if j.expired then .ok (j, none)
  else
    (if j.needsPage d then j.loadNextPage d else .ok j).map fun j =>
      (j, j.curPage.bind fun p => (p.locateReadableFrame d).map fun a => (p.pageNum, a))

def passFrame (d : Directory) (j : Journal) : Journal :=
  { j with curPage := j.curPage.map (Page.passFrame d) }

def seekLoop (d : Directory) (time : Int64) : ℕ → Journal → Journal
  | 0, j => j
  | fuel + 1, j =>
    if j.curPage.any (seekPasses d time) then seekLoop d time fuel (j.passFrame d) else j

def seekTime (d : Directory) (unread : Int16 → Int64) (time : Int64) : Except Fault Journal :=
  (seekPage d (seekPageNum d unread time)).map (seekLoop d time journalPageSize)

end Journal

structure JournalReader where
  journals : List Journal
  curJournal : Option ℕ := none

namespace JournalReader

structure Earliest where
  minNano : Int64 := timeToLast
  found : Option (ℕ × Int16 × ℕ) := none

def Earliest.weigh (best : Earliest) (dirs : ℕ → Directory) (i : ℕ) :
    Option (Int16 × ℕ) → Earliest
  | none => best
  | some (pageNum, frame) =>
    let nano := Frame.getNano ((dirs i).buffer pageNum) frame
    if best.minNano = timeToLast ∨ nano < best.minNano then ⟨nano, some (i, pageNum, frame)⟩
    else best

def searchLoop (dirs : ℕ → Directory) :
    ℕ → Earliest → List Journal → Except Fault (List Journal × Earliest)
  | _, best, [] => .ok ([], best)
  | i, best, j :: js => do
    let (j, found) ← j.locateFrame (dirs i)
    let (js, best) ← searchLoop dirs (i + 1) (best.weigh dirs i found) js
    return (j :: js, best)

def getNextFrame (dirs : ℕ → Directory) (r : JournalReader) :
    Except Fault (JournalReader × Option Frame) := do
  let (js, best) ← searchLoop dirs 0 {} r.journals
  match best.found with
  | none => return (⟨js, r.curJournal⟩, none)
  | some (i, pageNum, frame) =>
    return (⟨js.modify i (Journal.passFrame (dirs i)), some i⟩,
      some (Frame.get ((dirs i).buffer pageNum) frame))

/-- The journals with their names, and which of the directories is theirs. A name that is there
already is not added. -/
def addJournal (journalMap : List (List UInt8 × ℕ)) (entry : List UInt8 × ℕ) :
    List (List UInt8 × ℕ) :=
  if entry.1 ∈ journalMap.map Prod.fst then journalMap else journalMap ++ [entry]

def addJournals (jnames : List (List UInt8)) : List (List UInt8 × ℕ) :=
  jnames.zipIdx.foldl addJournal []

def directories (journalMap : List (List UInt8 × ℕ)) (dirs : ℕ → Directory) (k : ℕ) : Directory :=
  match journalMap[k]? with
  | none => {}
  | some (_, i) => dirs i

def jumpStart (dirs : ℕ → Directory) (unread : ℕ → Int16 → Int64) (startTime : Int64) :
    ℕ → ℕ → Except Fault (List Journal)
  | 0, _ => .ok []
  | count + 1, i => do
    let j ← Journal.seekTime (dirs i) (unread i) startTime
    let js ← jumpStart dirs unread startTime count (i + 1)
    return j :: js

def create (dirs : ℕ → Directory) (jnames : List (List UInt8)) (unread : ℕ → Int16 → Int64)
    (startTime : Int64) : Except Fault JournalReader := do
  let journalMap := addJournals jnames
  let journals ← jumpStart (directories journalMap dirs) unread startTime journalMap.length 0
  return { journals }

def readAll (dirs : ℕ → Directory) : ℕ → JournalReader → Except Fault (JournalReader × List Frame)
  | 0, r => .ok (r, [])
  | fuel + 1, r => do
    let (r, frame) ← r.getNextFrame dirs
    match frame with
    | none => return (r, [])
    | some f =>
      let (r, fs) ← readAll dirs fuel r
      return (r, f :: fs)

end JournalReader

/-- The frames that a journal has still to give, where no writer is at work. -/
inductive Remaining (v : View) : Journal → List Frame → Prop where
  | waiting : Remaining v ⟨false, none⟩ v.log
  | expired : Remaining v ⟨true, none⟩ []
  | paged {i k : ℕ} {q : PageView} {rest : List Frame} (hq : v[i]? = some q)
    (hphase : q.phase ≠ .fresh) (hk : k ≤ q.frames.length)
    (hrest : upTo v.segments i k ++ rest = v.log) :
    Remaining v ⟨false, some ⟨numberOf i, endOf pageInitPosition (q.frames.take k), k⟩⟩ rest

inductive Found (d : Directory) (v : View) (j : Journal) :
    List Frame → Option (Int16 × ℕ) → Prop where
  | nothing (h : Remaining v j []) : Found d v j [] none
  | frame {f : Frame} {rest : List Frame} {n : Int16} {a : ℕ} (h : Remaining v j (f :: rest))
    (hat : Frame.IsAt (d.buffer n) a f) (hpass : Remaining v (j.passFrame d) rest) :
    Found d v j (f :: rest) (some (n, a))

section Locate

variable {d : Directory} {v : View} {j : Journal} {rest : List Frame} {i k : ℕ} {q : PageView}

theorem frames_or_last (hd : Shows d v) (hsealed : v.Sealed) (hq : v[i]? = some q) :
    0 < q.frames.length ∨ i + 1 = v.length := by
  have hi := lt_length hq
  rcases Nat.lt_or_ge (i + 1) v.length with hlt | hge
  · have hfull := (hd.page i q hq).full ((hsealed i q hq).2 hlt)
    refine Or.inl (Nat.pos_of_ne_zero fun hzero => ?_)
    rw [PageView.tail, List.length_eq_zero_iff.mp hzero] at hfull
    exact absurd hfull (by decide)
  · exact Or.inr (by omega)

theorem found_at (hd : Shows d v) (hq : v[i]? = some q) (hphase : q.phase ≠ .fresh)
    (hk : k ≤ q.frames.length) (hrest : upTo v.segments i k ++ rest = v.log)
    (hnext : k < q.frames.length ∨ i + 1 = v.length) :
    Found d v ⟨false, some ⟨numberOf i, endOf pageInitPosition (q.frames.take k), k⟩⟩ rest
      ((Page.locateReadableFrame d
        ⟨numberOf i, endOf pageInitPosition (q.frames.take k), k⟩).map
          fun a => (numberOf i, a)) := by
  have hstays := Remaining.paged hq hphase hk hrest
  have hwritten := written_iff hd hq hk
  have hpage := hd.page i q hq
  rw [Page.locateReadableFrame]
  rcases hk.lt_or_eq with hlt | rfl
  · rw [if_pos (hwritten.mpr hlt)]
    have hupTo := upTo_succ (segments_getElem? hq) hlt
    obtain ⟨more, hmore⟩ : upTo v.segments i (k + 1) <+: v.log := upTo_prefix _ _ _
    rw [hupTo, List.append_assoc, ← hrest] at hmore
    obtain rfl := List.append_cancel_left hmore
    refine .frame hstays (hpage.chain.get hlt).2 ?_
    rw [Journal.passFrame, Option.map_some, passFrame_eq hpage hlt]
    refine .paged hq hphase hlt ?_
    rw [hupTo, List.append_assoc]
    exact hrest
  · rw [if_neg fun h => absurd (hwritten.mp h) (lt_irrefl _)]
    have hlast := hnext.resolve_left (lt_irrefl _)
    have hall : upTo v.segments i q.frames.length = v.log :=
      upTo_last (segments_getElem? hq) (by rwa [View.segments, List.length_map])
    have hnil : rest = [] := List.append_right_eq_self.mp (hrest.trans hall.symm)
    subst hnil
    exact .nothing hstays

/-- A journal gives its next frame, over the end of a page if need be. -/
theorem Remaining.locate (h : Remaining v j rest) (hd : Shows d v) (hsealed : v.Sealed) :
    ∃ j' found, j.locateFrame d = .ok (j', found) ∧ Found d v j' rest found := by
  cases h with
  | expired => exact ⟨_, _, rfl, .nothing .expired⟩
  | waiting =>
    have hlocate : Journal.locateFrame d ⟨false, none⟩ =
        ((Page.loadReading d (numberOf 0)).map fun page => (⟨false, page⟩ : Journal)).map fun j =>
          (j, j.curPage.bind fun p => (p.locateReadableFrame d).map fun a => (p.pageNum, a)) := rfl
    rw [hlocate]
    cases hv : v[0]? with
    | none =>
      obtain rfl := List.eq_nil_of_length_eq_zero (Nat.le_zero.mp (List.getElem?_eq_none_iff.mp hv))
      have hnone : Page.loadReading d (numberOf 0) = .ok none := by
        rw [Page.loadReading, if_pos]
        intro hthere
        rw [hd.pageNums_eq] at hthere
        cases hthere
      rw [hnone]
      exact ⟨_, _, rfl, .nothing .waiting⟩
    | some q =>
      have hphase := (hsealed 0 q hv).1
      rw [loadReading_of_get hd hv hphase]
      exact ⟨_, _, rfl, found_at hd hv hphase (Nat.zero_le _) rfl (frames_or_last hd hsealed hv)⟩
  | @paged i k q rest hq hphase hk hrest =>
    by_cases hend : Page.isAtPageEnd d
        ⟨numberOf i, endOf pageInitPosition (q.frames.take k), k⟩ = true
    · obtain ⟨rfl, hclosed⟩ := (isAtPageEnd_iff hd hq hk).mp hend
      obtain ⟨q', hq', hphase'⟩ := hd.closed_next i q hq hclosed
      have hlocate : Journal.locateFrame d
          ⟨false, some ⟨numberOf i, endOf pageInitPosition (q.frames.take q.frames.length),
            q.frames.length⟩⟩ =
          ((Page.loadReading d (numberOf i + 1)).map fun page => (⟨false, page⟩ : Journal)).map
            fun j => (j, j.curPage.bind fun p =>
              (p.locateReadableFrame d).map fun a => (p.pageNum, a)) := by
        rw [Journal.locateFrame, if_neg (by simp), Journal.needsPage, if_pos hend]
        rfl
      rw [hlocate, numberOf_succ, loadReading_of_get hd hq' hphase']
      refine ⟨_, _, rfl, found_at hd hq' hphase' (Nat.zero_le _) ?_
        (frames_or_last hd hsealed hq')⟩
      rw [← upTo_length (segments_getElem? hq)]
      exact hrest
    · have hnext : k < q.frames.length ∨ i + 1 = v.length := by
        have hi := lt_length hq
        rcases hk.lt_or_eq with hlt | heq
        · exact Or.inl hlt
        · have hopen : q.phase ≠ .closed := fun hclosed =>
            hend ((isAtPageEnd_iff hd hq hk).mpr ⟨heq, hclosed⟩)
          refine Or.inr (Nat.le_antisymm hi (not_lt.mp fun hlt => hopen ?_))
          exact (hsealed i q hq).2 hlt
      refine ⟨_, _, ?_, found_at hd hq hphase hk hrest hnext⟩
      rw [Journal.locateFrame, if_neg (by simp), Journal.needsPage, if_neg hend]
      rfl

end Locate

section Seek

variable {d : Directory} {v : View} {j : Journal} {rest : List Frame}

theorem Remaining.seekLoop (h : Remaining v j rest) (hd : Shows d v) (time : Int64) (fuel : ℕ) :
    ∃ skipped rest', Remaining v (Journal.seekLoop d time fuel j) rest' ∧
      skipped ++ rest' = rest ∧ (time = timeFromFirst → skipped = []) ∧
      (time ≠ timeToLast → ∀ f ∈ skipped, f.nano < time) := by
  induction fuel generalizing j rest with
  | zero => exact ⟨[], rest, h, rfl, fun _ => rfl, fun _ _ hf => by cases hf⟩
  | succ fuel ih =>
    rw [Journal.seekLoop]
    split_ifs with hpasses
    · cases h with
      | waiting => cases hpasses
      | expired => cases hpasses
      | @paged i k q rest hq hphase hk hrest =>
        rw [Option.any_some, Journal.seekPasses, decide_eq_true_eq] at hpasses
        obtain ⟨hwritten, htime⟩ := hpasses
        have hlt := (written_iff hd hq hk).mp hwritten
        obtain ⟨more, hmore⟩ : upTo v.segments i (k + 1) <+: v.log := upTo_prefix _ _ _
        have hupTo := upTo_succ (segments_getElem? hq) hlt
        have hstep : Remaining v (Journal.passFrame d
            ⟨false, some ⟨numberOf i, endOf pageInitPosition (q.frames.take k), k⟩⟩) more := by
          rw [Journal.passFrame, Option.map_some, passFrame_eq (hd.page i q hq) hlt]
          exact .paged hq hphase hlt hmore
        obtain ⟨skipped, rest', hremaining, hsplit, -, hbefore⟩ := ih hstep
        refine ⟨q.frames[k] :: skipped, rest', hremaining, ?_, fun hfirst => ?_,
          fun hnotLast f hf => ?_⟩
        · rw [hupTo, List.append_assoc, ← hrest] at hmore
          rw [← List.append_cancel_left hmore, List.cons_append, hsplit]
          rfl
        · rcases htime with hlast | ⟨hnot, -⟩
          · rw [hfirst] at hlast
            exact absurd hlast (by decide)
          · exact absurd hfirst hnot
        · rcases List.mem_cons.mp hf with rfl | hf
          · rw [← ((hd.page i q hq).chain.get hlt).2.nano_eq]
            exact (htime.resolve_left hnotLast).2
          · exact hbefore hnotLast f hf
    · exact ⟨[], rest, h, rfl, fun _ => rfl, fun _ _ hf => by cases hf⟩

theorem seekPageNum_cases (hd : Shows d v) (unread : Int16 → Int64) (time : Int64) :
    Journal.seekPageNum d unread time = numberOf 0 ∨
      ∃ i q, v[i]? = some q ∧ Journal.seekPageNum d unread time = numberOf i := by
  have hmem : ∀ n ∈ d.getPageNums, ∃ i q, v[i]? = some q ∧ n = numberOf i := by
    intro n hn
    rw [hd.getPageNums_eq, List.mem_map] at hn
    obtain ⟨i, hi, rfl⟩ := hn
    rw [List.mem_range] at hi
    exact ⟨i, v[i], List.getElem?_eq_getElem hi, rfl⟩
  rw [Journal.seekPageNum]
  split_ifs with hlast hfirst
  · rw [Directory.lastPageNum]
    cases hget : d.getPageNums.getLast? with
    | none => exact Or.inl rfl
    | some n => exact Or.inr (hmem n (List.mem_of_getLast? hget))
  · rw [Directory.firstPageNum]
    cases hget : d.getPageNums.head? with
    | none => exact Or.inl rfl
    | some n => exact Or.inr (hmem n (List.mem_of_head? hget))
  · rw [Directory.getPageNumWithTime]
    cases hfind : d.getPageNums.reverse.find? fun n => d.headerNano (unread n) n < time with
    | none => exact Or.inl rfl
    | some n => exact Or.inr (hmem n (List.mem_reverse.mp (List.mem_of_find?_eq_some hfind)))

theorem inited_of_sealed (hd : Shows d v) (hsealed : v.Sealed) {n : Int16}
    (hn : n ∈ d.getPageNums) : d.Inited n := by
  rw [hd.getPageNums_eq, ← hd.pageNums_eq] at hn
  obtain ⟨i, q, rfl, hq⟩ := hd.exists_of_mem hn
  have hphase := (hsealed i q hq).1
  exact ⟨hn, hd.sized i q hq hphase, fun hraw => hphase ((hd.page i q hq).status_iff.mp hraw)⟩

/-- Where no writer is at work, the page that is sought is the first, or it was started before
the time. -/
theorem seekPageNum_chosen (hd : Shows d v) (hsealed : v.Sealed) (unread : Int16 → Int64)
    (time : Int64) : Chosen True v time (Journal.seekPageNum d unread time) := by
  refine ⟨fun hfirst => ?_, fun _ hlast => ?_⟩
  · rw [hfirst, Journal.seekPageNum, if_neg (by decide), if_pos rfl]
    exact hd.firstPageNum_eq
  · rw [Journal.seekPageNum, if_neg hlast]
    split_ifs
    · exact Or.inl hd.firstPageNum_eq
    · rw [Directory.getPageNumWithTime]
      cases hfind : d.getPageNums.reverse.find? fun n => d.headerNano (unread n) n < time with
      | none => exact Or.inl rfl
      | some n =>
        have hn := List.mem_reverse.mp (List.mem_of_find?_eq_some hfind)
        have hsome := List.find?_some hfind
        have hbefore : d.headerNano (unread n) n < time := of_decide_eq_true hsome
        obtain ⟨i, q, hnum, hq, hphase, hnano⟩ :=
          headerNano_of_inited hd (inited_of_sealed hd hsealed hn) (unread n)
        exact Or.inr ⟨i, q, hnum, hq, hphase, hnano ▸ hbefore⟩

theorem seekPage_spec (hd : Shows d v) (hsealed : v.Sealed) (unread : Int16 → Int64)
    (time : Int64) :
    ∃ j skipped rest, Journal.seekPage d (Journal.seekPageNum d unread time) = .ok j ∧
      Remaining v j rest ∧ skipped ++ rest = v.log ∧ (Timed v → PassedOver time skipped) := by
  have hfew := hd.few
  cases hv : v[0]? with
  | none =>
    obtain rfl := List.eq_nil_of_length_eq_zero (Nat.le_zero.mp (List.getElem?_eq_none_iff.mp hv))
    have hnone : Page.loadReading d (Journal.seekPageNum d unread time) = .ok none := by
      rw [Page.loadReading, if_pos]
      intro hthere
      rw [hd.pageNums_eq] at hthere
      cases hthere
    rw [Journal.seekPage, hnone]
    exact ⟨_, [], [], rfl, .expired, rfl, fun _ => ⟨fun _ => rfl, fun _ _ hf => by cases hf⟩⟩
  | some q₀ =>
    obtain ⟨i, q, hq, hnum⟩ :
        ∃ i q, v[i]? = some q ∧ Journal.seekPageNum d unread time = numberOf i := by
      rcases seekPageNum_cases hd unread time with hzero | hsome
      · exact ⟨0, q₀, hv, hzero⟩
      · exact hsome
    have hchosen := seekPageNum_chosen hd hsealed unread time
    rw [hnum] at hchosen
    have hi := lt_length hq
    have hphase := (hsealed i q hq).1
    obtain ⟨rest, hrest⟩ : upTo v.segments i 0 <+: v.log := upTo_prefix _ _ _
    have hzero : numberOf i = numberOf 0 → upTo v.segments i 0 = [] := by
      intro hsame
      rw [numberOf_inj (by omega) (by omega) hsame]
      rfl
    rw [Journal.seekPage, hnum, loadReading_of_get hd hq hphase]
    refine ⟨_, upTo v.segments i 0, rest, rfl, .paged hq hphase (Nat.zero_le _) hrest, hrest,
      fun htimed => ⟨fun hfirst => hzero (hchosen.first hfirst), fun hlast f hf => ?_⟩⟩
    rcases hchosen.below trivial hlast with hsame | ⟨i', q', hn, hq', -, hstart⟩
    · rw [hzero hsame] at hf
      cases hf
    · have hi' := lt_length hq'
      obtain rfl := numberOf_inj (by omega) (by omega) hn
      rw [hq] at hq'
      cases hq'
      exact Int64.lt_of_le_of_lt (htimed i q hq hphase f hf) hstart

/-- Where no writer is at work, a journal that is sought gives the frames from there on. -/
theorem seekTime_spec (hd : Shows d v) (hsealed : v.Sealed) (unread : Int16 → Int64)
    (time : Int64) :
    ∃ j skipped rest, Journal.seekTime d unread time = .ok j ∧ Remaining v j rest ∧
      skipped ++ rest = v.log ∧ (Timed v → PassedOver time skipped) := by
  obtain ⟨j, skipped, rest, hseek, hremaining, hsplit, hskipped⟩ :=
    seekPage_spec hd hsealed unread time
  obtain ⟨skipped', rest', hloop, hsplit', hfirst', hbefore'⟩ :=
    hremaining.seekLoop hd time journalPageSize
  refine ⟨_, skipped ++ skipped', rest', ?_, hloop, ?_, fun htimed =>
    ⟨fun htime => ?_, fun hlast f hf => ?_⟩⟩
  · rw [Journal.seekTime, hseek]
    rfl
  · rw [List.append_assoc, hsplit', hsplit]
  · rw [(hskipped htimed).first htime, hfirst' htime]
    rfl
  · rcases List.mem_append.mp hf with hf | hf
    · exact (hskipped htimed).below hlast f hf
    · exact hbefore' hlast f hf

end Seek

section Streams

variable {P Q : ℕ → Journal → List Frame → Prop} {o k : ℕ} {js : List Journal}
  {streams : List (List Frame)} {j : Journal} {rest : List Frame}

inductive Streams (P : ℕ → Journal → List Frame → Prop) :
    ℕ → List Journal → List (List Frame) → Prop where
  | nil (o : ℕ) : Streams P o [] []
  | cons {o : ℕ} {j : Journal} {rest : List Frame} {js : List Journal}
    {streams : List (List Frame)} (hj : P o j rest) (hjs : Streams P (o + 1) js streams) :
    Streams P o (j :: js) (rest :: streams)

theorem Streams.imp (h : Streams P o js streams) (hPQ : ∀ i j s, P i j s → Q i j s) :
    Streams Q o js streams := by
  induction h with
  | nil o => exact .nil o
  | cons hj _ ih => exact .cons (hPQ _ _ _ hj) ih

theorem Streams.get (h : Streams P o js streams) (hs : streams[k]? = some rest) :
    ∃ j, js[k]? = some j ∧ P (o + k) j rest := by
  induction h generalizing k with
  | nil => cases hs
  | @cons o j rest' js streams hj hjs ih =>
    cases k with
    | zero =>
      cases hs
      exact ⟨j, rfl, hj⟩
    | succ k =>
      obtain ⟨j', hj', hP⟩ := ih hs
      exact ⟨j', hj', by rwa [Nat.add_assoc, Nat.add_comm 1 k] at hP⟩

theorem Streams.modify (h : Streams P o js streams) {g : Journal → Journal}
    (hk : ∀ j, js[k]? = some j → P (o + k) (g j) rest) :
    Streams P o (js.modify k g) (streams.set k rest) := by
  induction h generalizing k with
  | nil o =>
    rw [List.modify_nil, List.set_nil]
    exact .nil o
  | @cons o j rest' js streams hj hjs ih =>
    cases k with
    | zero => exact .cons (hk j rfl) hjs
    | succ k =>
      refine .cons hj (ih fun j' hj' => ?_)
      rw [Nat.add_assoc, Nat.add_comm 1 k]
      exact hk j' hj'

end Streams

section Search

variable {dirs : ℕ → Directory} {views : ℕ → View}

def timeOf (f : Frame) : ℤ := f.nano.toInt

/-- No frame has the time that stands for none. -/
def Clocked (v : View) : Prop := ∀ f ∈ v.log, f.nano ≠ timeToLast

/-- The directories show views in which all but the last page are closed. -/
structure Quiet (dirs : ℕ → Directory) (views : ℕ → View) : Prop where
  shows : ∀ i, Shows (dirs i) (views i)
  closed : ∀ i, (views i).Sealed
  clocked : ∀ i, Clocked (views i)

def Matches (dirs : ℕ → Directory) (best : JournalReader.Earliest) : Option (ℕ × Frame) → Prop
  | none => best = {}
  | some (i, f) => f.nano ≠ timeToLast ∧ best.minNano = f.nano ∧
    ∃ n a, best.found = some (i, n, a) ∧ Frame.IsAt ((dirs i).buffer n) a f

def Stream (dirs : ℕ → Directory) (views : ℕ → View) (i : ℕ) (j : Journal) (s : List Frame) :
    Prop :=
  Remaining (views i) j s ∧
    ∀ f rest, s = f :: rest → Remaining (views i) (j.passFrame (dirs i)) rest

theorem Remaining.mem_log {v : View} {j : Journal} {rest : List Frame} (h : Remaining v j rest)
    {f : Frame} (hf : f ∈ rest) : f ∈ v.log := by
  cases h with
  | waiting => exact hf
  | expired => cases hf
  | paged hq hphase hk hrest =>
    rw [← hrest]
    exact List.mem_append_right _ hf

theorem Matches.weigh {best : JournalReader.Earliest} {b : Option (ℕ × Frame)}
    (h : Matches dirs best b) {i n a} {f : Frame} (hat : Frame.IsAt ((dirs i).buffer n) a f)
    (hf : f.nano ≠ timeToLast) :
    Matches dirs (best.weigh dirs i (some (n, a))) (better timeOf b i f) := by
  rw [JournalReader.Earliest.weigh, hat.nano_eq]
  cases b with
  | none =>
    obtain rfl : best = {} := h
    exact ⟨hf, rfl, n, a, rfl, hat⟩
  | some b =>
    obtain ⟨j, g⟩ := b
    obtain ⟨hg, hmin, m, c, hfound, hatg⟩ := h
    rw [better, timeOf, timeOf]
    by_cases hlt : f.nano < g.nano
    · rw [if_pos (Or.inr (by rwa [hmin])), if_pos (Int64.lt_iff_toInt_lt.mp hlt)]
      exact ⟨hf, rfl, n, a, rfl, hat⟩
    · rw [if_neg, if_neg fun h => hlt (Int64.lt_iff_toInt_lt.mpr h)]
      · exact ⟨hg, hmin, m, c, hfound, hatg⟩
      · rw [hmin]
        exact fun h => h.elim hg hlt

theorem searchLoop_spec (hquiet : Quiet dirs views) {o : ℕ} {js : List Journal}
    {streams : List (List Frame)} (h : Streams (fun i => Remaining (views i)) o js streams)
    {best : JournalReader.Earliest} {b : Option (ℕ × Frame)} (hb : Matches dirs best b) :
    ∃ js' best', JournalReader.searchLoop dirs o best js = .ok (js', best') ∧
      Streams (Stream dirs views) o js' streams ∧
      Matches dirs best' (pick timeOf o b streams) := by
  induction h generalizing best b with
  | nil o => exact ⟨[], best, rfl, .nil o, hb⟩
  | @cons o j rest js streams hj hjs ih =>
    obtain ⟨j', found, hlocate, hfound⟩ := hj.locate (hquiet.shows o) (hquiet.closed o)
    cases hfound with
    | nothing hstays =>
      obtain ⟨js', best', hloop, hstreams, hmatches⟩ := ih hb
      refine ⟨j' :: js', best', ?_, .cons ⟨hstays, fun f rest h => by cases h⟩ hstreams, hmatches⟩
      rw [JournalReader.searchLoop, hlocate]
      exact congrArg (Except.map fun result => (j' :: result.1, result.2)) hloop
    | @frame f rest n a hstays hat hpass =>
      have hf : f.nano ≠ timeToLast := hquiet.clocked o f (hstays.mem_log List.mem_cons_self)
      obtain ⟨js', best', hloop, hstreams, hmatches⟩ := ih (hb.weigh hat hf)
      refine ⟨j' :: js', best', ?_, .cons ⟨hstays, fun f' rest' h => ?_⟩ hstreams, hmatches⟩
      · rw [JournalReader.searchLoop, hlocate]
        exact congrArg (Except.map fun result => (j' :: result.1, result.2)) hloop
      · cases h
        exact hpass

/-- `getNextFrame` takes the least head, or there is none. -/
theorem getNextFrame_spec (hquiet : Quiet dirs views) {r : JournalReader}
    {streams : List (List Frame)}
    (h : Streams (fun i => Remaining (views i)) 0 r.journals streams) :
    (∃ r', r.getNextFrame dirs = .ok (r', none) ∧ (∀ s ∈ streams, s = []) ∧
      Streams (fun i => Remaining (views i)) 0 r'.journals streams) ∨
    ∃ r' i f s, r.getNextFrame dirs = .ok (r', some f) ∧ Least timeOf streams i f ∧
      streams[i]? = some (f :: s) ∧
      Streams (fun i => Remaining (views i)) 0 r'.journals (streams.set i s) := by
  have hstart : Matches dirs {} none := rfl
  obtain ⟨js, best, hloop, hstreams, hmatches⟩ := searchLoop_spec hquiet h hstart
  have hbest := pick_spec timeOf streams
  have hnext : r.getNextFrame dirs = match best.found with
      | none => .ok (⟨js, r.curJournal⟩, none)
      | some (i, n, a) => .ok (⟨js.modify i (Journal.passFrame (dirs i)), some i⟩,
          some (Frame.get ((dirs i).buffer n) a)) := by
    rw [JournalReader.getNextFrame, hloop]
    rfl
  have hstay : Streams (fun i => Remaining (views i)) 0 js streams :=
    hstreams.imp fun _ _ _ hP => hP.1
  rw [hnext]
  cases hpick : pick timeOf 0 none streams with
  | none =>
    rw [hpick] at hmatches hbest
    obtain rfl : best = {} := hmatches
    exact Or.inl ⟨_, rfl, hbest, hstay⟩
  | some b =>
    obtain ⟨i, f⟩ := b
    rw [hpick] at hmatches hbest
    have hleast : Least timeOf streams i f := hbest
    obtain ⟨-, -, n, a, hfound, hat⟩ := hmatches
    obtain ⟨s, hs⟩ := hleast.head
    obtain ⟨j, hj, -, hpass⟩ := hstreams.get hs
    rw [Nat.zero_add] at hpass
    rw [hfound]
    refine Or.inr ⟨⟨js.modify i (Journal.passFrame (dirs i)), some i⟩, i, f, s, ?_, hleast, hs,
      hstay.modify fun j' hj' => ?_⟩
    · dsimp only
      rw [hat.get_eq]
    · rw [hj] at hj'
      cases hj'
      rw [Nat.zero_add]
      exact hpass f s rfl

theorem length_flatten_set {streams : List (List Frame)} {i : ℕ} {f : Frame} {s : List Frame}
    (hs : streams[i]? = some (f :: s)) :
    streams.flatten.length = (streams.set i s).flatten.length + 1 :=
  (flatten_perm_set hs).length_eq

theorem readAll_spec (hquiet : Quiet dirs views) {fuel : ℕ} {r : JournalReader}
    {streams : List (List Frame)}
    (h : Streams (fun i => Remaining (views i)) 0 r.journals streams)
    (hfuel : streams.flatten.length < fuel) :
    ∃ r' out, r.readAll dirs fuel = .ok (r', out) ∧ Merged timeOf streams out := by
  induction fuel generalizing r streams with
  | zero => exact absurd hfuel (Nat.not_lt_zero _)
  | succ fuel ih =>
    rcases getNextFrame_spec hquiet h with ⟨r', hnext, hempty, -⟩ |
      ⟨r', i, f, s, hnext, hleast, hs, hrest⟩
    · refine ⟨r', [], ?_, .done hempty⟩
      rw [JournalReader.readAll, hnext]
      rfl
    · have hlength := length_flatten_set hs
      obtain ⟨r'', out, hread, hmerged⟩ := ih hrest (by omega)
      refine ⟨r'', f :: out, ?_, .next hleast hs hmerged⟩
      rw [JournalReader.readAll, hnext]
      exact congrArg (Except.map fun result => (result.1, f :: result.2)) hread

theorem jumpStart_spec (hquiet : Quiet dirs views) (unread : ℕ → Int16 → Int64) (time : Int64)
    (count o : ℕ) :
    ∃ js streams, JournalReader.jumpStart dirs unread time count o = .ok js ∧
      Streams (fun i => Remaining (views i)) o js streams ∧ streams.length = count ∧
      ∀ i rest, streams[i]? = some rest → ∃ skipped, skipped ++ rest = (views (o + i)).log ∧
        (Timed (views (o + i)) → PassedOver time skipped) := by
  induction count generalizing o with
  | zero => exact ⟨[], [], rfl, .nil o, rfl, fun _ _ h => by cases h⟩
  | succ count ih =>
    obtain ⟨j, skipped, rest, hseek, hremaining, hsplit, hskipped⟩ :=
      seekTime_spec (hquiet.shows o) (hquiet.closed o) (unread o) time
    obtain ⟨js, streams, hjump, hstreams, hlength, hrests⟩ := ih (o + 1)
    refine ⟨j :: js, rest :: streams, ?_, .cons hremaining hstreams, ?_, fun i rest' hi => ?_⟩
    · rw [JournalReader.jumpStart, hseek, hjump]
      rfl
    · rw [List.length_cons, hlength]
    · cases i with
      | zero =>
        cases hi
        exact ⟨skipped, hsplit, hskipped⟩
      | succ i =>
        obtain ⟨skipped', hsplit', hskipped'⟩ := hrests i rest' hi
        rw [Nat.add_assoc, Nat.add_comm 1 i] at hsplit' hskipped'
        exact ⟨skipped', hsplit', hskipped'⟩

end Search

section AddJournals

open JournalReader

theorem mem_addJournals {jnames : List (List UInt8)} {e : List UInt8 × ℕ}
    (h : e ∈ addJournals jnames) : jnames[e.2]? = some e.1 := by
  have hadded : ∀ (entries journalMap : List (List UInt8 × ℕ)),
      e ∈ entries.foldl addJournal journalMap → e ∈ journalMap ∨ e ∈ entries := by
    intro entries
    induction entries with
    | nil => exact fun journalMap hmem => Or.inl hmem
    | cons entry entries ih =>
      intro journalMap hmem
      rcases ih _ hmem with hbefore | hmem
      · rw [addJournal] at hbefore
        split_ifs at hbefore
        · exact Or.inl hbefore
        · exact (List.mem_append.mp hbefore).imp_right fun hlast =>
            List.mem_cons.mpr (Or.inl (List.mem_singleton.mp hlast))
      · exact Or.inr (List.mem_cons_of_mem _ hmem)
  rcases hadded _ _ h with hnil | hmem
  · cases hnil
  · exact List.mem_zipIdx_iff_getElem?.mp hmem

theorem addJournals_of_nodup {jnames : List (List UInt8)} (h : jnames.Nodup) :
    addJournals jnames = jnames.zipIdx := by
  have hadded : ∀ entries journalMap : List (List UInt8 × ℕ),
      ((journalMap ++ entries).map Prod.fst).Nodup →
        entries.foldl addJournal journalMap = journalMap ++ entries := by
    intro entries
    induction entries with
    | nil => exact fun journalMap _ => (List.append_nil _).symm
    | cons entry entries ih =>
      intro journalMap hnodup
      have hnew : entry.1 ∉ journalMap.map Prod.fst := by
        rw [List.map_append, List.nodup_append] at hnodup
        exact fun hmem => hnodup.2.2 _ hmem _ List.mem_cons_self rfl
      rw [List.foldl_cons, addJournal, if_neg hnew, ih _ (by rwa [List.append_assoc]),
        List.append_assoc]
      rfl
  exact hadded _ _ (by rwa [List.nil_append, List.zipIdx_map_fst])

end AddJournals

end Yijinjing
