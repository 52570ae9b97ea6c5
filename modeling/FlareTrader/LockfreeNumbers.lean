import FlareTrader.LockfreeCounts

/-! The numbers that the lock-free queue reports. A call that is overtaken before its last
exchange returns the number that the exchange has found, and not the one of its slot. -/

namespace LockfreeQueue

open RingBuffer (StaticAssert)

variable {ι : Type*}

namespace Process

def reporting : Process → Option UInt64
  | .pushAppending call => call.filled
  | _ => none

def Noted (nodes : ℕ → List UInt8) (fills : List (UInt64 × List UInt8)) (element : List UInt8)
    (slot : UInt64) : Process → Prop
  | .idle _ | .popEntered => True
  | .pushEntered buf | .pushTaking buf _ | .pushEvicting buf _ | .pushWriting buf _ => element = buf
  | .pushAppending call => (∀ id, call.held = some id → nodes id.toNat = element) ∧
    ∀ n, call.filled = some n → slot = n ∧ (n, element) ∈ fills
  | .popTaking call => ∀ n id, call.emptied = some (n, id) →
    slot = n ∧ (n, nodes id.toNat) ∈ fills
  | .popReading id n => (n, nodes id.toNat) ∈ fills
  | .popReturning buf n call => (n, buf) ∈ fills ∧ ∀ m, call.filled = some m → slot = m

variable {nodes nodes' : ℕ → List UInt8} {fills fills' : List (UInt64 × List UInt8)}
  {element : List UInt8} {slot : UInt64}

theorem Noted.mono {process : Process} (h : process.Noted nodes fills element slot)
    (hnodes : ∀ id, process.held = some id → nodes' id.toNat = nodes id.toNat)
    (hfills : ∀ e ∈ fills, e ∈ fills') : process.Noted nodes' fills' element slot := by
  cases process with
  | idle last => trivial
  | popEntered => trivial
  | pushEntered buf => exact h
  | pushTaking buf call => exact h
  | pushEvicting buf call => exact h
  | pushWriting buf id => exact h
  | pushAppending call =>
    refine ⟨fun id hid => (hnodes id hid).trans (h.1 id hid), fun n hn => ?_⟩
    exact ⟨(h.2 n hn).1, hfills _ (h.2 n hn).2⟩
  | popTaking call =>
    intro n id hid
    have hheld : call.held = some id := by
      cases call with
      | advanceTail curTail id' => cases hid; rfl
      | loadTail spin => cases hid
      | loadHead spin curTail => cases hid
      | loadNode spin curTail => cases hid
      | swapNode curTail curNode => cases hid
      | repairTail curTail => cases hid
    rw [hnodes id hheld]
    exact ⟨(h n id hid).1, hfills _ (h n id hid).2⟩
  | popReading id n =>
    have hid := hnodes id rfl
    simp only [Noted, hid]
    exact hfills _ h
  | popReturning buf n call => exact ⟨hfills _ h.1, h.2⟩

end Process

namespace System

/-- The counter has moved on before the last exchange of a call whose number is asked for. -/
def overtaken (s : System ι) : Turn ι → Bool
  | .access p _ =>
    match s.processes p with
    | .pushAppending call => call.filled.any fun n => (s.queue.ring .node).headSeq ≠ n
    | .popTaking call => call.emptied.any fun e => (s.queue.ring .node).tailSeq ≠ e.1
    | .popReturning _ _ call => call.filled.any fun n => (s.queue.ring .resc).headSeq ≠ n
    | _ => false
  | _ => false

/-- The elements of the queue are those that the log has noted last. -/
structure Kept (count : ℕ) (s : System ι) (log : Log ι) (first last : RingName → ℕ) : Prop where
  ordered : s.Ordered count first last
  length : log.fills.length = last .node
  numbers : ∀ k (h : k < log.fills.length), log.fills[k].1 = .ofNat k
  stored : ∀ k (h : k < log.fills.length), first .node ≤ k →
    s.queue.nodes (wordId ((s.queue.ring .node).node (.ofNat k))).toNat = log.fills[k].2
  noted : ∀ p, (s.processes p).Noted s.queue.nodes log.fills (log.element p) (log.slot p)
  numbered : log.Numbered
  unreported : ∀ p n, (s.processes p).reporting = some n → n ∉ log.pushed.map Prod.fst
  one_reporter : ∀ p p' n, (s.processes p).reporting = some n →
    (s.processes p').reporting = some n → p = p'

structure Beside (p : ι) (log log' : Log ι) : Prop where
  fills : log'.fills = log.fills
  element : ∀ p' ≠ p, log'.element p' = log.element p'
  slot : ∀ p' ≠ p, log'.slot p' = log.slot p'

/-- The counters of the run have not wrapped around, each slot is exchanged in turn, and no call
whose number is asked for is overtaken before its last exchange. -/
def StaysInTurn [DecidableEq ι] (count : ℕ) (s : System ι) : List (Turn ι) → Prop
  | [] => ∀ name, (s.queue.ring name).Counts count
  | turn :: turns => (∀ name, (s.queue.ring name).Counts count) ∧ s.InTurn turn ∧
    s.overtaken turn = false ∧ StaysInTurn count (s.step turn) turns

instance (count : ℕ) (s : System ι) : Decidable (∀ name, (s.queue.ring name).Counts count) :=
  decidable_of_iff (s.queue.rescRing.headSeq.toNat + count < 2 ^ 64 ∧
      s.queue.nodeRing.headSeq.toNat + count < 2 ^ 64)
    ⟨fun h name => name.casesOn h.1 h.2, fun h => ⟨h .resc, h .node⟩⟩

instance (s : System ι) (turn : Turn ι) : Decidable (s.InTurn turn) :=
  have (seq : Option UInt64) (counter : UInt64) : Decidable (∀ n ∈ seq, counter = n) :=
    Option.decidableForallMem seq
  decidable_of_iff (((∀ n ∈ s.fills .resc turn, s.queue.rescRing.headSeq = n) ∧
      ∀ n ∈ s.fills .node turn, s.queue.nodeRing.headSeq = n) ∧
    (∀ n ∈ s.empties .resc turn, s.queue.rescRing.tailSeq = n) ∧
      ∀ n ∈ s.empties .node turn, s.queue.nodeRing.tailSeq = n)
    ⟨fun h => ⟨fun name => name.casesOn h.1.1 h.1.2, fun name => name.casesOn h.2.1 h.2.2⟩,
      fun h => ⟨⟨h.fills .resc, h.fills .node⟩, h.empties .resc, h.empties .node⟩⟩

instance decidableStaysInTurn [DecidableEq ι] (count : ℕ) :
    ∀ (turns : List (Turn ι)) (s : System ι), Decidable (s.StaysInTurn count turns)
  | [], s => inferInstanceAs (Decidable (∀ name, (s.queue.ring name).Counts count))
  | turn :: turns, s =>
    have := decidableStaysInTurn count turns (s.step turn)
    inferInstanceAs (Decidable (_ ∧ _ ∧ _ ∧ _))

section Turns

variable [DecidableEq ι] {count : ℕ} {s : System ι} {log log' : Log ι}
  {first last first' last' : RingName → ℕ} {p : ι} {q : LFQueue} {process : Process}

omit [DecidableEq ι] in
theorem Beside.refl (p : ι) (log : Log ι) : Beside p log log := ⟨rfl, fun _ _ => rfl, fun _ _ => rfl⟩

theorem Beside.setSlot (p : ι) (seq : Option UInt64) (log : Log ι) :
    Beside p log (log.setSlot p seq) := by
  cases seq with
  | none => exact .refl p log
  | some seq => exact ⟨rfl, fun _ _ => rfl, fun _ hp => Function.update_of_ne hp _ _⟩

omit [DecidableEq ι] in
theorem forall_getElem_concat {α : Type*} {P : ℕ → α → Prop} {l : List α} {a : α}
    (h : ∀ k (hk : k < l.length), P k l[k]) (ha : P l.length a) (k : ℕ)
    (hk : k < (l ++ [a]).length) : P k (l ++ [a])[k] := by
  rw [List.length_append, List.length_singleton] at hk
  rcases Nat.lt_succ_iff_lt_or_eq.mp hk with hlt | rfl
  · rw [List.getElem_append_left hlt]
    exact h k hlt
  · rw [List.getElem_concat_length rfl]
    exact ha

theorem one_reporter_update
    (h : ∀ p p' n, (s.processes p).reporting = some n → (s.processes p').reporting = some n →
      p = p')
    (hnew : ∀ p' ≠ p, ∀ n, process.reporting = some n → (s.processes p').reporting ≠ some n)
    (p₁ p₂ : ι) (n : UInt64) (h₁ : (Function.update s.processes p process p₁).reporting = some n)
    (h₂ : (Function.update s.processes p process p₂).reporting = some n) : p₁ = p₂ := by
  by_cases hp₁ : p₁ = p
  · by_cases hp₂ : p₂ = p
    · rw [hp₁, hp₂]
    · rw [hp₁, Function.update_self] at h₁
      rw [Function.update_of_ne hp₂] at h₂
      exact absurd h₂ (hnew p₂ hp₂ n h₁)
  · rw [Function.update_of_ne hp₁] at h₁
    by_cases hp₂ : p₂ = p
    · rw [hp₂, Function.update_self] at h₂
      exact absurd h₁ (hnew p₁ hp₁ n h₂)
    · rw [Function.update_of_ne hp₂] at h₂
      exact h p₁ p₂ n h₁ h₂

theorem Kept.beside (h : s.Kept count log first last) (hbeside : Beside p log log')
    (hordered : (⟨q, Function.update s.processes p process⟩ : System ι).Ordered count first' last')
    (hlast : last' .node = last .node) (hfirst : first .node ≤ first' .node)
    (hwords : ∀ k, first' .node ≤ k → k < last .node →
      (q.ring .node).node (.ofNat k) = (s.queue.ring .node).node (.ofNat k))
    (hnodes : ∀ place id, place ≠ .held p → s.content place = some id →
      q.nodes id.toNat = s.queue.nodes id.toNat)
    (hnoted : process.Noted q.nodes log.fills (log'.element p) (log'.slot p))
    (hnumbered : log'.Numbered) (hreporting : process.reporting = none)
    (hpushed : ∀ p' ≠ p, ∀ n, (s.processes p').reporting = some n →
      n ∉ log'.pushed.map Prod.fst) :
    (⟨q, Function.update s.processes p process⟩ : System ι).Kept count log' first' last' where
  ordered := hordered
  length := by rw [hbeside.fills, h.length, hlast]
  numbers := by
    rw [hbeside.fills]
    exact h.numbers
  stored := by
    rw [hbeside.fills]
    intro k hk hge
    have hlt : k < last .node := by rwa [h.length] at hk
    obtain ⟨id, hid, hword⟩ := (h.ordered.window .node).full k (hfirst.trans hge) hlt
    have hcontent : s.content (.slot .node ((s.queue.ring .node).slot (.ofNat k))) = some id :=
      LFRing.idAt_slot hid hword
    dsimp only
    rw [hwords k hge hlt, ← h.stored k hk (hfirst.trans hge), hword, wordId_word]
    exact hnodes _ _ (by simp) hcontent
  noted := by
    rw [hbeside.fills]
    refine (Function.forall_update_iff s.processes
      (fun p' x => x.Noted q.nodes log.fills (log'.element p') (log'.slot p'))).mpr
      ⟨hnoted, fun p' hp => ?_⟩
    rw [hbeside.element p' hp, hbeside.slot p' hp]
    exact (h.noted p').mono (fun id hid => hnodes (.held p') id (by simp [hp]) hid) fun _ he => he
  numbered := hnumbered
  unreported := by
    refine (Function.forall_update_iff s.processes
      (fun _ x => ∀ n, x.reporting = some n → n ∉ log'.pushed.map Prod.fst)).mpr
      ⟨fun n hn => ?_, hpushed⟩
    rw [hreporting] at hn
    cases hn
  one_reporter := by
    refine one_reporter_update h.one_reporter fun p' _ n hn => ?_
    rw [hreporting] at hn
    cases hn

theorem Kept.aside (h : s.Kept count log first last) (seq : Option UInt64)
    (hordered : (⟨q, Function.update s.processes p process⟩ : System ι).Ordered count first' last')
    (hlast : last' .node = last .node) (hfirst : first .node ≤ first' .node)
    (hwords : ∀ k, first' .node ≤ k → k < last .node →
      (q.ring .node).node (.ofNat k) = (s.queue.ring .node).node (.ofNat k))
    (hnodes : q.nodes = s.queue.nodes)
    (hnoted : process.Noted s.queue.nodes log.fills (log.element p) ((log.setSlot p seq).slot p))
    (hreporting : process.reporting = none) :
    (⟨q, Function.update s.processes p process⟩ : System ι).Kept count (log.setSlot p seq)
      first' last' := by
  refine h.beside (.setSlot p seq log) hordered hlast hfirst hwords (fun _ _ _ _ => by rw [hnodes])
    ?_ (h.numbered.setSlot p seq) hreporting ?_
  · rwa [hnodes, Log.setSlot_element]
  · rw [Log.setSlot_pushed]
    exact fun p' _ => h.unreported p'

omit [DecidableEq ι] in
theorem Kept.last_lt (h : s.Kept count log first last) (hcap : StaticAssert count)
    (hcounts : (s.queue.ring .node).Counts count) : last .node < 2 ^ 64 := by
  have hle := (h.ordered.window .node).le_head
  have hpos := Nat.pos_of_ne_zero hcap.1
  unfold LFRing.Counts at hcounts
  omega

omit [DecidableEq ι] in
theorem Kept.fresh (h : s.Kept count log first last) (hlt : last .node < 2 ^ 64) :
    .ofNat (last .node) ∉ log.fills.map Prod.fst := by
  intro hmem
  obtain ⟨e, he, hnum⟩ := List.mem_map.mp hmem
  obtain ⟨k, hk, rfl⟩ := List.mem_iff_getElem.mp he
  have hlast : k < last .node := by rwa [h.length] at hk
  rw [h.numbers k hk] at hnum
  have hnat := congrArg UInt64.toNat hnum
  rw [LFRing.toNat_ofNat (hlast.trans hlt), LFRing.toNat_ofNat hlt] at hnat
  omega

omit [DecidableEq ι] in
theorem Kept.not_reporting (h : s.Kept count log first last) {n : UInt64}
    (hfresh : n ∉ log.fills.map Prod.fst) (p : ι) : (s.processes p).reporting ≠ some n := by
  intro hn
  have hnoted := h.noted p
  cases hp : s.processes p with
  | pushAppending call =>
    rw [hp] at hn hnoted
    exact hfresh (List.mem_map_of_mem (hnoted.2 _ hn).2)
  | _ =>
    rw [hp] at hn
    cases hn

theorem Kept.filled (h : s.Kept count log first last) (hcap : StaticAssert count)
    (hcount : count < 2 ^ 64) (hcounts : (s.queue.ring .node).Counts count) {id : UInt32}
    (hp : s.processes p = .pushAppending (.swapNode id (.ofNat (last .node))))
    (hring : q.ring .node = (s.queue.ring .node).setNode (.ofNat (last .node))
      (word (.ofNat (last .node)) id)) (hnodes : q.nodes = s.queue.nodes)
    (hordered : (⟨q, Function.update s.processes p
      (.pushAppending (.advanceHead (.ofNat (last .node))))⟩ : System ι).Ordered count first' last')
    (hlast : last' .node = last .node + 1) (hfirst : first' .node = first .node) :
    (⟨q, Function.update s.processes p
      (.pushAppending (.advanceHead (.ofNat (last .node))))⟩ : System ι).Kept count
        (log.addFill p (some (.ofNat (last .node)))) first' last' := by
  have hfresh := h.fresh (h.last_lt hcap hcounts)
  have hwindow := h.ordered.window .node
  have hhead := hwindow.first_le_head
  have hle := hwindow.head_le
  have hroom := (hordered.window .node).last_le
  rw [hlast, hfirst] at hroom
  have hself := h.noted p
  rw [hp] at hself
  have hmem : ∀ e ∈ log.fills, e ∈ log.fills ++ [(.ofNat (last .node), log.element p)] :=
    fun e he => List.mem_append_left _ he
  have hwords : ∀ k, first .node ≤ k → k ≤ last .node → (q.ring .node).node (.ofNat k) =
      if k = last .node then word (.ofNat (last .node)) id
      else (s.queue.ring .node).node (.ofNat k) := by
    intro k hge hkle
    rw [hring, LFRing.node_setNode hcap hcount hwindow.count_eq (first .node) (by omega) hge
      (by omega) (by omega)]
  have hnumber : (UInt64.ofNat (last .node), log.element p).1 = .ofNat log.fills.length := by
    rw [h.length]
  refine ⟨hordered, ?_,
    forall_getElem_concat (P := fun k (e : UInt64 × List UInt8) => e.1 = .ofNat k) h.numbers hnumber,
    forall_getElem_concat (P := fun k (e : UInt64 × List UInt8) => first' .node ≤ k →
      q.nodes (wordId ((q.ring .node).node (.ofNat k))).toNat = e.2) (fun k hk hge => ?_)
      fun hge => ?_, ?_, h.numbered.addFill p hfresh, ?_,
    one_reporter_update h.one_reporter fun p' _ n hn => ?_⟩
  · rw [Log.addFill, List.length_append, h.length, hlast]
    rfl
  · have hlt : k < last .node := h.length ▸ hk
    rw [hfirst] at hge
    rw [hnodes, hwords k hge hlt.le, if_neg hlt.ne]
    exact h.stored k hk hge
  · rw [hfirst] at hge
    rw [hnodes, hwords _ hge h.length.le, if_pos h.length, wordId_word]
    exact hself.1 id rfl
  · refine (Function.forall_update_iff s.processes (fun p' x => x.Noted q.nodes
      (log.fills ++ [(.ofNat (last .node), log.element p)]) (log.element p')
      ((log.addFill p (some (.ofNat (last .node)))).slot p'))).mpr ⟨?_, fun p' hp' => ?_⟩
    · refine ⟨fun id' hid' => (by cases hid'), fun n hn => ?_⟩
      cases hn
      exact ⟨Function.update_self _ _ _, List.mem_concat_self⟩
    · have hslot : (log.addFill p (some (.ofNat (last .node)))).slot p' = log.slot p' :=
        Function.update_of_ne hp' _ _
      rw [hslot]
      exact (h.noted p').mono (fun id' _ => by rw [hnodes]) hmem
  · refine (Function.forall_update_iff s.processes
      (fun _ x => ∀ n, x.reporting = some n → n ∉ log.pushed.map Prod.fst)).mpr
      ⟨fun n hn hm => ?_, fun p' _ => h.unreported p'⟩
    cases hn
    obtain ⟨r, hr, hnum⟩ := List.mem_map.mp hm
    exact hfresh (hnum ▸ List.mem_map_of_mem (h.numbered.pushed r hr))
  · cases hn
    exact h.not_reporting hfresh p'

omit [DecidableEq ι] in
theorem Moves.last_eq {turn : Turn ι} (h : s.Moves turn first last first' last') {name : RingName}
    (hnone : s.fills name turn = none) : last' name = last name := by
  rcases h.fills name with ⟨-, heq⟩ | ⟨hsome, -⟩
  · exact heq
  · rw [hnone] at hsome
    cases hsome

omit [DecidableEq ι] in
theorem Moves.first_eq {turn : Turn ι} (h : s.Moves turn first last first' last') {name : RingName}
    (hnone : s.empties name turn = none) : first' name = first name := by
  rcases h.empties name with ⟨-, heq⟩ | ⟨hsome, -⟩
  · exact heq
  · rw [hnone] at hsome
    cases hsome

omit [DecidableEq ι] in
theorem Moves.first_le {turn : Turn ι} (h : s.Moves turn first last first' last')
    (name : RingName) : first name ≤ first' name := by
  rcases h.empties name with ⟨-, heq⟩ | ⟨-, heq, -⟩
  · exact heq.ge
  · exact heq.symm ▸ Nat.le_succ _

omit [DecidableEq ι] in
theorem Kept.pop_words (h : s.Kept count log first last) (hcap : StaticAssert count)
    (hcount : count < 2 ^ 64) {call : Popping} {fails : Bool}
    (hpop : (s.processes p).popping = some (.node, call))
    (hmoves : s.Moves (.access p fails) first last first' last') :
    ∀ k, first' .node ≤ k → k < last .node →
      ((s.queue.ring .node).pop fails call).1.node (.ofNat k) =
        (s.queue.ring .node).node (.ofNat k) := by
  intro k hge hlt
  have hwindow := h.ordered.window .node
  have hmove := hmoves.empties .node
  rw [empties_of_popping hpop, if_pos rfl] at hmove
  rcases hmove with ⟨hnone, -⟩ | ⟨hsome, heq, -⟩
  · exact (LFRing.pop_of_not_empties hnone).1 _
  · have hround := hwindow.last_le
    rw [(LFRing.empties_eq_some hsome).2]
    dsimp only
    rw [LFRing.node_setNode hcap hcount hwindow.count_eq (first .node) le_rfl (by omega)
      (by have := Nat.pos_of_ne_zero hcap.1; omega) (by omega), if_neg (by omega)]

omit [DecidableEq ι] in
theorem Kept.pop_takes (h : s.Kept count log first last) {call call' : Popping} {fails : Bool}
    (hpop : (s.processes p).popping = some (.node, call))
    (hmoves : s.Moves (.access p fails) first last first' last')
    (hrun : ((s.queue.ring .node).pop fails call).2 = .running call') {n : UInt64} {id : UInt32}
    (hemptied : call'.emptied = some (n, id)) :
    (s.queue.ring .node).empties fails call = some n ∧
      (n, s.queue.nodes id.toNat) ∈ log.fills := by
  have hmove := hmoves.empties .node
  rw [empties_of_popping hpop, if_pos rfl] at hmove
  rcases hmove with ⟨hnone, -⟩ | ⟨hsome, -, hlt⟩
  · rw [(LFRing.pop_of_not_empties hnone).2 call' hrun] at hemptied
    cases hemptied
  · rw [(LFRing.empties_eq_some hsome).2] at hrun
    cases hrun
    cases hemptied
    have hk : first .node < log.fills.length := h.length.symm ▸ hlt
    refine ⟨hsome, List.mem_iff_getElem.mpr ⟨first .node, hk, ?_⟩⟩
    exact Prod.ext (h.numbers _ hk) (h.stored _ hk le_rfl).symm

omit [DecidableEq ι] in
theorem Kept.same (h : s.Kept count log first last) (hordered : s.Ordered count first' last')
    (hfirst : first' .node = first .node) (hlast : last' .node = last .node) :
    s.Kept count log first' last' := by
  refine ⟨hordered, h.length.trans hlast.symm, h.numbers, ?_, h.noted, h.numbered, h.unreported,
    h.one_reporter⟩
  rw [hfirst]
  exact h.stored

/-- `LFQueue_push` reports the number of the slot that it has filled. -/
theorem Kept.reported (h : s.Kept count log first last) {n : UInt64}
    (hp : s.processes p = .pushAppending (.advanceHead n)) (hnodes : q.nodes = s.queue.nodes)
    (hwords : ∀ n, (q.ring .node).node n = (s.queue.ring .node).node n) {out : Option Returned}
    (hordered : (⟨q, Function.update s.processes p (.idle out)⟩ : System ι).Ordered count
      first' last') (hfirst : first .node ≤ first' .node) (hlast : last' .node = last .node) :
    (⟨q, Function.update s.processes p (.idle out)⟩ : System ι).Kept count
      { log.addReturn p n with pushed := log.pushed ++ [(n, log.element p)] } first' last' := by
  have hself := h.noted p
  rw [hp] at hself
  obtain ⟨hslot, hfill⟩ := hself.2 n rfl
  have hreporting : (s.processes p).reporting = some n := by rw [hp]; rfl
  refine h.beside ⟨rfl, fun _ _ => rfl, fun _ _ => rfl⟩ hordered hlast hfirst
    (fun k _ _ => hwords _) (fun _ _ _ _ => by rw [hnodes]) trivial ?_ rfl fun p' hp' n' hn' => ?_
  · refine ⟨(h.numbered.addReturn hslot).returns, h.numbered.fills_distinct, ?_, fun r hr => ?_,
      h.numbered.popped⟩
    · dsimp only
      rw [List.map_append, List.nodup_append]
      refine ⟨h.numbered.pushed_distinct, List.nodup_singleton _, fun m hm m' hm' heq => ?_⟩
      rw [List.map_singleton, List.mem_singleton] at hm'
      subst heq hm'
      exact h.unreported p _ hreporting hm
    · rcases List.mem_append.mp hr with hr | hr
      · exact h.numbered.pushed r hr
      · rw [List.mem_singleton.mp hr]
        exact hfill
  · dsimp only
    rw [List.map_append, List.mem_append, List.map_singleton, List.mem_singleton]
    rintro (hm | rfl)
    · exact h.unreported p' n' hn' hm
    · exact hp' (h.one_reporter p' p _ hn' hreporting)

theorem Kept.appended (h : s.Kept count log first last) (hcap : StaticAssert count)
    (hcount : count < 2 ^ 64) (hcounts : (s.queue.ring .node).Counts count) {call : Pushing}
    {fails : Bool} (hp : s.processes p = .pushAppending call)
    (hordered : (s.step (.access p fails)).Ordered count first' last')
    (hmoves : s.Moves (.access p fails) first last first' last')
    (hover : s.overtaken (.access p fails) = false) :
    (s.step (.access p fails)).Kept count (log.step s (.access p fails)) first' last' := by
  have hnoted := h.noted p
  have hpush : (s.processes p).pushing = some (.node, call) := by rw [hp]; rfl
  have hfirst : first' .node = first .node :=
    hmoves.first_eq (empties_eq_none (by rw [hp]; rfl) fails _)
  have hmove := hmoves.fills .node
  rw [fills_of_pushing hpush, if_pos rfl] at hmove
  rw [hp] at hnoted
  simp only [System.step, Log.step, overtaken, hp, LFQueue.access] at hordered hover ⊢
  cases hrun : ((s.queue.ring .node).push fails call).2 with
  | running call' =>
    rw [hrun] at hordered
    rcases hmove with ⟨hnone, hlast⟩ | ⟨hsome, hlast⟩
    · obtain ⟨hwords, hnext⟩ := LFRing.push_of_not_fills hnone
      obtain ⟨hfilled, hheld⟩ := hnext call' hrun
      simp only [hnone]
      refine h.aside none hordered hlast hfirst.ge (fun k _ _ => hwords _) rfl
        ⟨fun id hid => hnoted.1 id (hheld ▸ hid), fun n hn => ?_⟩ hfilled
      rw [hfilled] at hn
      cases hn
    · obtain ⟨id, rfl, hstep⟩ := LFRing.fills_eq_some hsome
      rw [hstep] at hrun
      cases hrun
      simp only [hsome]
      refine h.filled hcap hcount hcounts hp ?_ rfl hordered hlast hfirst
      rw [hstep]
      rfl
  | returned seq =>
    obtain ⟨n, rfl, hiff⟩ := LFRing.push_returned hrun
    have hhead : (s.queue.ring .node).headSeq = n := by simpa [Pushing.filled] using hover
    obtain rfl := hiff.mpr hhead
    have hlast : last' .node = last .node := by
      rcases hmove with ⟨-, hlast⟩ | ⟨hsome, -⟩
      · exact hlast
      · cases hsome
    rw [hrun] at hordered
    have hwords := (LFRing.push_of_not_fills
      (show (s.queue.ring .node).fills fails (.advanceHead seq) = none from rfl)).1
    refine h.reported (q := s.queue.setRing .node
      ((s.queue.ring .node).push fails (.advanceHead seq)).1) hp rfl hwords hordered hfirst.ge hlast

theorem Kept.taken (h : s.Kept count log first last) (hcap : StaticAssert count)
    (hcount : count < 2 ^ 64) {call : Popping} {fails : Bool} (hp : s.processes p = .popTaking call)
    (hordered : (s.step (.access p fails)).Ordered count first' last')
    (hmoves : s.Moves (.access p fails) first last first' last')
    (hover : s.overtaken (.access p fails) = false) :
    (s.step (.access p fails)).Kept count (log.step s (.access p fails)) first' last' := by
  have hnoted := h.noted p
  have hpop : (s.processes p).popping = some (.node, call) := by rw [hp]; rfl
  have hlast : last' .node = last .node :=
    hmoves.last_eq (fills_eq_none (by rw [hp]; rfl) fails _)
  have hwords := h.pop_words hcap hcount hpop hmoves
  rw [hp] at hnoted
  simp only [System.step, Log.step, overtaken, hp, LFQueue.access] at hordered hover ⊢
  cases hrun : ((s.queue.ring .node).pop fails call).2 with
  | running call' =>
    rw [hrun] at hordered
    refine h.aside _ hordered hlast (hmoves.first_le .node) hwords rfl (fun n id hemptied => ?_) rfl
    obtain ⟨hsome, hfill⟩ := h.pop_takes hpop hmoves hrun hemptied
    rw [hsome]
    exact ⟨Function.update_self _ _ _, hfill⟩
  | returned value =>
    rw [hrun] at hordered
    by_cases hvalid : value.1 = invalidId
    · have hempty : LFQueue.afterPop .popTaking .popReading .popEntered (.returned value) =
          .popEntered := if_neg (not_not.mpr hvalid)
      rw [hempty] at hordered ⊢
      simp only [if_pos hvalid]
      exact h.aside none hordered hlast (hmoves.first_le .node) hwords rfl trivial rfl
    · obtain ⟨n, rfl, hiff⟩ := LFRing.pop_returned hrun hvalid
      have htail : (s.queue.ring .node).tailSeq = n := by simpa [Popping.emptied] using hover
      obtain rfl := hiff.mpr htail
      obtain ⟨hslot, hfill⟩ := hnoted _ _ rfl
      have hgot : LFQueue.afterPop .popTaking .popReading .popEntered (.returned value) =
          .popReading value.1 value.2 := if_pos hvalid
      rw [hgot] at hordered ⊢
      simp only [if_neg hvalid]
      exact h.beside ⟨rfl, fun _ _ => rfl, fun _ _ => rfl⟩ hordered hlast (hmoves.first_le .node)
        hwords (fun _ _ _ _ => rfl) hfill (h.numbered.addReturn hslot) rfl
        fun p' _ => h.unreported p'

theorem Kept.returned (h : s.Kept count log first last) {buf : List UInt8} {seq : UInt64}
    {call : Pushing} {fails : Bool} (hp : s.processes p = .popReturning buf seq call)
    (hordered : (s.step (.access p fails)).Ordered count first' last')
    (hmoves : s.Moves (.access p fails) first last first' last')
    (hover : s.overtaken (.access p fails) = false) :
    (s.step (.access p fails)).Kept count (log.step s (.access p fails)) first' last' := by
  have hnoted := h.noted p
  have hpush : (s.processes p).pushing = some (.resc, call) := by rw [hp]; rfl
  have hlast : last' .node = last .node :=
    hmoves.last_eq ((fills_of_pushing hpush fails .node).trans (if_neg (by decide)))
  have hfirst := hmoves.first_le .node
  rw [hp] at hnoted
  obtain ⟨hfill, hslot⟩ := hnoted
  simp only [System.step, Log.step, overtaken, hp, LFQueue.access] at hordered hover ⊢
  cases hrun : ((s.queue.ring .resc).push fails call).2 with
  | running call' =>
    rw [hrun] at hordered
    cases hfills : (s.queue.ring .resc).fills fails call with
    | none =>
      have hnone := ((LFRing.push_of_not_fills hfills).2 call' hrun).1
      refine h.aside none hordered hlast hfirst (fun _ _ _ => rfl) rfl ⟨hfill, fun m hm => ?_⟩ rfl
      rw [hnone] at hm
      cases hm
    | some n =>
      obtain ⟨id, rfl, hstep⟩ := LFRing.fills_eq_some hfills
      rw [hstep] at hrun
      cases hrun
      dsimp only
      refine h.aside (some n) hordered hlast hfirst (fun _ _ _ => rfl) rfl
        ⟨hfill, fun m hm => ?_⟩ rfl
      cases hm
      exact Function.update_self _ _ _
  | returned value =>
    rw [hrun] at hordered
    obtain ⟨n, rfl, hiff⟩ := LFRing.push_returned hrun
    have hhead : (s.queue.ring .resc).headSeq = n := by simpa [Pushing.filled] using hover
    obtain rfl := hiff.mpr hhead
    have hreturn := h.numbered.addReturn (hslot _ rfl)
    refine h.beside ⟨rfl, fun _ _ => rfl, fun _ _ => rfl⟩ hordered hlast hfirst (fun _ _ _ => rfl)
      (fun _ _ _ _ => rfl) trivial ?_ rfl fun p' _ => h.unreported p'
    refine ⟨hreturn.returns, hreturn.fills_distinct, hreturn.pushed_distinct, hreturn.pushed,
      fun r hr => ?_⟩
    rcases List.mem_append.mp hr with hr | hr
    · exact h.numbered.popped r hr
    · rw [List.mem_singleton.mp hr]
      exact hfill

omit [DecidableEq ι] in
theorem of_afterPop {P : Process → Prop} {running : Popping → Process}
    {got : UInt32 → UInt64 → Process} {empty : Process} (hrunning : ∀ call, P (running call))
    (hgot : ∀ id n, P (got id n)) (hempty : P empty)
    (progress : Progress Popping (UInt32 × UInt64)) :
    P (LFQueue.afterPop running got empty progress) := by
  cases progress with
  | running call => exact hrunning call
  | returned value =>
    simp only [LFQueue.afterPop]
    split_ifs
    · exact hgot value.1 value.2
    · exact hempty

theorem Kept.written (h : s.Kept count log first last) (hone : s.OneHolder count)
    {buf : List UInt8} {id : UInt32} {fails : Bool} (hp : s.processes p = .pushWriting buf id)
    (hordered : (s.step (.access p fails)).Ordered count first' last')
    (hmoves : s.Moves (.access p fails) first last first' last') :
    (s.step (.access p fails)).Kept count (log.step s (.access p fails)) first' last' := by
  have hnoted := h.noted p
  have hheld : s.content (.held p) = some id := by rw [content, hp]; rfl
  have hlast : last' .node = last .node :=
    hmoves.last_eq (fills_eq_none (by rw [hp]; rfl) fails _)
  rw [hp] at hnoted
  simp only [System.step, Log.step, hp, LFQueue.access] at hordered ⊢
  refine h.beside (.refl p log) hordered hlast (hmoves.first_le .node) (fun _ _ _ => rfl)
    (fun place id' hplace hid' => ?_) ⟨fun id' hid' => ?_, fun n hn => by cases hn⟩ h.numbered rfl
    fun p' _ => h.unreported p'
  · refine Function.update_of_ne (fun heq => hplace ?_) _ _
    obtain rfl := UInt32.toNat_inj.mp heq
    exact hone.slot_inj hid' hheld
  · cases hid'
    exact (Function.update_self _ _ _).trans hnoted.symm

theorem Kept.called (h : s.Kept count log first last) {last₀ : Option Returned}
    (hp : s.processes p = .idle last₀) (call : Call)
    (hordered : (s.step (.call p call)).Ordered count first' last')
    (hmoves : s.Moves (.call p call) first last first' last') :
    (s.step (.call p call)).Kept count (log.step s (.call p call)) first' last' := by
  have hfirst := hmoves.first_le .node
  have hlast : last' .node = last .node := hmoves.last_eq rfl
  simp only [System.step, Log.step, hp] at hordered ⊢
  cases call with
  | push buf =>
    have hbeside : Beside p log { log with element := Function.update log.element p buf } :=
      ⟨rfl, fun _ hp' => Function.update_of_ne hp' _ _, fun _ _ => rfl⟩
    simp only [LFQueue.enter] at hordered ⊢
    split_ifs at hordered ⊢
    · exact h.beside hbeside hordered hlast hfirst (fun _ _ _ => rfl) (fun _ _ _ _ => rfl) trivial
        ⟨h.numbered.returns, h.numbered.fills_distinct, h.numbered.pushed_distinct,
          h.numbered.pushed, h.numbered.popped⟩ rfl fun p' _ => h.unreported p'
    · exact h.beside hbeside hordered hlast hfirst (fun _ _ _ => rfl) (fun _ _ _ _ => rfl)
        (Function.update_self _ _ _)
        ⟨h.numbered.returns, h.numbered.fills_distinct, h.numbered.pushed_distinct,
          h.numbered.pushed, h.numbered.popped⟩ rfl fun p' _ => h.unreported p'
  | pop =>
    exact h.aside none hordered hlast hfirst (fun _ _ _ => rfl) rfl trivial rfl

/-- A turn keeps the log and the queue together, if no call is overtaken in it. -/
theorem Kept.step (h : s.Kept count log first last) (hone : s.OneHolder count)
    (hcap : StaticAssert count) (hcount : count ≤ 2 ^ 31)
    (hcounts : ∀ name, (s.queue.ring name).Counts count) {turn : Turn ι} (hturn : s.InTurn turn)
    (hover : s.overtaken turn = false) :
    ∃ first' last', (s.step turn).Kept count (log.step s turn) first' last' := by
  have hlt : count < 2 ^ 64 := by omega
  obtain ⟨first', last', hordered, hmoves⟩ := h.ordered.step hone hcap hcount hcounts hturn
  refine ⟨first', last', ?_⟩
  cases turn with
  | setPause pause =>
    have hsame : first' .node = first .node := hmoves.first_eq rfl
    refine ⟨hordered, h.length.trans (hmoves.last_eq rfl).symm, h.numbers, ?_, h.noted, h.numbered,
      h.unreported, h.one_reporter⟩
    rw [hsame]
    exact h.stored
  | call p call =>
    cases hp : s.processes p with
    | idle last₀ => exact h.called hp call hordered hmoves
    | _ =>
      simp only [System.step, Log.step, hp] at hordered ⊢
      exact h.same hordered (hmoves.first_eq rfl) (hmoves.last_eq rfl)
  | access p fails =>
    have hfirst := hmoves.first_le .node
    have hnoted := h.noted p
    have hlast : (s.processes p).pushing = none → last' .node = last .node :=
      fun hpush => hmoves.last_eq (fills_eq_none hpush fails _)
    cases hp : s.processes p with
    | pushAppending call => exact h.appended hcap hlt (hcounts .node) hp hordered hmoves hover
    | popTaking call => exact h.taken hcap hlt hp hordered hmoves hover
    | popReturning buf seq call => exact h.returned hp hordered hmoves hover
    | pushWriting buf id => exact h.written hone hp hordered hmoves
    | idle last₀ =>
      rw [hp] at hlast
      simp only [System.step, Log.step, hp, LFQueue.access] at hordered ⊢
      exact h.aside none hordered (hlast rfl) hfirst (fun _ _ _ => rfl) rfl trivial rfl
    | pushEntered buf =>
      rw [hp] at hlast hnoted
      simp only [System.step, Log.step, hp, LFQueue.access] at hordered ⊢
      split_ifs at hordered ⊢
      · exact h.aside none hordered (hlast rfl) hfirst (fun _ _ _ => rfl) rfl trivial rfl
      · exact h.aside none hordered (hlast rfl) hfirst (fun _ _ _ => rfl) rfl hnoted rfl
    | pushTaking buf call =>
      rw [hp] at hlast hnoted
      simp only [System.step, Log.step, hp, LFQueue.access] at hordered ⊢
      refine h.aside _ hordered (hlast rfl) hfirst (fun _ _ _ => rfl) rfl ?_ ?_
      · apply of_afterPop (P := Process.Noted _ _ _ _)
        · exact fun _ => hnoted
        · exact fun _ _ => hnoted
        · split_ifs
          · exact hnoted
          · trivial
      · refine of_afterPop (P := fun x => x.reporting = none) (fun _ => rfl) (fun _ _ => rfl) ?_ _
        split_ifs <;> rfl
    | pushEvicting buf call =>
      have hpop : (s.processes p).popping = some (.node, call) := by rw [hp]; rfl
      have hwords := h.pop_words hcap hlt hpop hmoves
      rw [hp] at hlast hnoted
      simp only [System.step, Log.step, hp, LFQueue.access] at hordered ⊢
      refine h.aside _ hordered (hlast rfl) hfirst hwords rfl ?_ ?_
      · apply of_afterPop (P := Process.Noted _ _ _ _)
        · exact fun _ => hnoted
        · exact fun _ _ => hnoted
        · trivial
      · exact of_afterPop (P := fun x => x.reporting = none) (fun _ => rfl) (fun _ _ => rfl) rfl _
    | popEntered =>
      rw [hp] at hlast
      simp only [System.step, Log.step, hp, LFQueue.access] at hordered ⊢
      split_ifs at hordered ⊢
      · exact h.aside none hordered (hlast rfl) hfirst (fun _ _ _ => rfl) rfl trivial rfl
      · exact h.aside none hordered (hlast rfl) hfirst (fun _ _ _ => rfl) rfl
          (fun n id hid => by cases hid) rfl
    | popReading id seq =>
      rw [hp] at hlast hnoted
      simp only [System.step, Log.step, hp, LFQueue.access] at hordered ⊢
      exact h.aside none hordered (hlast rfl) hfirst (fun _ _ _ => rfl) rfl
        ⟨hnoted, fun m hm => by cases hm⟩ rfl

theorem Kept.run (h : s.Kept count log first last) (hone : s.OneHolder count) (htakes : s.Takes)
    (hcap : StaticAssert count) (hcount : count ≤ 2 ^ 31) (turns : List (Turn ι))
    (hturns : s.StaysInTurn count turns) : (Log.run s log turns).Numbered := by
  induction turns generalizing s log first last with
  | nil => exact h.numbered
  | cons turn turns ih =>
    obtain ⟨hcounts, hturn, hover, hrest⟩ := hturns
    obtain ⟨first', last', h'⟩ := h.step hone hcap hcount hcounts hturn hover
    exact ih h' (hone.step hcount htakes turn) (step_takes htakes turn) hrest

end Turns

theorem create_kept {k : ℕ} (hk : k < 32) (dataSize : UInt64) (overwrite : Bool) :
    (create (.ofNat (2 ^ k)) dataSize overwrite : System ι).Kept (2 ^ k) {} (fun _ => 0)
      fun name => if name = .resc then 2 ^ k else 0 where
  ordered := create_ordered hk dataSize overwrite
  length := rfl
  numbers := fun k hk => absurd hk (Nat.not_lt_zero k)
  stored := fun k hk => absurd hk (Nat.not_lt_zero k)
  noted := fun _ => trivial
  numbered := ⟨fun _ hr => absurd hr List.not_mem_nil, List.nodup_nil, List.nodup_nil,
    fun _ hr => absurd hr List.not_mem_nil, fun _ hr => absurd hr List.not_mem_nil⟩
  unreported := fun _ _ hn => by cases hn
  one_reporter := fun _ _ _ hn => by cases hn

/-- In every run without a call that is overtaken, the numbers identify the elements. -/
theorem numbers_identify_elements [DecidableEq ι] (count : UInt32) (dataSize : UInt64)
    (overwrite : Bool) (turns : List (Turn ι))
    (hturns : (create count dataSize overwrite : System ι).StaysInTurn
      (upperPowerOfTwo count).toNat turns) :
    (Log.run (create count dataSize overwrite : System ι) {} turns).Numbered := by
  obtain ⟨k, hk, hcount⟩ := upperPowerOfTwo_eq count
  rcases Nat.lt_or_eq_of_le hk with hlt | rfl
  · rw [Nat.mod_eq_of_lt (Nat.pow_lt_pow_right (by decide) hlt)] at hcount
    have hsame : (create count dataSize overwrite : System ι) =
        create (.ofNat (2 ^ k)) dataSize overwrite := by
      simp only [create, LFQueue.create, hcount, upperPowerOfTwo_two_pow hlt]
    rw [hsame, hcount] at hturns
    rw [hsame]
    refine (create_kept hlt dataSize overwrite).run (create_oneHolder hlt dataSize overwrite)
      (fun p name call hcall => by cases hcall) ?_ (two_pow_le hlt) turns hturns
    exact Nat.ne_zero_and_sub_one_eq_zero_iff_isPowerOfTwo.mpr ⟨k, rfl⟩
  · exact (create_blocked dataSize overwrite hcount).run turns

def pushThenPop : List (Turn Bool) :=
  [Turn.call true (.push [1]), Turn.call false .pop] ++ List.replicate 5 (Turn.access true false) ++
    List.replicate 3 (Turn.access false false) ++ List.replicate 6 (Turn.access true false) ++
    List.replicate 11 (Turn.access false false)

theorem numbers_identify_elements_pushThenPop :
    (Log.run (create 2 64 false : System Bool) {} pushThenPop).popped = [(0, [1])] ∧
      (Log.run (create 2 64 false : System Bool) {} pushThenPop).Numbered :=
  ⟨by decide +kernel, numbers_identify_elements 2 64 false pushThenPop (by decide +kernel)⟩

/-- Two processes push. The first one is overtaken after it has filled its slot, and reports the
number of a later one, which it then gets for its next element too. -/
def overtakenPush : List (Turn Bool) :=
  [Turn.call true (.push [1])] ++ List.replicate 10 (Turn.access true false) ++
    [Turn.call false (.push [2])] ++ List.replicate 20 (Turn.access false false) ++
    [Turn.access true false, Turn.call true (.push [3])] ++
    List.replicate 11 (Turn.access true false) ++
    [Turn.call false .pop] ++ List.replicate 11 (Turn.access false false)

theorem overtakenPush_misreports :
    (Log.run (create 4 64 false : System Bool) {} overtakenPush).pushed =
        [(1, [2]), (2, [1]), (2, [3])] ∧
      (Log.run (create 4 64 false : System Bool) {} overtakenPush).popped = [(0, [1])] ∧
      ¬ (Log.run (create 4 64 false : System Bool) {} overtakenPush).Numbered := by
  have hpushed : (Log.run (create 4 64 false : System Bool) {} overtakenPush).pushed =
      [(1, [2]), (2, [1]), (2, [3])] := by decide +kernel
  refine ⟨hpushed, by decide +kernel, fun h => ?_⟩
  have hdistinct := h.pushed_distinct
  rw [hpushed] at hdistinct
  exact absurd hdistinct (by decide)

end System

end LockfreeQueue
