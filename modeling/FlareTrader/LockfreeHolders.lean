import FlareTrader.LockfreeQueue

/-! Who holds the nodes of the lock-free queue. An exchange that succeeds hands one id on, from a
slot to a process or back; all other accesses leave the ids where they are. -/

namespace LockfreeQueue

open RingBuffer (StaticAssert)
open Custody (Rearranged handOver rearranged_handOver)

variable {ι : Type*}

namespace System

def content (s : System ι) : Place ι → Option UInt32
  | .slot name slot => (s.queue.ring name).idAt slot
  | .held p => (s.processes p).held

def Takes (s : System ι) : Prop :=
  ∀ p name call, (s.processes p).popping = some (name, call) → LFRing.Takes call

section Content

variable [DecidableEq ι] {s : System ι} {p : ι} {q : LFQueue} {process : Process}

theorem content_eq (hrings : ∀ name, (q.ring name).idAt = (s.queue.ring name).idAt)
    (hheld : process.held = (s.processes p).held) :
    (⟨q, Function.update s.processes p process⟩ : System ι).content = s.content := by
  funext place
  cases place with
  | slot name slot => exact congrFun (hrings name) slot
  | held p' =>
    simp only [content]
    by_cases hp : p' = p
    · rw [hp, Function.update_self, hheld]
    · rw [Function.update_of_ne hp]

theorem content_same {name : RingName} {ring : LFRing}
    (hring : q.ring = Function.update s.queue.ring name ring)
    (hids : ring.idAt = (s.queue.ring name).idAt) (hheld : process.held = (s.processes p).held) :
    (⟨q, Function.update s.processes p process⟩ : System ι).content = s.content := by
  apply content_eq _ hheld
  intro name'
  rw [hring]
  by_cases hname : name' = name
  · rw [hname, Function.update_self, hids]
  · rw [Function.update_of_ne hname]

theorem content_update {name : RingName} {ring : LFRing} {slot : ℕ} {id : Option UInt32}
    (hring : q.ring = Function.update s.queue.ring name ring)
    (hid : ring.idAt = Function.update (s.queue.ring name).idAt slot id) :
    (⟨q, Function.update s.processes p process⟩ : System ι).content =
      Function.update (Function.update s.content (.slot name slot) id) (.held p) process.held := by
  funext place
  cases place with
  | slot name' slot' =>
    have hne : (.slot name' slot' : Place ι) ≠ .held p := by simp
    rw [Function.update_of_ne hne]
    simp only [content, hring]
    by_cases hname : name' = name
    · subst hname
      rw [Function.update_self, hid]
      by_cases hslot : slot' = slot
      · rw [hslot, Function.update_self, Function.update_self]
      · rw [Function.update_of_ne hslot, Function.update_of_ne (by simp [hslot])]
        rfl
    · rw [Function.update_of_ne hname, Function.update_of_ne (by simp [hname])]
      rfl
  | held p' =>
    by_cases hp : p' = p
    · rw [hp, Function.update_self]
      simp only [content, Function.update_self]
    · rw [Function.update_of_ne (by simp [hp]), Function.update_of_ne (by simp)]
      simp only [content, Function.update_of_ne hp]

/-- A turn hands an id on or leaves all ids where they are. -/
theorem step_rearranged (htakes : s.Takes)
    (hvalid : ∀ p id, s.content (.held p) = some id → id ≠ invalidId) (turn : Turn ι) :
    Rearranged s.content (s.step turn).content := by
  cases turn with
  | call p call =>
    simp only [step]
    split
    · next last hidle =>
      have hheld : (s.queue.enter call).held = (s.processes p).held := by
        rw [hidle]
        cases call with
        | push buf =>
          simp only [LFQueue.enter]
          split_ifs <;> rfl
        | pop => rfl
      rw [content_eq (fun _ => rfl) hheld]
      exact .refl _
    · exact .refl _
  | setPause pause =>
    have hsame : (s.step (.setPause pause)).content = s.content := by
      funext place
      cases place with
      | slot name slot => cases name <;> rfl
      | held p => rfl
    rw [hsame]
    exact .refl _
  | access p fails =>
    rcases s.queue.access_cases fails (s.processes p) with ⟨-, -, hrings, hheld, -⟩ |
      ⟨name, call, hpop, hcall, hrings, hafter⟩ | ⟨name, call, -, hcall, hrings, hafter⟩
    · rw [step, content_eq (fun name => by rw [hrings]) hheld]
      exact .refl _
    · rcases LFRing.pop_ids fails (s.queue.ring name) call (htakes p name call hpop) with
        ⟨hids, hheld⟩ | ⟨slot, hnone, hheld, hids⟩
      · rw [step, content_same hrings hids (by rw [hafter.held, hheld, hcall])]
        exact .refl _
      · rw [step, content_update hrings hids, hafter.held, hheld]
        exact rearranged_handOver (Place.slot name slot) (hcall.trans hnone)
    · rcases LFRing.push_ids fails (s.queue.ring name) call
          (fun id hid => hvalid p id (hcall.trans hid)) with
        ⟨hids, hheld⟩ | ⟨slot, hfree, hheld, hids⟩
      · rw [step, content_same hrings hids (by rw [hafter.held, hheld, hcall])]
        exact .refl _
      · have hne : (.slot name slot : Place ι) ≠ .held p := by simp
        rw [step, content_update hrings hids, hafter.held, hheld, Function.update_comm hne, ← hcall]
        exact rearranged_handOver (Place.held p) hfree

theorem step_takes (htakes : s.Takes) (turn : Turn ι) : (s.step turn).Takes := by
  have hupdate : ∀ (q : LFQueue) (p : ι) (process : Process),
      (∀ name call, process.popping = some (name, call) → LFRing.Takes call) →
      (⟨q, Function.update s.processes p process⟩ : System ι).Takes :=
    fun q p process hprocess => (Function.forall_update_iff s.processes
      fun _ x => ∀ name call, x.popping = some (name, call) → LFRing.Takes call).mpr
      ⟨hprocess, fun p' _ => htakes p'⟩
  have hfresh : ∀ process : Process, process.Fresh →
      ∀ name call, process.popping = some (name, call) → LFRing.Takes call := by
    intro process hprocess name call hpop
    rw [hprocess.popping name call hpop]
    trivial
  cases turn with
  | call p call =>
    simp only [step]
    split
    · refine hupdate _ p _ (hfresh _ ?_)
      cases call with
      | push buf =>
        simp only [LFQueue.enter]
        split_ifs
        · exact Process.fresh_of_none rfl rfl
        · exact Process.fresh_of_none rfl rfl
      | pop => exact Process.fresh_of_none rfl rfl
    · exact htakes
  | setPause pause => exact htakes
  | access p fails =>
    refine hupdate _ p _ ?_
    rcases s.queue.access_cases fails (s.processes p) with ⟨-, -, -, -, hnew⟩ |
      ⟨name, call, hpop, -, -, hafter⟩ | ⟨name, call, -, -, -, hafter⟩
    · exact hfresh _ hnew
    · rcases hafter.goesOn with hnew | ⟨call', hrun, hpop', -⟩
      · exact hfresh _ hnew
      · intro name' call'' hcall
        rw [hpop'] at hcall
        cases hcall
        exact LFRing.pop_takes (htakes p name call hpop) hrun
    · rcases hafter.goesOn with hnew | ⟨call', -, -, hnone⟩
      · exact hfresh _ hnew
      · intro name' call'' hcall
        rw [hnone] at hcall
        cases hcall

end Content

/-- Every node is in one place: in a slot of one of the rings, or with one process. -/
structure OneHolder (count : ℕ) (s : System ι) : Prop where
  one_place : ∀ id : UInt32, id.toNat < count → ∃! place, s.content place = some id
  is_node : ∀ place id, s.content place = some id → id.toNat < count

variable {count : ℕ} {s : System ι}

theorem OneHolder.ne_invalid (h : s.OneHolder count) (hcount : count ≤ 2 ^ 31) {place : Place ι}
    {id : UInt32} (hid : s.content place = some id) : id ≠ invalidId := by
  rintro rfl
  have hlt := h.is_node place invalidId hid
  have hinvalid : invalidId.toNat = 2 ^ 32 - 1 := rfl
  omega

theorem OneHolder.slot_inj (h : s.OneHolder count) {place place' : Place ι} {id : UInt32}
    (hplace : s.content place = some id) (hplace' : s.content place' = some id) : place = place' :=
  (h.one_place id (h.is_node place id hplace)).unique hplace hplace'

theorem OneHolder.ncard_le (h : s.OneHolder count) (name : RingName) :
    {slot | (s.content (.slot name slot)).isSome}.ncard ≤ count := by
  have hnat : ∀ slot ∈ {slot | (s.content (.slot name slot)).isSome}, ∃ id,
      s.content (.slot name slot) = some id := fun slot hslot => Option.isSome_iff_exists.mp hslot
  have hcard : (Set.Iio count).ncard = count := by
    rw [← Finset.coe_Iio, Set.ncard_coe_finset, Nat.card_Iio]
  rw [← hcard]
  refine Set.ncard_le_ncard_of_injOn (fun slot => ((s.content (.slot name slot)).getD 0).toNat)
    (fun slot hslot => ?_) (fun slot hslot slot' hslot' heq => ?_) (Set.finite_Iio count)
  · obtain ⟨id, hid⟩ := hnat slot hslot
    rw [hid]
    exact h.is_node _ id hid
  · obtain ⟨id, hid⟩ := hnat slot hslot
    obtain ⟨id', hid'⟩ := hnat slot' hslot'
    dsimp only at heq
    rw [hid, hid'] at heq
    have hsame : id = id' := UInt32.toNat_inj.mp heq
    have hplace := h.slot_inj hid (hsame ▸ hid')
    cases hplace
    rfl

structure Ordered (count : ℕ) (first last : RingName → ℕ) (s : System ι) : Prop where
  window : ∀ name, (s.queue.ring name).Window count (first name) (last name)
  pops : ∀ p name call, (s.processes p).popping = some (name, call) →
    call.Fits (first name) (s.queue.ring name)
  pushes : ∀ p name call, (s.processes p).pushing = some (name, call) →
    call.Fits (last name) (s.queue.ring name)

/-- While a process holds an id, no ring is full. -/
theorem OneHolder.room (h : s.OneHolder count) (hcap : StaticAssert count)
    (hcount : count ≤ 2 ^ 31) {name : RingName} {first last : ℕ}
    (hwindow : (s.queue.ring name).Window count first last)
    (hcounts : (s.queue.ring name).Counts count) {p : ι} {id : UInt32}
    (hheld : s.content (.held p) = some id) : last < first + count := by
  by_contra hfull
  have hlt : count < 2 ^ 64 := by omega
  have hid : ∀ slot : Fin count, ∃ id, s.content (.slot name slot) = some id := by
    intro slot
    obtain ⟨n, hfirst, hround, hmod⟩ :=
      LFRing.exists_in_round (Nat.pos_of_ne_zero hcap.1) first slot
    obtain ⟨id', hid', hnode⟩ := hwindow.full n hfirst (by omega)
    have hlow : n < 2 ^ 64 := by
      have hhead := hwindow.first_le_head
      unfold LFRing.Counts at hcounts
      omega
    have hslot : (s.queue.ring name).slot (.ofNat n) = slot := by
      rw [LFRing.slot_ofNat hcap hlt hwindow.count_eq, LFRing.toNat_ofNat hlow, hmod,
        Nat.mod_eq_of_lt slot.isLt]
    refine ⟨id', ?_⟩
    rw [content, ← hslot]
    exact LFRing.idAt_slot hid' hnode
  choose ids hids using hid
  have hinj : Function.Injective fun slot : Fin count =>
      (⟨(ids slot).toNat, h.is_node _ _ (hids slot)⟩ : Fin count) := by
    intro slot slot' heq
    have hsame : ids slot = ids slot' := UInt32.toNat_inj.mp (Fin.mk.inj heq)
    have hplace := h.slot_inj (hids slot) (hsame ▸ hids slot')
    exact Fin.ext (Place.slot.inj hplace).2
  obtain ⟨slot, hslot⟩ := Finite.surjective_of_injective hinj ⟨id.toNat, h.is_node _ _ hheld⟩
  have hsame : ids slot = id := UInt32.toNat_inj.mp (Fin.mk.inj hslot)
  have hplace := h.slot_inj (hids slot) (hsame ▸ hheld)
  cases hplace

def fills (s : System ι) (name : RingName) : Turn ι → Option UInt64
  | .access p fails =>
    match (s.processes p).pushing with
    | some (name', call) => if name' = name then (s.queue.ring name).fills fails call else none
    | none => none
  | _ => none

def empties (s : System ι) (name : RingName) : Turn ι → Option UInt64
  | .access p fails =>
    match (s.processes p).popping with
    | some (name', call) => if name' = name then (s.queue.ring name).empties fails call else none
    | none => none
  | _ => none

structure InTurn (s : System ι) (turn : Turn ι) : Prop where
  fills : ∀ name, ∀ n ∈ s.fills name turn, (s.queue.ring name).headSeq = n
  empties : ∀ name, ∀ n ∈ s.empties name turn, (s.queue.ring name).tailSeq = n

structure Moves (s : System ι) (turn : Turn ι) (first last first' last' : RingName → ℕ) :
    Prop where
  fills : ∀ name, s.fills name turn = none ∧ last' name = last name ∨
    s.fills name turn = some (.ofNat (last name)) ∧ last' name = last name + 1
  empties : ∀ name, s.empties name turn = none ∧ first' name = first name ∨
    s.empties name turn = some (.ofNat (first name)) ∧ first' name = first name + 1 ∧
      first name < last name

def StaysBelow [DecidableEq ι] (count : ℕ) (s : System ι) : List (Turn ι) → Prop
  | [] => ∀ name, (s.queue.ring name).Below count
  | turn :: turns => (∀ name, (s.queue.ring name).Below count) ∧ StaysBelow count (s.step turn) turns

instance (count : ℕ) (s : System ι) : Decidable (∀ name, (s.queue.ring name).Below count) :=
  decidable_of_iff (s.queue.rescRing.headSeq.toNat + count ≤ 2 ^ 32 ∧
      s.queue.nodeRing.headSeq.toNat + count ≤ 2 ^ 32)
    ⟨fun h name => name.casesOn h.1 h.2, fun h => ⟨h .resc, h .node⟩⟩

instance decidableStaysBelow [DecidableEq ι] (count : ℕ) :
    ∀ (turns : List (Turn ι)) (s : System ι), Decidable (s.StaysBelow count turns)
  | [], s => inferInstanceAs (Decidable (∀ name, (s.queue.ring name).Below count))
  | turn :: turns, s =>
    have := decidableStaysBelow count turns (s.step turn)
    inferInstanceAs (Decidable (_ ∧ _))

section Steps

variable [DecidableEq ι] {first last : RingName → ℕ}

theorem OneHolder.step (h : s.OneHolder count) (hcount : count ≤ 2 ^ 31) (htakes : s.Takes)
    (turn : Turn ι) : (s.step turn).OneHolder count := by
  have hmoved := step_rearranged htakes (fun _ _ => h.ne_invalid hcount) turn
  refine ⟨fun id hid => hmoved.existsUnique (h.one_place id hid), fun place id hplace => ?_⟩
  obtain ⟨place', hplace'⟩ := hmoved.exists_place hplace
  exact h.is_node place' id hplace'

theorem Ordered.access (h : s.Ordered count first last) (name : RingName) {ring : LFRing}
    {first' last' : ℕ} {q : LFQueue} {p : ι} {process : Process}
    (hring : q.ring = Function.update s.queue.ring name ring)
    (hwindow : ring.Window count first' last')
    (hgrows : LFRing.Grows (first name) (last name) (s.queue.ring name) first' last' ring)
    (hpops : ∀ name' call, process.popping = some (name', call) → call = .loadTail {} ∨
      (name' = name ∧ call.Fits first' ring))
    (hpushes : ∀ name' call, process.pushing = some (name', call) →
      (∃ id, call = .loadHead id {}) ∨ (name' = name ∧ call.Fits last' ring)) :
    (⟨q, Function.update s.processes p process⟩ : System ι).Ordered count
      (Function.update first name first') (Function.update last name last') := by
  refine ⟨fun name' => ?_, fun p' name' call hcall => ?_, fun p' name' call hcall => ?_⟩
  · simp only [hring]
    by_cases hname : name' = name
    · rw [hname, Function.update_self, Function.update_self, Function.update_self]
      exact hwindow
    · rw [Function.update_of_ne hname, Function.update_of_ne hname, Function.update_of_ne hname]
      exact h.window name'
  · simp only [hring]
    dsimp only at hcall
    by_cases hp : p' = p
    · rw [hp, Function.update_self] at hcall
      rcases hpops name' call hcall with rfl | ⟨rfl, hfits⟩
      · trivial
      · rwa [Function.update_self, Function.update_self]
    · rw [Function.update_of_ne hp] at hcall
      have hold := h.pops p' name' call hcall
      by_cases hname : name' = name
      · subst hname
        rw [Function.update_self, Function.update_self]
        exact hold.mono hgrows hwindow
      · rwa [Function.update_of_ne hname, Function.update_of_ne hname]
  · simp only [hring]
    dsimp only at hcall
    by_cases hp : p' = p
    · rw [hp, Function.update_self] at hcall
      rcases hpushes name' call hcall with ⟨id, rfl⟩ | ⟨rfl, hfits⟩
      · trivial
      · rwa [Function.update_self, Function.update_self]
    · rw [Function.update_of_ne hp] at hcall
      have hold := h.pushes p' name' call hcall
      by_cases hname : name' = name
      · subst hname
        rw [Function.update_self, Function.update_self]
        exact hold.mono hgrows hwindow
      · rwa [Function.update_of_ne hname, Function.update_of_ne hname]

section Calls

variable {name : RingName} {ring : LFRing} {q : LFQueue} {p : ι} {process : Process}

theorem Ordered.popped {progress : Progress Popping (UInt32 × UInt64)} {first' : ℕ}
    (h : s.Ordered count first last) (hring : q.ring = Function.update s.queue.ring name ring)
    (hwindow : ring.Window count first' (last name))
    (hgrows : LFRing.Grows (first name) (last name) (s.queue.ring name) first' (last name) ring)
    (hafter : LFQueue.Popped name progress process)
    (hfits : ∀ call, progress = .running call → call.Fits first' ring) :
    (⟨q, Function.update s.processes p process⟩ : System ι).Ordered count
      (Function.update first name first') last := by
  rw [← Function.update_eq_self name last]
  apply h.access name hring hwindow hgrows
  · intro name' call' hcall
    rcases hafter.goesOn with hfresh | ⟨call, hrun, hnext, -⟩
    · exact Or.inl (hfresh.popping name' call' hcall)
    · rw [hnext] at hcall
      cases hcall
      exact Or.inr ⟨rfl, hfits _ hrun⟩
  · intro name' call' hcall
    rcases hafter.goesOn with hfresh | ⟨-, -, -, hnone⟩
    · exact Or.inl (hfresh.pushing name' call' hcall)
    · rw [hnone] at hcall
      cases hcall

theorem Ordered.pushed {progress : Progress Pushing UInt64} {last' : ℕ}
    (h : s.Ordered count first last) (hring : q.ring = Function.update s.queue.ring name ring)
    (hwindow : ring.Window count (first name) last')
    (hgrows : LFRing.Grows (first name) (last name) (s.queue.ring name) (first name) last' ring)
    (hafter : LFQueue.Pushed name progress process)
    (hfits : ∀ call, progress = .running call → call.Fits last' ring) :
    (⟨q, Function.update s.processes p process⟩ : System ι).Ordered count first
      (Function.update last name last') := by
  rw [← Function.update_eq_self name first]
  apply h.access name hring hwindow hgrows
  · intro name' call' hcall
    rcases hafter.goesOn with hfresh | ⟨-, -, -, hnone⟩
    · exact Or.inl (hfresh.popping name' call' hcall)
    · rw [hnone] at hcall
      cases hcall
  · intro name' call' hcall
    rcases hafter.goesOn with hfresh | ⟨call, hrun, hnext, -⟩
    · exact Or.inl (hfresh.pushing name' call' hcall)
    · rw [hnext] at hcall
      cases hcall
      exact Or.inr ⟨rfl, hfits _ hrun⟩

end Calls

omit [DecidableEq ι] in
theorem fills_of_pushing {p : ι} {name : RingName} {call : Pushing}
    (hpush : (s.processes p).pushing = some (name, call)) (fails : Bool) (name' : RingName) :
    s.fills name' (.access p fails) =
      if name = name' then (s.queue.ring name').fills fails call else none := by
  rw [fills, hpush]

omit [DecidableEq ι] in
theorem empties_of_popping {p : ι} {name : RingName} {call : Popping}
    (hpop : (s.processes p).popping = some (name, call)) (fails : Bool) (name' : RingName) :
    s.empties name' (.access p fails) =
      if name = name' then (s.queue.ring name').empties fails call else none := by
  rw [empties, hpop]

omit [DecidableEq ι] in
theorem fills_eq_none {p : ι} (hpush : (s.processes p).pushing = none) (fails : Bool)
    (name : RingName) : s.fills name (.access p fails) = none := by
  rw [fills, hpush]

omit [DecidableEq ι] in
theorem empties_eq_none {p : ι} (hpop : (s.processes p).popping = none) (fails : Bool)
    (name : RingName) : s.empties name (.access p fails) = none := by
  rw [empties, hpop]

omit [DecidableEq ι] in
theorem Moves.still {turn : Turn ι} (hfills : ∀ name, s.fills name turn = none)
    (hempties : ∀ name, s.empties name turn = none) : s.Moves turn first last first last :=
  ⟨fun name => Or.inl ⟨hfills name, rfl⟩, fun name => Or.inl ⟨hempties name, rfl⟩⟩

/-- A turn keeps the order of both rings, if what it fills and empties is in turn. -/
theorem Ordered.step (h : s.Ordered count first last) (hone : s.OneHolder count)
    (hcap : StaticAssert count) (hcount : count ≤ 2 ^ 31)
    (hcounts : ∀ name, (s.queue.ring name).Counts count) {turn : Turn ι} (hturn : s.InTurn turn) :
    ∃ first' last', (s.step turn).Ordered count first' last' ∧
      s.Moves turn first last first' last' := by
  have hlt : count < 2 ^ 64 := by omega
  have hsame : ∀ (q : LFQueue) (p : ι) (process : Process), q.ring = s.queue.ring →
      process.Fresh →
      (⟨q, Function.update s.processes p process⟩ : System ι).Ordered count first last := by
    intro q p process hring hfresh
    rw [← Function.update_eq_self .resc first, ← Function.update_eq_self .resc last]
    exact h.access .resc (hring.trans (Function.update_eq_self _ _).symm) (h.window .resc)
      (.refl _ _ _) (fun name call hcall => Or.inl (hfresh.popping name call hcall))
      fun name call hcall => Or.inl (hfresh.pushing name call hcall)
  cases turn with
  | call p call =>
    simp only [System.step]
    refine ⟨first, last, ?_, .still (fun _ => rfl) fun _ => rfl⟩
    split
    · refine hsame _ p _ rfl ?_
      cases call with
      | push buf =>
        simp only [LFQueue.enter]
        split_ifs
        · exact Process.fresh_of_none rfl rfl
        · exact Process.fresh_of_none rfl rfl
      | pop => exact Process.fresh_of_none rfl rfl
    · exact h
  | setPause pause =>
    refine ⟨first, last, ⟨fun name => ?_, fun p name call hcall => ?_, fun p name call hcall => ?_⟩,
      .still (fun _ => rfl) fun _ => rfl⟩
    · simp only [System.step, LFQueue.ring_pause]
      exact h.window name
    · simp only [System.step, LFQueue.ring_pause]
      exact h.pops p name call hcall
    · simp only [System.step, LFQueue.ring_pause]
      exact h.pushes p name call hcall
  | access p fails =>
    rcases s.queue.access_cases fails (s.processes p) with ⟨hpop, hpush, hring, -, hfresh⟩ |
      ⟨name, call, hpop, hheld, hring, hafter⟩ | ⟨name, call, hpush, hheld, hring, hafter⟩
    · exact ⟨first, last, hsame _ p _ hring hfresh,
        .still (fills_eq_none hpush fails) (empties_eq_none hpop fails)⟩
    · have hpush := (s.processes p).popping_or_pushing.resolve_left (by simp [hpop])
      have hempties := empties_of_popping hpop fails name
      rw [if_pos rfl] at hempties
      obtain ⟨first', hwindow, hgrows, hfits, hmoves⟩ := (h.window name).pop hcap hlt
        (hcounts name) (by omega) (h.pops p name call hpop)
        (fun seq hseq => hturn.empties name seq (hempties.trans hseq))
      rw [← hempties] at hmoves
      refine ⟨Function.update first name first', last, ?_,
        fun name' => Or.inl ⟨fills_eq_none hpush fails name', rfl⟩, fun name' => ?_⟩
      · exact h.popped hring hwindow hgrows hafter hfits
      · by_cases hname : name' = name
        · rw [hname, Function.update_self]
          exact hmoves
        · rw [Function.update_of_ne hname]
          exact Or.inl ⟨(empties_of_popping hpop fails name').trans (if_neg (Ne.symm hname)), rfl⟩
    · have hpop := (s.processes p).popping_or_pushing.resolve_right (by simp [hpush])
      have hfills := fills_of_pushing hpush fails name
      rw [if_pos rfl] at hfills
      have hroom : ∀ id, call.held = some id →
          id ≠ invalidId ∧ last name < first name + count := by
        intro id hid
        have hcontent : s.content (.held p) = some id := hheld.trans hid
        exact ⟨hone.ne_invalid hcount hcontent,
          hone.room hcap hcount (h.window name) (hcounts name) hcontent⟩
      obtain ⟨last', hwindow, hgrows, hfits, hmoves⟩ := (h.window name).push hcap hlt
        (hcounts name) (h.pushes p name call hpush) hroom
        (fun seq hseq => hturn.fills name seq (hfills.trans hseq))
      rw [← hfills] at hmoves
      refine ⟨first, Function.update last name last', ?_, fun name' => ?_,
        fun name' => Or.inl ⟨empties_eq_none hpop fails name', rfl⟩⟩
      · exact h.pushed hring hwindow hgrows hafter hfits
      · by_cases hname : name' = name
        · rw [hname, Function.update_self]
          exact hmoves
        · rw [Function.update_of_ne hname]
          exact Or.inl ⟨(fills_of_pushing hpush fails name').trans (if_neg (Ne.symm hname)), rfl⟩

omit [DecidableEq ι] in
/-- While the numbers fit into half a word, no old one is taken for the one now. -/
theorem Ordered.inTurn (h : s.Ordered count first last) (hcap : StaticAssert count)
    (hcount : count ≤ 2 ^ 31) (hbelow : ∀ name, (s.queue.ring name).Below count) (turn : Turn ι) :
    s.InTurn turn := by
  have hlt : count < 2 ^ 64 := by omega
  constructor
  · intro name n hn
    cases turn with
    | call p call => cases hn
    | setPause pause => cases hn
    | access p fails =>
      cases hpush : (s.processes p).pushing with
      | none =>
        rw [fills_eq_none hpush] at hn
        cases hn
      | some push =>
        rw [fills_of_pushing hpush] at hn
        split_ifs at hn with hname
        · subst hname
          exact (h.window _).fills_in_turn hcap hlt (hbelow _) (h.pushes p _ _ hpush) hn
        · cases hn
  · intro name n hn
    cases turn with
    | call p call => cases hn
    | setPause pause => cases hn
    | access p fails =>
      cases hpop : (s.processes p).popping with
      | none =>
        rw [empties_eq_none hpop] at hn
        cases hn
      | some pop =>
        rw [empties_of_popping hpop] at hn
        split_ifs at hn with hname
        · subst hname
          exact (h.window _).empties_in_turn hcap hlt (hbelow _) (h.pops p _ _ hpop) hn
        · cases hn

theorem Ordered.run (h : s.Ordered count first last) (hone : s.OneHolder count) (htakes : s.Takes)
    (hcap : StaticAssert count) (hcount : count ≤ 2 ^ 31) (turns : List (Turn ι))
    (hbelow : s.StaysBelow count turns) : ∃ first' last', (s.run turns).Ordered count first' last' := by
  induction turns generalizing s first last with
  | nil => exact ⟨first, last, h⟩
  | cons turn turns ih =>
    obtain ⟨first', last', h', -⟩ := h.step hone hcap hcount (fun name => (hbelow.1 name).counts)
      (h.inTurn hcap hcount hbelow.1 turn)
    exact ih h' (hone.step hcount htakes turn) (step_takes htakes turn) hbelow.2

theorem OneHolder.run (h : s.OneHolder count) (htakes : s.Takes) (hcount : count ≤ 2 ^ 31)
    (turns : List (Turn ι)) : (s.run turns).OneHolder count := by
  induction turns generalizing s with
  | nil => exact h
  | cons turn turns ih => exact ih (h.step hcount htakes turn) (step_takes htakes turn)

end Steps

section Created

variable {k : ℕ} (hk : k < 32) (dataSize : UInt64) (overwrite : Bool)

include hk

theorem upperPowerOfTwo_two_pow : (upperPowerOfTwo (.ofNat (2 ^ k))).toNat = 2 ^ k := by
  interval_cases k <;> rfl

theorem two_pow_le : 2 ^ k ≤ 2 ^ 31 := Nat.pow_le_pow_right (by decide) (by omega)

theorem create_content_resc (slot : ℕ) :
    (create (.ofNat (2 ^ k)) dataSize overwrite : System ι).content (.slot .resc slot) =
      if slot < 2 ^ k then some (.ofNat slot) else none := by
  have hbound := two_pow_le hk
  have hsize : UInt32.size = 2 ^ 32 := rfl
  simp only [content, create, LFQueue.create, upperPowerOfTwo_two_pow hk, LFQueue.ring, LFRing.init,
    LFRing.idAt]
  split_ifs with hslot
  · rw [wordId_word]
    refine LFRing.validId_eq_some.mpr ⟨fun heq => ?_, rfl⟩
    have hnat := congrArg UInt32.toNat heq
    have hinvalid : invalidId.toNat = 2 ^ 32 - 1 := rfl
    rw [UInt32.toNat_ofNat_of_lt' (by omega), hinvalid] at hnat
    omega
  · rw [wordId_word]
    rfl

omit hk in
theorem create_content_node (count : UInt32) (slot : ℕ) :
    (create count dataSize overwrite : System ι).content (.slot .node slot) = none := by
  simp only [content, create, LFQueue.create, LFQueue.ring, LFRing.init, LFRing.idAt,
    Nat.not_lt_zero, if_false, wordId_word]
  rfl

theorem create_oneHolder :
    (create (.ofNat (2 ^ k)) dataSize overwrite : System ι).OneHolder (2 ^ k) := by
  have hbound := two_pow_le hk
  have hsize : UInt32.size = 2 ^ 32 := rfl
  have hplace : ∀ place id,
      (create (.ofNat (2 ^ k)) dataSize overwrite : System ι).content place = some id →
      id.toNat < 2 ^ k ∧ place = .slot .resc id.toNat := by
    intro place id hid
    rcases place with ⟨name, slot⟩ | p
    · cases name with
      | resc =>
        rw [create_content_resc hk] at hid
        split_ifs at hid with hslot
        have hnat := UInt32.toNat_ofNat_of_lt' (show slot < UInt32.size by omega)
        rw [← Option.some.inj hid, hnat]
        exact ⟨hslot, rfl⟩
      | node =>
        rw [create_content_node] at hid
        cases hid
    · cases hid
  constructor
  · intro id hid
    refine ⟨.slot .resc id.toNat, ?_, fun place hother => (hplace place id hother).2⟩
    dsimp only
    rw [create_content_resc hk, if_pos hid, UInt32.ofNat_toNat]
  · exact fun place id hid => (hplace place id hid).1

theorem create_ordered : (create (.ofNat (2 ^ k)) dataSize overwrite : System ι).Ordered (2 ^ k)
    (fun _ => 0) fun name => if name = .resc then 2 ^ k else 0 := by
  have hcap : StaticAssert (2 ^ k) :=
    Nat.ne_zero_and_sub_one_eq_zero_iff_isPowerOfTwo.mpr ⟨k, rfl⟩
  refine ⟨fun name => ?_, fun p name call hcall => ?_, fun p name call hcall => ?_⟩
  · simp only [create, LFQueue.create, upperPowerOfTwo_two_pow hk]
    cases name with
    | resc => exact LFRing.window_init hcap (two_pow_le hk) le_rfl
    | node => exact LFRing.window_init hcap (two_pow_le hk) (Nat.zero_le _)
  · cases hcall
  · cases hcall

end Created

/-- In every interleaving each node is in one place, no ring has more than `count` of them,
and while numbers last, the ids of a ring are those of consecutive numbers, none passed over. -/
theorem nodes_have_one_holder [DecidableEq ι] (k : ℕ) (hk : k < 32) (dataSize : UInt64)
    (overwrite : Bool) (turns : List (Turn ι)) :
    let s : System ι := create (.ofNat (2 ^ k)) dataSize overwrite
    (s.run turns).OneHolder (2 ^ k) ∧
      (∀ name, {slot | ((s.run turns).content (.slot name slot)).isSome}.ncard ≤ 2 ^ k) ∧
      (s.StaysBelow (2 ^ k) turns → ∀ name, ∃ first last,
        ((s.run turns).queue.ring name).Window (2 ^ k) first last) := by
  intro s
  have htakes : s.Takes := fun p name call hcall => by cases hcall
  have hone : s.OneHolder (2 ^ k) := create_oneHolder hk dataSize overwrite
  have hrun := hone.run htakes (two_pow_le hk) turns
  refine ⟨hrun, hrun.ncard_le, fun hbelow name => ?_⟩
  have hcap : StaticAssert (2 ^ k) :=
    Nat.ne_zero_and_sub_one_eq_zero_iff_isPowerOfTwo.mpr ⟨k, rfl⟩
  obtain ⟨first, last, hordered⟩ := (create_ordered hk dataSize overwrite).run hone htakes hcap
    (two_pow_le hk) turns hbelow
  exact ⟨first name, last name, hordered.window name⟩

def pushMeetsPop : List (Turn Bool) :=
  [Turn.call true (.push [1]), Turn.call false .pop] ++ (List.replicate 9 (Turn.access true false)) ++
    (List.replicate 6 (Turn.access false false)) ++ (List.replicate 3 (Turn.access true true)) ++
    (List.replicate 9 (Turn.access false false))

theorem pushMeetsPop_one_holder :
    let s := (create 2 64 false : System Bool).run pushMeetsPop
    s.OneHolder 2 ∧ ∃ first last, (s.queue.ring .node).Window 2 first last := by
  have h := nodes_have_one_holder 1 (by decide) 64 false pushMeetsPop
  exact ⟨h.1, h.2.2 (by decide +kernel) .node⟩

end System

end LockfreeQueue
