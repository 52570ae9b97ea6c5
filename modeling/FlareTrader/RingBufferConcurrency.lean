import FlareTrader.RingBuffer

/-! One producer and one consumer of a ring buffer. Each takes its loads, buffer access
and store one by one, in any interleaving, and acts on the counter it has loaded. -/

namespace RingBuffer

variable {α : Type*} {capacity : ℕ}

def StaticAssert (capacity : ℕ) : Prop := capacity ≠ 0 ∧ capacity &&& (capacity - 1) = 0

instance (capacity : ℕ) : Decidable (StaticAssert capacity) :=
  inferInstanceAs (Decidable (_ ∧ _))

def slot (capacity : ℕ) (counter : UInt64) : ℕ := (counter &&& (.ofNat capacity - 1)).toNat

inductive Producer (α : Type*) where
  | idle
  | loadedHead (data : α) (curHead : UInt64)
  | hasRoom (data : α) (curHead : UInt64)
  | written (data : α) (curHead : UInt64)

inductive Consumer (α : Type*) where
  | idle
  | loadedTail (curTail : UInt64)
  | hasItem (curTail : UInt64)
  | taken (curTail : UInt64) (data : α)

structure State (α : Type*) (capacity : ℕ) where
  rb : RingBuffer α capacity
  producer : Producer α := .idle
  consumer : Consumer α := .idle
  accepted : List α := []
  obtained : List α := []

inductive Turn (α : Type*) where
  | producer (data : α)
  | consumer

namespace State

def produce (next : α) (s : State α capacity) : State α capacity :=
  match s.producer with
  | .idle => { s with producer := .loadedHead next s.rb.head }
  | .loadedHead data curHead =>
    if (curHead - s.rb.tail).toNat = capacity then { s with producer := .idle }
    else { s with producer := .hasRoom data curHead }
  | .hasRoom data curHead =>
    { s with
      rb := { s.rb with buffer := Function.update s.rb.buffer (slot capacity curHead) data }
      producer := .written data curHead }
  | .written data curHead =>
    { s with
      rb := { s.rb with head := curHead + 1 }
      producer := .idle
      accepted := s.accepted ++ [data] }

/-- The next step of `Get`. The move leaves `moved` of the element in its slot. -/
def consume (moved : α → α) (s : State α capacity) : State α capacity :=
  match s.consumer with
  | .idle => { s with consumer := .loadedTail s.rb.tail }
  | .loadedTail curTail =>
    if curTail = s.rb.head then { s with consumer := .idle }
    else { s with consumer := .hasItem curTail }
  | .hasItem curTail =>
    let data := s.rb.buffer (slot capacity curTail)
    { s with
      rb := { s.rb with buffer := Function.update s.rb.buffer (slot capacity curTail) (moved data) }
      consumer := .taken curTail data }
  | .taken curTail data =>
    { s with
      rb := { s.rb with tail := curTail + 1 }
      consumer := .idle
      obtained := s.obtained ++ [data] }

def step (moved : α → α) (s : State α capacity) : Turn α → State α capacity
  | .producer data => s.produce data
  | .consumer => s.consume moved

def run (moved : α → α) (s : State α capacity) (turns : List (Turn α)) : State α capacity :=
  turns.foldl (step moved) s

def reads (s : State α capacity) : ℕ :=
  match s.consumer with
  | .taken _ _ => s.obtained.length + 1
  | _ => s.obtained.length

end State

section Slot

theorem dvd_of_staticAssert (h : StaticAssert capacity) (hlt : capacity < 2 ^ 64) :
    capacity ∣ 2 ^ 64 := by
  obtain ⟨k, rfl⟩ := Nat.ne_zero_and_sub_one_eq_zero_iff_isPowerOfTwo.mp h
  exact Nat.pow_dvd_pow 2 ((Nat.pow_lt_pow_iff_right (by decide)).mp hlt).le

theorem slot_eq_index (h : StaticAssert capacity) (hlt : capacity < 2 ^ 64) (counter : UInt64) :
    slot capacity counter = index capacity counter := by
  have hone : (1 : UInt64).toNat = 1 := rfl
  have hmask : (UInt64.ofNat capacity - 1).toNat = capacity - 1 := by
    have hpos : 1 ≤ capacity := Nat.one_le_iff_ne_zero.mpr h.1
    have hle : (1 : UInt64) ≤ .ofNat capacity := by
      rw [UInt64.le_iff_toNat_le, UInt64.toNat_ofNat_of_lt' hlt, hone]
      exact hpos
    rw [UInt64.toNat_sub_of_le _ _ hle, UInt64.toNat_ofNat_of_lt' hlt, hone]
  rw [slot, index, UInt64.toNat_and, hmask]
  obtain ⟨k, rfl⟩ := Nat.ne_zero_and_sub_one_eq_zero_iff_isPowerOfTwo.mp h
  exact Nat.and_two_pow_sub_one_eq_mod _ k

theorem slot_ne (h : StaticAssert capacity) (hlt : capacity < 2 ^ 64) (start : UInt64) {i j : ℕ}
    (hij : i < j) (hroom : j < i + capacity) :
    slot capacity (start + .ofNat i) ≠ slot capacity (start + .ofNat j) := by
  have hdvd := dvd_of_staticAssert h hlt
  rw [slot_eq_index h hlt, slot_eq_index h hlt, index_add hdvd, index_add hdvd]
  intro heq
  have hmod : capacity ∣ j - i := by
    rw [← Nat.modEq_iff_dvd' hij.le]
    exact Nat.ModEq.add_left_cancel' start.toNat heq
  exact absurd (Nat.le_of_dvd (by omega) hmod) (by omega)

theorem counter_sub (start : UInt64) {m n : ℕ} (hle : m ≤ n) (hlt : n < m + 2 ^ 64) :
    (start + .ofNat n - (start + .ofNat m)).toNat = n - m := by
  have hsplit : UInt64.ofNat n = .ofNat m + .ofNat (n - m) := by
    rw [← UInt64.ofNat_add, Nat.add_sub_cancel' hle]
  have hsub : start + .ofNat n - (start + .ofNat m) = UInt64.ofNat (n - m) := by
    rw [hsplit]
    abel
  have hsmall : n - m < 2 ^ 64 := by omega
  rw [hsub]
  exact UInt64.toNat_ofNat_of_lt' hsmall

end Slot

def Producer.Ok (rb : RingBuffer α capacity) (room : Prop) : Producer α → Prop
  | idle => True
  | loadedHead _ curHead => curHead = rb.head
  | hasRoom _ curHead => curHead = rb.head ∧ room
  | written data curHead =>
    curHead = rb.head ∧ room ∧ rb.buffer (slot capacity curHead) = data

def Consumer.Ok (tail : UInt64) (next : Option α) : Consumer α → Prop
  | idle => True
  | loadedTail curTail => curTail = tail
  | hasItem curTail => curTail = tail ∧ next.isSome = true
  | taken curTail data => curTail = tail ∧ next = some data

theorem Consumer.Ok.mono {tail : UInt64} {next next' : Option α} {c : Consumer α}
    (h : c.Ok tail next) (hnext : ∀ x, next = some x → next' = some x) : c.Ok tail next' := by
  cases c with
  | idle => exact trivial
  | loadedTail curTail => exact h
  | hasItem curTail =>
    obtain ⟨x, hx⟩ := Option.isSome_iff_exists.mp h.2
    exact ⟨h.1, Option.isSome_iff_exists.mpr ⟨x, hnext x hx⟩⟩
  | taken curTail data => exact ⟨h.1, hnext data h.2⟩

theorem Producer.Ok.mono {rb rb' : RingBuffer α capacity} {room room' : Prop} {p : Producer α}
    (h : p.Ok rb room) (hhead : rb'.head = rb.head) (hroom : room → room')
    (hslot : room → rb'.buffer (slot capacity rb.head) = rb.buffer (slot capacity rb.head)) :
    p.Ok rb' room' := by
  cases p with
  | idle => exact trivial
  | loadedHead data curHead => exact h.trans hhead.symm
  | hasRoom data curHead => exact ⟨h.1.trans hhead.symm, hroom h.2⟩
  | written data curHead =>
    obtain ⟨hcur, hr, hdata⟩ := h
    refine ⟨hcur.trans hhead.symm, hroom hr, ?_⟩
    rw [← hdata, hcur]
    exact hslot hr

structure Inv (start : UInt64) (s : State α capacity) : Prop where
  head_eq : s.rb.head = start + .ofNat s.accepted.length
  tail_eq : s.rb.tail = start + .ofNat s.obtained.length
  obtained_prefix : s.obtained <+: s.accepted
  bounded : s.accepted.length ≤ s.obtained.length + capacity
  unread : ∀ i (h : i < s.accepted.length), s.reads ≤ i →
    s.rb.buffer (slot capacity (start + .ofNat i)) = s.accepted[i]
  producer_ok : s.producer.Ok s.rb (s.accepted.length < s.obtained.length + capacity)
  consumer_ok : s.consumer.Ok s.rb.tail s.accepted[s.obtained.length]?

section Inv

variable {start : UInt64} {s : State α capacity}

theorem Inv.le (h : Inv start s) : s.obtained.length ≤ s.accepted.length :=
  h.obtained_prefix.length_le

theorem obtained_le_reads (s : State α capacity) :
    s.obtained.length ≤ s.reads ∧ s.reads ≤ s.obtained.length + 1 := by
  rw [State.reads]
  split <;> omega

theorem Inv.size_eq (h : Inv start s) (hlt : capacity < 2 ^ 64) :
    (s.rb.head - s.rb.tail).toNat = s.accepted.length - s.obtained.length := by
  have hle := h.le
  have hbound := h.bounded
  rw [h.head_eq, h.tail_eq]
  exact counter_sub start hle (by omega)

theorem Inv.tail_eq_head_iff (h : Inv start s) (hlt : capacity < 2 ^ 64) :
    s.rb.tail = s.rb.head ↔ s.accepted.length = s.obtained.length := by
  have hsize := h.size_eq hlt
  have hle := h.le
  constructor
  · intro heq
    rw [heq, sub_self] at hsize
    have hzero : (0 : UInt64).toNat = 0 := rfl
    omega
  · intro heq
    rw [h.head_eq, h.tail_eq, heq]

theorem Inv.initial (start : UInt64) (buffer : ℕ → α) :
    Inv start ({ rb := ⟨start, start, buffer⟩ } : State α capacity) where
  head_eq := (add_zero start).symm
  tail_eq := (add_zero start).symm
  obtained_prefix := List.prefix_rfl
  bounded := Nat.zero_le _
  unread := fun i h => absurd h (Nat.not_lt_zero i)
  producer_ok := trivial
  consumer_ok := trivial

/-- The slot that the producer writes is none of an unread element. -/
theorem Inv.write_free (h : Inv start s) (hcap : StaticAssert capacity) (hlt : capacity < 2 ^ 64)
    (hroom : s.accepted.length < s.obtained.length + capacity) {i : ℕ} (hi : s.reads ≤ i)
    (hi' : i < s.accepted.length) :
    slot capacity (start + .ofNat i) ≠ slot capacity s.rb.head := by
  have hreads := (obtained_le_reads s).1
  rw [h.head_eq]
  exact slot_ne hcap hlt start hi' (by omega)

theorem Inv.setProducer (h : Inv start s) {p : Producer α}
    (hp : p.Ok s.rb (s.accepted.length < s.obtained.length + capacity)) :
    Inv start { s with producer := p } :=
  ⟨h.head_eq, h.tail_eq, h.obtained_prefix, h.bounded, h.unread, hp, h.consumer_ok⟩

theorem Inv.setConsumer (h : Inv start s) {c : Consumer α}
    (hreads : s.reads = { s with consumer := c }.reads)
    (hc : c.Ok s.rb.tail s.accepted[s.obtained.length]?) : Inv start { s with consumer := c } :=
  ⟨h.head_eq, h.tail_eq, h.obtained_prefix, h.bounded,
    fun i hi hle => h.unread i hi (hreads.trans_le hle), h.producer_ok, hc⟩

theorem Inv.produce (h : Inv start s) (hcap : StaticAssert capacity) (hlt : capacity < 2 ^ 64)
    (next : α) : Inv start (s.produce next) := by
  have hok := h.producer_ok
  cases hp : s.producer with
  | idle =>
    simp only [State.produce, hp]
    exact h.setProducer rfl
  | loadedHead data curHead =>
    rw [hp] at hok
    have hhead : curHead = s.rb.head := hok
    simp only [State.produce, hp]
    split
    · exact h.setProducer trivial
    · next hne =>
      -- the consumer only makes room, so what is seen here lasts until the head is stored
      have hbound := h.bounded
      rw [hhead, h.size_eq hlt] at hne
      have hroom : s.accepted.length < s.obtained.length + capacity := by omega
      exact h.setProducer ⟨hhead, hroom⟩
  | hasRoom data curHead =>
    rw [hp] at hok
    obtain ⟨hhead, hroom⟩ := hok
    simp only [State.produce, hp]
    refine ⟨h.head_eq, h.tail_eq, h.obtained_prefix, h.bounded, fun i hi hreads => ?_,
      ⟨hhead, hroom, Function.update_self _ _ _⟩, h.consumer_ok⟩
    have hne := h.write_free hcap hlt hroom hreads hi
    rw [← hhead] at hne
    exact (Function.update_of_ne hne _ _).trans (h.unread i hi hreads)
  | written data curHead =>
    rw [hp] at hok
    obtain ⟨hhead, hroom, hdata⟩ := hok
    have hcounter : curHead = start + .ofNat s.accepted.length := hhead.trans h.head_eq
    have hlength : (s.accepted ++ [data]).length = s.accepted.length + 1 := by
      rw [List.length_append, List.length_singleton]
    simp only [State.produce, hp]
    refine ⟨?_, h.tail_eq, h.obtained_prefix.trans (List.prefix_append _ _), ?_,
      fun i hi hreads => ?_, trivial, ?_⟩
    · dsimp only
      rw [hlength, UInt64.ofNat_add, hcounter, add_assoc]
      rfl
    · exact hlength.trans_le hroom
    · dsimp only at hi ⊢
      by_cases hlast : i = s.accepted.length
      · subst hlast
        rw [List.getElem_concat_length rfl, ← hcounter]
        exact hdata
      · have hi' : i < s.accepted.length := by omega
        rw [List.getElem_append_left hi']
        exact h.unread i hi' hreads
    · refine h.consumer_ok.mono fun x hx => ?_
      obtain ⟨hn, -⟩ := List.getElem?_eq_some_iff.mp hx
      exact (List.getElem?_append_left hn).trans hx

theorem concat_prefix {xs ys : List α} {x : α} (h : xs <+: ys) (hx : ys[xs.length]? = some x) :
    xs ++ [x] <+: ys := by
  have htake : ys.take (xs.length + 1) = xs ++ [x] := by
    rw [List.take_add_one, hx, ← List.prefix_iff_eq_take.mp h]
    rfl
  rw [← htake]
  exact List.take_prefix _ _

theorem Inv.next_eq (h : Inv start s) (hreads : s.reads = s.obtained.length)
    (hsome : s.accepted[s.obtained.length]?.isSome = true) :
    s.accepted[s.obtained.length]? = some (s.rb.buffer (slot capacity s.rb.tail)) := by
  have hlt : s.obtained.length < s.accepted.length := by simpa using hsome
  rw [h.tail_eq, h.unread _ hlt hreads.le]
  exact List.getElem?_eq_getElem hlt

theorem Inv.consume (h : Inv start s) (hcap : StaticAssert capacity) (hlt : capacity < 2 ^ 64)
    (moved : α → α) : Inv start (s.consume moved) := by
  have hok := h.consumer_ok
  cases hc : s.consumer with
  | idle =>
    have hreads : s.reads = s.obtained.length := by rw [State.reads, hc]
    simp only [State.consume, hc]
    exact h.setConsumer hreads rfl
  | loadedTail curTail =>
    rw [hc] at hok
    have htail : curTail = s.rb.tail := hok
    have hreads : s.reads = s.obtained.length := by rw [State.reads, hc]
    simp only [State.consume, hc]
    split
    · exact h.setConsumer hreads trivial
    · next hne =>
      rw [htail, h.tail_eq_head_iff hlt] at hne
      have hle := h.le
      have hitem : s.obtained.length < s.accepted.length := by omega
      have hsome : s.accepted[s.obtained.length]?.isSome = true := by simpa using hitem
      exact h.setConsumer hreads ⟨htail, hsome⟩
  | hasItem curTail =>
    rw [hc] at hok
    obtain ⟨htail, hsome⟩ := hok
    have hreads : s.reads = s.obtained.length := by rw [State.reads, hc]
    have hnext := h.next_eq hreads hsome
    have hitem : s.obtained.length < s.accepted.length := by simpa using hsome
    have hbound := h.bounded
    have hcounter : curTail = start + .ofNat s.obtained.length := htail.trans h.tail_eq
    rw [← htail] at hnext
    simp only [State.consume, hc]
    refine ⟨h.head_eq, h.tail_eq, h.obtained_prefix, h.bounded, fun i hi hreads' => ?_,
      h.producer_ok.mono rfl id fun hroom => ?_, ⟨htail, hnext⟩⟩
    · have hne := slot_ne hcap hlt start (show s.obtained.length < i from hreads')
        (show i < s.obtained.length + capacity by dsimp only at hi; omega)
      rw [← hcounter] at hne
      exact (Function.update_of_ne hne.symm _ _).trans
        (h.unread i hi (hreads.trans_le (Nat.le_of_succ_le hreads')))
    · have hne := slot_ne hcap hlt start hitem hroom
      rw [← hcounter, ← h.head_eq] at hne
      exact Function.update_of_ne hne.symm _ _
  | taken curTail data =>
    rw [hc] at hok
    obtain ⟨htail, hnext⟩ := hok
    have hcounter : curTail = start + .ofNat s.obtained.length := htail.trans h.tail_eq
    have hlength : (s.obtained ++ [data]).length = s.obtained.length + 1 := by
      rw [List.length_append, List.length_singleton]
    have hbound := h.bounded
    simp only [State.consume, hc]
    refine ⟨h.head_eq, ?_, ?_, ?_, fun i hi hreads => ?_, ?_, trivial⟩
    · dsimp only
      rw [hlength, UInt64.ofNat_add, hcounter, add_assoc]
      rfl
    · exact concat_prefix h.obtained_prefix hnext
    · dsimp only
      omega
    · have htaken : s.reads = s.obtained.length + 1 := by rw [State.reads, hc]
      rw [State.reads, hlength, ← htaken] at hreads
      exact h.unread i hi hreads
    · refine h.producer_ok.mono rfl (fun hroom => ?_) fun _ => rfl
      dsimp only
      omega

theorem Inv.run (h : Inv start s) (hcap : StaticAssert capacity) (hlt : capacity < 2 ^ 64)
    (moved : α → α) (turns : List (Turn α)) : Inv start (s.run moved turns) := by
  induction turns generalizing s with
  | nil => exact h
  | cons turn turns ih =>
    cases turn with
    | producer data => exact ih (h.produce hcap hlt data)
    | consumer => exact ih (h.consume hcap hlt moved)

/-- A bounded queue that its two sides use at once. An element is unread until the `Get`
that returns it has stored the tail. -/
structure BoundedFifo (start : UInt64) (s : State α capacity) : Prop where
  obtained_prefix : s.obtained <+: s.accepted
  size_le : (s.rb.head - s.rb.tail).toNat ≤ capacity
  size_eq : (s.rb.head - s.rb.tail).toNat = s.accepted.length - s.obtained.length
  unread : ∀ i (h : i < s.accepted.length), s.reads ≤ i →
    s.rb.buffer (slot capacity (start + .ofNat i)) = s.accepted[i]
  write_free : ∀ data curHead, s.producer = .hasRoom data curHead →
    ∀ i, s.reads ≤ i → i < s.accepted.length →
      slot capacity (start + .ofNat i) ≠ slot capacity curHead
  put_fails : ∀ data curHead next, s.producer = .loadedHead data curHead →
    (s.produce next).producer = .idle → s.accepted.length = s.obtained.length + capacity
  get_fails : ∀ curTail moved, s.consumer = .loadedTail curTail →
    (s.consume moved).consumer = .idle → s.accepted.length = s.obtained.length

theorem Inv.boundedFifo (h : Inv start s) (hcap : StaticAssert capacity)
    (hlt : capacity < 2 ^ 64) : BoundedFifo start s where
  obtained_prefix := h.obtained_prefix
  size_le := by
    have hbound := h.bounded
    rw [h.size_eq hlt]
    omega
  size_eq := h.size_eq hlt
  unread := h.unread
  write_free := by
    intro data curHead hp i hreads hi
    have hok := h.producer_ok
    rw [hp] at hok
    rw [hok.1]
    exact h.write_free hcap hlt hok.2 hreads hi
  put_fails := by
    intro data curHead next hp hidle
    have hok := h.producer_ok
    rw [hp] at hok
    have hhead : curHead = s.rb.head := hok
    have hle := h.le
    have hpos := hcap.1
    simp only [State.produce, hp] at hidle
    split at hidle
    · next heq =>
      rw [hhead, h.size_eq hlt] at heq
      omega
    · cases hidle
  get_fails := by
    intro curTail moved hc hidle
    have hok := h.consumer_ok
    rw [hc] at hok
    have htail : curTail = s.rb.tail := hok
    simp only [State.consume, hc] at hidle
    split at hidle
    · next heq =>
      rw [htail] at heq
      exact (h.tail_eq_head_iff hlt).mp heq
    · cases hidle

/-- From equal counters, every interleaving of the steps is a bounded queue throughout. -/
theorem interleavings_are_fifo (hcap : StaticAssert capacity) (hlt : capacity < 2 ^ 64)
    (start : UInt64) (buffer : ℕ → α) (moved : α → α) (turns : List (Turn α)) :
    BoundedFifo start
      (({ rb := ⟨start, start, buffer⟩ } : State α capacity).run moved turns) :=
  ((Inv.initial start buffer).run hcap hlt moved turns).boundedFifo hcap hlt

theorem interleavings_are_fifo_wrapping :
    BoundedFifo (-1) (({ rb := ⟨-1, -1, fun _ => 0⟩ } : State ℕ 2).run id
      [.producer 7, .producer 7, .consumer, .producer 7, .producer 7, .consumer, .producer 8,
        .consumer, .producer 8, .consumer, .consumer]) :=
  interleavings_are_fifo (by decide) (by decide) (-1) (fun _ => 0) id _

theorem put_alone (hcap : StaticAssert capacity) (hlt : capacity < 2 ^ 64)
    (hp : s.producer = .idle) (x : α) :
    ∃ n, ((State.produce x)^[n] s).producer = .idle ∧
      ((State.produce x)^[n] s).rb = (s.rb.put x).2 ∧
      ((State.produce x)^[n] s).accepted =
        if (s.rb.put x).1 then s.accepted ++ [x] else s.accepted := by
  have hslot := slot_eq_index hcap hlt s.rb.head
  by_cases hfull : (s.rb.head - s.rb.tail).toNat = capacity
  · refine ⟨2, ?_⟩
    simp [State.produce, hp, put, hfull]
  · refine ⟨4, ?_⟩
    simp [State.produce, hp, put, hfull, hslot]

theorem get_alone (hcap : StaticAssert capacity) (hlt : capacity < 2 ^ 64)
    (hc : s.consumer = .idle) :
    ∃ n, ((State.consume id)^[n] s).consumer = .idle ∧
      ((State.consume id)^[n] s).rb = (s.rb.get.map Prod.snd).getD s.rb ∧
      ((State.consume id)^[n] s).obtained = s.obtained ++ (s.rb.get.map Prod.fst).toList := by
  have hslot := slot_eq_index hcap hlt s.rb.tail
  by_cases hempty : s.rb.tail = s.rb.head
  · refine ⟨2, ?_⟩
    simp [State.consume, hc, get, hempty]
  · refine ⟨4, ?_⟩
    simp [State.consume, hc, get, hempty, hslot]

end Inv

end RingBuffer
