import FlareTrader.JournalProgress

/-! Many journals side by side, and a thread that writes messages to several of them one
after the other. -/

namespace Yijinjing

open Execution SegmentedLog

def stepAt (names : ℕ → List UInt8) (queues : ℕ → System) (q : ℕ) (a : Action) :
    Option (ℕ → System) :=
  ((queues q).step (names q) a).map (Function.update queues q)

def Action.frames : Action → List Frame
  | .writer (.call _ f) => [f]
  | _ => []

section Step

variable {jname : List UInt8} {s s' : System}

theorem sent_locate (jname : List UInt8) (s : System) (page : Page)
    (job : Option (Call × Frame)) (startNano closeNano : Int64) :
    (s.locate jname page job startNano closeNano).sent = s.sent ∧
      (s.locate jname page job startNano closeNano).interrupted = s.interrupted := by
  unfold System.locate
  dsimp only
  repeat' split
  all_goals exact ⟨rfl, rfl⟩

theorem stepWriter_frame {a : WriterAction} (h : s.stepWriter jname a = some s') :
    s'.sent = s.sent ++ (Action.writer a).frames ∧ s'.readers = s.readers ∧
      (a ≠ .crash → s'.interrupted = s.interrupted) := by
  unfold System.stepWriter at h
  split at h
  · cases h
    exact ⟨(List.append_nil _).symm, rfl, fun _ => rfl⟩
  · cases h
    exact ⟨(List.append_nil _).symm, rfl, fun hne => absurd rfl hne⟩
  · cases h
    obtain ⟨hreaders, hsent, -, hinterrupted⟩ := create_frame jname s _
    exact ⟨hsent.trans (List.append_nil _).symm, hreaders, fun _ => hinterrupted⟩
  · cases h
    exact ⟨rfl, rfl, fun _ => rfl⟩
  · cases h
    obtain ⟨hsent, hinterrupted⟩ := sent_locate jname s _ _ _ _
    exact ⟨hsent.trans (List.append_nil _).symm, readers_locate .., fun _ => hinterrupted⟩
  · cases h
    exact ⟨(List.append_nil _).symm, rfl, fun _ => rfl⟩
  · cases h

theorem stepReader_frame {i : ℕ} {a : ReaderAction} (h : s.stepReader i a = some s') :
    s'.sent = s.sent ∧ s'.writer = s.writer ∧ s'.interrupted = s.interrupted ∧
      ∀ j ≠ i, s'.readers j = s.readers j := by
  obtain ⟨result, -, hs'⟩ := Option.map_eq_some_iff.mp h
  rw [← hs']
  cases result with
  | ok r => exact ⟨rfl, rfl, rfl, fun j hj => Function.update_of_ne hj r s.readers⟩
  | error fault =>
    cases fault with
    | runtimeError what => exact ⟨rfl, rfl, rfl, fun j _ => rfl⟩
    | busError => exact ⟨rfl, rfl, rfl, fun j hj => Function.update_of_ne hj _ s.readers⟩

theorem sent_step {a : Action} (h : s.step jname a = some s') : s'.sent = s.sent ++ a.frames := by
  cases a with
  | writer a => exact (stepWriter_frame h).1
  | reader i a => exact (stepReader_frame h).1.trans (List.append_nil _).symm

end Step

section Queues

variable {names : ℕ → List UInt8} {queues queues' : ℕ → System} {q : ℕ} {a : Action}

theorem stepAt_self (h : stepAt names queues q a = some queues') :
    (queues q).step (names q) a = some (queues' q) := by
  obtain ⟨s, hs, rfl⟩ := Option.map_eq_some_iff.mp h
  rw [Function.update_self]
  exact hs

theorem stepAt_other (h : stepAt names queues q a = some queues') {p : ℕ} (hp : p ≠ q) :
    queues' p = queues p := by
  obtain ⟨s, -, rfl⟩ := Option.map_eq_some_iff.mp h
  exact Function.update_of_ne hp s queues

/-- Every journal runs as it would alone. -/
theorem reaches_stepAt (h : ∀ p, Reaches (System.step (names p)) Timely {} (queues p))
    (ha : Timely (queues q) a) (hstep : stepAt names queues q a = some queues') (p : ℕ) :
    Reaches (System.step (names p)) Timely {} (queues' p) := by
  rcases eq_or_ne p q with rfl | hp
  · exact (h p).tail a ha (stepAt_self hstep)
  · rw [stepAt_other hstep hp]
    exact h p

end Queues

structure System.Unread (s : System) (i : ℕ) (rest : List Frame) : Prop where
  view : ∃ v, Shows s.directory v ∧ v.Sealed ∧ Remaining v (s.readers i).journal rest
  ready : (s.readers i).reading = .ready

def withReader (queues : ℕ → System) (q i : ℕ) (r : Reader) : ℕ → System :=
  Function.update queues q ((queues q).withReader i r)

section Unread

variable {s : System} {i : ℕ} {f : Frame} {rest : List Frame}

theorem System.Unread.gets (h : s.Unread i (f :: rest)) :
    ∃ r₁ r₂ r, (s.readers i).step s.directory .next = some (.ok r₁) ∧
      r₁.step s.directory .look = some (.ok r₂) ∧ r₂.step s.directory .take = some (.ok r) ∧
      r.out = (s.readers i).out ++ [f] ∧ r.sought = (s.readers i).sought ∧
      (s.withReader i r).Unread i rest := by
  obtain ⟨⟨v, hd, hsealed, hremaining⟩, hready⟩ := h
  obtain ⟨r₁, r₂, r, hnext, hlook, htake, hready', hsought, hout, hrest⟩ :=
    Reader.gets hremaining hd hsealed hready
  have hreader := withReader_self s i r
  refine ⟨r₁, r₂, r, hnext, hlook, htake, hout, hsought, ⟨v, hd, hsealed, ?_⟩, ?_⟩
  · rwa [hreader]
  · rwa [hreader]

theorem Running.unread {v v' : View} (h : Running True s v v')
    (hrest : s.writer.atRest = true) (huninterrupted : s.interrupted = false)
    (hready : (s.readers i).reading = .ready) (hexpired : (s.readers i).journal.expired = false) :
    ∃ rest skipped, s.Unread i rest ∧ skipped ++ (s.readers i).out ++ rest = s.sent ∧
      PassedOver (s.readers i).sought skipped := by
  obtain ⟨hlog, hsealed⟩ := h.quiet huninterrupted hrest
  obtain ⟨skipped, hok⟩ := h.readers i
  obtain ⟨rest, hremaining, hall⟩ := hok.remaining hexpired
  rw [hlog] at hall
  exact ⟨rest, skipped, ⟨⟨v, h.writing.shows, hsealed, hremaining⟩, hready⟩, hall, hok.passedOver⟩

end Unread

section WithReader

variable {names : ℕ → List UInt8} {queues : ℕ → System} {q i : ℕ} {r r' : Reader}

theorem withReader_other {p : ℕ} (hp : p ≠ q) : withReader queues q i r p = queues p :=
  Function.update_of_ne hp _ queues

theorem withReader_at : withReader queues q i r q = (queues q).withReader i r :=
  Function.update_self q _ queues

theorem withReader_reader : (withReader queues q i r q).readers i = r := by
  rw [withReader_at]
  exact withReader_self (queues q) i r

theorem withReader_directory : (withReader queues q i r q).directory = (queues q).directory := by
  rw [withReader_at]
  rfl

theorem withReader_withReader :
    withReader (withReader queues q i r) q i r' = withReader queues q i r' := by
  rw [withReader, withReader_at, withReader_again, withReader, withReader, Function.update_idem]

theorem stepAt_reader {a : ReaderAction}
    (h : ((queues q).readers i).step (queues q).directory a = some (.ok r)) :
    stepAt names queues q (.reader i a) = some (withReader queues q i r) := by
  simp only [stepAt, System.step, System.stepReader, h, Option.map_some, withReader,
    System.withReader]

end WithReader

def ofQueue {α : Type} (q : ℕ) (l : List (ℕ × α)) : List α :=
  (l.filter fun e => e.1 = q).map Prod.snd

theorem ofQueue_append {α : Type} (q : ℕ) (l more : List (ℕ × α)) :
    ofQueue q (l ++ more) = ofQueue q l ++ ofQueue q more := by
  rw [ofQueue, List.filter_append, List.map_append]
  rfl

theorem ofQueue_cons {α : Type} (q p : ℕ) (x : α) (l : List (ℕ × α)) :
    ofQueue q ((p, x) :: l) = (if p = q then [x] else []) ++ ofQueue q l := by
  unfold ofQueue
  split_ifs with h <;> simp [h]

theorem ofQueue_singleton {α : Type} (q p : ℕ) (x : α) :
    ofQueue q [(p, x)] = if p = q then [x] else [] := by
  rw [ofQueue_cons]
  exact List.append_nil _

theorem mem_ofQueue {α : Type} {q : ℕ} {x : α} {l : List (ℕ × α)} :
    x ∈ ofQueue q l ↔ (q, x) ∈ l := by
  unfold ofQueue
  simp

/-- The frame of `write_data(msg, 0, 0)`. -/
def messageFrame (nano : Int64) (data : List UInt8) : Frame := ⟨nano, 0, 0, data⟩

/-- A thread with the messages it still has to write, each with the journal it goes to. All
messages so far are noted. -/
structure Outbox where
  queues : ℕ → System := fun _ => {}
  issued : List (ℕ × List UInt8) := []
  pending : List (ℕ × List UInt8) := []

inductive OutboxAction where
  | write (nano : Int64)
  | queue (q : ℕ) (a : Action)

namespace Outbox

def issue (messages : List (ℕ × List UInt8)) (b : Outbox) : Outbox :=
  { b with
    issued := b.issued ++ messages
    pending := b.pending ++ messages }

def step (names : ℕ → List UInt8) (b : Outbox) : OutboxAction → Option Outbox
  | .write nano =>
    match b.pending with
    | [] => none
    | (q, data) :: pending =>
      (stepAt names b.queues q (.writer (.call .writeFrame (messageFrame nano data)))).map
        fun queues => { b with queues, pending }
  | .queue q a => (stepAt names b.queues q a).map fun queues => { b with queues }

/-- A message is written when the one before has been, and nothing else is handed to the
writers. The thread is not killed, and its clock never goes back. -/
def Allowed (b : Outbox) : OutboxAction → Prop
  | .write nano => (∀ q, (b.queues q).writer.atRest = true) ∧
      ∀ e ∈ b.pending.head?, (messageFrame nano e.2).length ≤ pageMinHeadroom ∧
        (b.queues e.1).clock ≤ nano
  | .queue q a => Timely (b.queues q) a ∧ a.frames = [] ∧ a ≠ .writer .crash

/-- Every journal has what was issued for it, less what is still to be written. -/
structure Ok (names : ℕ → List UInt8) (b : Outbox) : Prop where
  reaches : ∀ q, Reaches (System.step (names q)) Timely {} (b.queues q)
  uninterrupted : ∀ q, (b.queues q).interrupted = false
  sent : ∀ q, (b.queues q).sent.map Frame.data ++ ofQueue q b.pending = ofQueue q b.issued

variable {names : ℕ → List UInt8} {b b' : Outbox}

theorem ok_start (names : ℕ → List UInt8) : Ok names {} :=
  ⟨fun _ => .refl _, fun _ => rfl, fun _ => rfl⟩

theorem Ok.issue (h : Ok names b) (messages : List (ℕ × List UInt8)) :
    Ok names (b.issue messages) where
  reaches := h.reaches
  uninterrupted := h.uninterrupted
  sent q := by
    rw [Outbox.issue, ofQueue_append, ofQueue_append, ← List.append_assoc, h.sent]

theorem uninterrupted_step {queues' : ℕ → System} {q : ℕ} {a : Action}
    (h : ∀ p, (b.queues p).interrupted = false) (ha : a ≠ .writer .crash)
    (hstep : stepAt names b.queues q a = some queues') (p : ℕ) :
    (queues' p).interrupted = false := by
  rcases eq_or_ne p q with rfl | hp
  · have hself := stepAt_self hstep
    cases a with
    | writer a =>
      rw [(stepWriter_frame hself).2.2 fun hcrash => ha (by rw [hcrash])]
      exact h p
    | reader i a =>
      rw [(stepReader_frame hself).2.2.1]
      exact h p
  · rw [stepAt_other hstep hp]
    exact h p

theorem Ok.step (h : Ok names b) {a : OutboxAction} (ha : b.Allowed a)
    (hstep : b.step names a = some b') : Ok names b' ∧ b'.issued = b.issued := by
  cases a with
  | queue q a =>
    obtain ⟨queues, hqueues, rfl⟩ := Option.map_eq_some_iff.mp hstep
    obtain ⟨htimely, hframes, hcrash⟩ := ha
    refine ⟨⟨reaches_stepAt h.reaches htimely hqueues,
      uninterrupted_step h.uninterrupted hcrash hqueues, fun p => ?_⟩, rfl⟩
    rcases eq_or_ne p q with rfl | hp
    · dsimp only
      rw [sent_step (stepAt_self hqueues), hframes, List.append_nil]
      exact h.sent p
    · dsimp only
      rw [stepAt_other hqueues hp]
      exact h.sent p
  | write nano =>
    obtain ⟨queues₀, issued, pending⟩ := b
    cases pending with
    | nil => cases hstep
    | cons e pending =>
      obtain ⟨queues, hqueues, rfl⟩ := Option.map_eq_some_iff.mp hstep
      have htimely : Timely (queues₀ e.1)
          (.writer (.call .writeFrame (messageFrame nano e.2))) := ha.2 e rfl
      refine ⟨⟨reaches_stepAt h.reaches htimely hqueues,
        uninterrupted_step h.uninterrupted (by simp) hqueues, fun p => ?_⟩, rfl⟩
      have hsent := h.sent p
      dsimp only at hsent ⊢
      rcases eq_or_ne p e.1 with rfl | hp
      · rw [← hsent, sent_step (stepAt_self hqueues), List.map_append, List.append_assoc,
          ofQueue_cons, if_pos rfl]
        rfl
      · rw [stepAt_other hqueues hp, ← hsent, ofQueue_cons, if_neg hp.symm, List.nil_append]

theorem Ok.reads (h : Ok names b) (hnames : ∀ q, (names q).length < 30) (q i : ℕ) :
    ∃ skipped, (skipped ++ ((b.queues q).readers i).out).map Frame.data <+: ofQueue q b.issued ∧
      PassedOver ((b.queues q).readers i).sought skipped := by
  obtain ⟨v, v', hrunning⟩ := running_of_timely (hnames q) (h.reaches q)
  obtain ⟨skipped, hok⟩ := hrunning.readers i
  -- of a writer that was never killed, the journal has nothing but what was sent, in its order
  have hsent : v.log <+: (b.queues q).sent := by
    rw [← (hrunning.writing.exact (h.uninterrupted q)).1]
    exact hrunning.writing.log_prefix.trans (List.prefix_append _ _)
  exact ⟨skipped, ((hok.out_prefix.trans hsent).map Frame.data).trans
    (h.sent q ▸ List.prefix_append _ _), hok.passedOver⟩

section Reading

theorem reaches_read (names : ℕ → List UInt8) {q i : ℕ} {rest : List Frame}
    (h : (b.queues q).Unread i rest) :
    ∃ r, Reaches (Outbox.step names) Allowed b
        { b with queues := withReader b.queues q i r } ∧
      r.out = ((b.queues q).readers i).out ++ rest ∧
      r.sought = ((b.queues q).readers i).sought := by
  induction rest generalizing b with
  | nil =>
    refine ⟨(b.queues q).readers i, ?_, (List.append_nil _).symm, rfl⟩
    rw [withReader, System.withReader, Function.update_eq_self, Function.update_eq_self]
    exact .refl b
  | cons f rest ih =>
    obtain ⟨r₁, r₂, r, hnext, hlook, htake, hout, hsought, hunread⟩ := h.gets
    have hstep : ∀ {r r' : Reader} {a : ReaderAction}, r.step (b.queues q).directory a =
        some (.ok r') → Outbox.step names { b with queues := withReader b.queues q i r }
          (.queue q (.reader i a)) = some { b with queues := withReader b.queues q i r' } := by
      intro r r' a ha
      have ha' : ((withReader b.queues q i r q).readers i).step
          (withReader b.queues q i r q).directory a = some (.ok r') := by
        rwa [withReader_reader, withReader_directory]
      simp only [Outbox.step, stepAt_reader ha', Option.map_some, withReader_withReader]
    have hallowed : ∀ (b : Outbox) (a : ReaderAction), (∀ unread, a ≠ .header unread) →
        b.Allowed (.queue q (.reader i a)) := by
      intro b a ha
      refine ⟨⟨trivial, ?_⟩, rfl, by simp⟩
      cases a <;> first | exact absurd rfl (ha _) | trivial
    have hfirst : Outbox.step names b (.queue q (.reader i .next)) =
        some { b with queues := withReader b.queues q i r₁ } := by
      simp only [Outbox.step, stepAt_reader hnext, Option.map_some]
    have hreaches : Reaches (Outbox.step names) Allowed b
        { b with queues := withReader b.queues q i r } :=
      ((Reaches.refl b).tail _ (hallowed _ _ (by simp)) hfirst).tail _ (hallowed _ _ (by simp))
        (hstep hlook) |>.tail _ (hallowed _ _ (by simp)) (hstep htake)
    obtain ⟨r', hlater, hout', hsought'⟩ := ih (b := { b with queues := withReader b.queues q i r })
      (by dsimp only; rwa [withReader_at])
    dsimp only at hlater hout' hsought'
    rw [withReader_withReader] at hlater
    refine ⟨r', hreaches.trans hlater, ?_, ?_⟩
    · rw [hout', withReader_reader, hout, List.append_assoc, List.singleton_append]
    · rw [hsought', withReader_reader, hsought]

/-- When everything has been written, a reader that goes on gets everything that was issued for
its journal after the place it was sought to. -/
theorem Ok.hears (h : Ok names b) (hnames : ∀ q, (names q).length < 30) {q i : ℕ}
    (hpending : b.pending = []) (hrest : (b.queues q).writer.atRest = true)
    (hready : ((b.queues q).readers i).reading = .ready)
    (hexpired : ((b.queues q).readers i).journal.expired = false) :
    ∃ r skipped rest, Reaches (Outbox.step names) Allowed b
        { b with queues := withReader b.queues q i r } ∧
      r.sought = ((b.queues q).readers i).sought ∧
      r.out = ((b.queues q).readers i).out ++ rest ∧
      (skipped ++ r.out).map Frame.data = ofQueue q b.issued ∧
      PassedOver ((b.queues q).readers i).sought skipped := by
  obtain ⟨v, v', hrunning⟩ := running_of_timely (hnames q) (h.reaches q)
  obtain ⟨rest, skipped, hunread, hall, hskipped⟩ :=
    hrunning.unread hrest (h.uninterrupted q) hready hexpired
  obtain ⟨r, hreaches, hout, hsought⟩ := reaches_read names hunread
  refine ⟨r, skipped, rest, hreaches, hsought, hout, ?_, hskipped⟩
  have hsent := h.sent q
  rw [hpending] at hsent
  rw [hout, ← List.append_assoc, hall, ← hsent]
  exact (List.append_nil _).symm

end Reading

section Progress

def Busy (b : Outbox) (a : OutboxAction) : Prop :=
  b.Allowed a ∧ match a with
    | .write _ => True
    | .queue _ a => a.working

structure Ready (used : ℕ → Prop) (b : Outbox) : Prop where
  atRest : ∀ q, (b.queues q).writer.atRest = true
  ready : ∀ q, used q → ∃ page, (b.queues q).writer = ⟨[], .ready page⟩

variable {used : ℕ → Prop}

theorem reaches_working {q : ℕ} {t : System}
    (h : Reaches (System.step (names q)) Working (b.queues q) t) :
    Reaches (step names) Busy b { b with queues := Function.update b.queues q t } := by
  refine h.invariant
    (fun t => Reaches (Outbox.step names) Busy b { b with queues := Function.update b.queues q t })
    (fun t a t' ht ha hstep => ?_) ?_
  · have hnext : ({ b with queues := Function.update b.queues q t } : Outbox).step names
        (.queue q a) = some { b with queues := Function.update b.queues q t' } := by
      simp only [Outbox.step, stepAt, Function.update_self, hstep, Option.map_some,
        Function.update_idem]
    have htimely : Timely (Function.update b.queues q t q) a := by
      rw [Function.update_self]
      exact ha.1
    have hworking := ha.2
    refine ht.tail (.queue q a) ⟨⟨htimely, ?_, ?_⟩, hworking⟩ hnext
    · cases a with
      | writer a => cases a <;> first | rfl | cases hworking
      | reader => rfl
    · rintro rfl
      cases hworking
  · rw [Function.update_eq_self]
    exact .refl _

structure Written (used : ℕ → Prop) (b b' : Outbox) (pages : ℕ) : Prop where
  pending : b'.pending = []
  issued : b'.issued = b.issued
  ready : b'.Ready used
  readers : ∀ q, (b'.queues q).readers = (b.queues q).readers
  pages : ∀ q, (b'.queues q).directory.pageNums.length ≤
    (b.queues q).directory.pageNums.length + pages

theorem Ready.update (h : b.Ready used) {q : ℕ} {t : System}
    (ht : ∃ page, t.writer = ⟨[], .ready page⟩) :
    ({ b with queues := Function.update b.queues q t } : Outbox).Ready used := by
  have hother : ∀ p ≠ q, Function.update b.queues q t p = b.queues p :=
    fun p hp => Function.update_of_ne hp t b.queues
  refine ⟨fun p => ?_, fun p hp => ?_⟩ <;> dsimp only <;> rcases eq_or_ne p q with rfl | hne
  · obtain ⟨page, hpage⟩ := ht
    rw [Function.update_self, hpage]
    rfl
  · rw [hother p hne]
    exact h.atRest p
  · rw [Function.update_self]
    exact ht
  · rw [hother p hne]
    exact h.ready p hp

theorem Ok.writes_next (h : Ok names b) (hnames : ∀ q, (names q).length < 30)
    (hready : b.Ready used) {e : ℕ × List UInt8} {rest : List (ℕ × List UInt8)}
    (hpending : b.pending = e :: rest) (hused : used e.1)
    (hfits : ∀ e ∈ b.pending, (messageFrame 0 e.2).length ≤ pageMinHeadroom)
    (hfew : (b.queues e.1).directory.pageNums.length + 2 < 2 ^ 15) :
    ∃ b', Reaches (Outbox.step names) Busy b b' ∧ b'.pending = rest ∧ b'.issued = b.issued ∧
      b'.Ready used ∧ (∀ q, (b'.queues q).readers = (b.queues q).readers) ∧
      ∀ q, (b'.queues q).directory.pageNums.length ≤
        (b.queues q).directory.pageNums.length + 1 := by
  obtain ⟨v, v', hrunning⟩ := running_of_permitted (hnames e.1)
    (permitted_of_timely _ (h.reaches e.1))
  obtain ⟨page, hpage⟩ := hready.ready e.1 hused
  have hfit : (messageFrame (b.queues e.1).clock e.2).length ≤ pageMinHeadroom :=
    hfits e (hpending ▸ List.mem_cons_self)
  obtain ⟨t, u, hcall, hworking, -, hreaders, hfinished, -, -, -, hsame⟩ :=
    call_finishes hrunning.writing (hnames e.1) hpage hfew .writeFrame hfit
  have hstep : b.step names (.write (b.queues e.1).clock) =
      some { b with
        queues := Function.update b.queues e.1 t
        pending := rest } := by
    obtain ⟨queues, issued, pending⟩ := b
    cases hpending
    simp only [Outbox.step, stepAt, hcall, Option.map_some]
  have hworking' : Reaches (System.step (names e.1)) Working
      (Function.update b.queues e.1 t e.1) u := by
    rwa [Function.update_self]
  have hreaches : Reaches (Outbox.step names) Busy
      { b with
        queues := Function.update b.queues e.1 t
        pending := rest } _ := reaches_working hworking'
  rw [Function.update_idem] at hreaches
  have hallowed : b.Allowed (.write (b.queues e.1).clock) := by
    refine ⟨hready.atRest, fun e' he' => ?_⟩
    rw [hpending] at he'
    cases he'
    exact ⟨hfit, Int64.le_refl _⟩
  refine ⟨_, .head (a := .write (b.queues e.1).clock) ⟨hallowed, trivial⟩ hstep hreaches, rfl,
    rfl, ?_, fun q => ?_, fun q => ?_⟩
  · obtain ⟨hrest, hready'⟩ := hready.update (q := e.1) hfinished.ready
    exact ⟨hrest, hready'⟩
  · dsimp only
    rcases eq_or_ne q e.1 with rfl | hq
    · rw [Function.update_self, hfinished.readers, hreaders]
    · rw [Function.update_of_ne hq]
  · dsimp only
    rcases eq_or_ne q e.1 with rfl | hq
    · rw [Function.update_self, ← hsame]
      exact hfinished.pages
    · rw [Function.update_of_ne hq]
      exact Nat.le_succ _

/-- All messages are written, with at most a new page for each. -/
theorem Ok.writes (h : Ok names b) (hnames : ∀ q, (names q).length < 30) (hready : b.Ready used)
    (hused : ∀ e ∈ b.pending, used e.1)
    (hfits : ∀ e ∈ b.pending, (messageFrame 0 e.2).length ≤ pageMinHeadroom)
    (hfew : ∀ q, (b.queues q).directory.pageNums.length + b.pending.length + 1 < 2 ^ 15) :
    ∃ b', Reaches (Outbox.step names) Busy b b' ∧ Written used b b' b.pending.length := by
  obtain ⟨pending, hpending⟩ : ∃ pending, b.pending = pending := ⟨_, rfl⟩
  induction pending generalizing b with
  | nil => exact ⟨b, .refl b, hpending, rfl, hready, fun _ => rfl, fun _ => Nat.le_add_right _ _⟩
  | cons e rest ih =>
    have hlength : b.pending.length = rest.length + 1 := by rw [hpending]; rfl
    rw [hlength] at hfew ⊢
    obtain ⟨b', hreaches, hpending', hissued, hready', hreaders, hpages⟩ :=
      h.writes_next hnames hready hpending (hused e (hpending ▸ List.mem_cons_self)) hfits
        (by have := hfew e.1; omega)
    have hok : Ok names b' := hreaches.invariant (Ok names)
      (fun _ _ _ hok ha hstep => (hok.step ha.1 hstep).1) h
    have hrest : ∀ e ∈ b'.pending, e ∈ b.pending := fun e he => by
      rw [hpending]
      exact List.mem_cons_of_mem _ (hpending' ▸ he)
    obtain ⟨b'', hreaches', hwritten⟩ := ih hok hready' (fun e he => hused e (hrest e he))
      (fun e he => hfits e (hrest e he))
      (fun q => by
        have hq := hfew q
        have hmore := hpages q
        rw [hpending']
        omega) hpending'
    refine ⟨b'', hreaches.trans hreaches', hwritten.pending, hwritten.issued.trans hissued,
      hwritten.ready, fun q => (hwritten.readers q).trans (hreaders q), fun q => ?_⟩
    have hq := hwritten.pages q
    have hmore := hpages q
    rw [hpending'] at hq
    omega

end Progress

end Outbox

end Yijinjing
