import FlareTrader.TradingProgress

/-! What the strategies and the order management system can count on: commands are executed in
the order they were sent, and responses are heard in the order they were written. -/

namespace FlareTrader

open Execution Yijinjing

namespace Served

variable {ct : ContractTable}

theorem mem_submissions {executed : List (ℕ × TraderCommand)} {q : ℕ} {orderReq : TraderOrderReq}
    (h : (q, orderReq) ∈ submissions ct executed) :
    ∃ cmd ∈ ofQueue q executed, cmd.Submits orderReq := by
  obtain ⟨e, he, hsubmission⟩ := List.mem_filterMap.mp h
  obtain ⟨req, hreq, hsame⟩ := Option.map_eq_some_iff.mp hsubmission
  obtain ⟨rfl, rfl⟩ := Prod.mk.inj hsame
  exact ⟨e.2, mem_ofQueue.mpr he, (submission_eq_some.mp hreq).1⟩

theorem find?_of_refusing {γ : Type} {g : Gateway γ} {ct : ContractTable} {s₀ : Oms γ}
    (h₀ : s₀.Started) (hrefuses : ∀ req gateway, (g.sendOrder req gateway).1 = false)
    {t : Served γ} (h : Execution.Reaches (Served.step g ct) (fun _ _ => True) { oms := s₀ } t)
    (id : ℕ) : t.oms.orderMap.find? id = none := by
  have hsent : ∀ clock cmd orderReq mqId (s : Oms γ),
      (Oms.sendOrder g ct clock cmd orderReq mqId s).1 = false := by
    intro clock cmd orderReq mqId s
    unfold Oms.sendOrder Oms.submit
    split
    · rfl
    · dsimp only
      split_ifs with herror hok
      · rfl
      · rw [hrefuses] at hok
        cases hok
      · rfl
  have hnone := h.invariant (fun t => ∀ id, t.oms.orderMap.find? id = none)
    (fun t a t' ht _ hstep id => ?_) (fun id => by dsimp only; rw [h₀.orderMap]; rfl)
  · exact hnone id
  · obtain ⟨oms, homs, rfl⟩ := Option.map_eq_some_iff.mp hstep
    rcases Oms.step_cases homs with
      ⟨cmd, mqId, clock, iteration, orderReq, contract, -, -, hcontract, rfl⟩ | ⟨rsp, -, rfl⟩ |
      ⟨-, hmap, -⟩
    · obtain ⟨order, returned, s', -, hsend, -, -, hend⟩ :=
        Oms.sendOrder_outcome g clock cmd mqId t.oms hcontract
      have hfalse := hsent clock cmd orderReq mqId t.oms
      rw [hsend] at hfalse ⊢
      rcases hend with ⟨-, hmap, -⟩ | ⟨hreturned, -⟩
      · exact (congrArg (fun m => m.find? id) hmap).trans (ht id)
      · rw [hreturned] at hfalse
        cases hfalse
    · dsimp only
      rw [Oms.visit_of_find?_none ct (ht rsp.orderId)]
      exact ht id
    · exact (congrArg (fun m => m.find? id) hmap).trans (ht id)

end Served

namespace Trading

variable {γ : Type} {w : Wiring γ} {s s' : Trading γ}

theorem linked_of_reaches {oms : Oms γ} (hstart : oms.Started)
    (h : Reaches (step w) (Allowed w) { served := { oms } } s) : Linked w s :=
  h.invariant (Linked w) (fun _ _ _ hs ha hstep => hs.step ha hstep) (linked_start hstart)

theorem ofQueue_messages (q : ℕ) (rsps : List (ℕ × OrderResponse)) :
    ofQueue q (messages w rsps) =
      (ofQueue q rsps).map (OrderResponse.layout w.doubles).put := by
  induction rsps with
  | nil => rfl
  | cons e rsps ih =>
    rw [messages, List.map_cons, ofQueue_cons, ofQueue_cons, List.map_append]
    congr 1
    split_ifs <;> rfl

theorem Linked.executes (h : Linked w s) (q : ℕ) :
    ∃ log skipped : List Frame, (s.commands q).returned.Sublist log ∧
      (log.map fun f => commandOf w f.data).Sublist (ofQueue q s.requested) ∧
      skipped ++ ((s.commands q).readers 0).out <+: log ∧
      PassedOver ((s.commands q).readers 0).sought skipped ∧
      ofQueue q s.served.executed =
        (((s.commands q).readers 0).out.map fun f => commandOf w f.data) ∧
      ((s.commands q).interrupted = false →
        (log.map fun f => commandOf w f.data) <+: ofQueue q s.requested) := by
  obtain ⟨v, v', hrunning⟩ := running_of_timely (w.tradeMq_length q) (h.carried.reaches q)
  obtain ⟨skipped, hok⟩ := hrunning.readers 0
  have hwriting := hrunning.writing
  refine ⟨v.log, skipped, hwriting.returned, ?_, hok.out_prefix, hok.passedOver, h.executed q,
    fun huninterrupted => ?_⟩
  · rw [← h.carried.requested]
    exact (hwriting.log_prefix.sublist.trans hwriting.log_sublist).map _
  · rw [← h.carried.requested]
    have hexact := (hwriting.exact huninterrupted).1
    refine List.IsPrefix.map _ (hwriting.log_prefix.trans ?_)
    rw [← hexact]
    exact List.prefix_append _ _

theorem sum_ofQueue_le {α : Type} (n : ℕ) (l : List (ℕ × α)) :
    ∑ q ∈ Finset.range n, (ofQueue q l).length ≤ l.length := by
  induction l with
  | nil => simp [ofQueue]
  | cons e l ih =>
    obtain ⟨p, x⟩ := e
    have hone : ∑ q ∈ Finset.range n, (if p = q then [x] else []).length ≤ 1 := by
      simp only [apply_ite List.length, List.length_singleton, List.length_nil, Finset.sum_ite_eq]
      split_ifs <;> omega
    simp only [ofQueue_cons, List.length_append, Finset.sum_add_distrib, List.length_cons]
    omega

theorem Linked.unread (h : Linked w s) {q : ℕ} (hrest : (s.commands q).writer.atRest = true)
    (huninterrupted : (s.commands q).interrupted = false)
    (hready : ((s.commands q).readers 0).reading = .ready)
    (hexpired : ((s.commands q).readers 0).journal.expired = false) :
    ∃ rest, (s.commands q).Unread 0 rest ∧ (∀ f ∈ rest, f ∈ (s.commands q).sent) ∧
      rest.length ≤ (ofQueue q s.requested).length ∧
      ∃ skipped, skipped ++ ((s.commands q).readers 0).out ++ rest = (s.commands q).sent ∧
        PassedOver ((s.commands q).readers 0).sought skipped := by
  obtain ⟨v, v', hrunning⟩ := running_of_timely (w.tradeMq_length q) (h.carried.reaches q)
  obtain ⟨rest, skipped, hunread, hall, hskipped⟩ :=
    hrunning.unread hrest huninterrupted hready hexpired
  refine ⟨rest, hunread, fun f hf => ?_, ?_, skipped, hall, hskipped⟩
  · rw [← hall]
    exact List.mem_append_right _ hf
  · rw [← h.carried.requested, List.length_map, ← hall, List.length_append]
    exact Nat.le_add_left _ _

/-- The order management system has executed what these frames hold, which its readers had still
to read, and has written its responses, with at most one new page for each command. -/
structure Executed (w : Wiring γ) (n : ℕ) (s s' : Trading γ) (rests : ℕ → List Frame) : Prop where
  requested : s'.requested = s.requested
  pending : s'.responses.pending = []
  ready : s'.responses.Ready (· < n)
  readers : ∀ p, (s'.responses.queues p).readers = (s.responses.queues p).readers
  pages : ∀ p, (s'.responses.queues p).directory.pageNums.length ≤
    (s.responses.queues p).directory.pageNums.length + ∑ q ∈ Finset.range n, (rests q).length
  sought : ∀ q < n, ((s'.commands q).readers 0).sought = ((s.commands q).readers 0).sought
  executed : ∀ q < n, ofQueue q s'.served.executed =
    ofQueue q s.served.executed ++ (rests q).map fun f => commandOf w f.data
  all : ∀ q < n, ∃ skipped,
    skipped ++ ((s.commands q).readers 0).out ++ rests q = (s.commands q).sent ∧
      PassedOver ((s.commands q).readers 0).sought skipped

theorem Linked.executes_all (h : Linked w s) (hreturns : w.gateway.Returns) {n : ℕ}
    (hpending : s.responses.pending = []) (hready : s.responses.Ready (· < n))
    (hrest : ∀ q < n, (s.commands q).writer.atRest = true ∧ (s.commands q).interrupted = false)
    (hreading : ∀ q < n, ((s.commands q).readers 0).reading = .ready ∧
      ((s.commands q).readers 0).journal.expired = false)
    (hfew : ∀ p, (s.responses.queues p).directory.pageNums.length + s.requested.length + 1 <
      2 ^ 15) :
    ∃ s' rests, Reaches (Trading.step w) (OmsAlone w) s s' ∧ Executed w n s s' rests := by
  have hunread := fun q (hq : q < n) =>
    h.unread (hrest q hq).1 (hrest q hq).2 (hreading q hq).1 (hreading q hq).2
  choose! rests hrests hsent hlength hall using hunread
  have hidle : Idle w (· < n) s := ⟨h, hpending, hready⟩
  have hbound : ∑ q ∈ Finset.range n, (rests q).length ≤ s.requested.length :=
    (Finset.sum_le_sum fun q hq => hlength q (Finset.mem_range.mp hq)).trans (sum_ofQueue_le n _)
  obtain ⟨s', hreaches, hidle', hrequested, hout, -, hreaders, hpages⟩ := hidle.reads_all hreturns
    n (fun _ hq => hq) hrests (fun q hq f hf => h.carried.sized q f (hsent q hq f hf)) fun p => by
      have hp := hfew p
      omega
  refine ⟨s', rests, hreaches, hrequested, hidle'.pending, hidle'.ready, hreaders, hpages,
    fun q hq => (hout q hq).2, fun q hq => ?_, hall⟩
  rw [hidle'.linked.executed, (hout q hq).1, List.map_append, h.executed]

theorem reaches_responses {b : Outbox}
    (h : Reaches (Outbox.step w.rspMq) Outbox.Allowed s.responses b) :
    Reaches (step w) (Allowed w) s { s with responses := b } := by
  refine h.invariant (fun b => Reaches (step w) (Allowed w) s { s with responses := b })
    (fun b a b' hb ha hstep => ?_) (.refl s)
  have hnext : step w { s with responses := b } (.report a) = some { s with responses := b' } := by
    simp only [step, hstep, Option.map_some]
  exact hb.tail (.report a) ha hnext

theorem served_step {a : TradingAction} (h : step w s a = some s') :
    s'.served = s.served ∨
      ∃ action, Served.step w.gateway w.contracts s.served action = some s'.served := by
  have hserve : ∀ {t : Trading γ} {action : OmsAction}, serve w t action = some s' →
      Served.step w.gateway w.contracts t.served action = some s'.served := by
    intro t action ht
    obtain ⟨served, hserved, rfl⟩ := Option.map_eq_some_iff.mp ht
    exact hserved
  cases a with
  | send q nano timestampUs sender call =>
    obtain ⟨commands, -, rfl⟩ := Option.map_eq_some_iff.mp h
    exact Or.inl rfl
  | strategy q a =>
    obtain ⟨commands, -, rfl⟩ := Option.map_eq_some_iff.mp h
    exact Or.inl rfl
  | processCmd q clock iteration =>
    obtain ⟨commands, -, h⟩ := Option.bind_eq_some_iff.mp h
    obtain ⟨f, -, h⟩ := Option.bind_eq_some_iff.mp h
    rw [processFrame] at h
    split_ifs at h
    · cases h
      exact Or.inl rfl
    · exact Or.inr ⟨_, hserve (t := { s with commands }) h⟩
  | processRsp rsp => exact Or.inr ⟨_, hserve h⟩
  | timer account => exact Or.inr ⟨_, hserve h⟩
  | report a =>
    obtain ⟨responses, -, rfl⟩ := Option.map_eq_some_iff.mp h
    exact Or.inl rfl

theorem served_reaches {oms : Oms γ}
    (h : Reaches (step w) (Allowed w) { served := { oms } } s) :
    Reaches (Served.step w.gateway w.contracts) (fun _ _ => True) { oms } s.served := by
  refine h.invariant (fun s => Reaches (Served.step w.gateway w.contracts) (fun _ _ => True)
    { oms } s.served) (fun t a t' ht _ hstep => ?_) (.refl _)
  rcases served_step hstep with hsame | ⟨action, haction⟩
  · rwa [hsame]
  · exact ht.tail action trivial haction

section Start

variable {w : Wiring γ} {s s' : Trading γ} {q : ℕ} {t : System}

def Opening (s : System) (a : Yijinjing.Action) : Prop :=
  Timely s a ∧ a.frames = [] ∧ ∃ b, a = .writer b ∧ b ≠ .crash

theorem opening_of_working {jname : List UInt8} {t u : System}
    (h : Reaches (System.step jname) Working t u) : Reaches (System.step jname) Opening t u := by
  refine h.mono fun _ a ha => ⟨ha.1, ?_⟩
  have hworking := ha.2
  cases a with
  | reader => cases hworking
  | writer a =>
    refine ⟨?_, a, rfl, ?_⟩
    · cases a <;> first | rfl | cases hworking
    · rintro rfl
      cases hworking

theorem reaches_opened {jname : List UInt8} (hname : jname.length < 30) :
    ∃ u, Reaches (System.step jname) Opening {} u ∧ Finished {} u [] 2 := by
  obtain ⟨t, u, hcreate, hworking, hfinished⟩ :=
    create_finishes (writing_start False) hname rfl (by decide) 0
  exact ⟨u, .head (a := .writer (.create 0)) ⟨⟨trivial, Int64.le_refl _⟩, rfl, _, rfl, by simp⟩
    hcreate
    (opening_of_working hworking), hfinished⟩

theorem reaches_strategy (h : Reaches (System.step (w.tradeMq q)) Opening (s.commands q) t) :
    Reaches (step w) (Allowed w) s { s with commands := Function.update s.commands q t } := by
  refine h.invariant (fun t => Reaches (step w) (Allowed w) s
    { s with commands := Function.update s.commands q t }) (fun t a t' ht ha hstep => ?_) ?_
  · have hnext : step w { s with commands := Function.update s.commands q t } (.strategy q a) =
        some { s with commands := Function.update s.commands q t' } := by
      simp only [step, stepAt, Function.update_self, hstep, Option.map_some, Function.update_idem]
    obtain ⟨htimely, hframes, b, rfl, -⟩ := ha
    refine ht.tail (.strategy q (.writer b)) ⟨?_, hframes, by simp, by simp⟩ hnext
    dsimp only
    rwa [Function.update_self]
  · rw [Function.update_eq_self]
    exact .refl _

theorem reaches_rspWriter
    (h : Reaches (System.step (w.rspMq q)) Opening (s.responses.queues q) t) :
    Reaches (step w) (Allowed w) s
      { s with
        responses := { s.responses with queues := Function.update s.responses.queues q t } } := by
  refine reaches_responses (h.invariant (fun t => Reaches (Outbox.step w.rspMq) Outbox.Allowed
    s.responses { s.responses with queues := Function.update s.responses.queues q t })
    (fun t a t' ht ha hstep => ?_) ?_)
  · have hnext : Outbox.step w.rspMq
        { s.responses with queues := Function.update s.responses.queues q t } (.queue q a) =
          some { s.responses with queues := Function.update s.responses.queues q t' } := by
      simp only [Outbox.step, stepAt, Function.update_self, hstep, Option.map_some,
        Function.update_idem]
    obtain ⟨htimely, hframes, b, rfl, hcrash⟩ := ha
    refine ht.tail (.queue q (.writer b)) ⟨?_, hframes, by simpa using hcrash⟩ hnext
    dsimp only
    rwa [Function.update_self]
  · rw [Function.update_eq_self]
    exact .refl _

theorem alone_of_finished {u : System} (h : Finished {} u [] 2) :
    let queues := Function.update (fun _ => ({} : System)) 0 u
    (∀ p, (queues p).writer.atRest = true) ∧ (∃ page, (queues 0).writer = ⟨[], .ready page⟩) ∧
      (∀ p, (queues p).directory.pageNums.length ≤ 2) ∧ (queues 0).readers 0 = {} := by
  intro queues
  have hother : ∀ p ≠ 0, queues p = {} := fun p hp => by
    simp only [queues, Function.update_of_ne hp]
  have hself : queues 0 = u := by
    simp only [queues, Function.update_self]
  refine ⟨fun p => ?_, ?_, fun p => ?_, ?_⟩
  · rcases eq_or_ne p 0 with rfl | hp
    · obtain ⟨page, hpage⟩ := h.ready
      rw [hself, hpage]
      rfl
    · rw [hother p hp]
      rfl
  · rw [hself]
    exact h.ready
  · rcases eq_or_ne p 0 with rfl | hp
    · rw [hself]
      exact h.pages
    · rw [hother p hp]
      exact Nat.zero_le 2
  · rw [hself, h.readers]

structure Opened (w : Wiring γ) (oms : Oms γ) (c : TraderCommand) (s : Trading γ) : Prop where
  reaches : Reaches (step w) (Allowed w) { served := { oms } } s
  requested : s.requested = [(0, c)]
  untouched : s.served.executed = []
  pending : s.responses.pending = []
  ready : s.responses.Ready (· < 1)
  rest : (s.commands 0).writer.atRest = true ∧ (s.commands 0).interrupted = false
  reader : (s.commands 0).readers 0 = {}
  rspReader : (s.responses.queues 0).readers 0 = {}
  pages : ∀ p, (s.responses.queues p).directory.pageNums.length ≤ 2

theorem exists_opened (w : Wiring γ) (oms : Oms γ) (sender : OrderSender) (call : OrderSender.Call)
    (hsender : (RecordLayout.Layout.chars 16).Fits sender.strategyId)
    (hcall : call.Typed w.doubles) : ∃ s, Opened w oms (sender.command call) s := by
  obtain ⟨u, hopening, hopened⟩ := reaches_opened (w.rspMq_length 0)
  obtain ⟨v, hstarting, hstarted⟩ := reaches_opened (w.tradeMq_length 0)
  obtain ⟨page, hpage⟩ := hstarted.ready
  have hv : Reaches (System.step (w.tradeMq 0)) Permitted {} v :=
    hstarting.mono fun _ _ ha => ha.1.1
  obtain ⟨x, x', hrunning⟩ := running_of_permitted (w.tradeMq_length 0) hv
  have hfew : v.directory.pageNums.length + 2 < 2 ^ 15 :=
    lt_of_le_of_lt (Nat.add_le_add_right hstarted.pages 2) (by decide)
  obtain ⟨y, z, hcallstep, hworking, -, hreaders, hfinished, -, hinterrupted, -⟩ :=
    call_finishes hrunning.writing (w.tradeMq_length 0) hpage hfew .writeFrame
      (length_command 0 0 (sender.command call))
  let s₁ : Trading γ :=
    { served := { oms }
      responses := { queues := Function.update (fun _ => {}) 0 u } }
  have hfirst : Reaches (step w) (Allowed w) { served := { oms } } s₁ := reaches_rspWriter hopening
  let s₂ : Trading γ := { s₁ with commands := Function.update (fun _ => {}) 0 v }
  have hsecond : Reaches (step w) (Allowed w) s₁ s₂ := reaches_strategy hstarting
  let s₃ : Trading γ :=
    { s₁ with
      commands := Function.update (fun _ => {}) 0 y
      requested := [(0, sender.command call)] }
  have hsend : step w s₂ (.send 0 0 0 sender call) = some s₃ := by
    simp only [s₂, step, stepAt, Function.update_self]
    rw [hcallstep]
    simp only [Option.map_some, Function.update_idem]
    rfl
  have hworking' : Reaches (System.step (w.tradeMq 0)) Opening (s₃.commands 0) z := by
    simp only [s₃, Function.update_self]
    exact opening_of_working hworking
  have hclock : (s₂.commands 0).clock ≤ 0 := by
    simp only [s₂, Function.update_self]
    rw [hstarted.clock]
    exact Int64.le_refl _
  have hthird := ((hfirst.trans hsecond).tail (.send 0 0 0 sender call) ⟨hclock, hsender, hcall⟩
    hsend).trans (reaches_strategy hworking')
  obtain ⟨hrest, hready, hpages, hreader⟩ := alone_of_finished hopened
  refine ⟨_, hthird, rfl, rfl, rfl, ⟨hrest, fun p hp => ?_⟩, ?_, ?_, hreader, hpages⟩
  · obtain rfl : p = 0 := Nat.lt_one_iff.mp hp
    exact hready
  · obtain ⟨page, hpage⟩ := hfinished.ready
    dsimp only
    rw [Function.update_self, hpage, hfinished.interrupted, hinterrupted, hstarted.interrupted]
    exact ⟨rfl, rfl⟩
  · dsimp only
    rw [Function.update_self, hfinished.readers, hreaders, hstarted.readers]

theorem Opened.command {oms : Oms γ} {c : TraderCommand} (h : Opened w oms c s)
    (hstart : oms.Started) {rests : ℕ → List Frame} (hexecuted : Executed w 1 s s' rests) :
    ofQueue 0 s'.served.executed = [c] := by
  obtain ⟨skipped, hall, hskipped⟩ := hexecuted.all 0 Nat.one_pos
  rw [hskipped.first (by rw [h.reader]), h.reader, List.nil_append] at hall
  rw [hexecuted.executed 0 Nat.one_pos, h.untouched]
  have hsent := (linked_of_reaches hstart h.reaches).carried.requested 0
  rw [← hall, h.requested] at hsent
  exact hsent

theorem Opened.executed {oms : Oms γ} {c : TraderCommand} (h : Opened w oms c s)
    (hreturns : w.gateway.Returns) (hstart : oms.Started) :
    ∃ s', Reaches (step w) (Allowed w) { served := { oms } } s' ∧ s'.requested = [(0, c)] ∧
      ofQueue 0 s'.served.executed = [c] ∧ s'.Reported ∧
      (s'.responses.queues 0).readers 0 = {} := by
  have hlinked := linked_of_reaches hstart h.reaches
  obtain ⟨s', rests, hreaches, hexecuted⟩ := hlinked.executes_all hreturns h.pending h.ready
      (fun q hq => by obtain rfl := Nat.lt_one_iff.mp hq; exact h.rest)
      (fun q hq => by obtain rfl := Nat.lt_one_iff.mp hq; rw [h.reader]; exact ⟨rfl, rfl⟩)
      fun p => by
        have hp := h.pages p
        rw [h.requested, List.length_singleton]
        omega
  refine ⟨s', h.reaches.trans (hreaches.mono fun _ _ ha => ha.1),
    hexecuted.requested.trans h.requested, h.command hstart hexecuted,
    ⟨hexecuted.pending, hexecuted.ready.atRest⟩, ?_⟩
  rw [hexecuted.readers]
  exact h.rspReader

theorem eq_single_of_ofQueue {α : Type} {l : List (ℕ × α)} {q : ℕ} {x : α}
    (h : ofQueue q l = [x]) (hother : ∀ p ≠ q, ofQueue p l = []) : l = [(q, x)] := by
  have hall : ∀ e ∈ l, e.1 = q := by
    intro e he
    by_contra hne
    have hmem := mem_ofQueue.mpr (show (e.1, e.2) ∈ l from he)
    rw [hother e.1 hne] at hmem
    cases hmem
  rw [ofQueue, List.filter_eq_self.mpr fun e he => decide_eq_true (hall e he)] at h
  obtain ⟨e, rfl, rfl⟩ := List.map_eq_singleton_iff.mp h
  rw [← hall e List.mem_cons_self]

theorem answered_of_refusing {oms : Oms γ} {c : TraderCommand} {orderReq : TraderOrderReq}
    (hstart : oms.Started) (hrefuses : ∀ req gw, (w.gateway.sendOrder req gw).1 = false)
    (h : Reaches (step w) (Allowed w) { served := { oms } } s)
    (hrequested : s.requested = [(0, c)]) (hc : c.submission w.contracts = some orderReq)
    (hexecuted : ofQueue 0 s.served.executed = [c]) :
    ofQueue 0 s.served.oms.rspWriters ≠ [] := by
  have hlinked := linked_of_reaches hstart h
  have hall : s.served.executed = [(0, c)] := by
    refine eq_single_of_ofQueue hexecuted fun p hp => ?_
    obtain ⟨log, skipped, -, hlog, hread, -, hsame, -⟩ := hlinked.executes p
    rw [hrequested, ofQueue_singleton, if_neg hp.symm, List.sublist_nil, List.map_eq_nil_iff] at hlog
    rw [hlog] at hread
    rw [hsame, (List.append_eq_nil_iff.mp (List.prefix_nil.mp hread)).2]
    rfl
  have horders : submissions w.contracts s.served.executed = [(0, orderReq)] := by
    rw [hall]
    simp [submissions, hc]
  have hnone := Served.find?_of_refusing hstart hrefuses (served_reaches h) 1
  have htold := hlinked.faithful.finished 1 le_rfl (by rw [hlinked.faithful.counter, horders]; simp)
    hnone
  obtain ⟨rsp, hrsp⟩ := List.exists_mem_of_ne_nil _ htold
  obtain ⟨hmem, hid⟩ := List.mem_filter.mp (List.mem_filter.mp hrsp).1
  obtain ⟨e, he, rfl⟩ := List.mem_map.mp hmem
  obtain ⟨before, after, hsplit⟩ := List.append_of_mem he
  obtain ⟨req, hget, -⟩ := (hlinked.faithful.written before e ⟨after, by rw [hsplit]; simp⟩).answers
  rw [of_decide_eq_true hid, horders] at hget
  obtain ⟨hqueue, -⟩ := Prod.mk.inj (Option.some.inj hget)
  exact List.ne_nil_of_mem (mem_ofQueue.mpr (show (0, e.2) ∈ _ from hqueue ▸ he))

def desk : Wiring Unit where
  gateway := .stub false
  contracts := .ofList [ticker001]
  doubles :=
    { bits := fun q => if q = 100 then 0x4059000000000000 else 0
      value := fun n => if n = 0x4059000000000000 then 100 else 0 }
  tradeMq := fun _ => RecordLayout.Layout.ofChars "trade_mq"
  rspMq := fun _ => RecordLayout.Layout.ofChars "rsp_mq"
  tradeMq_length := fun _ => by decide
  rspMq_length := fun _ => by decide

theorem desk_returns : desk.gateway.Returns :=
  ⟨fun _ _ _ => ⟨_, rfl⟩, fun _ _ => ⟨_, rfl⟩⟩

theorem desk_started : (Oms.fresh []).Started := ⟨rfl, rfl, rfl⟩

theorem exists_opened_desk : ∃ s, Opened desk (Oms.fresh []) Tracked.buyTwoCmd s := by
  have hprice : desk.doubles.layout.Fits 100 :=
    ⟨show desk.doubles.bits 100 < 256 ^ 8 by decide +kernel, by decide +kernel⟩
  have hname : (RecordLayout.Layout.chars 16).Fits "strategy" :=
    ⟨by decide, by simp⟩
  exact exists_opened desk (Oms.fresh []) ⟨"strategy", .kNone⟩ (.buyOpen 1 2 100 .kLimit 7) hname
    ⟨by decide, by decide, ⟨by decide, by decide⟩, hprice⟩

theorem exists_answered_desk : ∃ s : Trading Unit,
    Reaches (step desk) (Allowed desk) { served := { oms := Oms.fresh [] } } s ∧
      ofQueue 0 s.served.executed = [Tracked.buyTwoCmd] ∧ s.Reported ∧
      (s.responses.queues 0).readers 0 = {} ∧ ofQueue 0 s.served.oms.rspWriters ≠ [] := by
  obtain ⟨s, hs⟩ := exists_opened_desk
  obtain ⟨s', hreaches, hrequested, hexecuted, hreported, hreader⟩ :=
    hs.executed desk_returns desk_started
  have hsubmission : Tracked.buyTwoCmd.submission desk.contracts = some Tracked.buyTwo := by
    decide +kernel
  exact ⟨s', hreaches, hexecuted, hreported, hreader, answered_of_refusing desk_started
    (fun _ _ => rfl) hreaches hrequested hsubmission hexecuted⟩

end Start

end Trading

end FlareTrader
