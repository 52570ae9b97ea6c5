import FlareTrader.TradingLink

/-! When the strategies are at rest, the order management system executes every command they
have sent and writes every response, whatever came before. -/

namespace FlareTrader

open Execution Yijinjing

def Gateway.Returns {γ : Type} (g : Gateway γ) : Prop :=
  (∀ id privdata gw, ∃ r, g.cancelOrder id privdata gw = some r) ∧
    ∀ signal gw, ∃ gw', g.onNotify signal gw = some gw'

namespace Oms

variable {γ : Type} {g : Gateway γ} {ct : ContractTable} {s s' : Oms γ}

theorem cancelWhere_returns (h : g.Returns) (p : Order → Bool) (withoutCheck : Bool)
    (iteration : List ℕ) (s : Oms γ) :
    ∃ s', cancelWhere g p withoutCheck iteration s = some s' := by
  induction iteration generalizing s with
  | nil => exact ⟨s, rfl⟩
  | cons id iteration ih =>
    rw [cancelWhere]
    cases s.orderMap.find? id with
    | none => exact ih s
    | some order =>
      dsimp only
      split_ifs
      · obtain ⟨r, hr⟩ := h.1 order.req.orderId order.privdata s.gateway
        rw [doCancelOrder_eq_some.mpr ⟨r, hr, rfl⟩, Option.bind_some]
        exact ih _
      · exact ih s

theorem executeCmd_returns (h : g.Returns) (ct : ContractTable) (clock : ℕ → UInt64)
    (iteration : List ℕ) (cmd : TraderCommand) (mqId : ℕ) (s : Oms γ) :
    ∃ s', executeCmd g ct clock iteration cmd mqId s = some s' := by
  unfold executeCmd
  split_ifs
  · exact ⟨s, rfl⟩
  · cases cmd.cmd with
    | kNewOrder orderReq => exact ⟨_, rfl⟩
    | kCancelOrder orderId =>
      simp only [cancelOrder]
      cases s.orderMap.find? orderId with
      | none => exact ⟨s, rfl⟩
      | some order =>
        obtain ⟨r, hr⟩ := h.1 order.req.orderId order.privdata s.gateway
        exact ⟨_, doCancelOrder_eq_some.mpr ⟨r, hr, rfl⟩⟩
    | kCancelTicker tickerId => exact cancelWhere_returns h _ _ _ s
    | kCancelAll => exact cancelWhere_returns h _ _ _ s
    | kNotify signal =>
      obtain ⟨gateway, hgateway⟩ := h.2 signal s.gateway
      exact ⟨_, by simp only [hgateway]; rfl⟩
    | unknown => exact ⟨s, rfl⟩

/-- A command is answered at once at most once, to the queue it came from. -/
theorem executeCmd_rspWriters {clock : ℕ → UInt64} {iteration : List ℕ} {cmd : TraderCommand}
    {mqId : ℕ} (h : executeCmd g ct clock iteration cmd mqId s = some s') :
    ∃ more, s'.rspWriters = s.rspWriters ++ more ∧ more.length ≤ 1 ∧ ∀ e ∈ more, e.1 = mqId := by
  have hnone : s.rspWriters = s.rspWriters ++ [] := (List.append_nil _).symm
  rcases executeCmd_cases h with ⟨orderReq, -, rfl⟩ | hs
  · cases hcontract : ct.getByIndex orderReq.tickerId with
    | none =>
      simp only [sendOrder, hcontract]
      exact ⟨[], hnone, by simp⟩
    | some contract =>
      obtain ⟨order, returned, s', -, hsend, -, -, hend⟩ :=
        sendOrder_outcome g clock cmd mqId s hcontract
      rw [hsend]
      rcases hend with ⟨-, -, errorCode, -, hlog⟩ | ⟨-, -, -, hlog⟩
      · exact ⟨_, hlog, by simp⟩
      · exact ⟨[], hlog.trans hnone, by simp⟩
  · rw [hs]
    exact ⟨[], hnone, by simp⟩

end Oms

def TradingAction.ofOms : TradingAction → Prop
  | .strategy _ (.reader 0 .next) => True
  | .strategy _ (.reader 0 .look) => True
  | .processCmd _ _ _ => True
  | .report (.write _) => True
  | .report (.queue _ a) => a.working
  | _ => False

namespace Trading

variable {γ : Type} {w : Wiring γ} {used : ℕ → Prop} {s s' : Trading γ}

def OmsAlone (w : Wiring γ) (s : Trading γ) (a : TradingAction) : Prop := s.Allowed w a ∧ a.ofOms

theorem reaches_report {b : Outbox}
    (h : Reaches (Outbox.step w.rspMq) Outbox.Busy s.responses b) :
    Reaches (step w) (OmsAlone w) s { s with responses := b } := by
  refine h.invariant (fun b => Reaches (step w) (OmsAlone w) s { s with responses := b })
    (fun b a b' hb ha hstep => ?_) (.refl s)
  have hnext : step w { s with responses := b } (.report a) = some { s with responses := b' } := by
    simp only [step, hstep, Option.map_some]
  refine hb.tail (.report a) ⟨ha.1, ?_⟩ hnext
  cases a with
  | write nano => trivial
  | queue q a => exact ha.2

theorem OmsAlone.linked (h : Reaches (step w) (OmsAlone w) s s') (hs : Linked w s) :
    Linked w s' :=
  h.invariant (Linked w) (fun _ _ _ ht ha hstep => ht.step ha.1 hstep) hs

structure Idle (w : Wiring γ) (used : ℕ → Prop) (s : Trading γ) : Prop where
  linked : Linked w s
  pending : s.responses.pending = []
  ready : s.responses.Ready used

structure Advanced (w : Wiring γ) (used : ℕ → Prop) (s s' : Trading γ) (q : ℕ)
    (read : List Frame) : Prop where
  idle : Idle w used s'
  requested : s'.requested = s.requested
  out : ((s'.commands q).readers 0).out = ((s.commands q).readers 0).out ++ read
  sought : ((s'.commands q).readers 0).sought = ((s.commands q).readers 0).sought
  other : ∀ p ≠ q, s'.commands p = s.commands p
  readers : ∀ p, (s'.responses.queues p).readers = (s.responses.queues p).readers
  pages : ∀ p, (s'.responses.queues p).directory.pageNums.length ≤
    (s.responses.queues p).directory.pageNums.length + read.length

theorem reaches_found (s : Trading γ) {q : ℕ} {r₁ r₂ : Reader}
    (hnext : ((s.commands q).readers 0).step (s.commands q).directory .next = some (.ok r₁))
    (hlook : r₁.step (s.commands q).directory .look = some (.ok r₂)) :
    Reaches (step w) (OmsAlone w) s { s with commands := withReader s.commands q 0 r₂ } := by
  have hfirst : step w s (.strategy q (.reader 0 .next)) =
      some { s with commands := withReader s.commands q 0 r₁ } := by
    simp only [step, stepAt_reader hnext, Option.map_some]
  have hlook' : ((withReader s.commands q 0 r₁ q).readers 0).step
      (withReader s.commands q 0 r₁ q).directory .look = some (.ok r₂) := by
    rwa [withReader_reader, withReader_directory]
  have hsecond : step w { s with commands := withReader s.commands q 0 r₁ }
      (.strategy q (.reader 0 .look)) =
        some { s with commands := withReader s.commands q 0 r₂ } := by
    simp only [step, stepAt_reader hlook', Option.map_some, withReader_withReader]
  have hallowed : ∀ t : Trading γ, ∀ a : ReaderAction, a = .next ∨ a = .look →
      OmsAlone w t (.strategy q (.reader 0 a)) := by
    rintro t a (rfl | rfl) <;> exact ⟨⟨⟨trivial, trivial⟩, rfl, by simp, by simp⟩, trivial⟩
  exact .head (hallowed s .next (Or.inl rfl)) hfirst
    (.tail (.refl _) _ (hallowed _ .look (Or.inr rfl)) hsecond)

theorem step_processCmd (hreturns : w.gateway.Returns) (s : Trading γ) {q : ℕ} {r : Reader}
    {f : Frame} (htake : ((s.commands q).readers 0).step (s.commands q).directory .take =
      some (.ok r)) (hlast : r.out.getLast? = some f)
    (hsized : f.data.length = (TraderCommand.layout w.doubles 0).size) :
    ∃ served more, step w s (.processCmd q (fun _ => 0) s.served.oms.orderMap.keys) =
        some { s with
          served
          commands := withReader s.commands q 0 r
          responses := s.responses.issue (messages w more) } ∧
      more.length ≤ 1 ∧ ∀ e ∈ more, e.1 = q := by
  obtain ⟨oms, homs⟩ := Oms.executeCmd_returns hreturns w.contracts (fun _ => 0)
    s.served.oms.orderMap.keys (commandOf w f.data) q s.served.oms
  obtain ⟨more, hmore, hfew, hqueue⟩ := Oms.executeCmd_rspWriters homs
  refine ⟨⟨oms, s.served.executed ++ [(q, commandOf w f.data)]⟩, more, ?_, hfew, hqueue⟩
  have hserved : Served.step w.gateway w.contracts s.served (.execute (commandOf w f.data) q
      (fun _ => 0) s.served.oms.orderMap.keys) =
        some ⟨oms, s.served.executed ++ [(q, commandOf w f.data)]⟩ := by
    simp only [Served.step, Oms.step, List.Perm.refl, if_true, homs, Option.map_some,
      OmsAction.command]
  simp only [step, stepAt_reader htake, Option.bind_some, withReader_reader, hlast, processFrame,
    hsized, ne_eq, not_true_eq_false, if_false, serve, hserved, Option.map_some, hmore,
    List.drop_left]

theorem length_response (e : ℕ × OrderResponse) :
    (messageFrame 0 ((OrderResponse.layout w.doubles).put e.2)).length ≤ pageMinHeadroom := by
  have hlength : (messageFrame 0 ((OrderResponse.layout w.doubles).put e.2)).length = 84 := by
    rw [Frame.length, messageFrame, RecordLayout.Layout.length_put]
    rfl
  rw [hlength]
  decide

/-- The responses to a command are written before the next command is read. -/
theorem reports_more {b : Outbox} {more : List (ℕ × OrderResponse)}
    (hok : (b.issue (messages w more)).Ok w.rspMq) (hpending : b.pending = [])
    (hready : b.Ready used) (hone : more.length ≤ 1) (hqueue : ∀ e ∈ more, used e.1)
    (hfew : ∀ p, (b.queues p).directory.pageNums.length + 2 < 2 ^ 15) :
    ∃ b', Reaches (Outbox.step w.rspMq) Outbox.Busy (b.issue (messages w more)) b' ∧
      Outbox.Written used (b.issue (messages w more)) b' more.length := by
  have hissued : (b.issue (messages w more)).pending = messages w more := by
    rw [Outbox.issue, hpending, List.nil_append]
  have hlength : (messages w more).length = more.length := List.length_map _
  have hmessage : ∀ e ∈ messages w more, used e.1 ∧
      (messageFrame 0 e.2).length ≤ pageMinHeadroom := by
    intro e he
    obtain ⟨e, he', rfl⟩ := List.mem_map.mp he
    exact ⟨hqueue e he', length_response e⟩
  have hwrites := hok.writes w.rspMq_length ⟨hready.atRest, hready.ready⟩
  rw [hissued, hlength] at hwrites
  exact hwrites (fun e he => (hmessage e he).1) (fun e he => (hmessage e he).2) fun p => by
    have hp := hfew p
    change (b.queues p).directory.pageNums.length + more.length + 1 < _
    omega

theorem Idle.reads_next (hs : Idle w used s) (hreturns : w.gateway.Returns) {q : ℕ}
    (hq : used q) {f : Frame} {rest : List Frame} (hunread : (s.commands q).Unread 0 (f :: rest))
    (hsized : f.data.length = (TraderCommand.layout w.doubles 0).size)
    (hfew : ∀ p, (s.responses.queues p).directory.pageNums.length + 2 < 2 ^ 15) :
    ∃ s', Reaches (step w) (OmsAlone w) s s' ∧ Advanced w used s s' q [f] ∧
      (s'.commands q).Unread 0 rest := by
  obtain ⟨r₁, r₂, r, hnext, hlook, htake, hout, hsought, hrest⟩ := hunread.gets
  have htake' : ((withReader s.commands q 0 r₂ q).readers 0).step
      (withReader s.commands q 0 r₂ q).directory .take = some (.ok r) := by
    rwa [withReader_reader, withReader_directory]
  obtain ⟨served, more, hstep, hone, hqueue⟩ := step_processCmd (w := w) hreturns
    { s with commands := withReader s.commands q 0 r₂ } htake' (by rw [hout, List.getLast?_concat])
    hsized
  rw [withReader_withReader] at hstep
  have hreported : ({ s with commands := withReader s.commands q 0 r₂ } : Trading γ).Reported :=
    ⟨hs.pending, hs.ready.atRest⟩
  have hreached := (reaches_found (w := w) s hnext hlook).tail (.processCmd q _ _)
    ⟨hreported, trivial⟩ hstep
  obtain ⟨responses, hreports, hwritten⟩ := reports_more
    (OmsAlone.linked hreached hs.linked).responses hs.pending hs.ready hone
    (fun e he => (hqueue e he).symm ▸ hq) hfew
  have hreached' := hreached.trans (reaches_report hreports)
  refine ⟨_, hreached', ⟨⟨OmsAlone.linked hreached' hs.linked, hwritten.pending, hwritten.ready⟩,
    rfl, ?_, ?_, fun p hp => withReader_other hp, hwritten.readers, fun p => ?_⟩, ?_⟩
  · dsimp only
    rw [withReader_reader, hout]
  · dsimp only
    rw [withReader_reader, hsought]
  · exact (hwritten.pages p).trans (Nat.add_le_add_left hone _)
  · dsimp only
    rw [withReader_at]
    exact hrest

theorem Idle.reads (hs : Idle w used s) (hreturns : w.gateway.Returns) {q : ℕ} (hq : used q)
    {rest : List Frame} (hunread : (s.commands q).Unread 0 rest)
    (hsized : ∀ f ∈ rest, f.data.length = (TraderCommand.layout w.doubles 0).size)
    (hfew : ∀ p, (s.responses.queues p).directory.pageNums.length + rest.length + 1 < 2 ^ 15) :
    ∃ s', Reaches (step w) (OmsAlone w) s s' ∧ Advanced w used s s' q rest := by
  induction rest generalizing s with
  | nil => exact ⟨s, .refl s, hs, rfl, (List.append_nil _).symm, rfl, fun _ _ => rfl,
      fun _ => rfl, fun _ => le_rfl⟩
  | cons f rest ih =>
    -- the first command may take a page of a response journal, which leaves one for each other
    obtain ⟨hf, hsized⟩ := List.forall_mem_cons.mp hsized
    simp only [List.length_cons] at hfew
    obtain ⟨t, hreaches, hnext, hunread⟩ := hs.reads_next hreturns hq hunread hf fun p => by
      have hp := hfew p
      omega
    have hpages : ∀ p, (t.responses.queues p).directory.pageNums.length ≤
        (s.responses.queues p).directory.pageNums.length + 1 := hnext.pages
    obtain ⟨s', hreaches', hlater⟩ := ih hnext.idle hunread hsized fun p => by
      have hp := hfew p
      have hmore := hpages p
      omega
    refine ⟨s', hreaches.trans hreaches', hlater.idle, hlater.requested.trans hnext.requested, ?_,
      hlater.sought.trans hnext.sought, fun p hp => (hlater.other p hp).trans (hnext.other p hp),
      fun p => (hlater.readers p).trans (hnext.readers p), fun p => ?_⟩
    · rw [hlater.out, hnext.out, List.append_assoc, List.singleton_append]
    · have hmore := hpages p
      have hp := hlater.pages p
      rw [List.length_cons]
      omega

/-- The loop in `ProcessCmd`: one trade journal after the other is read to its end. -/
theorem Idle.reads_all (hs : Idle w used s) (hreturns : w.gateway.Returns) (n : ℕ)
    (hused : ∀ q < n, used q) {rests : ℕ → List Frame}
    (hunread : ∀ q < n, (s.commands q).Unread 0 (rests q))
    (hsized : ∀ q < n, ∀ f ∈ rests q, f.data.length = (TraderCommand.layout w.doubles 0).size)
    (hfew : ∀ p, (s.responses.queues p).directory.pageNums.length +
      ∑ q ∈ Finset.range n, (rests q).length + 1 < 2 ^ 15) :
    ∃ s', Reaches (step w) (OmsAlone w) s s' ∧ Idle w used s' ∧ s'.requested = s.requested ∧
      (∀ q < n, ((s'.commands q).readers 0).out = ((s.commands q).readers 0).out ++ rests q ∧
        ((s'.commands q).readers 0).sought = ((s.commands q).readers 0).sought) ∧
      (∀ q, n ≤ q → s'.commands q = s.commands q) ∧
      (∀ p, (s'.responses.queues p).readers = (s.responses.queues p).readers) ∧
      ∀ p, (s'.responses.queues p).directory.pageNums.length ≤
        (s.responses.queues p).directory.pageNums.length +
          ∑ q ∈ Finset.range n, (rests q).length := by
  induction n with
  | zero => exact ⟨s, .refl s, hs, rfl, by simp, fun _ _ => rfl, fun _ => rfl, by simp⟩
  | succ n ih =>
    simp only [Finset.sum_range_succ] at hfew ⊢
    obtain ⟨t, hreaches, hidle, hrequested, hout, hother, hreaders, hpages⟩ :=
      ih (fun q hq => hused q (by omega)) (fun q hq => hunread q (by omega))
        (fun q hq => hsized q (by omega)) fun p => by
          have hp := hfew p
          omega
    -- the loops over the journals before leave this one as it was
    have hn : (t.commands n).Unread 0 (rests n) := by
      rw [hother n le_rfl]
      exact hunread n n.lt_succ_self
    obtain ⟨s', hreaches', hlater⟩ := hidle.reads hreturns (hused n n.lt_succ_self) hn
      (hsized n n.lt_succ_self) fun p => by
        have hp := hfew p
        have hmore := hpages p
        omega
    refine ⟨s', hreaches.trans hreaches', hlater.idle, hlater.requested.trans hrequested,
      fun q hq => ?_, fun q hq => ?_, fun p => (hlater.readers p).trans (hreaders p), fun p => ?_⟩
    · rcases Nat.lt_succ_iff_lt_or_eq.mp hq with hlt | rfl
      · rw [hlater.other q hlt.ne]
        exact hout q hlt
      · rw [hlater.out, hlater.sought, hother q le_rfl]
        exact ⟨rfl, rfl⟩
    · rw [hlater.other q (by omega), hother q (by omega)]
    · have hmore := hpages p
      have hp := hlater.pages p
      omega

end Trading

end FlareTrader
