import FlareTrader.JournalOutbox
import FlareTrader.OmsAnswers
import FlareTrader.TraderMessages

/-! The strategies and the order management system, each in a process of its own, linked by the
journals: commands one way, responses the other. Stores and reads of all processes come in any
order, and a strategy can be killed and started again anywhere. -/

namespace FlareTrader

open Execution Yijinjing

structure Wiring (γ : Type) where
  gateway : Gateway γ
  contracts : ContractTable
  doubles : Doubles
  tradeMq : ℕ → List UInt8
  rspMq : ℕ → List UInt8
  tradeMq_length : ∀ q, (tradeMq q).length < 30
  rspMq_length : ∀ q, (rspMq q).length < 30

/-- The writer of a trade journal is its strategy, its reader 0 is the order management system;
the readers of a response journal are its strategy. The commands sent are noted. -/
structure Trading (γ : Type) where
  served : Served γ
  commands : ℕ → System := fun _ => {}
  responses : Outbox := {}
  requested : List (ℕ × TraderCommand) := []

inductive TradingAction
  | send (q : ℕ) (nano : Int64) (timestampUs : ℕ) (sender : OrderSender) (call : OrderSender.Call)
  | strategy (q : ℕ) (a : Yijinjing.Action)
  | processCmd (q : ℕ) (clock : ℕ → UInt64) (iteration : List ℕ)
  | processRsp (rsp : GatewayOrderResponse)
  | timer (account : Account)
  | report (a : OutboxAction)

namespace Trading

variable {γ : Type} (w : Wiring γ)

def messages (rsps : List (ℕ × OrderResponse)) : List (ℕ × List UInt8) :=
  rsps.map fun e => (e.1, (OrderResponse.layout w.doubles).put e.2)

def serve (s : Trading γ) (a : OmsAction) : Option (Trading γ) :=
  (Served.step w.gateway w.contracts s.served a).map fun served =>
    { s with
      served
      responses := s.responses.issue
        (messages w (served.oms.rspWriters.drop s.served.oms.rspWriters.length)) }

def commandOf (data : List UInt8) : TraderCommand := (TraderCommand.layout w.doubles 0).get data

def processFrame (s : Trading γ) (q : ℕ) (clock : ℕ → UInt64) (iteration : List ℕ) (f : Frame) :
    Option (Trading γ) :=
  if f.data.length ≠ (TraderCommand.layout w.doubles 0).size then some s
  else serve w s (.execute (commandOf w f.data) q clock iteration)

def step (s : Trading γ) : TradingAction → Option (Trading γ)
  | .send q nano timestampUs sender call =>
    let data := (TraderCommand.layout w.doubles timestampUs).put (sender.command call)
    (stepAt w.tradeMq s.commands q (.writer (.call .writeFrame (messageFrame nano data)))).map
      fun commands =>
        { s with
          commands
          requested := s.requested ++ [(q, sender.command call)] }
  | .strategy q a => (stepAt w.tradeMq s.commands q a).map fun commands => { s with commands }
  | .processCmd q clock iteration =>
    (stepAt w.tradeMq s.commands q (.reader 0 .take)).bind fun commands =>
      (((commands q).readers 0).out.getLast?).bind fun f =>
        processFrame w { s with commands } q clock iteration f
  | .processRsp rsp => serve w s (.deliver rsp)
  | .timer account => serve w s (.account account)
  | .report a => (s.responses.step w.rspMq a).map fun responses => { s with responses }

def Reported (s : Trading γ) : Prop :=
  s.responses.pending = [] ∧ ∀ q, (s.responses.queues q).writer.atRest = true

/-- Strategies send through their sender, and the order management system, which is not killed,
seeks its readers before it reads, reads through `ProcessCmd` and writes its responses before it
goes on. The clock never goes back. -/
def Allowed (s : Trading γ) : TradingAction → Prop
  | .send q nano _ sender call => (s.commands q).clock ≤ nano ∧
    (RecordLayout.Layout.chars 16).Fits sender.strategyId ∧ call.Typed w.doubles
  | .strategy q a => Timely (s.commands q) a ∧ a.frames = [] ∧ a ≠ .reader 0 .take ∧
      (a = .reader 0 .load → ((s.commands q).readers 0).out = [])
  | .processCmd _ _ _ => s.Reported
  | .processRsp _ => s.Reported
  | .timer _ => True
  | .report a => s.responses.Allowed a

section Readers

variable {names : ℕ → List UInt8} {queues queues' : ℕ → System} {q : ℕ}

theorem step_take {d : Directory} {r : Reader} {result : Except Fault Reader}
    (h : r.step d .take = some result) : ∃ r' f, result = .ok r' ∧ r'.out = r.out ++ [f] := by
  cases Reader.step_cases h with
  | take p hreading hp => exact ⟨_, _, rfl, rfl⟩

/-- A reader gets a frame by `take` only, and loses those it has when it is sought only. -/
theorem out_step {d : Directory} {r r' : Reader} {a : ReaderAction}
    (h : r.step d a = some (.ok r')) :
    r'.out = r.out ∨ (a = .take ∧ ∃ f, r'.out = r.out ++ [f]) ∨ a = .load ∧ r'.out = [] := by
  cases Reader.step_cases h with
  | take p hreading hp => exact Or.inr (Or.inl ⟨rfl, _, rfl⟩)
  | load => exact Or.inr (Or.inr ⟨rfl, rfl⟩)
  | _ => exact Or.inl rfl

theorem out_stepAt {a : Yijinjing.Action} (h : stepAt names queues q a = some queues')
    (htake : a ≠ .reader 0 .take)
    (hload : a = .reader 0 .load → ((queues q).readers 0).out = []) (p : ℕ) :
    ((queues' p).readers 0).out = ((queues p).readers 0).out := by
  rcases eq_or_ne p q with rfl | hp
  · have hself := stepAt_self h
    cases a with
    | writer a => rw [(stepWriter_frame hself).2.1]
    | reader i a =>
      rcases eq_or_ne i 0 with rfl | hi
      · obtain ⟨result, hresult, hs'⟩ := Option.map_eq_some_iff.mp hself
        rw [← hs']
        cases result with
        | error fault =>
          cases fault with
          | runtimeError what => rfl
          | busError =>
            dsimp only
            rw [Function.update_self]
        | ok r =>
          dsimp only
          rw [Function.update_self]
          rcases out_step hresult with hout | ⟨ha, -⟩ | ⟨ha, hout⟩
          · exact hout
          · exact absurd (by rw [ha]) htake
          · rw [hout, hload (by rw [ha])]
      · rw [(stepReader_frame hself).2.2.2 0 hi.symm]
  · rw [stepAt_other h hp]

theorem out_take (h : stepAt names queues q (.reader 0 .take) = some queues') :
    (∃ f, ((queues' q).readers 0).out = ((queues q).readers 0).out ++ [f]) ∧
      ∀ p ≠ q, ((queues' p).readers 0).out = ((queues p).readers 0).out := by
  refine ⟨?_, fun p hp => by rw [stepAt_other h hp]⟩
  obtain ⟨result, hresult, hs'⟩ := Option.map_eq_some_iff.mp (stepAt_self h)
  obtain ⟨r, f, rfl, hout⟩ := step_take hresult
  refine ⟨f, ?_⟩
  rw [← hs']
  dsimp only
  rw [Function.update_self, hout]

end Readers

/-- Every trade journal runs as it would alone, and has the commands that were sent. -/
structure Carried (commands : ℕ → System) (requested : List (ℕ × TraderCommand)) : Prop where
  reaches : ∀ q, Reaches (System.step (w.tradeMq q)) Timely {} (commands q)
  sized : ∀ q, ∀ f ∈ (commands q).sent, f.data.length = (TraderCommand.layout w.doubles 0).size
  requested : ∀ q, ((commands q).sent.map fun f => commandOf w f.data) = ofQueue q requested

/-- The commands executed are those read, and the responses issued are those written. -/
structure Linked (s : Trading γ) : Prop where
  faithful : s.served.Faithful w.contracts
  carried : Carried w s.commands s.requested
  executed : ∀ q, ofQueue q s.served.executed =
    ((s.commands q).readers 0).out.map fun f => commandOf w f.data
  responses : s.responses.Ok w.rspMq
  issued : s.responses.issued = messages w s.served.oms.rspWriters

section Linked

variable {w} {s s' : Trading γ}

theorem messages_append (rsps more : List (ℕ × OrderResponse)) :
    messages w (rsps ++ more) = messages w rsps ++ messages w more := List.map_append

structure Serves (s s' : Trading γ) (a : OmsAction) : Prop where
  faithful : s'.served.Faithful w.contracts
  commands : s'.commands = s.commands
  requested : s'.requested = s.requested
  executed : s'.served.executed = s.served.executed ++ a.command
  responses : s'.responses.Ok w.rspMq
  issued : s'.responses.issued = messages w s'.served.oms.rspWriters

theorem serves_of_serve {a : OmsAction} (hfaithful : s.served.Faithful w.contracts)
    (hresponses : s.responses.Ok w.rspMq)
    (hissued : s.responses.issued = messages w s.served.oms.rspWriters)
    (h : serve w s a = some s') : Serves (w := w) s s' a := by
  obtain ⟨served, hserved, rfl⟩ := Option.map_eq_some_iff.mp h
  obtain ⟨oms, homs, rfl⟩ := Option.map_eq_some_iff.mp hserved
  obtain ⟨more, hmore⟩ := Served.rspWriters_step homs
  refine ⟨hfaithful.step hserved, rfl, rfl, rfl, hresponses.issue _, ?_⟩
  dsimp only [Outbox.issue]
  rw [hissued, ← messages_append, ← hmore, List.drop_left]

theorem linked_start {oms : Oms γ} (h : oms.Started) : Linked w { served := { oms } } where
  faithful := .of_started h
  carried := ⟨fun _ => .refl _, fun q f hf => (by cases hf), fun _ => rfl⟩
  executed := fun _ => rfl
  responses := Outbox.ok_start _
  issued := by
    dsimp only
    rw [h.rspWriters]
    rfl

theorem commandOf_put {c : TraderCommand} (hc : c.Typed w.doubles) (timestampUs : ℕ) :
    commandOf w ((TraderCommand.layout w.doubles timestampUs).put c) = c :=
  (TraderCommand.layout w.doubles timestampUs).get_put c hc

theorem size_command (timestampUs : ℕ) : (TraderCommand.layout w.doubles timestampUs).size = 72 :=
  rfl

theorem length_command (nano : Int64) (timestampUs : ℕ) (c : TraderCommand) :
    (messageFrame nano ((TraderCommand.layout w.doubles timestampUs).put c)).length ≤
      pageMinHeadroom := by
  have hlength : (messageFrame nano ((TraderCommand.layout w.doubles timestampUs).put c)).length =
      92 := by
    rw [Frame.length, messageFrame, RecordLayout.Layout.length_put, size_command]
    rfl
  rw [hlength]
  decide

section Carried

variable {commands commands' : ℕ → System} {requested : List (ℕ × TraderCommand)} {q : ℕ}

theorem Carried.mem_sent (h : Carried w commands requested) {i : ℕ} {f : Frame}
    (hf : f ∈ ((commands q).readers i).out) : f ∈ (commands q).sent := by
  obtain ⟨v, v', hrunning⟩ := running_of_timely (w.tradeMq_length q) (h.reaches q)
  obtain ⟨skipped, hok⟩ := hrunning.readers i
  exact hrunning.writing.log_sublist.subset (hrunning.writing.log_prefix.subset
    (hok.out_prefix.subset (List.mem_append_right _ hf)))

theorem Carried.send (h : Carried w commands requested) {nano : Int64} {timestampUs : ℕ}
    {c : TraderCommand} (hclock : (commands q).clock ≤ nano) (hc : c.Typed w.doubles)
    (hstep : stepAt w.tradeMq commands q (.writer (.call .writeFrame (messageFrame nano
      ((TraderCommand.layout w.doubles timestampUs).put c)))) = some commands') :
    Carried w commands' (requested ++ [(q, c)]) := by
  have htimely : Timely (commands q) (.writer (.call .writeFrame (messageFrame nano
      ((TraderCommand.layout w.doubles timestampUs).put c)))) :=
    ⟨length_command nano timestampUs c, hclock⟩
  have hsent := sent_step (stepAt_self hstep)
  refine ⟨reaches_stepAt h.reaches htimely hstep, fun p f hf => ?_, fun p => ?_⟩
  · rcases eq_or_ne p q with rfl | hp
    · rw [hsent] at hf
      rcases List.mem_append.mp hf with hf | hf
      · exact h.sized p f hf
      · rw [List.mem_singleton.mp hf]
        exact (TraderCommand.layout w.doubles timestampUs).length_put c
    · rw [stepAt_other hstep hp] at hf
      exact h.sized p f hf
  · rw [ofQueue_append, ofQueue_singleton, ← h.requested]
    rcases eq_or_ne p q with rfl | hp
    · rw [hsent, List.map_append, if_pos rfl]
      exact congrArg _ (congrArg (fun c => [c]) (commandOf_put hc timestampUs))
    · rw [stepAt_other hstep hp, if_neg hp.symm, List.append_nil]

theorem Carried.quiet (h : Carried w commands requested) {a : Yijinjing.Action}
    (htimely : Timely (commands q) a) (hframes : a.frames = [])
    (hstep : stepAt w.tradeMq commands q a = some commands') : Carried w commands' requested := by
  have hsent : ∀ p, (commands' p).sent = (commands p).sent := by
    intro p
    rcases eq_or_ne p q with rfl | hp
    · rw [sent_step (stepAt_self hstep), hframes, List.append_nil]
    · rw [stepAt_other hstep hp]
  refine ⟨reaches_stepAt h.reaches htimely hstep, fun p => ?_, fun p => ?_⟩
  · rw [hsent]
    exact h.sized p
  · rw [hsent]
    exact h.requested p

end Carried

theorem Linked.processCmd (h : Linked w s) {q : ℕ} {clock : ℕ → UInt64} {iteration : List ℕ}
    (hstep : step w s (.processCmd q clock iteration) = some s') : Linked w s' := by
  obtain ⟨commands, hcommands, hstep⟩ := Option.bind_eq_some_iff.mp hstep
  obtain ⟨f, hf, hstep⟩ := Option.bind_eq_some_iff.mp hstep
  obtain ⟨⟨f', hout⟩, hother⟩ := out_take hcommands
  rw [hout, List.getLast?_concat] at hf
  cases hf
  -- every frame of the journal has the size of a command, so none is passed over
  have hcarried := h.carried.quiet (a := .reader 0 .take) ⟨trivial, trivial⟩ rfl hcommands
  have hsized := hcarried.sized q f (hcarried.mem_sent (i := 0) (by rw [hout]; simp))
  rw [processFrame, if_neg (not_not.mpr hsized)] at hstep
  have hserves := serves_of_serve (s := { s with commands }) h.faithful h.responses h.issued hstep
  refine ⟨hserves.faithful, ?_, fun p => ?_, hserves.responses, hserves.issued⟩
  · rw [hserves.commands, hserves.requested]
    exact hcarried
  · rw [hserves.executed, hserves.commands, OmsAction.command, ofQueue_append, ofQueue_singleton]
    dsimp only
    rw [h.executed]
    rcases eq_or_ne p q with rfl | hp
    · rw [hout, List.map_append, if_pos rfl]
      rfl
    · rw [hother p hp, if_neg hp.symm, List.append_nil]

theorem Serves.linked {a : OmsAction} (hserves : Serves (w := w) s s' a) (h : Linked w s)
    (hcommand : a.command = []) : Linked w s' := by
  refine ⟨hserves.faithful, ?_, fun p => ?_, hserves.responses, hserves.issued⟩
  · rw [hserves.commands, hserves.requested]
    exact h.carried
  · rw [hserves.executed, hserves.commands, hcommand, List.append_nil]
    exact h.executed p

theorem Linked.step (h : Linked w s) {a : TradingAction} (ha : s.Allowed w a)
    (hstep : Trading.step w s a = some s') : Linked w s' := by
  cases a with
  | send q nano timestampUs sender call =>
    obtain ⟨commands, hcommands, rfl⟩ := Option.map_eq_some_iff.mp hstep
    obtain ⟨hclock, hfits, htyped⟩ := ha
    refine ⟨h.faithful, h.carried.send hclock (OrderSender.command_typed hfits htyped) hcommands,
      fun p => ?_, h.responses, h.issued⟩
    dsimp only
    rw [out_stepAt hcommands (by simp) (by simp)]
    exact h.executed p
  | strategy q a =>
    obtain ⟨commands, hcommands, rfl⟩ := Option.map_eq_some_iff.mp hstep
    obtain ⟨htimely, hframes, htake, hload⟩ := ha
    refine ⟨h.faithful, h.carried.quiet htimely hframes hcommands, fun p => ?_, h.responses,
      h.issued⟩
    dsimp only
    rw [out_stepAt hcommands htake hload]
    exact h.executed p
  | processCmd q clock iteration => exact h.processCmd hstep
  | processRsp rsp =>
    exact (serves_of_serve h.faithful h.responses h.issued hstep).linked h rfl
  | timer account =>
    exact (serves_of_serve h.faithful h.responses h.issued hstep).linked h rfl
  | report a =>
    obtain ⟨responses, hresponses, rfl⟩ := Option.map_eq_some_iff.mp hstep
    obtain ⟨hok, hsame⟩ := h.responses.step ha hresponses
    exact ⟨h.faithful, h.carried, h.executed, hok, hsame.trans h.issued⟩

end Linked

end Trading

end FlareTrader
