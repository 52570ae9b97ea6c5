import FlareTrader.OmsCompletion

/-! What a strategy hears of an order, whatever the gateway answers: each response names the
command it answers, adds up the fills, and none follows the one that completes the order. -/

namespace EventLog

variable {α : Type*}

def EachAfter (P : List α → α → Prop) (log : List α) : Prop :=
  ∀ before entry, before ++ [entry] <+: log → P before entry

variable {P Q : List α → α → Prop} {log : List α}

theorem EachAfter.nil : EachAfter P [] := fun _ _ h => by simp at h

theorem EachAfter.concat (h : EachAfter P log) {entry : α} (hentry : P log entry) :
    EachAfter P (log ++ [entry]) := by
  intro before e hinitial
  rcases List.prefix_concat_iff.mp hinitial with heq | hbefore
  · obtain ⟨rfl, hsame⟩ := List.append_inj' heq rfl
    cases hsame
    exact hentry
  · exact h before e hbefore

theorem EachAfter.mono (h : EachAfter P log)
    (hPQ : ∀ before entry, P before entry → Q before entry) : EachAfter Q log :=
  fun before entry hinitial => hPQ before entry (h before entry hinitial)

end EventLog

namespace FlareTrader

open EventLog

def TraderCommand.submission (ct : ContractTable) (cmd : TraderCommand) : Option TraderOrderReq :=
  if cmd.magic = kTradingCmdMagic then
    match cmd.cmd with
    | .kNewOrder orderReq =>
      if (ct.getByIndex orderReq.tickerId).isSome then some orderReq else none
    | _ => none
  else none

/-- The orders among the executed commands, each with the queue it came from. Order ids count
them from 1. -/
def submissions (ct : ContractTable) (executed : List (ℕ × TraderCommand)) :
    List (ℕ × TraderOrderReq) :=
  executed.filterMap fun e => (e.2.submission ct).map (e.1, ·)

structure Order.Carries (order : Order) (orderReq : TraderOrderReq) : Prop where
  clientOrderId : order.clientOrderId = orderReq.clientOrderId
  tickerId : order.req.contract.tickerId = orderReq.tickerId
  direction : order.req.direction = orderReq.direction
  offset : order.req.offset = orderReq.offset
  price : order.req.price = orderReq.price
  volume : order.req.volume = orderReq.volume

structure OrderResponse.Echoes (rsp : OrderResponse) (orderReq : TraderOrderReq) : Prop where
  clientOrderId : rsp.clientOrderId = orderReq.clientOrderId
  tickerId : rsp.tickerId = orderReq.tickerId
  direction : rsp.direction = orderReq.direction
  offset : rsp.offset = orderReq.offset
  price : rsp.price = orderReq.price
  originalVolume : rsp.originalVolume = orderReq.volume

theorem Order.Carries.answers {order : Order} {orderReq : TraderOrderReq}
    (h : order.Carries orderReq) (thisTraded : ℤ) (price : ℚ) (errorCode : ErrorCode) :
    (order.response thisTraded price errorCode).Echoes orderReq :=
  ⟨h.clientOrderId, h.tickerId, h.direction, h.offset, h.price, h.volume⟩

theorem Oms.newOrder_carries {ct : ContractTable} {orderReq : TraderOrderReq} {contract : Contract}
    (h : ct.getByIndex orderReq.tickerId = some contract) (cmd : TraderCommand) (mqId id : ℕ) :
    (Oms.newOrder contract cmd orderReq mqId id).Carries orderReq :=
  ⟨rfl, ContractTable.tickerId_of_getByIndex h, rfl, rfl, rfl, rfl⟩

def earlier (before : List (ℕ × OrderResponse)) (id : ℕ) : List OrderResponse :=
  (before.map Prod.snd).filter fun rsp => rsp.orderId = id

/-- A response goes to the queue that its order came from, it answers the order, its traded
volume is the sum of the fills up to it, and the order was not completed before. -/
structure Answered (orders : List (ℕ × TraderOrderReq)) (before : List (ℕ × OrderResponse))
    (entry : ℕ × OrderResponse) : Prop where
  positive : 1 ≤ entry.2.orderId
  answers : ∃ orderReq, orders[entry.2.orderId - 1]? = some (entry.1, orderReq) ∧
    entry.2.Echoes orderReq
  tradedVolume : entry.2.tradedVolume =
    sumTraded (earlier before entry.2.orderId) + entry.2.thisTraded
  incomplete : entry.2.originalVolume ≠ 0 → completions (earlier before entry.2.orderId) = []

structure Order.Continues (order reported : Order) : Prop where
  req : reported.req = order.req
  mqId : reported.mqId = order.mqId
  clientOrderId : reported.clientOrderId = order.clientOrderId

theorem Order.Carries.of_continues {order reported : Order} {orderReq : TraderOrderReq}
    (h : order.Carries orderReq) (hsame : order.Continues reported) :
    reported.Carries orderReq := by
  obtain ⟨hreq, -, hclient⟩ := hsame
  refine ⟨hclient.trans h.clientOrderId, ?_, ?_, ?_, ?_, ?_⟩ <;> rw [hreq]
  · exact h.tickerId
  · exact h.direction
  · exact h.offset
  · exact h.price
  · exact h.volume

/-- A live order together with what was written about it. -/
structure Order.Heard (order : Order) (orders : List (ℕ × TraderOrderReq))
    (log : List (ℕ × OrderResponse)) : Prop where
  positive : 1 ≤ order.req.orderId
  carries : ∃ orderReq, orders[order.req.orderId - 1]? = some (order.mqId, orderReq) ∧
    order.Carries orderReq
  tradedVolume : sumTraded (earlier log order.req.orderId) = order.tradedVolume
  incomplete : order.req.volume ≠ 0 → completions (earlier log order.req.orderId) = [] ∧
    order.tradedVolume + order.canceledVolume ≠ order.req.volume

section Heard

variable {order reported : Order} {orders : List (ℕ × TraderOrderReq)}
  {log : List (ℕ × OrderResponse)}

theorem earlier_append (before more : List (ℕ × OrderResponse)) (id : ℕ) :
    earlier (before ++ more) id = earlier before id ++ earlier more id := by
  rw [earlier, List.map_append, List.filter_append]
  rfl

theorem earlier_concat (before : List (ℕ × OrderResponse)) (mqId : ℕ) (rsp : OrderResponse)
    (id : ℕ) : earlier (before ++ [(mqId, rsp)]) id =
      earlier before id ++ if rsp.orderId = id then [rsp] else [] := by
  rw [earlier_append]
  congr 1
  simp [earlier, List.filter_cons]

theorem Order.Heard.answered (h : order.Heard orders log) (hsame : order.Continues reported)
    {thisTraded : ℤ} (htraded : reported.tradedVolume = order.tradedVolume + thisTraded)
    (price : ℚ) (errorCode : ErrorCode) :
    Answered orders log (reported.mqId, reported.response thisTraded price errorCode) := by
  obtain ⟨orderReq, hget, hcarries⟩ := h.carries
  have hid : (reported.response thisTraded price errorCode).orderId = order.req.orderId := by
    rw [← hsame.req]
    rfl
  refine ⟨?_, ⟨orderReq, ?_, (hcarries.of_continues hsame).answers _ _ _⟩, ?_, fun hvolume => ?_⟩
  · rw [hid]
    exact h.positive
  · rw [hid, hsame.mqId]
    exact hget
  · rw [hid, h.tradedVolume]
    exact htraded
  · rw [hid]
    exact (h.incomplete (hsame.req ▸ hvolume)).1

theorem Order.Heard.extend (h : order.Heard orders log) (hsame : order.Continues reported)
    {thisTraded : ℤ} (htraded : reported.tradedVolume = order.tradedVolume + thisTraded)
    (price : ℚ)
    (hlive : reported.tradedVolume + reported.canceledVolume ≠ reported.req.volume ∨
      reported.req.volume = 0) :
    reported.Heard orders
      (log ++ [(reported.mqId, reported.response thisTraded price .kNoError)]) := by
  obtain ⟨orderReq, hget, hcarries⟩ := h.carries
  have hself : earlier (log ++ [(reported.mqId, reported.response thisTraded price .kNoError)])
      reported.req.orderId =
        earlier log order.req.orderId ++ [reported.response thisTraded price .kNoError] := by
    rw [earlier_concat, ← hsame.req]
    exact congrArg _ (if_pos rfl)
  refine ⟨?_, ⟨orderReq, ?_, hcarries.of_continues hsame⟩, ?_, fun hvolume => ?_⟩
  · rw [hsame.req]
    exact h.positive
  · rw [hsame.req, hsame.mqId]
    exact hget
  · rw [hself, sumTraded_append, h.tradedVolume, htraded]
    simp [sumTraded, Order.response]
  · have hopen := hlive.resolve_right hvolume
    have hnot : (reported.response thisTraded price .kNoError).completed = false := by
      simp only [Order.response, ne_eq, not_true_eq_false, or_false, decide_eq_false_iff_not]
      omega
    rw [hself, completions_append, (h.incomplete (hsame.req ▸ hvolume)).1]
    exact ⟨by simp [completions, hnot], hopen⟩

theorem Order.Heard.open (h : order.Heard orders log) :
    order.tradedVolume + order.canceledVolume ≠ order.req.volume ∨ order.req.volume = 0 := by
  by_cases hvolume : order.req.volume = 0
  · exact Or.inr hvolume
  · exact Or.inl (h.incomplete hvolume).2

/-- The acceptance of an order, told by itself or by its first fill. -/
theorem Order.Heard.acknowledged (h : order.Heard orders log)
    (hlog : EachAfter (Answered orders) log) :
    EachAfter (Answered orders) (log ++ order.acknowledged.map (order.mqId, ·)) ∧
      order.Heard orders (log ++ order.acknowledged.map (order.mqId, ·)) := by
  unfold Order.acknowledged
  split_ifs
  · rw [List.map_nil, List.append_nil]
    exact ⟨hlog, h⟩
  · have hsame : order.Continues order := ⟨rfl, rfl, rfl⟩
    have hzero : order.tradedVolume = order.tradedVolume + 0 := (add_zero _).symm
    exact ⟨hlog.concat (h.answered hsame hzero 0 .kNoError), h.extend hsame hzero 0 h.open⟩

theorem Order.Heard.respond (h : order.Heard orders log) (hlog : EachAfter (Answered orders) log)
    (rsp : GatewayOrderResponse) :
    EachAfter (Answered orders) (log ++ (order.written rsp).map (order.mqId, ·)) ∧
      ∀ after, order.after rsp = some after →
        after.Heard orders (log ++ (order.written rsp).map (order.mqId, ·)) := by
  have hzero : order.tradedVolume = order.tradedVolume + 0 := (add_zero _).symm
  cases rsp with
  | accepted id =>
    refine ⟨(h.acknowledged hlog).1, fun after hafter => ?_⟩
    have hheard := (h.acknowledged hlog).2
    simp only [Order.after] at hafter
    split_ifs at hafter
    · cases hafter
      exact hheard
    · cases hafter
      exact ⟨hheard.positive,
        hheard.carries.imp fun r hr => ⟨hr.1, hr.2.of_continues ⟨rfl, rfl, rfl⟩⟩,
        hheard.tradedVolume, hheard.incomplete⟩
  | traded rsp =>
    obtain ⟨hlog', hheard⟩ := h.acknowledged hlog
    have hsame : order.Continues (order.traded rsp.volume) := ⟨rfl, rfl, rfl⟩
    simp only [Order.written, List.map_append, ← List.append_assoc]
    refine ⟨hlog'.concat (hheard.answered hsame rfl rsp.price .kNoError), fun after hafter => ?_⟩
    obtain ⟨hopen, rfl⟩ := Order.unlessCompleted_eq_some.mp hafter
    exact hheard.extend hsame rfl rsp.price (Or.inl hopen)
  | rejected id reason =>
    exact ⟨hlog.concat (h.answered ⟨rfl, rfl, rfl⟩ hzero 0 .kRejected),
      fun after hafter => by cases hafter⟩
  | canceled id volume =>
    have hsame : order.Continues (order.canceled volume) := ⟨rfl, rfl, rfl⟩
    refine ⟨hlog.concat (h.answered hsame hzero 0 .kNoError), fun after hafter => ?_⟩
    obtain ⟨hopen, rfl⟩ := Order.unlessCompleted_eq_some.mp hafter
    exact h.extend hsame hzero 0 (Or.inl hopen)
  | cancelRejected id reason =>
    simp only [Order.written, List.map_nil, List.append_nil]
    refine ⟨hlog, fun after hafter => ?_⟩
    cases hafter
    exact h

theorem completions_earlier_append {before more : List (ℕ × OrderResponse)} {id : ℕ}
    (h : completions (earlier before id) ≠ []) :
    completions (earlier (before ++ more) id) ≠ [] := by
  rw [earlier_append, completions_append]
  exact List.append_ne_nil_of_left_ne_nil h _

theorem completions_written {rsp : GatewayOrderResponse} (h : order.after rsp = none) :
    completions (order.written rsp) ≠ [] := by
  have hdone : ∀ {after : Order} (thisTraded price), after.unlessCompleted = none →
      (after.response thisTraded price .kNoError).completed = true := by
    intro after thisTraded price hnone
    unfold Order.unlessCompleted at hnone
    split_ifs at hnone with hsum
    simp only [Order.response, ne_eq, not_true_eq_false, or_false, decide_eq_true_eq]
    omega
  cases rsp with
  | accepted id =>
    simp only [Order.after] at h
    split_ifs at h
  | traded rsp =>
    have hcompleted := hdone rsp.volume rsp.price h
    rw [Order.written, completions_append]
    refine List.append_ne_nil_of_right_ne_nil _ ?_
    simp [completions, hcompleted]
  | rejected id reason => simp [Order.written, completions, Order.response]
  | canceled id volume =>
    have hcompleted := hdone 0 0 h
    simp [Order.written, completions, hcompleted]
  | cancelRejected id reason => cases h

theorem Order.Heard.of_other (h : order.Heard orders log) {more : List (ℕ × OrderResponse)}
    (hmore : ∀ e ∈ more, e.2.orderId ≠ order.req.orderId) : order.Heard orders (log ++ more) := by
  have hnone : earlier more order.req.orderId = [] := by
    refine List.filter_eq_nil_iff.mpr fun rsp hrsp => ?_
    obtain ⟨e, he, rfl⟩ := List.mem_map.mp hrsp
    simpa using hmore e he
  have hself : earlier (log ++ more) order.req.orderId = earlier log order.req.orderId := by
    rw [earlier_append, hnone, List.append_nil]
  refine ⟨h.positive, h.carries, ?_, fun hvolume => ?_⟩
  · rw [hself]
    exact h.tradedVolume
  · rw [hself]
    exact h.incomplete hvolume

theorem getElem?_of_initial {orders' : List (ℕ × TraderOrderReq)} (hinitial : orders <+: orders')
    {i : ℕ} {e : ℕ × TraderOrderReq} (h : orders[i]? = some e) : orders'[i]? = some e := by
  obtain ⟨more, rfl⟩ := hinitial
  rw [List.getElem?_append_left (List.getElem?_eq_some_iff.mp h).1]
  exact h

theorem Order.Heard.of_initial (h : order.Heard orders log) {orders' : List (ℕ × TraderOrderReq)}
    (hinitial : orders <+: orders') : order.Heard orders' log :=
  ⟨h.positive, h.carries.imp fun _ hr => ⟨getElem?_of_initial hinitial hr.1, hr.2⟩, h.tradedVolume,
    h.incomplete⟩

theorem Answered.of_initial {entry : ℕ × OrderResponse} (h : Answered orders log entry)
    {orders' : List (ℕ × TraderOrderReq)} (hinitial : orders <+: orders') :
    Answered orders' log entry :=
  ⟨h.positive, h.answers.imp fun _ hr => ⟨getElem?_of_initial hinitial hr.1, hr.2⟩, h.tradedVolume,
    h.incomplete⟩

end Heard

structure Served (γ : Type) where
  oms : Oms γ
  executed : List (ℕ × TraderCommand) := []

def OmsAction.command : OmsAction → List (ℕ × TraderCommand)
  | .execute cmd mqId _ _ => [(mqId, cmd)]
  | _ => []

namespace Served

variable {γ : Type} {g : Gateway γ} {ct : ContractTable}

def step (g : Gateway γ) (ct : ContractTable) (t : Served γ) (a : OmsAction) : Option (Served γ) :=
  (Oms.step g ct t.oms a).map fun oms => ⟨oms, t.executed ++ a.command⟩

structure Faithful (ct : ContractTable) (t : Served γ) : Prop where
  counter : t.oms.nextOmsOrderId = (submissions ct t.executed).length + 1
  live : ∀ id order, t.oms.orderMap.find? id = some order →
    order.req.orderId = id ∧ order.Heard (submissions ct t.executed) t.oms.rspWriters
  finished : ∀ id, 1 ≤ id → id < t.oms.nextOmsOrderId → t.oms.orderMap.find? id = none →
    completions (earlier t.oms.rspWriters id) ≠ []
  written : EachAfter (Answered (submissions ct t.executed)) t.oms.rspWriters

theorem submissions_append (ct : ContractTable) (executed more : List (ℕ × TraderCommand)) :
    submissions ct (executed ++ more) = submissions ct executed ++ submissions ct more :=
  List.filterMap_append

theorem Faithful.of_started {s : Oms γ} (h : s.Started) : Faithful ct { oms := s } where
  counter := h.nextOmsOrderId
  live := fun id order ho => by
    rw [h.orderMap] at ho
    cases ho
  finished := fun id hpos hlt => by
    rw [h.nextOmsOrderId] at hlt
    omega
  written := by
    rw [h.rspWriters]
    exact .nil

theorem Faithful.unsent {t : Served γ} (h : Faithful ct t) {e : ℕ × OrderResponse}
    (he : e ∈ t.oms.rspWriters) : e.2.orderId < t.oms.nextOmsOrderId := by
  obtain ⟨before, after, hsplit⟩ := List.append_of_mem he
  have hanswered := h.written before e ⟨after, by rw [hsplit]; simp⟩
  obtain ⟨orderReq, hget, -⟩ := hanswered.answers
  have hlt := (List.getElem?_eq_some_iff.mp hget).1
  have hpos := hanswered.positive
  rw [h.counter]
  omega

theorem submission_eq_some {cmd : TraderCommand} {orderReq : TraderOrderReq} :
    cmd.submission ct = some orderReq ↔
      cmd.Submits orderReq ∧ ∃ contract, ct.getByIndex orderReq.tickerId = some contract := by
  unfold TraderCommand.submission TraderCommand.Submits
  by_cases hmagic : cmd.magic = kTradingCmdMagic
  · rw [if_pos hmagic]
    cases cmd.cmd with
    | kNewOrder req =>
      simp only [Option.ite_none_right_eq_some, Option.some.injEq, Option.isSome_iff_exists,
        TraderCmd.kNewOrder.injEq, hmagic, true_and]
      constructor
      · rintro ⟨hcontract, rfl⟩
        exact ⟨rfl, hcontract⟩
      · rintro ⟨rfl, hcontract⟩
        exact ⟨hcontract, rfl⟩
    | _ => simp
  · simp [hmagic]

theorem executeCmd_other {clock : ℕ → UInt64} {iteration : List ℕ} {cmd : TraderCommand}
    {mqId : ℕ} {s s' : Oms γ} (hnone : cmd.submission ct = none)
    (h : Oms.executeCmd g ct clock iteration cmd mqId s = some s') :
    s' = { s with gateway := s'.gateway } := by
  rcases Oms.executeCmd_cases h with ⟨orderReq, hsubmits, rfl⟩ | hs
  · cases hcontract : ct.getByIndex orderReq.tickerId with
    | none => simp only [Oms.sendOrder, hcontract]
    | some contract =>
      rw [submission_eq_some.mpr ⟨hsubmits, contract, hcontract⟩] at hnone
      cases hnone
  · exact hs

theorem newOrder_heard {orders : List (ℕ × TraderOrderReq)} {log : List (ℕ × OrderResponse)}
    (hlog : ∀ e ∈ log, e.2.orderId < orders.length + 1) {orderReq : TraderOrderReq}
    {contract : Contract} (hcontract : ct.getByIndex orderReq.tickerId = some contract)
    (cmd : TraderCommand) (mqId privdata : ℕ) :
    Order.Heard { Oms.newOrder contract cmd orderReq mqId (orders.length + 1) with privdata }
      (orders ++ [(mqId, orderReq)]) log := by
  have hnone : earlier log (orders.length + 1) = [] := by
    refine List.filter_eq_nil_iff.mpr fun rsp hrsp => ?_
    obtain ⟨e, he, rfl⟩ := List.mem_map.mp hrsp
    simpa using (hlog e he).ne
  refine ⟨Nat.le_add_left 1 _, ⟨orderReq, List.getElem?_concat_length .., ?_⟩, ?_,
    fun hvolume => ⟨?_, ?_⟩⟩
  · exact (Oms.newOrder_carries hcontract cmd mqId _).of_continues ⟨rfl, rfl, rfl⟩
  · change sumTraded (earlier log (orders.length + 1)) = 0
    rw [hnone]
    rfl
  · change completions (earlier log (orders.length + 1)) = []
    rw [hnone]
    rfl
  · exact fun heq => hvolume heq.symm

theorem Faithful.lt_next {t : Served γ} (h : Faithful ct t) {id : ℕ} {order : Order}
    (hlive : t.oms.orderMap.find? id = some order) : id < t.oms.nextOmsOrderId := by
  obtain ⟨rfl, hheard⟩ := h.live id order hlive
  obtain ⟨orderReq, hget, -⟩ := hheard.carries
  have hlt := (List.getElem?_eq_some_iff.mp hget).1
  have hpos := hheard.positive
  rw [h.counter]
  omega

theorem Faithful.submitted {t : Served γ} (h : Faithful ct t) {cmd : TraderCommand}
    {orderReq : TraderOrderReq} {contract : Contract} (hsubmits : cmd.Submits orderReq)
    (hcontract : ct.getByIndex orderReq.tickerId = some contract) (clock : ℕ → UInt64)
    (mqId : ℕ) :
    Faithful ct ⟨(Oms.sendOrder g ct clock cmd orderReq mqId t.oms).2,
      t.executed ++ [(mqId, cmd)]⟩ := by
  obtain ⟨order, returned, s', horder, hsend, hnext, -, hend⟩ :=
    Oms.sendOrder_outcome g clock cmd mqId t.oms hcontract
  have hmore : submissions ct (t.executed ++ [(mqId, cmd)]) =
      submissions ct t.executed ++ [(mqId, orderReq)] := by
    rw [submissions_append]
    simp [submissions, submission_eq_some.mpr ⟨hsubmits, contract, hcontract⟩]
  have hinitial : submissions ct t.executed <+: submissions ct t.executed ++ [(mqId, orderReq)] :=
    List.prefix_append _ _
  have hcounter : s'.nextOmsOrderId =
      (submissions ct t.executed ++ [(mqId, orderReq)]).length + 1 := by
    rw [hnext, h.counter, List.length_append]
    rfl
  have hid : order.req.orderId = t.oms.nextOmsOrderId := by
    rw [horder]
    rfl
  have hfresh := fun privdata => newOrder_heard (fun e he => h.counter ▸ h.unsent he)
    hcontract cmd mqId privdata
  rw [← h.counter, ← horder] at hfresh
  have hwritten := h.written.mono fun _ _ hentry => Answered.of_initial hentry hinitial
  rw [hsend]
  rcases hend with ⟨-, hmap, errorCode, herror, hlog⟩ |
    ⟨-, -, ⟨privdata, hmap⟩, hlog⟩
  · have hmq : mqId = order.mqId := by
      rw [horder]
      rfl
    refine ⟨hmore ▸ hcounter, fun id before hlive => ?_, fun id hpos hlt hgone => ?_, ?_⟩
    · rw [hmore]
      simp only [hmap] at hlive
      obtain ⟨rfl, hheard⟩ := h.live id before hlive
      refine ⟨rfl, ?_⟩
      rw [hlog]
      refine (hheard.of_initial hinitial).of_other fun e he => ?_
      rw [List.mem_singleton.mp he]
      exact fun heq => (h.lt_next hlive).ne (heq.symm.trans hid)
    · simp only [hnext, hmap, hlog] at hlt hgone ⊢
      rcases Nat.lt_succ_iff_lt_or_eq.mp hlt with hlt | rfl
      · exact completions_earlier_append (h.finished id hpos hlt hgone)
      · rw [earlier_concat, if_pos (show (order.response 0 0 errorCode).orderId = _ from hid),
          completions_append]
        refine List.append_ne_nil_of_right_ne_nil _ ?_
        simp [completions, Order.response, herror]
    · rw [hmore]
      simp only [hlog]
      rw [hmq] at hfresh hwritten ⊢
      exact hwritten.concat ((hfresh 0).answered ⟨rfl, rfl, rfl⟩ (add_zero _).symm 0 errorCode)
  · have hnone : t.oms.orderMap.find? order.req.orderId = none := by
      rw [hid]
      by_contra hsome
      obtain ⟨other, hother⟩ := Option.ne_none_iff_exists'.mp hsome
      exact absurd (h.lt_next hother) (lt_irrefl _)
    have hfind : ∀ id, s'.orderMap.find? id = if id = order.req.orderId then
        some { order with privdata } else t.oms.orderMap.find? id := by
      intro id
      rw [hmap, SortedMap.emplace_of_find?_none hnone, SortedMap.find?_insert]
    refine ⟨hmore ▸ hcounter, fun id before hlive => ?_, fun id hpos hlt hgone => ?_, ?_⟩
    · rw [hmore]
      simp only [hlog]
      simp only [hfind] at hlive
      split_ifs at hlive with hsame
      · cases hlive
        exact ⟨hsame.symm, hfresh privdata⟩
      · obtain ⟨rfl, hheard⟩ := h.live id before hlive
        exact ⟨rfl, hheard.of_initial hinitial⟩
    · simp only [hnext, hfind, hlog] at hlt hgone ⊢
      split_ifs at hgone with hsame
      exact h.finished id hpos (by omega) hgone
    · rw [hmore]
      simp only [hlog]
      exact hwritten

theorem Faithful.responded {t : Served γ} (h : Faithful ct t) (rsp : GatewayOrderResponse) :
    Faithful ct ⟨Oms.visit ct t.oms rsp, t.executed⟩ := by
  cases hfind : t.oms.orderMap.find? rsp.orderId with
  | none =>
    rw [Oms.visit_of_find?_none ct hfind]
    exact h
  | some order =>
    have hbecame := Oms.visit_became ct hfind
    obtain ⟨hid, hheard⟩ := h.live _ order hfind
    obtain ⟨hwritten, hafter⟩ := hheard.respond h.written rsp
    refine ⟨hbecame.nextOmsOrderId.trans h.counter, fun id after hlive => ?_,
      fun id hpos hlt hgone => ?_, ?_⟩
    · simp only [hbecame.orderMap, hbecame.rspWriters] at hlive ⊢
      split_ifs at hlive with hsame
      · refine ⟨?_, hafter after hlive⟩
        rw [(Order.after_eq_some hlive).1, hid, hsame]
      · obtain ⟨rfl, hother⟩ := h.live id after hlive
        refine ⟨rfl, hother.of_other fun e he => ?_⟩
        obtain ⟨r, hr, rfl⟩ := List.mem_map.mp he
        rw [Oms.orderId_of_mem_written hr, hid]
        exact fun heq => hsame heq.symm
    · simp only [hbecame.orderMap, hbecame.rspWriters, hbecame.nextOmsOrderId] at hlt hgone ⊢
      split_ifs at hgone with hsame
      · have hall : earlier ((order.written rsp).map (order.mqId, ·)) id = order.written rsp := by
          rw [earlier, List.map_map, List.filter_eq_self.mpr]
          · exact List.map_id _
          · intro r hr
            obtain ⟨r', hr', rfl⟩ := List.mem_map.mp hr
            simpa [hsame, hid] using Oms.orderId_of_mem_written hr'
        rw [earlier_append, completions_append, hall]
        exact List.append_ne_nil_of_right_ne_nil _ (completions_written hgone)
      · exact completions_earlier_append (h.finished id hpos hlt hgone)
    · simp only [hbecame.rspWriters]
      exact hwritten

theorem Faithful.step {t t' : Served γ} {a : OmsAction} (h : Faithful ct t)
    (hstep : step g ct t a = some t') : Faithful ct t' := by
  obtain ⟨oms, homs, rfl⟩ := Option.map_eq_some_iff.mp hstep
  cases a with
  | execute cmd mqId clock iteration =>
    simp only [Oms.step] at homs
    split_ifs at homs
    cases hsub : cmd.submission ct with
    | some orderReq =>
      obtain ⟨hsubmits, contract, hcontract⟩ := submission_eq_some.mp hsub
      simp only [Oms.executeCmd, hsubmits.1, hsubmits.2, ne_eq, not_true_eq_false, if_false,
        Option.some.injEq] at homs
      rw [← homs]
      exact h.submitted hsubmits hcontract clock mqId
    | none =>
      have hsame : submissions ct (t.executed ++ [(mqId, cmd)]) = submissions ct t.executed := by
        rw [submissions_append]
        simp [submissions, hsub]
      have homs' := executeCmd_other hsub homs
      generalize oms.gateway = gateway at homs'
      rw [homs']
      exact ⟨hsame ▸ h.counter, hsame ▸ h.live, h.finished, hsame ▸ h.written⟩
  | deliver rsp =>
    cases homs
    simp only [OmsAction.command, List.append_nil]
    exact h.responded rsp
  | account account =>
    cases homs
    simp only [OmsAction.command, List.append_nil]
    exact ⟨h.counter, h.live, h.finished, h.written⟩

theorem rspWriters_step {s s' : Oms γ} {a : OmsAction} (h : Oms.step g ct s a = some s') :
    s.rspWriters <+: s'.rspWriters := by
  rcases Oms.step_cases h with
    ⟨cmd, mqId, clock, iteration, orderReq, contract, -, -, hcontract, rfl⟩ | ⟨rsp, -, rfl⟩ |
    ⟨-, -, -, -, hsame⟩
  · obtain ⟨order, returned, s', -, hsend, -, -, hend⟩ :=
      Oms.sendOrder_outcome g clock cmd mqId s hcontract
    rw [hsend]
    rcases hend with ⟨-, -, errorCode, -, hlog⟩ | ⟨-, -, -, hlog⟩
    · exact ⟨_, hlog.symm⟩
    · exact ⟨[], (List.append_nil _).trans hlog.symm⟩
  · cases hfind : s.orderMap.find? rsp.orderId with
    | none => rw [Oms.visit_of_find?_none ct hfind]
    | some order => exact ⟨_, (Oms.visit_became ct hfind).rspWriters.symm⟩
  · rw [hsame]

/-- The gateway tells of fills and cancellations in lots, and those of one order add up to an
`int`. -/
def CountsLots (t : Served γ) : OmsAction → Prop
  | .deliver (.traded rsp) => 0 ≤ rsp.volume ∧ ∀ order,
      t.oms.orderMap.find? rsp.orderId = some order →
        order.tradedVolume + order.canceledVolume + rsp.volume < 2 ^ 31
  | .deliver (.canceled id volume) => 0 ≤ volume ∧ ∀ order,
      t.oms.orderMap.find? id = some order → order.tradedVolume + volume < 2 ^ 31
  | _ => True

end Served

structure Order.Counted (order : Order) : Prop where
  traded : 0 ≤ order.tradedVolume
  canceled : 0 ≤ order.canceledVolume
  fits : order.tradedVolume + order.canceledVolume < 2 ^ 31

structure OrderResponse.Counted (rsp : OrderResponse) : Prop where
  thisTraded : 0 ≤ rsp.thisTraded
  le_traded : rsp.thisTraded ≤ rsp.tradedVolume
  fits : rsp.tradedVolume < 2 ^ 31

section Counted

variable {order : Order}

theorem Order.Counted.response (h : order.Counted) {thisTraded : ℤ} (hnonneg : 0 ≤ thisTraded)
    (hle : thisTraded ≤ order.tradedVolume) (price : ℚ) (errorCode : ErrorCode) :
    (order.response thisTraded price errorCode).Counted := by
  refine ⟨hnonneg, hle, ?_⟩
  have hfits := h.fits
  have hcanceled := h.canceled
  change order.tradedVolume < 2 ^ 31
  omega

theorem Order.Counted.acknowledged (h : order.Counted) {r : OrderResponse}
    (hr : r ∈ order.acknowledged) : r.Counted := by
  unfold Order.acknowledged at hr
  split_ifs at hr
  · cases hr
  · rw [List.mem_singleton.mp hr]
    exact h.response le_rfl h.traded 0 .kNoError

theorem Order.Counted.traded_volume (h : order.Counted) {volume : ℤ} (hnonneg : 0 ≤ volume)
    (hfits : order.tradedVolume + order.canceledVolume + volume < 2 ^ 31) :
    (order.traded volume).Counted := by
  obtain ⟨htraded, hcanceled, -⟩ := h
  refine ⟨?_, hcanceled, ?_⟩
  · change 0 ≤ order.tradedVolume + volume
    omega
  · change order.tradedVolume + volume + order.canceledVolume < 2 ^ 31
    omega

end Counted

namespace Served

variable {γ : Type} {g : Gateway γ} {ct : ContractTable}

structure Counted (t : Served γ) : Prop where
  live : ∀ id order, t.oms.orderMap.find? id = some order → order.Counted
  written : ∀ e ∈ t.oms.rspWriters, e.2.Counted

theorem counted_respond {order : Order} (h : order.Counted) {t : Served γ}
    {rsp : GatewayOrderResponse} (hfind : t.oms.orderMap.find? rsp.orderId = some order)
    (hcounts : t.CountsLots (.deliver rsp)) :
    (∀ r ∈ order.written rsp, r.Counted) ∧
      ∀ after, order.after rsp = some after → after.Counted := by
  cases rsp with
  | accepted id =>
    refine ⟨fun r hr => h.acknowledged hr, fun after hafter => ?_⟩
    simp only [Order.after] at hafter
    split_ifs at hafter <;> cases hafter
    · exact h
    · exact ⟨h.traded, h.canceled, h.fits⟩
  | traded rsp =>
    obtain ⟨hnonneg, hfits⟩ := hcounts
    have hcounted := h.traded_volume hnonneg (hfits order hfind)
    refine ⟨fun r hr => ?_, fun after hafter => ?_⟩
    · rcases List.mem_append.mp hr with hr | hr
      · exact h.acknowledged hr
      · rw [List.mem_singleton.mp hr]
        exact hcounted.response hnonneg (Int.le_add_of_nonneg_left h.traded) _ _
    · obtain ⟨-, rfl⟩ := Order.unlessCompleted_eq_some.mp hafter
      exact hcounted
  | rejected id reason =>
    refine ⟨fun r hr => ?_, fun after hafter => by cases hafter⟩
    rw [List.mem_singleton.mp hr]
    exact h.response le_rfl h.traded 0 .kRejected
  | canceled id volume =>
    obtain ⟨hnonneg, hfits⟩ := hcounts
    have hcounted : (order.canceled volume).Counted := ⟨h.traded, hnonneg, hfits order hfind⟩
    refine ⟨fun r hr => ?_, fun after hafter => ?_⟩
    · rw [List.mem_singleton.mp hr]
      exact hcounted.response le_rfl h.traded 0 .kNoError
    · obtain ⟨-, rfl⟩ := Order.unlessCompleted_eq_some.mp hafter
      exact hcounted
  | cancelRejected id reason =>
    refine ⟨fun r hr => (List.not_mem_nil hr).elim, fun after hafter => ?_⟩
    cases hafter
    exact h

theorem counted_newOrder (contract : Contract) (cmd : TraderCommand) (orderReq : TraderOrderReq)
    (mqId id privdata : ℕ) :
    Order.Counted { Oms.newOrder contract cmd orderReq mqId id with privdata } :=
  ⟨le_rfl, le_rfl, (by decide : (0 : ℤ) + 0 < 2 ^ 31)⟩

theorem Counted.submitted {t : Served γ} (h : Counted t) {cmd : TraderCommand}
    {orderReq : TraderOrderReq} {contract : Contract}
    (hcontract : ct.getByIndex orderReq.tickerId = some contract) (clock : ℕ → UInt64)
    (mqId : ℕ) (executed : List (ℕ × TraderCommand)) :
    Counted ⟨(Oms.sendOrder g ct clock cmd orderReq mqId t.oms).2, executed⟩ := by
  obtain ⟨order, returned, s', horder, hsend, -, -, hend⟩ :=
    Oms.sendOrder_outcome g clock cmd mqId t.oms hcontract
  have hnew := counted_newOrder contract cmd orderReq mqId t.oms.nextOmsOrderId
  rw [hsend]
  rcases hend with ⟨-, hmap, errorCode, -, hlog⟩ | ⟨-, -, ⟨privdata, hmap⟩, hlog⟩
  · refine ⟨fun id before hlive => h.live id before (hmap ▸ hlive), fun e he => ?_⟩
    rw [hlog, List.mem_append, List.mem_singleton] at he
    rcases he with he | rfl
    · exact h.written e he
    · rw [horder]
      exact (hnew 0).response le_rfl le_rfl 0 errorCode
  · refine ⟨fun id before hlive => ?_, fun e he => h.written e (hlog ▸ he)⟩
    by_cases hnone : t.oms.orderMap.find? order.req.orderId = none
    · rw [hmap, SortedMap.emplace_of_find?_none hnone, SortedMap.find?_insert] at hlive
      split_ifs at hlive
      · cases hlive
        rw [horder]
        exact hnew privdata
      · exact h.live id before hlive
    · have hsame : s'.orderMap = t.oms.orderMap :=
        hmap.trans (if_pos (Option.isSome_iff_ne_none.mpr hnone))
      exact h.live id before (hsame ▸ hlive)

theorem Counted.step {t t' : Served γ} {a : OmsAction} (h : Counted t)
    (hcounts : t.CountsLots a) (hstep : step g ct t a = some t') : Counted t' := by
  obtain ⟨oms, homs, rfl⟩ := Option.map_eq_some_iff.mp hstep
  rcases Oms.step_cases homs with
    ⟨cmd, mqId, clock, iteration, orderReq, contract, -, -, hcontract, rfl⟩ | ⟨rsp, rfl, rfl⟩ |
    ⟨-, hmap, -, -, hlog⟩
  · exact h.submitted hcontract clock mqId _
  · cases hfind : t.oms.orderMap.find? rsp.orderId with
    | none =>
      rw [Oms.visit_of_find?_none ct hfind]
      exact ⟨h.live, h.written⟩
    | some order =>
      have hbecame := Oms.visit_became ct hfind
      obtain ⟨hwritten, hafter⟩ := counted_respond (h.live _ order hfind) hfind hcounts
      refine ⟨fun id after hlive => ?_, fun e he => ?_⟩
      · simp only [hbecame.orderMap] at hlive
        split_ifs at hlive
        · exact hafter after hlive
        · exact h.live id after hlive
      · simp only [hbecame.rspWriters] at he
        rcases List.mem_append.mp he with he | he
        · exact h.written e he
        · obtain ⟨r, hr, rfl⟩ := List.mem_map.mp he
          exact hwritten r hr
  · exact ⟨fun id order hlive => h.live id order (hmap ▸ hlive), fun e he => h.written e (hlog ▸ he)⟩

theorem Counted.of_started {s : Oms γ} (h : s.Started) : Counted { oms := s } where
  live := fun id order ho => by
    rw [h.orderMap] at ho
    cases ho
  written := fun e he => by
    rw [h.rspWriters] at he
    cases he

/-- Whatever the gateway answers, every response goes to the queue that its order came from and
is about this order, the fills add up, and an order is given up by completing it, once. -/
theorem responses_answer_orders (g : Gateway γ) (ct : ContractTable) {s₀ : Oms γ}
    (h₀ : s₀.Started) {t : Served γ}
    (h : Execution.Reaches (step g ct) CountsLots { oms := s₀ } t) :
    t.oms.nextOmsOrderId = (submissions ct t.executed).length + 1 ∧
      EachAfter (Answered (submissions ct t.executed)) t.oms.rspWriters ∧
      (∀ e ∈ t.oms.rspWriters, e.2.Counted) ∧
      ∀ id, t.oms.Finished id → completions (t.oms.responses id) ≠ [] := by
  have hfaithful := h.invariant (Faithful ct) (fun _ _ _ ht _ hstep => ht.step hstep)
    (.of_started h₀)
  have hcounted := h.invariant Counted (fun _ _ _ ht hcounts hstep => ht.step hcounts hstep)
    (.of_started h₀)
  exact ⟨hfaithful.counter, hfaithful.written, hcounted.written, fun id ⟨hpos, hlt, hgone⟩ =>
    hfaithful.finished id hpos hlt hgone⟩

theorem responses_answer_orders_buyTwo :
    ∃ t : Served Unit, t.executed = [(0, Tracked.buyTwoCmd)] ∧ t.oms.rspWriters.length = 2 ∧
      EachAfter (Answered [(0, Tracked.buyTwo)]) t.oms.rspWriters ∧
      ∀ e ∈ t.oms.rspWriters, e.2.Counted := by
  have hsent : Execution.Reaches (step (.stub true) (.ofList [ticker001])) CountsLots
      { oms := Oms.fresh [] } _ :=
    (Execution.Reaches.refl _).tail (.execute Tracked.buyTwoCmd 0 (fun _ => 0) []) trivial rfl
  have hfilled := hsent.tail (.deliver (.traded ⟨0, 1, 100, 2⟩))
    ⟨by decide, fun order horder => by cases horder; decide⟩ rfl
  obtain ⟨-, hanswered, hcounted, -⟩ :=
    responses_answer_orders (.stub true) (.ofList [ticker001]) ⟨rfl, rfl, rfl⟩ hfilled
  exact ⟨_, rfl, by decide +kernel, hanswered, hcounted⟩

end Served

end FlareTrader
