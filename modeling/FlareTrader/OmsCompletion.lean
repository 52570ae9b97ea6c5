import FlareTrader.OmsResponses

/-! Exactly-once completion. Next to the order management system runs a record
of the responses each live order was given; while they keep to the discipline
of an exchange, an order is tracked by them, and the response that makes it
leave the order map is the one that reports completion. -/

namespace FlareTrader

def fills (heard : List GatewayOrderResponse) : List ℤ :=
  heard.filterMap fun
    | .traded rsp => some rsp.volume
    | _ => none

def cancels (heard : List GatewayOrderResponse) : List ℤ :=
  heard.filterMap fun
    | .canceled _ volume => some volume
    | _ => none

def rejections (heard : List GatewayOrderResponse) : List String :=
  heard.filterMap fun
    | .rejected _ reason => some reason
    | _ => none

/-- What a gateway may send for an order of some volume. -/
structure Disciplined (volume : ℤ) (heard : List GatewayOrderResponse) : Prop where
  fills_pos : ∀ v ∈ fills heard, 0 < v
  cancels_pos : ∀ v ∈ cancels heard, 0 < v
  one_cancel : (cancels heard).length ≤ 1
  one_rejection : (rejections heard).length ≤ 1
  rejected_alone : rejections heard ≠ [] → fills heard = [] ∧ cancels heard = []
  bounded : (fills heard).sum + (cancels heard).sum ≤ volume

structure Order.Tracks (order : Order) (heard : List GatewayOrderResponse) : Prop where
  traded : order.tradedVolume = (fills heard).sum
  canceled : order.canceledVolume = (cancels heard).sum
  open_ : order.tradedVolume + order.canceledVolume < order.req.volume

def sumTraded (rsps : List OrderResponse) : ℤ := (rsps.map (·.thisTraded)).sum

def completions (rsps : List OrderResponse) : List OrderResponse := rsps.filter (·.completed)

theorem sumTraded_append (as bs : List OrderResponse) :
    sumTraded (as ++ bs) = sumTraded as + sumTraded bs := by
  simp [sumTraded]

theorem completions_append (as bs : List OrderResponse) :
    completions (as ++ bs) = completions as ++ completions bs := by
  simp [completions]

section Acknowledged

variable {order : Order}

theorem response_completed_iff (thisTraded : ℤ) (price : ℚ) :
    (order.response thisTraded price .kNoError).completed = true ↔
      order.canceledVolume + order.tradedVolume = order.req.volume := by
  simp [Order.response]

theorem sumTraded_acknowledged : sumTraded order.acknowledged = 0 := by
  unfold Order.acknowledged
  split_ifs <;> rfl

theorem completions_acknowledged
    (h : order.tradedVolume + order.canceledVolume < order.req.volume) :
    completions order.acknowledged = [] := by
  unfold Order.acknowledged
  split_ifs
  · rfl
  · have hc : (order.response 0 0 .kNoError).completed = false := by
      rw [Bool.eq_false_iff, Ne, response_completed_iff]
      omega
    simp [completions, hc]

end Acknowledged

theorem reported_spec (order : Order) (thisTraded : ℤ) (price : ℚ)
    (h : order.tradedVolume + order.canceledVolume ≤ order.req.volume) :
    (∀ order', order.unlessCompleted = some order' →
        order' = order ∧ order.tradedVolume + order.canceledVolume < order.req.volume ∧
        completions [order.response thisTraded price .kNoError] = []) ∧
      (order.unlessCompleted = none →
        completions [order.response thisTraded price .kNoError] =
          [order.response thisTraded price .kNoError]) := by
  have hcomm := add_comm order.canceledVolume order.tradedVolume
  refine ⟨fun order' ho => ?_, fun ho => ?_⟩
  · obtain ⟨hne, rfl⟩ := Order.unlessCompleted_eq_some.mp ho
    have hc : (order.response thisTraded price .kNoError).completed = false := by
      rw [Bool.eq_false_iff, Ne, response_completed_iff, hcomm]
      exact hne
    exact ⟨rfl, lt_of_le_of_ne h hne, by simp [completions, hc]⟩
  · have heq : order.tradedVolume + order.canceledVolume = order.req.volume := by
      by_contra hne
      simp [Order.unlessCompleted, hne] at ho
    have hc : (order.response thisTraded price .kNoError).completed = true := by
      rw [response_completed_iff, hcomm]
      exact heq
    simp [completions, hc]

/-- While the order stays no completion is written, and as it leaves exactly one is, last;
the volumes written add up to what is traded. -/
def Order.Follows (order : Order) (heard : List GatewayOrderResponse) (after : Option Order)
    (written : List OrderResponse) : Prop :=
  (∀ order', after = some order' → order'.Tracks heard ∧ completions written = [] ∧
      order.tradedVolume + sumTraded written = order'.tradedVolume) ∧
    (after = none → ∃ last, completions written = [last] ∧
      order.tradedVolume + sumTraded written = last.tradedVolume)

theorem Order.Tracks.reported {order reported : Order} {heard : List GatewayOrderResponse}
    {written : List OrderResponse} (thisTraded : ℤ) (price : ℚ)
    (hle : reported.tradedVolume + reported.canceledVolume ≤ reported.req.volume)
    (htraded : reported.tradedVolume = (fills heard).sum)
    (hcanceled : reported.canceledVolume = (cancels heard).sum)
    (hwritten : completions written = completions [reported.response thisTraded price .kNoError])
    (hvol : order.tradedVolume + sumTraded written = reported.tradedVolume) :
    order.Follows heard reported.unlessCompleted written := by
  obtain ⟨hstay, hleave⟩ := reported_spec reported thisTraded price hle
  refine ⟨fun order' ho => ?_, fun ho => ⟨_, hwritten.trans (hleave ho), hvol⟩⟩
  obtain ⟨rfl, hlt, hnone⟩ := hstay order' ho
  exact ⟨⟨htraded, hcanceled, hlt⟩, hwritten.trans hnone, hvol⟩

section Respond

variable {order : Order} {heard : List GatewayOrderResponse}

theorem Order.Tracks.congr {order' : Order} {heard' : List GatewayOrderResponse}
    (h : order.Tracks heard) (hf : fills heard' = fills heard) (hc : cancels heard' = cancels heard)
    (ht : order'.tradedVolume = order.tradedVolume)
    (hv : order'.canceledVolume = order.canceledVolume) (hr : order'.req = order.req) :
    order'.Tracks heard' where
  traded := by rw [ht, hf, h.traded]
  canceled := by rw [hv, hc, h.canceled]
  open_ := by
    rw [ht, hv, hr]
    exact h.open_

theorem Order.Tracks.accepted (h : order.Tracks heard) (id : ℕ) :
    order.Follows (heard ++ [GatewayOrderResponse.accepted id]) (order.after (.accepted id))
      (order.written (.accepted id)) := by
  have hf : fills (heard ++ [GatewayOrderResponse.accepted id]) = fills heard := by simp [fills]
  have hc : cancels (heard ++ [GatewayOrderResponse.accepted id]) = cancels heard := by simp [cancels]
  have hwritten : completions (order.written (.accepted id)) = [] :=
    completions_acknowledged h.open_
  have hvol : order.tradedVolume + sumTraded (order.written (.accepted id)) =
      order.tradedVolume := by
    rw [Order.written, sumTraded_acknowledged, add_zero]
  by_cases hacc : order.accepted = true
  · have hafter : order.after (.accepted id) = some order := if_pos hacc
    rw [hafter]
    refine ⟨fun order' ho => ?_, fun ho => by cases ho⟩
    cases ho
    exact ⟨h.congr hf hc rfl rfl rfl, hwritten, hvol⟩
  · have hafter : order.after (.accepted id) = some order.marked := if_neg hacc
    rw [hafter]
    refine ⟨fun order' ho => ?_, fun ho => by cases ho⟩
    cases ho
    exact ⟨h.congr hf hc rfl rfl rfl, hwritten, hvol⟩

theorem Order.Tracks.traded_response (h : order.Tracks heard) {rsp : OrderTradedRsp}
    (hd : Disciplined order.req.volume (heard ++ [GatewayOrderResponse.traded rsp])) :
    order.Follows (heard ++ [GatewayOrderResponse.traded rsp]) (order.after (.traded rsp))
      (order.written (.traded rsp)) := by
  have hf : fills (heard ++ [GatewayOrderResponse.traded rsp]) = fills heard ++ [rsp.volume] := by
    simp [fills]
  have hc : cancels (heard ++ [GatewayOrderResponse.traded rsp]) = cancels heard := by simp [cancels]
  have htraded : (order.traded rsp.volume).tradedVolume =
      (fills (heard ++ [GatewayOrderResponse.traded rsp])).sum := by
    rw [hf, List.sum_append, List.sum_singleton, ← h.traded]
    rfl
  have hcanceled : (order.traded rsp.volume).canceledVolume =
      (cancels (heard ++ [GatewayOrderResponse.traded rsp])).sum := by
    rw [hc, ← h.canceled]
    rfl
  have hsum := hd.bounded
  rw [← htraded, ← hcanceled] at hsum
  apply Order.Tracks.reported rsp.volume rsp.price hsum htraded hcanceled
  · rw [Order.written, completions_append, completions_acknowledged h.open_, List.nil_append]
  · rw [Order.written, sumTraded_append, sumTraded_acknowledged]
    simp [sumTraded, Order.response, Order.traded]

theorem Order.Tracks.canceled_response (h : order.Tracks heard) {id : ℕ} {volume : ℤ}
    (hd : Disciplined order.req.volume (heard ++ [GatewayOrderResponse.canceled id volume])) :
    order.Follows (heard ++ [GatewayOrderResponse.canceled id volume])
      (order.after (.canceled id volume)) (order.written (.canceled id volume)) := by
  have hf : fills (heard ++ [GatewayOrderResponse.canceled id volume]) = fills heard := by
    simp [fills]
  have hc : cancels (heard ++ [GatewayOrderResponse.canceled id volume]) =
      cancels heard ++ [volume] := by simp [cancels]
  have hfirst : cancels heard = [] := by
    have hone := hd.one_cancel
    rw [hc, List.length_append, List.length_singleton] at hone
    exact List.length_eq_zero_iff.mp (by omega)
  rw [hfirst, List.nil_append] at hc
  have htraded : (order.canceled volume).tradedVolume =
      (fills (heard ++ [GatewayOrderResponse.canceled id volume])).sum := by
    rw [hf, ← h.traded]
    rfl
  have hcanceled : (order.canceled volume).canceledVolume =
      (cancels (heard ++ [GatewayOrderResponse.canceled id volume])).sum := by
    rw [hc, List.sum_singleton]
    rfl
  have hsum := hd.bounded
  rw [← htraded, ← hcanceled] at hsum
  apply Order.Tracks.reported 0 0 hsum htraded hcanceled rfl
  simp [sumTraded, Order.response, Order.canceled]

theorem Order.Tracks.respond {rsp : GatewayOrderResponse} (h : order.Tracks heard)
    (hd : Disciplined order.req.volume (heard ++ [rsp])) :
    order.Follows (heard ++ [rsp]) (order.after rsp) (order.written rsp) := by
  cases rsp with
  | accepted id => exact h.accepted id
  | traded rsp => exact h.traded_response hd
  | rejected id reason =>
    refine ⟨fun order' ho => (by cases ho), fun _ => ⟨order.response 0 0 .kRejected, ?_, ?_⟩⟩
    · simp [completions, Order.written, Order.response]
    · simp [sumTraded, Order.written, Order.response]
  | canceled id volume => exact h.canceled_response hd
  | cancelRejected id reason =>
    refine ⟨fun order' ho => ?_, fun ho => (by cases ho)⟩
    cases ho
    refine ⟨h.congr (by simp [fills]) (by simp [cancels]) rfl rfl rfl, rfl, ?_⟩
    simp [sumTraded, Order.written]

end Respond

namespace Oms

variable {γ : Type}

def responses (s : Oms γ) (id : ℕ) : List OrderResponse :=
  (s.rspWriters.map Prod.snd).filter fun rsp => rsp.orderId = id

def Finished (s : Oms γ) (id : ℕ) : Prop :=
  1 ≤ id ∧ id < s.nextOmsOrderId ∧ s.orderMap.find? id = none

theorem responses_append {s s' : Oms γ} {rsps : List (ℕ × OrderResponse)}
    (h : s'.rspWriters = s.rspWriters ++ rsps) (id : ℕ) :
    s'.responses id =
      s.responses id ++ (rsps.map Prod.snd).filter fun rsp => rsp.orderId = id := by
  rw [responses, h, List.map_append, List.filter_append]
  rfl

theorem responses_of_other {s s' : Oms γ} {rsps : List (ℕ × OrderResponse)}
    (h : s'.rspWriters = s.rspWriters ++ rsps) {id : ℕ}
    (hid : ∀ rsp ∈ rsps, rsp.2.orderId ≠ id) : s'.responses id = s.responses id := by
  rw [responses_append h, List.filter_eq_nil_iff.mpr, List.append_nil]
  intro rsp hrsp
  obtain ⟨e, he, rfl⟩ := List.mem_map.mp hrsp
  simpa using hid e he

theorem orderId_of_mem_written {order : Order} {rsp : GatewayOrderResponse} {r : OrderResponse}
    (h : r ∈ order.written rsp) : r.orderId = order.req.orderId := by
  have hack : ∀ r ∈ order.acknowledged, r.orderId = order.req.orderId := by
    intro r hr
    unfold Order.acknowledged at hr
    split_ifs at hr
    · cases hr
    · rw [List.mem_singleton.mp hr]
      rfl
  cases rsp with
  | accepted id => exact hack r h
  | traded rsp =>
    rcases List.mem_append.mp h with h | h
    · exact hack r h
    · rw [List.mem_singleton.mp h]
      rfl
  | rejected id reason =>
    rw [List.mem_singleton.mp h]
    rfl
  | canceled id volume =>
    rw [List.mem_singleton.mp h]
    rfl
  | cancelRejected id reason => cases h

end Oms

structure Tracked (γ : Type) where
  oms : Oms γ
  heard : ℕ → List GatewayOrderResponse := fun _ => []

namespace Tracked

variable {γ : Type} {g : Gateway γ} {ct : ContractTable}

def record (t : Tracked γ) : OmsAction → ℕ → List GatewayOrderResponse
  | .deliver rsp => fun id =>
    if id = rsp.orderId ∧ t.oms.orderMap.contains id then t.heard id ++ [rsp] else t.heard id
  | _ => t.heard

def step (g : Gateway γ) (ct : ContractTable) (t : Tracked γ) (a : OmsAction) :
    Option (Tracked γ) :=
  (Oms.step g ct t.oms a).map fun oms => ⟨oms, t.record a⟩

/-- Every order that is sent has positive volume, and the gateway keeps to the
discipline for every live order. -/
def Allowed (g : Gateway γ) (ct : ContractTable) (t : Tracked γ) : OmsAction → Prop
  | .execute cmd mqId clock _ => ∀ orderReq, cmd.Submits orderReq →
      (Oms.sendOrder g ct clock cmd orderReq mqId t.oms).1 = true → 0 < orderReq.volume
  | .deliver rsp => ∀ order, t.oms.orderMap.find? rsp.orderId = some order →
      Disciplined order.req.volume (t.heard rsp.orderId ++ [rsp])
  | .account _ => True

structure Coherent (t : Tracked γ) : Prop where
  counter : 1 ≤ t.oms.nextOmsOrderId
  live : ∀ id order, t.oms.orderMap.find? id = some order →
    order.req.orderId = id ∧ 1 ≤ id ∧ id < t.oms.nextOmsOrderId ∧ order.Tracks (t.heard id) ∧
      completions (t.oms.responses id) = [] ∧ sumTraded (t.oms.responses id) = order.tradedVolume
  unsent : ∀ id, t.oms.nextOmsOrderId ≤ id → t.oms.responses id = [] ∧ t.heard id = []
  finished : ∀ id, t.oms.Finished id → ∃ last, completions (t.oms.responses id) = [last] ∧
    sumTraded (t.oms.responses id) = last.tradedVolume

theorem Coherent.of_started {s : Oms γ} (h : s.Started) : Coherent { oms := s } where
  counter := h.nextOmsOrderId.ge
  live := fun id order ho => by
    rw [h.orderMap] at ho
    cases ho
  unsent := fun id _ => ⟨by simp [Oms.responses, h.rspWriters], rfl⟩
  finished := fun id hf => by
    obtain ⟨h1, h2, -⟩ := hf
    rw [h.nextOmsOrderId] at h2
    omega

theorem Coherent.find?_next {t : Tracked γ} (h : t.Coherent) :
    t.oms.orderMap.find? t.oms.nextOmsOrderId = none := by
  cases hf : t.oms.orderMap.find? t.oms.nextOmsOrderId with
  | none => rfl
  | some order => exact absurd (h.live _ order hf).2.2.1 (lt_irrefl _)

theorem Coherent.failed {t : Tracked γ} (h : t.Coherent) {order : Order}
    (hid : order.req.orderId = t.oms.nextOmsOrderId)
    (htraded : order.tradedVolume = 0) {errorCode : ErrorCode} (he : errorCode ≠ .kNoError)
    {mqId : ℕ} {s' : Oms γ} (hnext : s'.nextOmsOrderId = t.oms.nextOmsOrderId + 1)
    (hmap : s'.orderMap = t.oms.orderMap)
    (hlog : s'.rspWriters = t.oms.rspWriters ++ [(mqId, order.response 0 0 errorCode)]) :
    Coherent ⟨s', t.heard⟩ := by
  have hother : ∀ {id}, id ≠ t.oms.nextOmsOrderId → s'.responses id = t.oms.responses id := by
    intro id hne
    apply Oms.responses_of_other hlog
    intro rsp hr
    rw [List.mem_singleton.mp hr]
    exact fun heq => hne (heq.symm.trans hid)
  have hself : s'.responses t.oms.nextOmsOrderId = [order.response 0 0 errorCode] := by
    have hrid : (order.response 0 0 errorCode).orderId = t.oms.nextOmsOrderId := hid
    rw [Oms.responses_append hlog, (h.unsent _ le_rfl).1]
    simp [hrid]
  refine ⟨by simp only [hnext]; omega, fun id o ho => ?_, fun id hle => ?_, fun id hf => ?_⟩
  · simp only [hmap] at ho
    obtain ⟨h1, h2, h3, h4, h5, h6⟩ := h.live id o ho
    simp only [hother h3.ne, hnext]
    exact ⟨h1, h2, by omega, h4, h5, h6⟩
  · simp only [hnext] at hle
    have hne : id ≠ t.oms.nextOmsOrderId := by omega
    simp only [hother hne]
    exact h.unsent id (by omega)
  · obtain ⟨h1, h2, h3⟩ := hf
    simp only [hnext, hmap] at h2 h3
    by_cases hne : id = t.oms.nextOmsOrderId
    · subst hne
      refine ⟨order.response 0 0 errorCode, ?_, ?_⟩
      · rw [hself]
        simp [completions, Order.response, he]
      · rw [hself]
        simp [sumTraded, Order.response, htraded]
    · simp only [hother hne]
      exact h.finished id ⟨h1, by omega, h3⟩

theorem Coherent.sent {t : Tracked γ} (h : t.Coherent) (order : Order)
    (hid : order.req.orderId = t.oms.nextOmsOrderId) (htraded : order.tradedVolume = 0)
    (hcanceled : order.canceledVolume = 0)
    (hvolume : 0 < order.req.volume) {s' : Oms γ}
    (hnext : s'.nextOmsOrderId = t.oms.nextOmsOrderId + 1)
    (hmap : s'.orderMap = t.oms.orderMap.emplace order.req.orderId order)
    (hlog : s'.rspWriters = t.oms.rspWriters) : Coherent ⟨s', t.heard⟩ := by
  have hresp : ∀ id, s'.responses id = t.oms.responses id := fun id => by
    rw [Oms.responses, hlog]
    rfl
  have hfind : ∀ id, s'.orderMap.find? id =
      if id = t.oms.nextOmsOrderId then some order else t.oms.orderMap.find? id := by
    intro id
    rw [hmap, hid, SortedMap.emplace_of_find?_none h.find?_next, SortedMap.find?_insert]
  refine ⟨by simp only [hnext]; omega, fun id o ho => ?_, fun id hle => ?_, fun id hf => ?_⟩
  · simp only [hfind] at ho
    simp only [hresp, hnext]
    split_ifs at ho with hne
    · cases ho
      subst hne
      obtain ⟨hr, hh⟩ := h.unsent _ le_rfl
      rw [hr, hh]
      refine ⟨hid, h.counter, by omega, ⟨?_, ?_, ?_⟩, rfl, ?_⟩
      · simpa [fills] using htraded
      · simpa [cancels] using hcanceled
      · omega
      · simpa [sumTraded] using htraded.symm
    · obtain ⟨h1, h2, h3, hrest⟩ := h.live id o ho
      exact ⟨h1, h2, by omega, hrest⟩
  · simp only [hnext] at hle
    simp only [hresp]
    exact h.unsent id (by omega)
  · obtain ⟨h1, h2, h3⟩ := hf
    simp only [hnext, hfind] at h2 h3
    simp only [hresp]
    split_ifs at h3 with hne
    exact h.finished id ⟨h1, by omega, h3⟩

theorem responses_visit {s : Oms γ} {rsp : GatewayOrderResponse} {order : Order}
    (hf : s.orderMap.find? rsp.orderId = some order) (hid : order.req.orderId = rsp.orderId) (id : ℕ) :
    (Oms.visit ct s rsp).responses id =
      if id = rsp.orderId then s.responses id ++ order.written rsp else s.responses id := by
  have hv := Oms.visit_became ct hf
  split_ifs with hne
  · subst hne
    rw [Oms.responses_append hv.rspWriters, List.map_map]
    apply congrArg _
    simp only [Function.comp_def, List.map_id']
    apply List.filter_eq_self.mpr
    intro r hr
    simpa [hid] using Oms.orderId_of_mem_written hr
  · apply Oms.responses_of_other hv.rspWriters
    intro r hr
    obtain ⟨r', hr', rfl⟩ := List.mem_map.mp hr
    rw [Oms.orderId_of_mem_written hr', hid]
    exact Ne.symm hne

theorem Coherent.deliver {t : Tracked γ} (h : t.Coherent) {rsp : GatewayOrderResponse}
    (ha : t.Allowed g ct (.deliver rsp)) :
    Coherent ⟨Oms.visit ct t.oms rsp, t.record (.deliver rsp)⟩ := by
  cases hf : t.oms.orderMap.find? rsp.orderId with
  | none =>
    have hrec : t.record (.deliver rsp) = t.heard := by
      funext id
      apply if_neg
      rintro ⟨rfl, hc⟩
      simp [SortedMap.contains, hf] at hc
    rw [Oms.visit_of_find?_none ct hf, hrec]
    exact h
  | some order =>
    obtain ⟨hid, h1, hlt, htr, hcomp, hsum⟩ := h.live _ order hf
    have hv := Oms.visit_became ct hf
    obtain ⟨hstay, hleave⟩ := htr.respond (ha order hf)
    have hself : (Oms.visit ct t.oms rsp).responses rsp.orderId =
        t.oms.responses rsp.orderId ++ order.written rsp :=
      (responses_visit hf hid rsp.orderId).trans (if_pos rfl)
    have hother : ∀ {id}, id ≠ rsp.orderId →
        (Oms.visit ct t.oms rsp).responses id = t.oms.responses id :=
      fun {id} hne => (responses_visit hf hid id).trans (if_neg hne)
    have hrec : ∀ id, t.record (.deliver rsp) id =
        if id = rsp.orderId then t.heard id ++ [rsp] else t.heard id := by
      intro id
      by_cases hne : id = rsp.orderId
      · subst hne
        simp [record, SortedMap.contains, hf]
      · simp [record, hne]
    refine ⟨hv.nextOmsOrderId ▸ h.counter, fun id o ho => ?_, fun id hle => ?_, fun id hfin => ?_⟩
    · simp only [hv.orderMap] at ho
      simp only [hrec, hv.nextOmsOrderId]
      split_ifs at ho ⊢ with hne
      · subst hne
        obtain ⟨htr', hnone, hvol⟩ := hstay o ho
        rw [hself, completions_append, hcomp, hnone, sumTraded_append, hsum, hvol]
        exact ⟨by rw [(Order.after_eq_some ho).1, hid], h1, hlt, htr', rfl, rfl⟩
      · rw [hother hne]
        exact h.live id o ho
    · simp only [hv.nextOmsOrderId] at hle
      have hne : id ≠ rsp.orderId := by omega
      simp only [hrec, if_neg hne, hother hne]
      exact h.unsent id hle
    · obtain ⟨hp, hlt', hnone⟩ := hfin
      simp only [hv.nextOmsOrderId, hv.orderMap] at hlt' hnone
      split_ifs at hnone with hne
      · subst hne
        obtain ⟨last, hlast, hvol⟩ := hleave hnone
        refine ⟨last, ?_, ?_⟩
        · simp only [hself, completions_append, hcomp, hlast, List.nil_append]
        · simp only [hself, sumTraded_append, hsum, hvol]
      · simp only [hother hne]
        exact h.finished id ⟨hp, hlt', hnone⟩

theorem Coherent.preserved {t t' : Tracked γ} {a : OmsAction} (h : t.Coherent)
    (ha : Allowed g ct t a) (hs : step g ct t a = some t') : t'.Coherent := by
  obtain ⟨oms, homs, rfl⟩ := Option.map_eq_some_iff.mp hs
  rcases Oms.step_cases homs with
    ⟨cmd, mqId, clock, iteration, orderReq, contract, rfl, hk, hc, rfl⟩ | ⟨rsp, rfl, rfl⟩ |
    ⟨hnot, hmap, hnext, -, hlog⟩
  · obtain ⟨order, returned, s', ho, hsend, hnext, -, hout⟩ :=
      Oms.sendOrder_outcome g clock cmd mqId t.oms hc
    have hvol := ha orderReq hk
    rw [hsend] at hvol ⊢
    rcases hout with ⟨-, hmap, errorCode, he, hlog⟩ | ⟨rfl, -, ⟨privdata, hmap⟩, hlog⟩
    · exact h.failed (by rw [ho]; rfl) (by rw [ho]; rfl) he hnext hmap hlog
    · refine h.sent { order with privdata } ?_ ?_ ?_ ?_ hnext hmap hlog
      · rw [ho]
        rfl
      · rw [ho]
        rfl
      · rw [ho]
        rfl
      · rw [ho]
        exact hvol rfl
  · exact h.deliver ha
  · have hrec : t.record a = t.heard := by
      cases a with
      | execute cmd mqId clock iteration => rfl
      | deliver rsp => exact absurd rfl (hnot rsp)
      | account account => rfl
    have hresp : ∀ id, oms.responses id = t.oms.responses id := fun id => by
      rw [Oms.responses, hlog]
      rfl
    refine ⟨hnext ▸ h.counter, ?_, ?_, ?_⟩
    · simpa only [hmap, hnext, hrec, hresp] using h.live
    · simpa only [hnext, hrec, hresp] using h.unsent
    · simpa only [Oms.Finished, hmap, hnext, hresp] using h.finished

/-- What is written for an order only grows, and not at all once it is finished. -/
theorem Coherent.responses_step {t t' : Tracked γ} {a : OmsAction} (h : t.Coherent)
    (hs : step g ct t a = some t') (id : ℕ) :
    (∃ rsps, t'.oms.responses id = t.oms.responses id ++ rsps) ∧
      (t.oms.Finished id →
        t'.oms.Finished id ∧ t'.oms.responses id = t.oms.responses id) := by
  obtain ⟨oms, homs, rfl⟩ := Option.map_eq_some_iff.mp hs
  rcases Oms.step_cases homs with
    ⟨cmd, mqId, clock, iteration, orderReq, contract, rfl, hk, hc, rfl⟩ | ⟨rsp, rfl, rfl⟩ |
    ⟨hnot, hmap, hnext, -, hlog⟩
  · obtain ⟨order, returned, s', ho, hsend, hnext, -, hout⟩ :=
      Oms.sendOrder_outcome g clock cmd mqId t.oms hc
    have hid : order.req.orderId = t.oms.nextOmsOrderId := by rw [ho]; rfl
    rw [hsend]
    rcases hout with ⟨-, hmap, errorCode, he, hlog⟩ | ⟨-, -, ⟨privdata, hmap⟩, hlog⟩
    · refine ⟨⟨_, Oms.responses_append hlog id⟩, fun hf => ?_⟩
      obtain ⟨h1, h2, h3⟩ := hf
      refine ⟨⟨h1, by simp only [hnext]; omega, by simpa only [hmap] using h3⟩, ?_⟩
      apply Oms.responses_of_other hlog
      intro r hr
      rw [List.mem_singleton.mp hr]
      exact fun heq => h2.ne (heq.symm.trans hid)
    · have hlog' : s'.rspWriters = t.oms.rspWriters ++ [] := by rw [hlog, List.append_nil]
      refine ⟨⟨_, Oms.responses_append hlog' id⟩, fun hf => ?_⟩
      obtain ⟨h1, h2, h3⟩ := hf
      refine ⟨⟨h1, by simp only [hnext]; omega, ?_⟩,
        Oms.responses_of_other hlog' fun r hr => by cases hr⟩
      simp only [hmap]
      rw [SortedMap.find?_emplace_of_ne _ (by omega)]
      exact h3
  · cases hf : t.oms.orderMap.find? rsp.orderId with
    | none =>
      rw [Oms.visit_of_find?_none ct hf]
      exact ⟨⟨[], (List.append_nil _).symm⟩, fun hfin => ⟨hfin, rfl⟩⟩
    | some order =>
      have hv := Oms.visit_became ct hf
      refine ⟨⟨_, Oms.responses_append hv.rspWriters id⟩, fun hfin => ?_⟩
      obtain ⟨h1, h2, h3⟩ := hfin
      have hne : id ≠ rsp.orderId := by
        rintro rfl
        rw [hf] at h3
        cases h3
      refine ⟨⟨h1, by simpa only [hv.nextOmsOrderId] using h2, ?_⟩, ?_⟩
      · simpa only [hv.orderMap, if_neg hne] using h3
      · apply Oms.responses_of_other hv.rspWriters
        intro r hr
        obtain ⟨r', hr', rfl⟩ := List.mem_map.mp hr
        rw [Oms.orderId_of_mem_written hr', (h.live _ order hf).1]
        exact hne.symm
  · have hresp : oms.responses id = t.oms.responses id := by
      rw [Oms.responses, hlog]
      rfl
    refine ⟨⟨[], by rw [hresp, List.append_nil]⟩, fun hfin => ⟨?_, hresp⟩⟩
    simpa only [Oms.Finished, hmap, hnext] using hfin

theorem Coherent.removed {t t' : Tracked γ} {a : OmsAction} (h : t.Coherent)
    (ha : Allowed g ct t a) (hs : step g ct t a = some t') {id : ℕ} {order : Order}
    (hlive : t.oms.orderMap.find? id = some order) (hgone : t'.oms.orderMap.find? id = none) :
    ∃ last rsps, t'.oms.responses id = t.oms.responses id ++ rsps ∧ completions rsps = [last] ∧
      sumTraded (t'.oms.responses id) = last.tradedVolume := by
  obtain ⟨-, h1, h2, -, hcomp, -⟩ := h.live id order hlive
  obtain ⟨⟨rsps, hrsps⟩, -⟩ := h.responses_step hs id
  have hnext : t.oms.nextOmsOrderId ≤ t'.oms.nextOmsOrderId := by
    obtain ⟨oms, homs, rfl⟩ := Option.map_eq_some_iff.mp hs
    exact Oms.nextOmsOrderId_mono ct homs
  obtain ⟨last, hlast, hsum⟩ := (h.preserved ha hs).finished id ⟨h1, by omega, hgone⟩
  refine ⟨last, rsps, hrsps, ?_, hsum⟩
  rwa [hrsps, completions_append, hcomp, List.nil_append] at hlast

theorem exactlyOnce_completion (g : Gateway γ) (ct : ContractTable) (s₀ : Oms γ)
    (h₀ : s₀.Started) (t : Tracked γ)
    (h : Execution.Reaches (step g ct) (Allowed g ct) { oms := s₀ } t) :
    (∀ id order, t.oms.orderMap.find? id = some order →
        completions (t.oms.responses id) = [] ∧
          sumTraded (t.oms.responses id) = order.tradedVolume) ∧
      (∀ a t', Allowed g ct t a → step g ct t a = some t' →
        ∀ id order, t.oms.orderMap.find? id = some order → t'.oms.orderMap.find? id = none →
          ∃ last rsps, t'.oms.responses id = t.oms.responses id ++ rsps ∧
            completions rsps = [last] ∧ sumTraded (t'.oms.responses id) = last.tradedVolume) ∧
      (∀ id, t.oms.Finished id → ∀ t', Execution.Reaches (step g ct) (Allowed g ct) t t' →
        t'.oms.Finished id ∧ t'.oms.responses id = t.oms.responses id) := by
  have hcoh := h.invariant Coherent (fun _ _ _ hc ha hs => hc.preserved ha hs) (.of_started h₀)
  refine ⟨fun id order ho => ?_, fun a t' ha hs id order hlive hgone =>
    hcoh.removed ha hs hlive hgone, fun id hf t' ht => ?_⟩
  · obtain ⟨-, -, -, -, hcomp, hsum⟩ := hcoh.live id order ho
    exact ⟨hcomp, hsum⟩
  · have hinv := ht.invariant (fun u => u.Coherent ∧ u.oms.Finished id ∧
        u.oms.responses id = t.oms.responses id)
      (by
        rintro u a u' ⟨hu, hfu, hru⟩ ha hs
        obtain ⟨hfin, hsame⟩ := (hu.responses_step hs id).2 hfu
        exact ⟨hu.preserved ha hs, hfin, hsame.trans hru⟩)
      ⟨hcoh, hf, rfl⟩
    exact hinv.2

def buyTwo : TraderOrderReq := ⟨7, 1, .kBuy, .kOpen, .kLimit, 2, 100, .kNone⟩

def buyTwoCmd : TraderCommand where
  cmd := .kNewOrder buyTwo
  strategyId := "strategy"

def sentTwo : Tracked Unit where
  oms := (Oms.sendOrder (.stub true) (.ofList [ticker001]) (fun _ => 0) buyTwoCmd buyTwo 0
    (Oms.fresh [])).2

def filledTwo : Tracked Unit where
  oms := Oms.visit (.ofList [ticker001]) sentTwo.oms (.traded ⟨0, 1, 100, 2⟩)
  heard := sentTwo.record (.deliver (.traded ⟨0, 1, 100, 2⟩))

theorem filledTwo_completed_once :
    ∃ last rsps, filledTwo.oms.responses 1 = sentTwo.oms.responses 1 ++ rsps ∧
      completions rsps = [last] ∧ sumTraded (filledTwo.oms.responses 1) = last.tradedVolume := by
  have hfind : sentTwo.oms.orderMap.find? 1 =
      some (Oms.newOrder ticker001 buyTwoCmd buyTwo 0 1) := by decide +kernel
  have hstart : Execution.Reaches (step (.stub true) (.ofList [ticker001]))
      (Allowed (.stub true) (.ofList [ticker001])) { oms := Oms.fresh [] } { oms := Oms.fresh [] } :=
    .refl _
  have hsent : Execution.Reaches (step (.stub true) (.ofList [ticker001]))
      (Allowed (.stub true) (.ofList [ticker001])) { oms := Oms.fresh [] } sentTwo := by
    have hok : Allowed (.stub true) (.ofList [ticker001]) { oms := Oms.fresh [] }
        (.execute buyTwoCmd 0 (fun _ => 0) []) := by
      intro orderReq hk _
      cases hk.2
      decide
    exact hstart.tail _ hok rfl
  have hallowed : Allowed (.stub true) (.ofList [ticker001]) sentTwo
      (.deliver (.traded ⟨0, 1, 100, 2⟩)) := by
    intro order ho
    rw [show GatewayOrderResponse.orderId (.traded ⟨0, 1, 100, 2⟩) = 1 from rfl, hfind] at ho
    cases ho
    refine ⟨?_, ?_, ?_, ?_, ?_, ?_⟩ <;> decide
  exact (exactlyOnce_completion (.stub true) (.ofList [ticker001]) (Oms.fresh []) ⟨rfl, rfl, rfl⟩
    sentTwo hsent).2.1 _ filledTwo hallowed rfl 1 _ hfind (by decide +kernel)

end Tracked

end FlareTrader
