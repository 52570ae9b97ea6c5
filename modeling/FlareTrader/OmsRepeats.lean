import FlareTrader.OmsFunds
import FlareTrader.OmsSubmission

/-! Responses that arrive twice. A repeated acceptance meets the flag that the first one
set. Nothing records that a cancellation has been booked, so a repeated one is booked
again unless the first one took the order out of the order map. -/

namespace FlareTrader

theorem FundRisk.onOrderCanceled_zero (order : Order) : FundRisk.onOrderCanceled order 0 = id := by
  funext account
  simp [FundRisk.onOrderCanceled, Order.margin]

namespace Oms

variable {γ : Type}

structure SameRecords (s s' : Oms γ) : Prop where
  orderMap : ∀ id, s'.orderMap.find? id = s.orderMap.find? id
  account : s'.params.account = s.params.account
  positions : ∀ strategy t,
    s'.params.posManager.getPosition strategy t = s.params.posManager.getPosition strategy t

theorem SameRecords.refl (s : Oms γ) : SameRecords s s := ⟨fun _ => rfl, rfl, fun _ _ => rfl⟩

def Repeatable : GatewayOrderResponse → Prop
  | .accepted _ => True
  | .canceled _ _ => True
  | _ => False

def Settles (s : Oms γ) (rsp : GatewayOrderResponse) : Prop :=
  ∀ id volume order, rsp = .canceled id volume → s.orderMap.find? id = some order →
    order.tradedVolume + volume = order.req.volume ∨ volume = 0

section Repeats

variable (ct : ContractTable) {s : Oms γ} {orderId : ℕ} {volume : ℤ} {order : Order}

theorem accepted_twice : visit ct (visit ct s (.accepted orderId)) (.accepted orderId) =
    visit ct s (.accepted orderId) := by
  cases hf : s.orderMap.find? orderId with
  | none =>
    have hnone : visit ct s (.accepted orderId) = s := visit_of_find?_none ct hf
    rw [hnone, hnone]
  | some order =>
    have hfound := (@visit_became γ ct s (.accepted orderId) order hf).orderMap orderId
    simp only [GatewayOrderResponse.orderId, if_true, Order.after] at hfound
    generalize visit ct s (.accepted orderId) = s' at hfound
    split_ifs at hfound with haccepted
    · simp only [visit, onOrderAccepted, hfound, haccepted, if_true]
    · simp only [visit, onOrderAccepted, hfound, Order.marked, if_true]

theorem find?_canceled (hf : s.orderMap.find? orderId = some order)
    (hopen : order.tradedVolume + volume ≠ order.req.volume) :
    (visit ct s (.canceled orderId volume)).orderMap.find? orderId = some (order.canceled volume) := by
  have hfound := (@visit_became γ ct s (.canceled orderId volume) order hf).orderMap orderId
  rw [GatewayOrderResponse.orderId, if_pos rfl] at hfound
  rw [hfound]
  exact Order.unlessCompleted_eq_some.mpr ⟨hopen, rfl⟩

theorem posManager_canceled (hf : s.orderMap.find? orderId = some order) :
    (visit ct s (.canceled orderId volume)).params.posManager =
      (PositionRisk.updatePending order (0 - volume))^[(s.rules.map RiskRule.kind).count .position]
        s.params.posManager :=
  (@visit_became γ ct s (.canceled orderId volume) order hf).posManager

theorem rules_canceled (hf : s.orderMap.find? orderId = some order) :
    (visit ct s (.canceled orderId volume)).rules = s.rules :=
  (@visit_became γ ct s (.canceled orderId volume) order hf).rules

theorem sameRecords_canceled_zero (hf : s.orderMap.find? orderId = some order)
    (hcanceled : order.canceled 0 = order) (hopen : order.tradedVolume ≠ order.req.volume) :
    SameRecords s (visit ct s (.canceled orderId 0)) := by
  refine ⟨fun id' => ?_, ?_, fun strategy t => ?_⟩
  · have hfound := (@visit_became γ ct s (.canceled orderId 0) order hf).orderMap id'
    rw [GatewayOrderResponse.orderId] at hfound
    rw [hfound]
    split_ifs with hid
    · have hzero : order.canceledVolume = 0 := (congrArg Order.canceledVolume hcanceled).symm
      rw [hid, hf, Order.after, hcanceled]
      exact Order.unlessCompleted_eq_some.mpr ⟨by rwa [hzero, add_zero], rfl⟩
    · rfl
  · rw [@visit_account γ s ct (.canceled orderId 0) order hf, Order.funded,
      FundRisk.onOrderCanceled_zero, Function.iterate_id]
    rfl
  · rw [posManager_canceled ct hf, sub_zero]
    exact PositionRisk.getPosition_iterate_zero order _ _ strategy t

theorem canceled_twice_iff (hposition : .position ∈ s.rules.map RiskRule.kind)
    (hf : s.orderMap.find? orderId = some order) :
    SameRecords (visit ct s (.canceled orderId volume))
        (visit ct (visit ct s (.canceled orderId volume)) (.canceled orderId volume)) ↔
      order.tradedVolume + volume = order.req.volume ∨ volume = 0 := by
  by_cases hdone : order.tradedVolume + volume = order.req.volume
  · have hfound := (@visit_became γ ct s (.canceled orderId volume) order hf).orderMap orderId
    rw [GatewayOrderResponse.orderId, if_pos rfl] at hfound
    have hnone : (visit ct s (.canceled orderId volume)).orderMap.find? orderId = none := by
      rw [hfound]
      exact if_pos hdone
    rw [@visit_of_find?_none γ ct _ (.canceled orderId volume) hnone]
    exact iff_of_true (.refl _) (Or.inl hdone)
  · have hfound := find?_canceled ct hf hdone
    rw [or_iff_right hdone]
    constructor
    · intro h
      have hpos := h.positions
      rw [posManager_canceled ct hfound, rules_canceled ct hf] at hpos
      have hzero := (PositionRisk.getPosition_pending_iterate_eq_iff _ _ _ _).mp hpos
        (List.count_pos_iff.mpr hposition).ne'
      omega
    · rintro rfl
      rw [add_zero] at hdone
      exact sameRecords_canceled_zero ct hfound rfl hdone

end Repeats

/-- Handling a response twice is handling it once: acceptances always, cancellations exactly when
the first one settles the order. -/
theorem repeated_response_iff (ct : ContractTable) (s : Oms γ)
    (hposition : .position ∈ s.rules.map RiskRule.kind) (rsp : GatewayOrderResponse)
    (hrsp : Repeatable rsp) :
    SameRecords (visit ct s rsp) (visit ct (visit ct s rsp) rsp) ↔ Settles s rsp := by
  cases rsp with
  | accepted id =>
    rw [accepted_twice]
    refine iff_of_true (.refl _) fun id' volume order heq => ?_
    cases heq
  | canceled id volume =>
    cases hf : s.orderMap.find? id with
    | none =>
      have hnone : visit ct s (.canceled id volume) = s := visit_of_find?_none ct hf
      rw [hnone, hnone]
      refine iff_of_true (.refl s) fun id' volume' order heq hfound => ?_
      cases heq
      rw [hf] at hfound
      cases hfound
    | some order =>
      rw [canceled_twice_iff ct hposition hf]
      constructor
      · intro h id' volume' order' heq hfound
        cases heq
        rw [hf] at hfound
        cases hfound
        exact h
      · intro h
        exact h id volume order rfl hf
  | traded rsp => exact hrsp.elim
  | rejected id reason => exact hrsp.elim
  | cancelRejected id reason => exact hrsp.elim

def liveTwo : Oms Unit :=
  (sendOrder (.stub true) (.ofList [ticker001]) (fun _ => 0) Tracked.buyTwoCmd Tracked.buyTwo 0
    (fresh [.fund, .position])).2

theorem repeated_response_liveTwo :
    SameRecords (visit (.ofList [ticker001]) liveTwo (.accepted 1))
        (visit (.ofList [ticker001]) (visit (.ofList [ticker001]) liveTwo (.accepted 1))
          (.accepted 1)) ∧
      SameRecords (visit (.ofList [ticker001]) liveTwo (.canceled 1 2))
        (visit (.ofList [ticker001]) (visit (.ofList [ticker001]) liveTwo (.canceled 1 2))
          (.canceled 1 2)) ∧
      ¬ SameRecords (visit (.ofList [ticker001]) liveTwo (.canceled 1 1))
        (visit (.ofList [ticker001]) (visit (.ofList [ticker001]) liveTwo (.canceled 1 1))
          (.canceled 1 1)) := by
  have hposition : .position ∈ liveTwo.rules.map RiskRule.kind := by decide +kernel
  have hlive : (liveTwo.orderMap.find? 1).map (fun order => (order.tradedVolume, order.req.volume)) =
      some (0, 2) := by decide +kernel
  obtain ⟨order, hfound, hvolumes⟩ := Option.map_eq_some_iff.mp hlive
  obtain ⟨htraded, hvolume⟩ := Prod.mk.inj hvolumes
  refine ⟨?_, ?_, fun hsame => ?_⟩
  · exact (repeated_response_iff (.ofList [ticker001]) liveTwo hposition (.accepted 1) trivial).mpr
      fun _ _ _ heq _ => by cases heq
  · refine (repeated_response_iff (.ofList [ticker001]) liveTwo hposition (.canceled 1 2)
      trivial).mpr fun id volume order' heq hfound' => ?_
    cases heq
    rw [hfound] at hfound'
    cases hfound'
    exact Or.inl (by rw [htraded, hvolume]; rfl)
  · have hsettles := (repeated_response_iff (.ofList [ticker001]) liveTwo hposition (.canceled 1 1)
      trivial).mp hsame 1 1 order rfl hfound
    rw [htraded, hvolume] at hsettles
    revert hsettles
    decide

/-- One of two is cancelled while the fill of the other is on its way: the repeated cancellation
frees its margin again. -/
theorem cancellation_frees_twice :
    Execution.Reaches (step (.stub true) (.ofList [ticker001])) (fun _ _ => True)
        (fresh [.fund, .position]) liveTwo ∧
      (visit (.ofList [ticker001]) liveTwo (.canceled 1 1)).params.account.cash <
        (visit (.ofList [ticker001]) (visit (.ofList [ticker001]) liveTwo (.canceled 1 1))
          (.canceled 1 1)).params.account.cash := by
  have hstart : Execution.Reaches (step (.stub true) (.ofList [ticker001])) (fun _ _ => True)
      (fresh [.fund, .position]) (fresh [.fund, .position]) := .refl _
  have hsent := hstart.tail (.execute Tracked.buyTwoCmd 0 (fun _ => 0) []) trivial rfl
  exact ⟨hsent, by decide +kernel⟩

end Oms

end FlareTrader
