import FlareTrader.BacktestPositions
import FlareTrader.OmsResponses

/-! Responses on their way from the gateway to the order management system. A
final response settles the order it names; what it will change in the positions
is known from the order alone. -/

namespace FlareTrader

namespace GatewayOrderResponse

def IsFinal : GatewayOrderResponse → Bool
  | .traded _ => true
  | .rejected _ _ => true
  | .canceled _ _ => true
  | _ => false

def Settles (req : OrderRequest) : GatewayOrderResponse → Prop
  | .traded rsp => rsp.volume = req.volume
  | .rejected _ _ => True
  | .canceled _ canceledVolume => canceledVolume = req.volume
  | _ => False

end GatewayOrderResponse

def OrderRequest.effect (req : OrderRequest) : GatewayOrderResponse → Ledger
  | .traded rsp => tradedDelta req.contract.tickerId req.direction req.offset rsp.volume
  | .rejected _ _ => pendingDelta req.contract.tickerId req.direction req.offset (0 - req.volume)
  | .canceled _ canceledVolume =>
    pendingDelta req.contract.tickerId req.direction req.offset (0 - canceledVolume)
  | _ => 0

def finalIds (rsps : List GatewayOrderResponse) : Multiset ℕ :=
  ((rsps.filter GatewayOrderResponse.IsFinal).map GatewayOrderResponse.orderId : List ℕ)

theorem finalIds_append (rsps rsps' : List GatewayOrderResponse) :
    finalIds (rsps ++ rsps') = finalIds rsps + finalIds rsps' := by
  rw [finalIds, List.filter_append, List.map_append, ← Multiset.coe_add]
  rfl

theorem finalIds_cons_final {rsp : GatewayOrderResponse} (h : rsp.IsFinal = true)
    (rsps : List GatewayOrderResponse) : finalIds (rsp :: rsps) = rsp.orderId ::ₘ finalIds rsps := by
  rw [finalIds, List.filter_cons_of_pos h, List.map_cons, ← Multiset.cons_coe]
  rfl

theorem finalIds_cons_of_not {rsp : GatewayOrderResponse} (h : rsp.IsFinal = false)
    (rsps : List GatewayOrderResponse) : finalIds (rsp :: rsps) = finalIds rsps := by
  rw [finalIds, List.filter_cons_of_neg (by simp [h])]
  rfl

theorem mem_finalIds {rsps : List GatewayOrderResponse} {rsp : GatewayOrderResponse}
    (h : rsp ∈ rsps) (hf : rsp.IsFinal = true) : rsp.orderId ∈ finalIds rsps :=
  Multiset.mem_coe.mpr (List.mem_map_of_mem (List.mem_filter.mpr ⟨h, hf⟩))

theorem of_mem_finalIds {rsps : List GatewayOrderResponse} {id : ℕ} (h : id ∈ finalIds rsps) :
    ∃ rsp ∈ rsps, rsp.IsFinal = true ∧ rsp.orderId = id := by
  obtain ⟨rsp, hrsp, rfl⟩ := List.mem_map.mp (Multiset.mem_coe.mp h)
  obtain ⟨hmem, hf⟩ := List.mem_filter.mp hrsp
  exact ⟨rsp, hmem, hf, rfl⟩

theorem OrderRequest.effect_of_not_final (req : OrderRequest) {rsp : GatewayOrderResponse}
    (h : rsp.IsFinal = false) : req.effect rsp = 0 := by
  cases rsp with
  | accepted id => rfl
  | cancelRejected id reason => rfl
  | traded rsp => cases h
  | rejected id reason => cases h
  | canceled id volume => cases h

theorem OrderRequest.effect_kept (req : OrderRequest) (touch : ℚ) (rsp : GatewayOrderResponse) :
    (req.kept touch).effect rsp = req.effect rsp := by
  obtain ⟨price, hp⟩ := req.kept_eq touch
  rw [hp]
  cases rsp <;> rfl

theorem settles_kept {req : OrderRequest} {touch : ℚ} {rsp : GatewayOrderResponse} :
    rsp.Settles (req.kept touch) ↔ rsp.Settles req := by
  cases rsp <;> simp only [GatewayOrderResponse.Settles, OrderRequest.kept_volume]

structure Event.Ends (e : Event) (req : OrderRequest) : Prop where
  orderId : e.response.orderId = req.orderId
  settles : e.response.Settles req
  effect : req.effect e.response = e.delta

theorem Event.ends_traded (order : OrderRequest) (price : ℚ) (ts : ℕ) :
    (Event.traded order order.volume price ts).Ends order := ⟨rfl, rfl, rfl⟩

theorem Event.ends_canceled (order : OrderRequest) :
    (Event.canceled order order.volume).Ends order := by
  refine ⟨rfl, rfl, ?_⟩
  simp only [Event.response, OrderRequest.effect, Event.delta, zero_sub]

theorem Event.ends_rejected (order : OrderRequest) : (Event.rejected order).Ends order := by
  refine ⟨rfl, trivial, ?_⟩
  simp only [Event.response, OrderRequest.effect, Event.delta, OrderRequest.withdrawn, zero_sub]

theorem Event.delta_of_not_final {e : Event} (h : e.response.IsFinal = false) : e.delta = 0 := by
  cases e with
  | accepted order => rfl
  | cancelRejected id => rfl
  | rejected order => cases h
  | traded order volume price ts => cases h
  | canceled order volume => cases h

section Closes

variable {book book' : RestingBook} {events : List Event}

/-- Every order that leaves the book does so with one final response. -/
theorem Closes.orderIds_eq (h : Closes book events book') :
    orderIds book = orderIds book' + finalIds (events.map Event.response) := by
  induction h with
  | nil book => simp [finalIds]
  | cancelRejected id rest ih =>
    rw [List.map_cons, finalIds_cons_of_not rfl]
    exact ih
  | traded order price ts rest ih =>
    rw [List.map_cons, finalIds_cons_final rfl, orderIds, Multiset.map_cons, Multiset.add_cons]
    exact congrArg _ ih
  | canceled order rest ih =>
    rw [List.map_cons, finalIds_cons_final rfl, orderIds, Multiset.map_cons, Multiset.add_cons]
    exact congrArg _ ih

theorem Closes.ends (h : Closes book events book') {e : Event} (he : e ∈ events)
    (hf : e.response.IsFinal = true) : ∃ k ∈ book, e.Ends k := by
  induction h with
  | nil book => cases he
  | cancelRejected id rest ih =>
    rcases List.mem_cons.mp he with rfl | he
    · cases hf
    · exact ih he
  | traded order price ts rest ih =>
    rcases List.mem_cons.mp he with rfl | he
    · exact ⟨order, Multiset.mem_cons_self order _, Event.ends_traded order price ts⟩
    · obtain ⟨k, hk, hends⟩ := ih he
      exact ⟨k, Multiset.mem_cons_of_mem hk, hends⟩
  | canceled order rest ih =>
    rcases List.mem_cons.mp he with rfl | he
    · exact ⟨order, Multiset.mem_cons_self order _, Event.ends_canceled order⟩
    · obtain ⟨k, hk, hends⟩ := ih he
      exact ⟨k, Multiset.mem_cons_of_mem hk, hends⟩

variable {order : OrderRequest} {touch : ℚ}

theorem Inserted.orderIds_eq (h : Inserted order (order.kept touch) book true events book') :
    orderIds book' + finalIds (events.map Event.response) = order.orderId ::ₘ orderIds book := by
  cases h with
  | rested => simp [orderIds, finalIds, Event.response, GatewayOrderResponse.IsFinal]
  | rejected =>
    rw [List.map_singleton, finalIds_cons_final rfl, Multiset.add_cons]
    exact congrArg _ (add_zero _)
  | traded price ts =>
    rw [List.map_singleton, finalIds_cons_final rfl, Multiset.add_cons]
    exact congrArg _ (add_zero _)
  | canceled =>
    rw [List.map_singleton, finalIds_cons_final rfl, Multiset.add_cons]
    exact congrArg _ (add_zero _)

theorem Inserted.ends (h : Inserted order (order.kept touch) book true events book') {e : Event}
    (he : e ∈ events) (hf : e.response.IsFinal = true) : e.Ends order := by
  cases h with
  | rested =>
    cases List.mem_singleton.mp he
    cases hf
  | rejected =>
    cases List.mem_singleton.mp he
    exact Event.ends_rejected order
  | traded price ts =>
    cases List.mem_singleton.mp he
    exact Event.ends_traded order price ts
  | canceled =>
    cases List.mem_singleton.mp he
    exact Event.ends_canceled order

end Closes

section Handlers

variable {order : Order} {rsp : GatewayOrderResponse}

theorem Order.after_of_settles (h : rsp.Settles order.req) (ht : order.tradedVolume = 0)
    (hc : order.canceledVolume = 0) : order.after rsp = none := by
  cases rsp with
  | traded rsp =>
    have hv : rsp.volume = order.req.volume := h
    apply if_pos
    simp only [Order.traded, ht, hc, hv, zero_add, add_zero]
  | rejected id reason => rfl
  | canceled id volume =>
    have hv : volume = order.req.volume := h
    apply if_pos
    simp only [Order.canceled, ht, hv, zero_add]
  | accepted id => cases h
  | cancelRejected id reason => cases h

theorem Order.after_of_not_final (h : rsp.IsFinal = false) (order : Order) :
    ∃ order', order.after rsp = some order' ∧ order'.req = order.req ∧
      order'.strategyId = order.strategyId ∧ order'.tradedVolume = order.tradedVolume ∧
      order'.canceledVolume = order.canceledVolume := by
  cases rsp with
  | accepted id =>
    by_cases ha : order.accepted = true
    · exact ⟨order, if_pos ha, rfl, rfl, rfl, rfl⟩
    · exact ⟨order.marked, if_neg ha, rfl, rfl, rfl, rfl⟩
  | cancelRejected id reason => exact ⟨order, rfl, rfl, rfl, rfl, rfl⟩
  | traded rsp => cases h
  | rejected id reason => cases h
  | canceled id volume => cases h

theorem Order.booked_of_not_final (h : rsp.IsFinal = false) (ct : ContractTable) (order : Order) :
    order.booked ct rsp = id := by
  cases rsp with
  | accepted id => rfl
  | cancelRejected id reason => rfl
  | traded rsp => cases h
  | rejected id reason => cases h
  | canceled id volume => cases h

end Handlers

namespace Oms

def effect (m : OrderMap) (rsp : GatewayOrderResponse) : Ledger :=
  (m.find? rsp.orderId).elim 0 fun order => order.req.effect rsp

theorem effect_of_not_final (m : OrderMap) {rsp : GatewayOrderResponse}
    (h : rsp.IsFinal = false) : effect m rsp = 0 := by
  unfold effect
  cases m.find? rsp.orderId with
  | none => rfl
  | some order => exact order.req.effect_of_not_final h

theorem effect_of_find? {m : OrderMap} {rsp : GatewayOrderResponse} {order : Order}
    (h : m.find? rsp.orderId = some order) : effect m rsp = order.req.effect rsp := by
  rw [effect, h, Option.elim_some]

theorem effects_congr {m m' : OrderMap} {rsps : List GatewayOrderResponse}
    (h : ∀ rsp ∈ rsps, rsp.IsFinal = true →
      (m.find? rsp.orderId).map (·.req) = (m'.find? rsp.orderId).map (·.req)) :
    rsps.map (effect m) = rsps.map (effect m') := by
  apply List.map_congr_left
  intro rsp hrsp
  cases hf : rsp.IsFinal with
  | false => rw [effect_of_not_final m hf, effect_of_not_final m' hf]
  | true =>
    have hreq := h rsp hrsp hf
    unfold effect
    cases h₁ : m.find? rsp.orderId <;> cases h₂ : m'.find? rsp.orderId <;>
      simp_all

/-- Events that end live orders change the gateway's ledger as their responses
will change the positions. -/
theorem effects_of_ends {m : OrderMap} {events : List Event}
    (h : ∀ e ∈ events, e.response.IsFinal = true →
      ∃ order touch, m.find? e.response.orderId = some order ∧ e.Ends (order.req.kept touch)) :
    (events.map Event.response).map (effect m) = events.map Event.delta := by
  rw [List.map_map]
  apply List.map_congr_left
  intro e he
  cases hf : e.response.IsFinal with
  | false =>
    rw [Function.comp_apply, effect_of_not_final m hf]
    exact (Event.delta_of_not_final hf).symm
  | true =>
    obtain ⟨order, touch, hfind, hends⟩ := h e he hf
    rw [Function.comp_apply, effect_of_find? hfind, ← OrderRequest.effect_kept _ touch]
    exact hends.effect

end Oms

end FlareTrader
