import FlareTrader.PositionCalculator

/-! Ledgers that cover a collection of live orders: everything pending in the
ledger is the volume of some live order, and the holdings suffice for all live
closes. Sending, filling and withdrawing an order keep this. -/

namespace FlareTrader

namespace Entry

variable (a b : Entry)

@[simp] theorem holdings_add : (a + b).holdings = a.holdings + b.holdings := rfl
@[simp] theorem openPending_add : (a + b).openPending = a.openPending + b.openPending := rfl
@[simp] theorem closePending_add : (a + b).closePending = a.closePending + b.closePending := rfl
@[simp] theorem holdings_zero : (0 : Entry).holdings = 0 := rfl
@[simp] theorem openPending_zero : (0 : Entry).openPending = 0 := rfl
@[simp] theorem closePending_zero : (0 : Entry).closePending = 0 := rfl

end Entry

def OrderRequest.side (order : OrderRequest) : Side := bookedSide order.direction order.offset

def OrderRequest.pending (order : OrderRequest) : Ledger :=
  pendingDelta order.contract.tickerId order.direction order.offset order.volume

def OrderRequest.withdrawn (order : OrderRequest) : Ledger :=
  pendingDelta order.contract.tickerId order.direction order.offset (-order.volume)

def OrderRequest.filled (order : OrderRequest) : Ledger :=
  tradedDelta order.contract.tickerId order.direction order.offset order.volume

def pendings (live : Multiset OrderRequest) : Ledger := (live.map OrderRequest.pending).sum

structure Covers (L : Ledger) (live : Multiset OrderRequest) : Prop where
  volume_pos : ∀ o ∈ live, 0 < o.volume
  openPending : ∀ t s, (L t s).openPending = (pendings live t s).openPending
  closePending : ∀ t s, (L t s).closePending = (pendings live t s).closePending
  closable : ∀ t s, (L t s).closePending ≤ (L t s).holdings

theorem pendings_cons (order : OrderRequest) (live : Multiset OrderRequest) :
    pendings (order ::ₘ live) = order.pending + pendings live := by
  rw [pendings, Multiset.map_cons, Multiset.sum_cons]
  rfl

section Deltas

variable (order : OrderRequest) (t : ℕ) (s : Side)

theorem OrderRequest.pending_apply : order.pending t s =
    if t = order.contract.tickerId ∧ s = order.side then pendingEntry order.offset order.volume
    else 0 := rfl

theorem OrderRequest.withdrawn_apply : order.withdrawn t s =
    if t = order.contract.tickerId ∧ s = order.side then pendingEntry order.offset (-order.volume)
    else 0 := rfl

theorem OrderRequest.filled_apply : order.filled t s =
    if t = order.contract.tickerId ∧ s = order.side then tradedEntry order.offset order.volume
    else 0 := rfl

variable {order} (hv : 0 < order.volume)

include hv

theorem OrderRequest.pending_nonneg :
    0 ≤ (order.pending t s).openPending ∧ 0 ≤ (order.pending t s).closePending := by
  rw [OrderRequest.pending_apply]
  unfold pendingEntry
  split_ifs <;> constructor <;> simp [Entry.openPending, Entry.closePending] <;> omega

theorem OrderRequest.filled_spec :
    (order.filled t s).openPending = -(order.pending t s).openPending ∧
      (order.filled t s).closePending = -(order.pending t s).closePending ∧
      (order.filled t s).closePending ≤ (order.filled t s).holdings := by
  rw [OrderRequest.filled_apply, OrderRequest.pending_apply]
  unfold tradedEntry pendingEntry
  split_ifs <;> refine ⟨?_, ?_, ?_⟩ <;>
    (simp [Entry.openPending, Entry.closePending, Entry.holdings]; try omega)

theorem OrderRequest.withdrawn_spec :
    (order.withdrawn t s).openPending = -(order.pending t s).openPending ∧
      (order.withdrawn t s).closePending = -(order.pending t s).closePending ∧
      (order.withdrawn t s).closePending ≤ (order.withdrawn t s).holdings := by
  rw [OrderRequest.withdrawn_apply, OrderRequest.pending_apply]
  unfold pendingEntry
  split_ifs <;> refine ⟨?_, ?_, ?_⟩ <;>
    (simp [Entry.openPending, Entry.closePending, Entry.holdings]; try omega)

end Deltas

theorem pendings_nonneg {live : Multiset OrderRequest} (h : ∀ o ∈ live, 0 < o.volume) (t : ℕ)
    (s : Side) : 0 ≤ (pendings live t s).openPending ∧ 0 ≤ (pendings live t s).closePending := by
  induction live using Multiset.induction_on with
  | empty => exact ⟨le_rfl, le_rfl⟩
  | cons order live ih =>
    have hrest := ih fun o ho => h o (Multiset.mem_cons_of_mem ho)
    have horder := OrderRequest.pending_nonneg t s (h order (Multiset.mem_cons_self order live))
    rw [pendings_cons]
    simp only [Pi.add_apply, Entry.openPending_add, Entry.closePending_add]
    omega

namespace Covers

variable {L : Ledger} {live : Multiset OrderRequest} {order : OrderRequest}

theorem sound (h : Covers L live) (t : ℕ) (s : Side) : (L t s).Sound := by
  have hn := pendings_nonneg h.volume_pos t s
  rw [← h.openPending, ← h.closePending] at hn
  exact ⟨hn.1, hn.2, h.closable t s⟩

theorem empty : Covers 0 0 where
  volume_pos := fun _ ho => absurd ho (Multiset.notMem_zero _)
  openPending := fun _ _ => rfl
  closePending := fun _ _ => rfl
  closable := fun _ _ => le_rfl

theorem send (h : Covers L live) (hv : 0 < order.volume)
    (hclose : isOffsetClose order.offset = true → order.volume ≤
      (L order.contract.tickerId order.side).holdings -
        (L order.contract.tickerId order.side).closePending) :
    Covers (L + order.pending) (order ::ₘ live) := by
  refine ⟨fun o ho => ?_, fun t s => ?_, fun t s => ?_, fun t s => ?_⟩
  · rcases Multiset.mem_cons.mp ho with rfl | ho
    · exact hv
    · exact h.volume_pos o ho
  · rw [pendings_cons]
    simp only [Pi.add_apply, Entry.openPending_add, h.openPending t s]
    omega
  · rw [pendings_cons]
    simp only [Pi.add_apply, Entry.closePending_add, h.closePending t s]
    omega
  · have hold := h.closable t s
    simp only [Pi.add_apply, Entry.closePending_add, Entry.holdings_add,
      OrderRequest.pending_apply]
    split_ifs with hat
    · obtain ⟨rfl, rfl⟩ := hat
      unfold pendingEntry
      split_ifs with hc
      · have hroom := hclose hc
        simp only [Entry.closePending, Entry.holdings] at hroom ⊢
        omega
      · simpa [Entry.closePending, Entry.holdings] using hold
    · simpa using hold

theorem settle {d : Ledger} (h : Covers L (order ::ₘ live))
    (hd : ∀ t s, (d t s).openPending = -(order.pending t s).openPending ∧
      (d t s).closePending = -(order.pending t s).closePending ∧
      (d t s).closePending ≤ (d t s).holdings) : Covers (L + d) live := by
  refine ⟨fun o ho => h.volume_pos o (Multiset.mem_cons_of_mem ho), fun t s => ?_, fun t s => ?_,
    fun t s => ?_⟩
  · have hopen := h.openPending t s
    rw [pendings_cons] at hopen
    simp only [Pi.add_apply, Entry.openPending_add] at hopen ⊢
    have hdt := (hd t s).1
    omega
  · have hclosep := h.closePending t s
    rw [pendings_cons] at hclosep
    simp only [Pi.add_apply, Entry.closePending_add] at hclosep ⊢
    have hdt := (hd t s).2.1
    omega
  · have hold := h.closable t s
    simp only [Pi.add_apply, Entry.closePending_add, Entry.holdings_add]
    have hdt := (hd t s).2.2
    omega

theorem fill (h : Covers L (order ::ₘ live)) : Covers (L + order.filled) live :=
  h.settle fun t s =>
    OrderRequest.filled_spec t s (h.volume_pos order (Multiset.mem_cons_self order live))

theorem withdraw (h : Covers L (order ::ₘ live)) : Covers (L + order.withdrawn) live :=
  h.settle fun t s =>
    OrderRequest.withdrawn_spec t s (h.volume_pos order (Multiset.mem_cons_self order live))

end Covers

end FlareTrader
