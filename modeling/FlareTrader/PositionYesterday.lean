import FlareTrader.Execution
import FlareTrader.MachineInt
import FlareTrader.PositionMoves

/-! Yesterday's holdings. Fills and reported positions keep them within the holdings;
a move takes away holdings only, so it has to leave those of yesterday in place. The counts are
those of `int`s while no sum leaves their range. -/

open MachineInt (IsInt32)

namespace FlareTrader

def PositionDetail.Dated (d : PositionDetail) : Prop := 0 ≤ d.ydHoldings ∧ d.ydHoldings ≤ d.holdings

structure PositionDetail.Ints (d : PositionDetail) : Prop where
  holdings : IsInt32 d.holdings
  ydHoldings : IsInt32 d.ydHoldings
  openPending : IsInt32 d.openPending
  closePending : IsInt32 d.closePending

inductive PositionUpdate
  | setPosition (strategy : String) (pos : Position)
  | updatePending (strategy : String) (tickerId : ℕ) (direction : Direction) (offset : Offset)
      (changed : ℤ)
  | updateTraded (strategy : String) (tickerId : ℕ) (direction : Direction) (offset : Offset)
      (traded : ℤ) (tradedPrice : ℚ)
  | movePosition (srcStrategy dstStrategy : String) (tickerId : ℕ) (direction : Direction)
      (volume : ℤ)

namespace PositionManager

def update (ct : ContractTable) (m : PositionManager) : PositionUpdate → Option PositionManager
  | .setPosition strategy pos => some (m.setPosition ct strategy pos).2.2
  | .updatePending strategy t direction offset changed =>
    some (m.updatePending strategy t direction offset changed)
  | .updateTraded strategy t direction offset traded price =>
    some (m.updateTraded ct strategy t direction offset traded price).2
  | .movePosition src dst t direction volume =>
    some (m.movePosition src dst t direction volume).2.2

def Regular (m : PositionManager) : PositionUpdate → Prop
  | .setPosition _ pos => ∀ side, (pos.side side).Dated
  | .updateTraded strategy t direction offset traded _ => isOffsetClose offset = true →
      traded ≤ (m.detail (m.findCalculator strategy) t (bookedSide direction offset)).holdings
  | .updatePending .. => True
  | .movePosition .. => True

def LeavesYesterday (m : PositionManager) : PositionUpdate → Prop
  | .movePosition src dst t direction volume =>
    src ≠ dst → m.stPosCalculators.contains src = true → m.stPosCalculators.contains dst = true →
      0 < volume →
      volume ≤ (m.detail src t (sideOf direction)).holdings -
        (m.detail src t (sideOf direction)).closePending →
      volume ≤ (m.detail src t (sideOf direction)).holdings -
        (m.detail src t (sideOf direction)).ydHoldings
  | .setPosition .. => True
  | .updatePending .. => True
  | .updateTraded .. => True

def NoOverflow (m : PositionManager) : PositionUpdate → Prop
  | .setPosition _ pos => ∀ side, (pos.side side).Ints
  | .updatePending strategy t direction offset changed =>
    let d := m.detail (m.findCalculator strategy) t (bookedSide direction offset)
    IsInt32 ((if isOffsetClose offset then d.closePending else d.openPending) + changed)
  | .updateTraded strategy t direction offset traded _ =>
    let d := m.detail (m.findCalculator strategy) t (bookedSide direction offset)
    IsInt32 ((if isOffsetClose offset then d.closePending else d.openPending) - traded) ∧
      (isOffsetClose offset = false → IsInt32 (d.holdings + traded))
  | .movePosition src dst t direction volume =>
    let d := m.detail src t (sideOf direction)
    IsInt32 (d.holdings - d.closePending) ∧ IsInt32 (d.holdings - d.closePending - volume) ∧
      (src ≠ dst → IsInt32 ((m.detail dst t (sideOf direction)).holdings + volume))

def AllInts (m : PositionManager) : Prop := ∀ key t side, (m.detail key t side).Ints

def AllDated (m : PositionManager) : Prop := ∀ key t side, (m.detail key t side).Dated

theorem dated_empty : ({} : PositionDetail).Dated := ⟨le_rfl, le_rfl⟩

section Updates

variable {ct : ContractTable} {m : PositionManager}

theorem allDated_init (strategyConfigList : List String) : (init strategyConfigList).AllDated := by
  intro key t side
  rw [detail, calculator_init]
  cases side
  · exact dated_empty
  · exact dated_empty

section Details

variable {P : PositionDetail → Prop} (h : ∀ key t side, P (m.detail key t side))

include h

theorem detail_put_modify {c : PositionCalculator} {key : String} {t : ℕ}
    {side : Side} {f : PositionDetail → PositionDetail} {a : PositionDetail → Bool}
    (hc : ∀ t' side', (c.record t').side side' = m.detail key t' side')
    (hf : P (f (m.detail key t side))) (key' : String) (t' : ℕ) (side' : Side) :
    P ((m.put key (c.modify t side f a)).detail key' t' side') := by
  rw [detail_put, PositionCalculator.side_record_modify, hc, hc]
  split_ifs
  · exact hf
  · exact h key t' side'
  · exact h key' t' side'

theorem detail_put_self {c : PositionCalculator} {key : String}
    (hc : ∀ t' side', (c.record t').side side' = m.detail key t' side')
    (key' : String) (t' : ℕ) (side' : Side) : P ((m.put key c).detail key' t' side') := by
  rw [detail_put, hc]
  split_ifs
  · exact h key t' side'
  · exact h key' t' side'

theorem detail_setPosition (strategy : String) {pos : Position}
    (hpos : ∀ side, P (pos.side side)) (key : String) (t : ℕ) (side : Side) :
    P ((m.setPosition ct strategy pos).2.2.detail key t side) := by
  cases ht : ct.getByIndex pos.tickerId with
  | none =>
    simp only [PositionManager.setPosition, PositionCalculator.setPosition, ht]
    exact detail_put_self h (fun _ _ => rfl) key t side
  | some contract =>
    simp only [PositionManager.setPosition, PositionCalculator.setPosition, ht, detail_put]
    split_ifs with hkey
    · rw [PositionCalculator.record, PositionCalculator.getPosition, SortedMap.find?_insert]
      split_ifs
      · have hside := hpos side
        cases side
        · exact hside
        · exact hside
      · exact h (m.findCalculator strategy) t side
    · exact h key t side

theorem detail_updatePending (strategy : String) (t : ℕ) (direction : Direction)
    (offset : Offset) (changed : ℤ)
    (hf : P (PositionCalculator.pendingDetail offset changed
      (m.detail (m.findCalculator strategy) t (bookedSide direction offset))))
    (key : String) (t' : ℕ) (side : Side) :
    P ((m.updatePending strategy t direction offset changed).detail key t' side) := by
  rw [PositionManager.updatePending, PositionCalculator.updatePending]
  split_ifs
  · exact detail_put_self h (fun _ _ => rfl) key t' side
  · exact detail_put_modify h (fun _ _ => rfl) hf key t' side

theorem detail_updateTraded (strategy : String) (t : ℕ) (direction : Direction)
    (offset : Offset) (traded : ℤ) (price : ℚ)
    (hf : 0 < traded → ∀ size, P (PositionCalculator.tradedDetail size offset traded price
      (m.detail (m.findCalculator strategy) t (bookedSide direction offset))))
    (key : String) (t' : ℕ) (side : Side) :
    P ((m.updateTraded ct strategy t direction offset traded price).2.detail key t' side) := by
  by_cases hv : traded ≤ 0
  · simp only [PositionManager.updateTraded, PositionCalculator.updateTraded, if_pos hv]
    exact detail_put_self h (fun _ _ => rfl) key t' side
  · cases ht : ct.getByIndex t with
    | none =>
      simp only [PositionManager.updateTraded, PositionCalculator.updateTraded, if_neg hv, ht]
      exact detail_put_self h (fun _ _ => rfl) key t' side
    | some contract =>
      simp only [PositionManager.updateTraded, PositionCalculator.updateTraded, if_neg hv, ht]
      have hsame : ∀ sizesHold t'' side'',
          ((({ m.calculator (m.findCalculator strategy) with sizesHold } :
            PositionCalculator).record t'').side side'') =
              m.detail (m.findCalculator strategy) t'' side'' := fun _ _ _ => rfl
      exact detail_put_modify h (hsame _) (hf (not_le.mp hv) contract.size) key t' side

end Details

theorem dated_pendingDetail {d : PositionDetail} (h : d.Dated) (offset : Offset) (changed : ℤ) :
    (PositionCalculator.pendingDetail offset changed d).Dated := by
  unfold PositionCalculator.pendingDetail
  split_ifs
  · exact h
  · exact h

/-- A close takes from yesterday first or cuts yesterday down to what is left. -/
theorem dated_closeDetail {d : PositionDetail} (h : d.Dated) (offset : Offset) {traded : ℤ}
    (hle : traded ≤ d.holdings) :
    (PositionCalculator.closeDetail offset traded d).Dated := by
  obtain ⟨hnonneg, hbound⟩ := h
  simp only [PositionCalculator.closeDetail, PositionDetail.Dated]
  split_ifs <;> omega

theorem dated_tradedDetail {d : PositionDetail} (h : d.Dated) (size : ℤ) (offset : Offset)
    {traded : ℤ} (price : ℚ) (hopen : 0 ≤ traded)
    (hle : isOffsetClose offset = true → traded ≤ d.holdings) :
    (PositionCalculator.tradedDetail size offset traded price d).Dated := by
  have hcost : ∀ d' : PositionDetail, d'.Dated →
      (PositionCalculator.flatDetail (PositionCalculator.costDetail size offset traded price d')).Dated := by
    intro d' hd'
    unfold PositionCalculator.flatDetail PositionCalculator.costDetail
    split_ifs
    · exact hd'
    · exact hd'
    · exact hd'
    · exact hd'
  unfold PositionCalculator.tradedDetail
  apply hcost
  split_ifs with hclose
  · exact dated_closeDetail h offset (hle hclose)
  · obtain ⟨hnonneg, hbound⟩ := h
    exact ⟨hnonneg, show d.ydHoldings ≤ d.holdings + traded by omega⟩

/-- A move keeps the bound exactly when it leaves what the source has of yesterday. -/
theorem allDated_movePosition_iff (h : m.AllDated) (src dst : String) (t : ℕ)
    (direction : Direction) (volume : ℤ) :
    (m.movePosition src dst t direction volume).2.2.AllDated ↔
      m.LeavesYesterday (.movePosition src dst t direction volume) := by
  cases hmoved : (m.movePosition src dst t direction volume).1 with
  | false =>
    have hrefused := detail_movePosition_refused hmoved
    refine iff_of_true (fun key t' side => ?_) fun _ hsrc hdst hv henough => ?_
    · rw [hrefused]
      exact h key t' side
    · rw [← Bool.not_eq_true, movePosition_succeeds_iff (le_of_lt hv) hsrc hdst,
        ← detail_entry] at hmoved
      exact absurd (Or.inr henough) hmoved
  | true =>
    have hdetail := detail_movePosition hmoved
    obtain ⟨hv, hsrc, hdst, -⟩ := movePosition_inversion hmoved
    have henough := (movePosition_succeeds_iff hv hsrc hdst).mp hmoved
    rw [← detail_entry] at henough
    simp only [PositionDetail.entry, Entry.holdings, Entry.closePending] at henough
    constructor
    · intro hall hne _ _ hpos _
      have hleft := hall src t (sideOf direction)
      rw [hdetail, if_pos ⟨rfl, rfl⟩, given, if_pos rfl, if_neg hne, add_zero] at hleft
      have hbound := hleft.2
      simp only [PositionCalculator.holdDetail] at hbound
      omega
    · intro hleaves key t' side
      have hbefore := h key t' side
      rw [hdetail]
      split_ifs with hside
      · obtain ⟨rfl, rfl⟩ := hside
        obtain ⟨hnonneg, hbound⟩ := hbefore
        refine ⟨hnonneg, ?_⟩
        simp only [PositionCalculator.holdDetail]
        by_cases hne : src = dst
        · rw [hne, given_self, add_zero]
          exact hbound
        · unfold given
          have hkept := hleaves hne hsrc hdst
          split_ifs with hkey hkey'
          · exact absurd (hkey.symm.trans hkey') hne
          · subst hkey
            rcases lt_or_eq_of_le hv with hpos | hzero
            · have hleft := hkept hpos (by omega)
              omega
            · omega
          · omega
          · omega
      · exact hbefore

theorem AllDated.update (h : m.AllDated) {a : PositionUpdate} {m' : PositionManager}
    (hregular : m.Regular a) (hleaves : m.LeavesYesterday a) (hstep : m.update ct a = some m') :
    m'.AllDated := by
  cases a with
  | setPosition strategy pos =>
    rw [← Option.some.inj hstep]
    exact detail_setPosition h strategy hregular
  | updatePending strategy t direction offset changed =>
    rw [← Option.some.inj hstep]
    exact detail_updatePending h strategy t direction offset changed
      (dated_pendingDetail (h _ t _) offset changed)
  | updateTraded strategy t direction offset traded price =>
    rw [← Option.some.inj hstep]
    exact detail_updateTraded h strategy t direction offset traded price fun hpos size =>
      dated_tradedDetail (h _ t _) size offset price hpos.le hregular
  | movePosition src dst t direction volume =>
    rw [← Option.some.inj hstep]
    exact (allDated_movePosition_iff h src dst t direction volume).mpr hleaves

theorem ints_pendingDetail {d : PositionDetail} (h : d.Ints) {offset : Offset} {changed : ℤ}
    (hsum : IsInt32 ((if isOffsetClose offset then d.closePending else d.openPending) + changed)) :
    (PositionCalculator.pendingDetail offset changed d).Ints := by
  unfold PositionCalculator.pendingDetail
  split_ifs at hsum ⊢ with hclose
  · exact ⟨h.holdings, h.ydHoldings, h.openPending, hsum⟩
  · exact ⟨h.holdings, h.ydHoldings, hsum, h.closePending⟩

theorem ints_tradedDetail {d : PositionDetail} (h : d.Ints) (hdated : d.Dated) (size : ℤ)
    {offset : Offset} {traded : ℤ} (price : ℚ) (hpos : 0 < traded)
    (hle : isOffsetClose offset = true → traded ≤ d.holdings)
    (hpending : IsInt32 ((if isOffsetClose offset then d.closePending else d.openPending) - traded))
    (hholdings : isOffsetClose offset = false → IsInt32 (d.holdings + traded)) :
    (PositionCalculator.tradedDetail size offset traded price d).Ints := by
  have hcost : ∀ d' : PositionDetail, d'.Ints →
      (PositionCalculator.flatDetail
        (PositionCalculator.costDetail size offset traded price d')).Ints := by
    intro d' hd'
    unfold PositionCalculator.flatDetail PositionCalculator.costDetail
    split_ifs <;> exact ⟨hd'.holdings, hd'.ydHoldings, hd'.openPending, hd'.closePending⟩
  obtain ⟨hzero, hbound⟩ := hdated
  obtain ⟨-, hlt⟩ := h.holdings
  unfold PositionCalculator.tradedDetail
  apply hcost
  cases hclose : isOffsetClose offset with
  | true =>
    rw [hclose, if_pos rfl] at hpending
    rw [if_pos rfl]
    have hcover := hle hclose
    have hheld : IsInt32 (d.holdings - traded) := ⟨by omega, by omega⟩
    obtain ⟨hnonneg, hyd⟩ := dated_closeDetail ⟨hzero, hbound⟩ offset hcover
    change _ ≤ d.holdings - traded at hyd
    exact ⟨hheld, ⟨by omega, hyd.trans_lt hheld.2⟩, h.openPending, hpending⟩
  | false =>
    rw [hclose, if_neg Bool.false_ne_true] at hpending
    exact ⟨hholdings hclose, h.ydHoldings, hpending, h.closePending⟩

theorem AllInts.movePosition (h : m.AllInts) (hdated : m.AllDated) {src dst : String} {t : ℕ}
    {direction : Direction} {volume : ℤ}
    (hfits : m.NoOverflow (.movePosition src dst t direction volume)) :
    (m.movePosition src dst t direction volume).2.2.AllInts := by
  intro key t' side
  cases hmoved : (m.movePosition src dst t direction volume).1 with
  | false =>
    rw [detail_movePosition_refused hmoved]
    exact h key t' side
  | true =>
    obtain ⟨hv, hsrc, hdst, -⟩ := movePosition_inversion hmoved
    have henough := (movePosition_succeeds_iff hv hsrc hdst).mp hmoved
    rw [← detail_entry] at henough
    simp only [PositionDetail.entry, Entry.holdings, Entry.closePending] at henough
    have hbefore := h key t' side
    rw [detail_movePosition hmoved]
    split_ifs with hside
    · obtain ⟨rfl, rfl⟩ := hside
      refine ⟨?_, hbefore.ydHoldings, hbefore.openPending, hbefore.closePending⟩
      change IsInt32 ((m.detail key t' (sideOf direction)).holdings + given src dst volume key)
      by_cases hne : src = dst
      · rw [hne, given_self, add_zero]
        exact hbefore.holdings
      · obtain ⟨-, hrest, hsum⟩ := hfits
        obtain ⟨hzero, hbound⟩ := hdated key t' (sideOf direction)
        unfold given
        split_ifs with hkey hkey' hkey'
        · exact absurd (hkey.symm.trans hkey') hne
        · subst hkey
          obtain ⟨hlow, -⟩ := hbefore.closePending
          obtain ⟨-, hhigh⟩ := hbefore.holdings
          constructor <;> omega
        · subst hkey'
          rw [zero_add]
          exact hsum hne
        · rw [add_zero, add_zero]
          exact hbefore.holdings
    · exact hbefore

theorem AllInts.update (h : m.AllInts) (hdated : m.AllDated) {a : PositionUpdate}
    {m' : PositionManager} (hregular : m.Regular a) (hfits : m.NoOverflow a)
    (hstep : m.update ct a = some m') : m'.AllInts := by
  cases a with
  | setPosition strategy pos =>
    rw [← Option.some.inj hstep]
    exact detail_setPosition h strategy hfits
  | updatePending strategy t direction offset changed =>
    rw [← Option.some.inj hstep]
    exact detail_updatePending h strategy t direction offset changed
      (ints_pendingDetail (h _ t _) hfits)
  | updateTraded strategy t direction offset traded price =>
    rw [← Option.some.inj hstep]
    exact detail_updateTraded h strategy t direction offset traded price fun hpos size =>
      ints_tradedDetail (h _ t _) (hdated _ t _) size price hpos hregular hfits.1 hfits.2
  | movePosition src dst t direction volume =>
    rw [← Option.some.inj hstep]
    exact h.movePosition hdated hfits

end Updates

def YesterdayWithin (m : PositionManager) : Prop :=
  ∀ strategy t pos, m.getPosition strategy t = some pos → ∀ side, (pos.side side).Dated

theorem allInts_init (strategyConfigList : List String) : (init strategyConfigList).AllInts := by
  have hzero : ({} : PositionDetail).Ints :=
    ⟨by decide, by decide, by decide, by decide⟩
  intro key t side
  rw [detail, calculator_init]
  cases side
  · exact hzero
  · exact hzero

/-- Along such a run all counts stay `int`s, so that none of them wraps. -/
theorem yesterday_within_holdings (ct : ContractTable) (strategyConfigList : List String)
    (m : PositionManager)
    (h : Execution.Reaches (update ct)
      (fun m a => m.Regular a ∧ m.LeavesYesterday a ∧ m.NoOverflow a)
      (init strategyConfigList) m) : m.YesterdayWithin ∧ m.AllInts := by
  have hall : m.AllDated ∧ m.AllInts := h.invariant (fun m => m.AllDated ∧ m.AllInts)
    (fun _ _ _ hm hok hstep => ⟨hm.1.update hok.1 hok.2.1 hstep,
      hm.2.update hm.1 hok.1 hok.2.2 hstep⟩)
    ⟨allDated_init strategyConfigList, allInts_init strategyConfigList⟩
  refine ⟨fun strategy t pos hpos side => ?_, hall.2⟩
  have hdated := hall.1 strategy t side
  rw [getPosition_eq] at hpos
  rw [detail, PositionCalculator.record, hpos, Option.getD_some] at hdated
  cases side
  · exact hdated
  · exact hdated

def heldLong (ydHoldings holdings : ℤ) : Position :=
  { tickerId := 1, longPos := { ydHoldings, holdings } }

def handOver (ydHoldings holdings volume : ℤ) : List PositionUpdate :=
  [.setPosition kCommonPosPool (heldLong ydHoldings holdings),
    .movePosition kCommonPosPool "strategy" 1 .kBuy volume]

theorem regular_handOver {ydHoldings holdings : ℤ} (h : 0 ≤ ydHoldings ∧ ydHoldings ≤ holdings)
    (volume : ℤ) (ct : ContractTable) (m : PositionManager) :
    Execution.Along (update ct) Regular m (handOver ydHoldings holdings volume) := by
  refine ⟨fun side => ?_, fun _ _ => ⟨trivial, fun _ _ => trivial⟩⟩
  cases side
  · exact h
  · exact dated_empty

theorem yesterday_within_holdings_three :
    ∃ m, Execution.run (update (.ofList [ticker001])) (init ["strategy"]) (handOver 3 5 2) = some m ∧
      m.YesterdayWithin ∧ m.AllInts := by
  refine ⟨_, rfl, yesterday_within_holdings (.ofList [ticker001]) ["strategy"] _
    ⟨handOver 3 5 2, ?_, rfl⟩⟩
  refine ⟨⟨fun side => ?_, trivial, fun side => ?_⟩,
    fun m hm => ⟨⟨trivial, fun _ _ _ _ _ => ?_, ?_⟩, fun _ _ => trivial⟩⟩
  · cases side
    · exact ⟨by decide, by decide⟩
    · exact dated_empty
  · cases side <;> exact ⟨by decide, by decide, by decide, by decide⟩
  · rw [← Option.some.inj hm]
    decide +kernel
  · rw [← Option.some.inj hm]
    exact ⟨by decide +kernel, by decide +kernel, fun _ => by decide +kernel⟩

theorem move_takes_yesterday :
    Execution.Along (update (.ofList [ticker001])) Regular (init ["strategy"]) (handOver 5 5 3) ∧
      ∃ m, Execution.run (update (.ofList [ticker001])) (init ["strategy"]) (handOver 5 5 3) =
        some m ∧ ¬ m.YesterdayWithin := by
  refine ⟨regular_handOver ⟨by decide, le_rfl⟩ 3 _ _, _, rfl, fun h => ?_⟩
  have hpool := (h kCommonPosPool 1 (heldLong 5 2) (by decide +kernel) .long).2
  exact absurd hpool (by decide)

end PositionManager

end FlareTrader
