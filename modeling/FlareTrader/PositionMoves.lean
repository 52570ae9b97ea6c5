import FlareTrader.PositionRecovery

/-! Moving positions. A successful move takes a volume from one strategy and gives it
to another, and a start of the order management system is a chain of such moves out
of the common pool, so it leaves the sum over all strategies as the gateway reported it. -/

namespace FlareTrader

namespace PositionCalculator

theorem side_record_modify (c : PositionCalculator) (t : ℕ) (side : Side)
    (f : PositionDetail → PositionDetail) (a : PositionDetail → Bool) (t' : ℕ) (side' : Side) :
    ((c.modify t side f a).record t').side side' =
      if t' = t ∧ side' = side then f ((c.record t).side side) else (c.record t').side side' := by
  by_cases ht : t' = t
  · subst ht
    rw [record_modify, Position.side_modify]
    simp only [true_and]
  · have hrecord : (c.modify t side f a).record t' = c.record t' := by
      rw [record, getPosition_modify, if_neg ht, record]
    rw [hrecord, if_neg fun hboth => ht hboth.1]

theorem holdDetail_zero (d : PositionDetail) : holdDetail 0 d = d := by
  simp [holdDetail]

theorem modifyPostition_cases (t : ℕ) (direction : Direction) (changed : ℤ)
    (c : PositionCalculator) :
    c.modifyPostition t direction changed = (true, c) ∧ changed = 0 ∨
      c.modifyPostition t direction changed =
        (false, c.modify t (sideOf direction) id fun _ => true) ∨
      c.modifyPostition t direction changed =
        (true, c.modify t (sideOf direction) (holdDetail changed) fun _ => true) := by
  simp only [modifyPostition]
  split_ifs with hzero
  · exact Or.inl ⟨rfl, hzero⟩
  · exact Or.inr (Or.inl rfl)
  · exact Or.inr (Or.inr rfl)

theorem side_record_modifyPostition (t : ℕ) (direction : Direction) (changed : ℤ)
    (c : PositionCalculator) (t' : ℕ) (side : Side) :
    ((c.modifyPostition t direction changed).2.record t').side side =
      if (c.modifyPostition t direction changed).1 = true ∧ t' = t ∧ side = sideOf direction
      then holdDetail changed ((c.record t').side side) else (c.record t').side side := by
  rcases modifyPostition_cases t direction changed c with ⟨h, hzero⟩ | h | h
  · rw [h, hzero, holdDetail_zero, ite_self]
  · simp only [h, side_record_modify, Bool.false_eq_true, false_and, if_false]
    split_ifs with hsame
    · rw [hsame.1, hsame.2, id]
    · rfl
  · rw [h, side_record_modify]
    simp only [true_and]
    split_ifs with hsame
    · rw [hsame.1, hsame.2]
    · rfl

theorem tickerId_modifyPostition {t : ℕ} {direction : Direction} {changed : ℤ}
    {c : PositionCalculator} {t' : ℕ} {pos' : Position}
    (h : (c.modifyPostition t direction changed).2.getPosition t' = some pos') :
    pos'.tickerId = t' ∨ ∃ pos, c.getPosition t' = some pos ∧ pos'.tickerId = pos.tickerId := by
  have hlabel : ∀ (pos : Position) (f : PositionDetail → PositionDetail) (s : Side),
      (pos.modify f s).tickerId = pos.tickerId := by
    intro pos f s
    cases s <;> rfl
  have hwritten : ∀ (f : PositionDetail → PositionDetail) (a : PositionDetail → Bool),
      (c.modify t (sideOf direction) f a).getPosition t' = some pos' →
      pos'.tickerId = t' ∨ ∃ pos, c.getPosition t' = some pos ∧ pos'.tickerId = pos.tickerId := by
    intro f a hpos
    rw [getPosition_modify] at hpos
    split_ifs at hpos with ht
    · rw [← Option.some.inj hpos, hlabel, ht]
      exact Or.inl rfl
    · exact Or.inr ⟨pos', hpos, rfl⟩
  rcases modifyPostition_cases t direction changed c with ⟨hsame, -⟩ | hsame | hsame
  · rw [hsame] at h
    exact Or.inr ⟨pos', h, rfl⟩
  · rw [hsame] at h
    exact hwritten _ _ h
  · rw [hsame] at h
    exact hwritten _ _ h

end PositionCalculator

namespace PositionManager

def detail (m : PositionManager) (strategy : String) (tickerId : ℕ) (side : Side) :
    PositionDetail :=
  ((m.calculator strategy).record tickerId).side side

theorem detail_entry (m : PositionManager) (strategy : String) (t : ℕ) (side : Side) :
    (m.detail strategy t side).entry = m.ledgerOf strategy t side :=
  PositionCalculator.record_entry _ _ _

theorem detail_put (m : PositionManager) (key : String) (c : PositionCalculator) (key' : String)
    (t : ℕ) (side : Side) :
    (m.put key c).detail key' t side =
      if key' = key then (c.record t).side side else m.detail key' t side := by
  rw [detail, calculator_put]
  split_ifs
  · rfl
  · rfl

section Moves

variable {m : PositionManager} {src dst : String} {t : ℕ} {direction : Direction} {volume : ℤ}

def given (src dst : String) (volume : ℤ) (key : String) : ℤ :=
  (if key = src then -volume else 0) + if key = dst then volume else 0

theorem given_self (src : String) (volume : ℤ) (key : String) : given src src volume key = 0 := by
  unfold given
  split_ifs
  · exact neg_add_cancel volume
  · exact add_zero 0

theorem movePosition_inversion (h : (m.movePosition src dst t direction volume).1 = true) :
    0 ≤ volume ∧ m.stPosCalculators.contains src = true ∧
      m.stPosCalculators.contains dst = true ∧
      ∃ taken put : PositionCalculator,
        (m.calculator src).modifyPostition t direction (-volume) = (true, taken) ∧
        ((m.put src taken).calculator dst).modifyPostition t direction volume = (true, put) ∧
        (m.movePosition src dst t direction volume).2.2 = (m.put src taken).put dst put := by
  have hv : ¬volume < 0 := by
    intro hneg
    rw [movePosition, if_pos hneg] at h
    cases h
  have hknown : (m.stPosCalculators.contains src && m.stPosCalculators.contains dst) = true := by
    by_contra hmiss
    rw [Bool.not_eq_true] at hmiss
    simp only [movePosition, if_neg hv, hmiss] at h
    cases h
  have htaken : ((m.calculator src).modifyPostition t direction (-volume)).1 = true := by
    by_contra hshort
    simp only [movePosition, if_neg hv, hknown, hshort] at h
    cases h
  have hput : ∀ c : PositionCalculator, (c.modifyPostition t direction volume).1 = true := fun c =>
    (PositionCalculator.modifyPostition_succeeds_iff t direction volume c).mpr
      (Or.inl (not_lt.mp hv))
  obtain ⟨hsrc, hdst⟩ := Bool.and_eq_true_iff.mp hknown
  refine ⟨not_lt.mp hv, hsrc, hdst, _, _, Prod.ext htaken rfl, Prod.ext (hput _) rfl, ?_⟩
  simp only [movePosition, if_neg hv, hknown, htaken, Bool.not_true, Bool.false_eq_true, if_false,
    if_true]

theorem detail_movePosition (h : (m.movePosition src dst t direction volume).1 = true)
    (key : String) (t' : ℕ) (side : Side) :
    (m.movePosition src dst t direction volume).2.2.detail key t' side =
      if t' = t ∧ side = sideOf direction
      then PositionCalculator.holdDetail (given src dst volume key) (m.detail key t' side)
      else m.detail key t' side := by
  obtain ⟨-, -, -, taken, put, htaken, hput, hm⟩ := movePosition_inversion h
  have hafter : ∀ d : PositionDetail, ∀ x y : ℤ, PositionCalculator.holdDetail y
      (PositionCalculator.holdDetail x d) = PositionCalculator.holdDetail (x + y) d := by
    intro d x y
    simp [PositionCalculator.holdDetail, add_assoc]
  have htake := PositionCalculator.side_record_modifyPostition t direction (-volume)
    (m.calculator src) t' side
  simp only [htaken, true_and] at htake
  have hgive : (put.record t').side side = if t' = t ∧ side = sideOf direction
      then PositionCalculator.holdDetail volume ((m.put src taken).detail dst t' side)
      else (m.put src taken).detail dst t' side := by
    have hmodified := PositionCalculator.side_record_modifyPostition t direction volume
      ((m.put src taken).calculator dst) t' side
    simp only [hput, true_and] at hmodified
    exact hmodified
  have hsrc : (m.put src taken).detail key t' side =
      if t' = t ∧ side = sideOf direction
      then PositionCalculator.holdDetail (if key = src then -volume else 0) (m.detail key t' side)
      else m.detail key t' side := by
    rw [detail_put, htake]
    split_ifs with hkey hside hside
    · rw [hkey]
      rfl
    · rw [hkey]
      rfl
    · rw [PositionCalculator.holdDetail_zero]
    · rfl
  rw [hm, detail_put, hgive]
  by_cases hkey : key = dst
  · rw [if_pos hkey, ← hkey]
    split_ifs with hside
    · rw [hsrc, if_pos hside, hafter, given, if_pos rfl]
    · rw [hsrc, if_neg hside]
  · rw [if_neg hkey, hsrc, given, if_neg hkey, add_zero]

theorem detail_movePosition_refused (h : (m.movePosition src dst t direction volume).1 = false)
    (key : String) (t' : ℕ) (side : Side) :
    (m.movePosition src dst t direction volume).2.2.detail key t' side = m.detail key t' side := by
  have hrefused : ((m.calculator src).modifyPostition t direction (-volume)).1 = false →
      (m.put src ((m.calculator src).modifyPostition t direction (-volume)).2).detail key t' side =
        m.detail key t' side := by
    intro htaken
    have htake := PositionCalculator.side_record_modifyPostition t direction (-volume)
      (m.calculator src) t' side
    simp only [htaken, Bool.false_eq_true, false_and, if_false] at htake
    rw [detail_put, htake]
    split_ifs with hkey
    · rw [hkey]
      rfl
    · rfl
  simp only [movePosition] at h ⊢
  split_ifs at h ⊢ with hv hknown htaken
  · rfl
  · rfl
  · exact hrefused (Bool.not_eq_true _ ▸ htaken)

theorem covered_movePosition (h : (m.movePosition src dst t direction volume).1 = true)
    (hv : 0 < volume) :
    ((m.movePosition src dst t direction volume).2.2.detail src t
        (sideOf direction)).closePending ≤
      ((m.movePosition src dst t direction volume).2.2.detail src t (sideOf direction)).holdings := by
  obtain ⟨hv', hsrc, hdst, -⟩ := movePosition_inversion h
  have henough := (movePosition_succeeds_iff hv' hsrc hdst).mp h
  rw [← detail_entry] at henough
  have hgiven : -volume ≤ given src dst volume src := by
    unfold given
    rw [if_pos rfl]
    split_ifs
    · omega
    · omega
  rw [detail_movePosition h, if_pos ⟨rfl, rfl⟩]
  simp only [PositionCalculator.holdDetail]
  simp only [PositionDetail.entry, Entry.holdings, Entry.closePending] at henough
  omega

theorem tickerId_movePosition {key : String} {t' : ℕ} {pos' : Position}
    (h : (m.movePosition src dst t direction volume).2.2.getPosition key t' = some pos') :
    pos'.tickerId = t' ∨ ∃ pos, m.getPosition key t' = some pos ∧
      pos'.tickerId = pos.tickerId := by
  have hput : ∀ (m : PositionManager) (strategy : String) (changed : ℤ) (pos' : Position),
      (m.put strategy ((m.calculator strategy).modifyPostition t direction changed).2).getPosition
        key t' = some pos' →
      pos'.tickerId = t' ∨ ∃ pos, m.getPosition key t' = some pos ∧
        pos'.tickerId = pos.tickerId := by
    intro m strategy changed pos' hpos
    rw [getPosition_eq, calculator_put] at hpos
    rw [getPosition_eq]
    split_ifs at hpos with hkey
    · rw [hkey]
      exact PositionCalculator.tickerId_modifyPostition hpos
    · exact Or.inr ⟨pos', hpos, rfl⟩
  cases hmoved : (m.movePosition src dst t direction volume).1 with
  | false =>
    simp only [movePosition] at h hmoved
    split_ifs at h hmoved
    · exact Or.inr ⟨pos', h, rfl⟩
    · exact Or.inr ⟨pos', h, rfl⟩
    · exact hput m src (-volume) pos' h
  | true =>
    obtain ⟨-, -, -, taken, put, htaken, hgiven, hm⟩ := movePosition_inversion hmoved
    have hfirst := hput m src (-volume)
    have hsecond := hput (m.put src taken) dst volume pos'
    rw [htaken] at hfirst
    rw [hgiven, ← hm] at hsecond
    rcases hsecond h with hlabel | hkept
    · exact Or.inl hlabel
    · obtain ⟨pos, hpos, hid⟩ := hkept
      rw [hid]
      exact hfirst pos hpos

theorem total_movePosition (h : (m.movePosition src dst t direction volume).1 = true) :
    (m.movePosition src dst t direction volume).2.2.total = m.total := by
  obtain ⟨-, -, -, taken, put, htaken, hput, hm⟩ := movePosition_inversion h
  have htake := @PositionCalculator.ledger_modifyPostition t direction (-volume)
    (m.calculator src) (by rw [htaken])
  have hgive := @PositionCalculator.ledger_modifyPostition t direction volume
    ((m.put src taken).calculator dst) (by rw [hput])
  rw [htaken] at htake
  rw [hput] at hgive
  have hback : Ledger.single t (sideOf direction) (-volume, 0, 0) +
      Ledger.single t (sideOf direction) (volume, 0, 0) = 0 := by
    funext t' side
    simp only [Pi.add_apply, Ledger.single]
    split_ifs
    · simp
    · rfl
  rw [hm, total_put _ _ _ hgive, total_put _ _ _ htake, add_assoc, hback, add_zero]

end Moves

end PositionManager

end FlareTrader
