import FlareTrader.PositionCalculator

/-! The calculators of all strategies and of the common pool. Bookings of a
strategy that is not configured go to the common pool; reads do not. -/

namespace FlareTrader

def kCommonPosPool : String := "common"

structure PositionManager where
  stPosCalculators : SortedMap String PositionCalculator (· < ·)
  hasCommon : stPosCalculators.contains kCommonPosPool = true

namespace PositionManager

theorem contains_insert {m : SortedMap String PositionCalculator (· < ·)} {key : String}
    (h : m.contains key = true) (key' : String) (c : PositionCalculator) :
    (m.insert key' c).contains key = true := by
  unfold SortedMap.contains at h ⊢
  rw [SortedMap.find?_insert]
  split_ifs
  · rfl
  · exact h

def put (m : PositionManager) (key : String) (c : PositionCalculator) : PositionManager :=
  ⟨m.stPosCalculators.insert key c, contains_insert m.hasCommon key c⟩

def init (strategyConfigList : List String) : PositionManager where
  stPosCalculators :=
    (strategyConfigList.foldl
      (fun (m : SortedMap String PositionCalculator (· < ·)) name => m.emplace name {})
      SortedMap.empty).emplace kCommonPosPool {}
  hasCommon := SortedMap.contains_emplace _ _ _

def findCalculator (m : PositionManager) (strategy : String) : String :=
  if m.stPosCalculators.contains strategy then strategy else kCommonPosPool

def calculator (m : PositionManager) (key : String) : PositionCalculator :=
  (m.stPosCalculators.find? key).getD {}

theorem contains_findCalculator (m : PositionManager) (strategy : String) :
    m.stPosCalculators.contains (m.findCalculator strategy) = true := by
  unfold findCalculator
  split_ifs with h
  · exact h
  · exact m.hasCommon

def getPosition (m : PositionManager) (strategy : String) (tickerId : ℕ) : Option Position :=
  (m.stPosCalculators.find? strategy).bind (·.getPosition tickerId)

def updatePending (strategy : String) (tickerId : ℕ) (direction : Direction) (offset : Offset)
    (changed : ℤ) (m : PositionManager) : PositionManager :=
  let key := m.findCalculator strategy
  m.put key ((m.calculator key).updatePending tickerId direction offset changed)

def updateTraded (ct : ContractTable) (strategy : String) (tickerId : ℕ) (direction : Direction)
    (offset : Offset) (traded : ℤ) (tradedPrice : ℚ) (m : PositionManager) :
    Bool × PositionManager :=
  let key := m.findCalculator strategy
  let r := (m.calculator key).updateTraded ct tickerId direction offset traded tradedPrice
  (r.1, m.put key r.2)

/-- The calls of the callback come second. -/
def setPosition (ct : ContractTable) (strategy : String) (pos : Position) (m : PositionManager) :
    Bool × List (String × Position) × PositionManager :=
  let key := m.findCalculator strategy
  let r := (m.calculator key).setPosition ct pos
  (r.1, if r.1 then [(key, pos)] else [], m.put key r.2)

def movePosition (srcStrategy dstStrategy : String) (tickerId : ℕ) (direction : Direction)
    (volume : ℤ) (m : PositionManager) : Bool × List (String × Position) × PositionManager :=
  if volume < 0 then (false, [], m)
  else if !(m.stPosCalculators.contains srcStrategy && m.stPosCalculators.contains dstStrategy) then
    (false, [], m)
  else
    let src := (m.calculator srcStrategy).modifyPostition tickerId direction (-volume)
    let m := m.put srcStrategy src.2
    if src.1 then
      let dst := (m.calculator dstStrategy).modifyPostition tickerId direction volume
      let calls := if volume = 0 then [] else
        [(srcStrategy, src.2.record tickerId), (dstStrategy, dst.2.record tickerId)]
      (true, calls, m.put dstStrategy dst.2)
    else (false, [], m)

def assertsHold (m : PositionManager) : Prop := ∀ key, (m.calculator key).assertsHold = true

def sizesHold (m : PositionManager) : Prop := ∀ key, (m.calculator key).sizesHold = true

def ledgerOf (m : PositionManager) (key : String) : Ledger := (m.calculator key).ledger

def total (m : PositionManager) : Ledger := m.stPosCalculators.sum fun _ c => c.ledger

theorem getPosition_eq (m : PositionManager) (strategy : String) (t : ℕ) :
    m.getPosition strategy t = (m.calculator strategy).getPosition t := by
  unfold getPosition calculator
  cases m.stPosCalculators.find? strategy <;> rfl

section Put

variable (m : PositionManager) (key : String) (c : PositionCalculator)

theorem calculator_put (key' : String) :
    (m.put key c).calculator key' =
      if key' = key then c else m.calculator key' := by
  unfold calculator put
  rw [SortedMap.find?_insert]
  split_ifs <;> rfl

theorem ledgerOf_put {d : Ledger} (hc : c.ledger = m.ledgerOf key + d) (key' : String) :
    (m.put key c).ledgerOf key' =
      m.ledgerOf key' + if key' = key then d else 0 := by
  unfold ledgerOf at hc ⊢
  rw [calculator_put]
  split_ifs with h
  · rw [hc, h]
  · rw [add_zero]

theorem total_put {d : Ledger} (hc : c.ledger = m.ledgerOf key + d) :
    (m.put key c).total = m.total + d := by
  unfold total put
  rw [SortedMap.sum_insert, hc]
  unfold ledgerOf calculator
  cases m.stPosCalculators.find? key with
  | none => simp [PositionCalculator.ledger_empty]
  | some c' =>
    simp only [Option.elim_some, Option.getD_some]
    abel

theorem findCalculator_put (strategy strategy' : String) :
    (m.put (m.findCalculator strategy) c).findCalculator strategy' =
      m.findCalculator strategy' := by
  have hc : ∀ key, (m.put (m.findCalculator strategy) c).stPosCalculators.contains key =
      m.stPosCalculators.contains key := by
    intro key
    simp only [put, SortedMap.contains, SortedMap.find?_insert]
    split_ifs with h
    · rw [h]
      exact (m.contains_findCalculator strategy).symm
    · rfl
  have hs := hc strategy'
  generalize m.put (m.findCalculator strategy) c = m' at hs
  rw [findCalculator, findCalculator, hs]

end Put

section Bookings

variable (m : PositionManager) (strategy : String) (t : ℕ) (direction : Direction) (offset : Offset)

theorem findCalculator_updatePending (changed : ℤ) (strategy' : String) :
    (m.updatePending strategy t direction offset changed).findCalculator strategy' =
      m.findCalculator strategy' :=
  findCalculator_put m _ strategy strategy'

theorem findCalculator_updateTraded (ct : ContractTable) (traded : ℤ) (p : ℚ)
    (strategy' : String) :
    (m.updateTraded ct strategy t direction offset traded p).2.findCalculator strategy' =
      m.findCalculator strategy' :=
  findCalculator_put m _ strategy strategy'

theorem ledgerOf_updatePending (changed : ℤ) (key : String) :
    (m.updatePending strategy t direction offset changed).ledgerOf key = m.ledgerOf key +
      if key = m.findCalculator strategy then pendingDelta t direction offset changed else 0 :=
  ledgerOf_put m _ _ (PositionCalculator.ledger_updatePending t direction offset changed _) key

theorem total_updatePending (changed : ℤ) :
    (m.updatePending strategy t direction offset changed).total =
      m.total + pendingDelta t direction offset changed :=
  total_put m _ _ (PositionCalculator.ledger_updatePending t direction offset changed _)

variable {ct : ContractTable} {contract : Contract} (ht : ct.getByIndex t = some contract)
  {traded : ℤ} (hv : 0 < traded) (p : ℚ)

include ht hv

theorem total_updateTraded :
    (m.updateTraded ct strategy t direction offset traded p).2.total =
      m.total + tradedDelta t direction offset traded :=
  total_put m _ _ (PositionCalculator.ledger_updateTraded ht direction offset hv p _)

end Bookings

theorem findCalculator_common (m : PositionManager) :
    m.findCalculator kCommonPosPool = kCommonPosPool := by
  rw [findCalculator, m.hasCommon]
  rfl

theorem setPosition_succeeds {ct : ContractTable} {pos : Position} {contract : Contract}
    (ht : ct.getByIndex pos.tickerId = some contract) (strategy : String) (m : PositionManager) :
    (m.setPosition ct strategy pos).1 = true := by
  simp only [setPosition, PositionCalculator.setPosition, ht]

theorem ledgerOf_setPosition {ct : ContractTable} {pos : Position} {contract : Contract}
    (ht : ct.getByIndex pos.tickerId = some contract) (strategy : String) (m : PositionManager)
    (key : String) (t : ℕ) (s : Side) :
    (m.setPosition ct strategy pos).2.2.ledgerOf key t s =
      if key = m.findCalculator strategy ∧ t = pos.tickerId then (pos.side s).entry
      else m.ledgerOf key t s := by
  simp only [setPosition, ledgerOf, calculator_put]
  by_cases hkey : key = m.findCalculator strategy
  · rw [if_pos hkey, PositionCalculator.ledger_setPosition ht, ← hkey]
    simp
  · simp [hkey]

section Moves

variable {m : PositionManager} {src dst : String} {t : ℕ} {direction : Direction} {volume : ℤ}

theorem contains_put (m : PositionManager) {key : String}
    (h : m.stPosCalculators.contains key = true) (c : PositionCalculator) (key' : String) :
    (m.put key c).stPosCalculators.contains key' = m.stPosCalculators.contains key' := by
  simp only [put, SortedMap.contains, SortedMap.find?_insert]
  split_ifs with hk
  · rw [hk]
    exact h.symm
  · rfl

theorem contains_setPosition (ct : ContractTable) (strategy : String) (pos : Position)
    (m : PositionManager) (key : String) :
    (m.setPosition ct strategy pos).2.2.stPosCalculators.contains key =
      m.stPosCalculators.contains key :=
  contains_put m (m.contains_findCalculator strategy) _ key

theorem calls_movePosition {call : String × Position}
    (h : call ∈ (m.movePosition src dst t direction volume).2.1) : call.1 = src ∨ call.1 = dst := by
  simp only [movePosition] at h
  split_ifs at h
  · cases h
  · cases h
  · cases h
  · simp only [List.mem_cons, List.not_mem_nil, or_false] at h
    rcases h with rfl | rfl
    · exact Or.inl rfl
    · exact Or.inr rfl
  · cases h

variable (hv : 0 ≤ volume) (hsrc : m.stPosCalculators.contains src = true)
  (hdst : m.stPosCalculators.contains dst = true)

include hv hsrc hdst

theorem contains_movePosition (key : String) :
    (m.movePosition src dst t direction volume).2.2.stPosCalculators.contains key =
      m.stPosCalculators.contains key := by
  have htwice : ∀ c c', ((m.put src c).put dst c').stPosCalculators.contains key =
      m.stPosCalculators.contains key := by
    intro c c'
    have hdst' := contains_put m hsrc c dst
    rw [contains_put _ (hdst'.trans hdst), contains_put m hsrc]
  simp only [movePosition, if_neg (not_lt.mpr hv), hsrc, hdst, Bool.and_self, Bool.not_true,
    Bool.false_eq_true, if_false]
  split_ifs
  · exact htwice _ _
  · exact htwice _ _
  · exact contains_put m hsrc _ key

theorem movePosition_succeeds_iff :
    (m.movePosition src dst t direction volume).1 = true ↔
      volume = 0 ∨ volume ≤ (m.ledgerOf src t (sideOf direction)).holdings -
        (m.ledgerOf src t (sideOf direction)).closePending := by
  have htaken := PositionCalculator.modifyPostition_succeeds_iff t direction (-volume)
    (m.calculator src)
  have hresult : (m.movePosition src dst t direction volume).1 =
      ((m.calculator src).modifyPostition t direction (-volume)).1 := by
    simp only [movePosition, if_neg (not_lt.mpr hv), hsrc, hdst]
    cases ((m.calculator src).modifyPostition t direction (-volume)).1 <;> rfl
  rw [hresult, htaken, neg_neg]
  unfold ledgerOf
  omega

theorem ledgerOf_movePosition (hne : src ≠ dst)
    (h : (m.movePosition src dst t direction volume).1 = true) (key : String) :
    (m.movePosition src dst t direction volume).2.2.ledgerOf key = m.ledgerOf key +
      if key = src then .single t (sideOf direction) (-volume, 0, 0)
      else if key = dst then .single t (sideOf direction) (volume, 0, 0) else 0 := by
  have htaken : ((m.calculator src).modifyPostition t direction (-volume)).1 = true := by
    rw [movePosition_succeeds_iff hv hsrc hdst] at h
    rw [PositionCalculator.modifyPostition_succeeds_iff, neg_neg]
    unfold ledgerOf at h
    omega
  simp only [movePosition, if_neg (not_lt.mpr hv), hsrc, hdst, Bool.and_self, Bool.not_true,
    Bool.false_eq_true, if_false, htaken, if_true, ledgerOf, calculator_put, if_neg (Ne.symm hne)]
  have hput : ((m.calculator dst).modifyPostition t direction volume).1 = true :=
    (PositionCalculator.modifyPostition_succeeds_iff t direction volume _).mpr (Or.inl hv)
  by_cases hkey : key = src
  · subst hkey
    rw [if_neg hne, if_pos rfl, if_pos rfl, PositionCalculator.ledger_modifyPostition htaken]
  · rw [if_neg hkey, if_neg hkey]
    split_ifs with hkey'
    · rw [PositionCalculator.ledger_modifyPostition hput, hkey']
    · rw [add_zero]

end Moves

theorem getPosition_updatePending_zero (m : PositionManager) (strategy : String) (t : ℕ)
    (direction : Direction) (offset : Offset) (strategy' : String) (t' : ℕ) :
    (m.updatePending strategy t direction offset 0).getPosition strategy' t' =
      m.getPosition strategy' t' := by
  rw [getPosition_eq, getPosition_eq, updatePending, calculator_put,
    PositionCalculator.updatePending, if_pos rfl]
  split_ifs with h
  · rw [h]
  · rfl

end PositionManager

end FlareTrader
