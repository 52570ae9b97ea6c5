import FlareTrader.TradeMsg

/-! The position calculator of one strategy, and its ledger: for each ticker
and side the holdings, the pending opens and the pending closes. A booking
adds a delta to the ledger, so ledgers of several calculators can be summed. -/

namespace FlareTrader

inductive Side
  | long
  | short
  deriving DecidableEq, Repr

def sideOf (direction : Direction) : Side := if direction = .kBuy then .long else .short

def bookedSide (direction : Direction) (offset : Offset) : Side :=
  sideOf (if isOffsetClose offset then oppositeDirection direction else direction)

def Position.side (pos : Position) : Side → PositionDetail
  | .long => pos.longPos
  | .short => pos.shortPos

def Position.modify (pos : Position) (f : PositionDetail → PositionDetail) : Side → Position
  | .long => { pos with longPos := f pos.longPos }
  | .short => { pos with shortPos := f pos.shortPos }

theorem Position.side_modify (pos : Position) (f : PositionDetail → PositionDetail) (s s' : Side) :
    (pos.modify f s).side s' = if s' = s then f (pos.side s) else pos.side s' := by
  cases s <;> cases s' <;> rfl

/-- The flags record whether every assertion evaluated so far was true, those
about a position apart from the one about the size of a contract. -/
structure PositionCalculator where
  positions : SortedMap ℕ Position (· < ·) := .empty
  assertsHold : Bool := true
  sizesHold : Bool := true

namespace PositionCalculator

def getPosition (c : PositionCalculator) (tickerId : ℕ) : Option Position :=
  c.positions.find? tickerId

def record (c : PositionCalculator) (tickerId : ℕ) : Position :=
  { (c.getPosition tickerId).getD {} with tickerId := tickerId }

def modify (c : PositionCalculator) (tickerId : ℕ) (side : Side)
    (f : PositionDetail → PositionDetail) (asserts : PositionDetail → Bool) : PositionCalculator where
  positions := c.positions.insert tickerId ((c.record tickerId).modify f side)
  assertsHold := c.assertsHold && asserts (f ((c.record tickerId).side side))
  sizesHold := c.sizesHold

def setPosition (ct : ContractTable) (pos : Position) (c : PositionCalculator) :
    Bool × PositionCalculator :=
  match ct.getByIndex pos.tickerId with
  | none => (false, c)
  | some _ => (true, { c with positions := c.positions.insert pos.tickerId pos })

def pendingDetail (offset : Offset) (changed : ℤ) (d : PositionDetail) : PositionDetail :=
  if isOffsetClose offset then { d with closePending := d.closePending + changed }
  else { d with openPending := d.openPending + changed }

def updatePending (tickerId : ℕ) (direction : Direction) (offset : Offset) (changed : ℤ)
    (c : PositionCalculator) : PositionCalculator :=
  if changed = 0 then c
  else c.modify tickerId (bookedSide direction offset) (pendingDetail offset changed)
    fun d => 0 ≤ d.openPending && 0 ≤ d.closePending

def closeDetail (offset : Offset) (traded : ℤ) (d : PositionDetail) : PositionDetail :=
  let holdings := d.holdings - traded
  let yd := if offset = .kCloseYesterday ∨ offset = .kClose
    then d.ydHoldings - min d.ydHoldings traded else d.ydHoldings
  { d with
    closePending := d.closePending - traded
    holdings := holdings
    ydHoldings := if holdings < yd then holdings else yd }

def openDetail (traded : ℤ) (d : PositionDetail) : PositionDetail :=
  { d with openPending := d.openPending - traded, holdings := d.holdings + traded }

def costDetail (size : ℤ) (offset : Offset) (traded : ℤ) (tradedPrice : ℚ)
    (d : PositionDetail) : PositionDetail :=
  if isOffsetOpen offset ∧ 0 < d.holdings then
    let cost := intMul size (d.holdings - traded) * d.costPrice + intMul size traded * tradedPrice
    { d with costPrice := cost / intMul d.holdings size }
  else d

def flatDetail (d : PositionDetail) : PositionDetail :=
  if d.holdings = 0 then { d with costPrice := 0, floatPnl := 0 } else d

def tradedDetail (size : ℤ) (offset : Offset) (traded : ℤ) (tradedPrice : ℚ)
    (d : PositionDetail) : PositionDetail :=
  let booked := if isOffsetClose offset then closeDetail offset traded d else openDetail traded d
  flatDetail (costDetail size offset traded tradedPrice booked)

def updateTraded (ct : ContractTable) (tickerId : ℕ) (direction : Direction) (offset : Offset)
    (traded : ℤ) (tradedPrice : ℚ) (c : PositionCalculator) : Bool × PositionCalculator :=
  if traded ≤ 0 then (true, c)
  else match ct.getByIndex tickerId with
    | none => (false, c)
    | some contract =>
      let c := { c with sizesHold := c.sizesHold && 0 < contract.size }
      (true, c.modify tickerId (bookedSide direction offset)
        (tradedDetail contract.size offset traded tradedPrice) fun d =>
          0 ≤ d.holdings && 0 ≤ d.openPending && 0 ≤ d.closePending)

def holdDetail (changed : ℤ) (d : PositionDetail) : PositionDetail :=
  { d with holdings := d.holdings + changed }

/-- A refused change still leaves a record behind. -/
def modifyPostition (tickerId : ℕ) (direction : Direction) (changed : ℤ)
    (c : PositionCalculator) : Bool × PositionCalculator :=
  let d := (c.record tickerId).side (sideOf direction)
  if changed = 0 then (true, c)
  else if changed < 0 ∧ d.holdings - d.closePending + changed < 0 then
    (false, c.modify tickerId (sideOf direction) id fun _ => true)
  else (true, c.modify tickerId (sideOf direction) (holdDetail changed) fun _ => true)

end PositionCalculator

abbrev Entry := ℤ × ℤ × ℤ

abbrev Ledger := ℕ → Side → Entry

def Entry.holdings (e : Entry) : ℤ := e.1
def Entry.openPending (e : Entry) : ℤ := e.2.1
def Entry.closePending (e : Entry) : ℤ := e.2.2

/-- What the assertions of the calculator and its closes rely on. -/
def Entry.Sound (e : Entry) : Prop :=
  0 ≤ e.openPending ∧ 0 ≤ e.closePending ∧ e.closePending ≤ e.holdings

def PositionDetail.entry (d : PositionDetail) : Entry := (d.holdings, d.openPending, d.closePending)

def Ledger.single (tickerId : ℕ) (side : Side) (e : Entry) : Ledger :=
  fun t s => if t = tickerId ∧ s = side then e else 0

def pendingEntry (offset : Offset) (changed : ℤ) : Entry :=
  if isOffsetClose offset then (0, 0, changed) else (0, changed, 0)

def tradedEntry (offset : Offset) (traded : ℤ) : Entry :=
  if isOffsetClose offset then (-traded, 0, -traded) else (traded, -traded, 0)

def pendingDelta (tickerId : ℕ) (direction : Direction) (offset : Offset) (changed : ℤ) : Ledger :=
  .single tickerId (bookedSide direction offset) (pendingEntry offset changed)

def tradedDelta (tickerId : ℕ) (direction : Direction) (offset : Offset) (traded : ℤ) : Ledger :=
  .single tickerId (bookedSide direction offset) (tradedEntry offset traded)

@[simp] theorem holdings_pendingDelta (tickerId : ℕ) (direction : Direction) (offset : Offset)
    (changed : ℤ) (t : ℕ) (s : Side) :
    (pendingDelta tickerId direction offset changed t s).holdings = 0 := by
  rw [pendingDelta, Ledger.single, pendingEntry]
  split_ifs <;> rfl

theorem Ledger.single_zero (t : ℕ) (s : Side) : Ledger.single t s 0 = 0 := by
  funext t' s'
  simp [Ledger.single]

theorem pendingDelta_zero (t : ℕ) (direction : Direction) (offset : Offset) :
    pendingDelta t direction offset 0 = 0 := by
  have h : pendingEntry offset 0 = 0 := by simp [pendingEntry]
  rw [pendingDelta, h, Ledger.single_zero]

namespace PositionCalculator

def ledger (c : PositionCalculator) : Ledger := fun t s =>
  (c.getPosition t).elim 0 fun pos => (pos.side s).entry

theorem ledger_empty : ({} : PositionCalculator).ledger = 0 := rfl

theorem record_entry (c : PositionCalculator) (t : ℕ) (s : Side) :
    ((c.record t).side s).entry = c.ledger t s := by
  unfold record ledger
  cases c.getPosition t with
  | none => cases s <;> rfl
  | some pos => cases s <;> rfl

theorem getPosition_modify (c : PositionCalculator) (t t' : ℕ) (s : Side)
    (f : PositionDetail → PositionDetail) (a : PositionDetail → Bool) :
    (c.modify t s f a).getPosition t' =
      if t' = t then some ((c.record t).modify f s) else c.getPosition t' :=
  SortedMap.find?_insert _ _ _ _

theorem record_modify (c : PositionCalculator) (t : ℕ) (s : Side)
    (f : PositionDetail → PositionDetail) (a : PositionDetail → Bool) :
    (c.modify t s f a).record t = (c.record t).modify f s := by
  rw [record, getPosition_modify, if_pos rfl, Option.getD_some]
  cases s with
  | long => rfl
  | short => rfl

theorem ledger_modify (c : PositionCalculator) (t : ℕ) (s : Side)
    {f : PositionDetail → PositionDetail} {a : PositionDetail → Bool} {x : Entry}
    (hf : ∀ d, (f d).entry = d.entry + x) :
    (c.modify t s f a).ledger = c.ledger + Ledger.single t s x := by
  funext t' s'
  simp only [ledger, getPosition_modify, Pi.add_apply, Ledger.single]
  by_cases ht : t' = t
  · subst ht
    by_cases hs : s' = s
    · subst hs
      simp [Position.side_modify, hf, record_entry, ledger]
    · simp [Position.side_modify, hs, record_entry, ledger]
  · simp [ht]

theorem assertsHold_modify (c : PositionCalculator) (t : ℕ) (s : Side)
    (f : PositionDetail → PositionDetail) (a : PositionDetail → Bool) :
    (c.modify t s f a).assertsHold = (c.assertsHold && a (f ((c.record t).side s))) := rfl

theorem pendingDetail_entry (offset : Offset) (changed : ℤ) (d : PositionDetail) :
    (pendingDetail offset changed d).entry = d.entry + pendingEntry offset changed := by
  unfold pendingDetail pendingEntry PositionDetail.entry
  split_ifs <;> simp

theorem costDetail_entry (size : ℤ) (offset : Offset) (traded : ℤ) (p : ℚ) (d : PositionDetail) :
    (costDetail size offset traded p d).entry = d.entry := by
  unfold costDetail
  split_ifs <;> rfl

theorem flatDetail_entry (d : PositionDetail) : (flatDetail d).entry = d.entry := by
  unfold flatDetail
  split_ifs <;> rfl

theorem tradedDetail_entry (size : ℤ) (offset : Offset) (traded : ℤ) (p : ℚ) (d : PositionDetail) :
    (tradedDetail size offset traded p d).entry = d.entry + tradedEntry offset traded := by
  rw [tradedDetail, flatDetail_entry, costDetail_entry]
  unfold tradedEntry PositionDetail.entry
  split_ifs
  · simp [closeDetail, sub_eq_add_neg]
  · simp [openDetail, sub_eq_add_neg]

theorem ledger_updatePending (t : ℕ) (direction : Direction) (offset : Offset) (changed : ℤ)
    (c : PositionCalculator) :
    (c.updatePending t direction offset changed).ledger =
      c.ledger + pendingDelta t direction offset changed := by
  unfold updatePending
  split_ifs with h
  · rw [h, pendingDelta_zero, add_zero]
  · exact ledger_modify c t _ (pendingDetail_entry offset changed)

theorem ledger_updateTraded {ct : ContractTable} {t : ℕ} {contract : Contract}
    (ht : ct.getByIndex t = some contract) (direction : Direction) (offset : Offset) {traded : ℤ}
    (hv : 0 < traded) (p : ℚ) (c : PositionCalculator) :
    (c.updateTraded ct t direction offset traded p).2.ledger =
      c.ledger + tradedDelta t direction offset traded := by
  simp only [updateTraded, if_neg (not_le.mpr hv), ht]
  exact ledger_modify _ t _ (tradedDetail_entry contract.size offset traded p)

theorem assertsHold_updatePending {t : ℕ} {direction : Direction} {offset : Offset} {changed : ℤ}
    {c : PositionCalculator} (hc : c.assertsHold = true)
    (he : Entry.Sound ((c.updatePending t direction offset changed).ledger t
      (bookedSide direction offset))) :
    (c.updatePending t direction offset changed).assertsHold = true := by
  rw [ledger_updatePending, pendingDelta] at he
  unfold updatePending
  split_ifs with h
  · exact hc
  · have hd := pendingDetail_entry offset changed ((c.record t).side (bookedSide direction offset))
    rw [record_entry] at hd
    simp only [Pi.add_apply, Ledger.single, and_self, if_true] at he
    rw [← hd] at he
    rw [assertsHold_modify, hc, Bool.true_and, Bool.and_eq_true]
    exact ⟨decide_eq_true he.1, decide_eq_true he.2.1⟩

theorem assertsHold_updateTraded {ct : ContractTable} {t : ℕ} {contract : Contract}
    (ht : ct.getByIndex t = some contract) {direction : Direction} {offset : Offset} {traded : ℤ}
    (hv : 0 < traded) {p : ℚ} {c : PositionCalculator} (hc : c.assertsHold = true)
    (he : Entry.Sound ((c.updateTraded ct t direction offset traded p).2.ledger t
      (bookedSide direction offset))) :
    (c.updateTraded ct t direction offset traded p).2.assertsHold = true := by
  rw [ledger_updateTraded ht direction offset hv, tradedDelta] at he
  have hd := tradedDetail_entry contract.size offset traded p
    ((c.record t).side (bookedSide direction offset))
  rw [record_entry] at hd
  simp only [Pi.add_apply, Ledger.single, and_self, if_true] at he
  rw [← hd] at he
  simp only [updateTraded, if_neg (not_le.mpr hv), ht]
  rw [assertsHold_modify, hc, Bool.true_and]
  simp only [Bool.and_eq_true, decide_eq_true_eq]
  have hh := he.2.1.trans he.2.2
  exact ⟨⟨hh, he.1⟩, he.2.1⟩

theorem ledger_setPosition {ct : ContractTable} {pos : Position} {contract : Contract}
    (ht : ct.getByIndex pos.tickerId = some contract) (c : PositionCalculator) (t : ℕ) (s : Side) :
    (c.setPosition ct pos).2.ledger t s =
      if t = pos.tickerId then (pos.side s).entry else c.ledger t s := by
  simp only [setPosition, ht, ledger, getPosition, SortedMap.find?_insert]
  split_ifs <;> rfl

theorem modifyPostition_succeeds_iff (t : ℕ) (direction : Direction) (changed : ℤ)
    (c : PositionCalculator) :
    (c.modifyPostition t direction changed).1 = true ↔
      0 ≤ changed ∨ -changed ≤ (c.ledger t (sideOf direction)).holdings -
        (c.ledger t (sideOf direction)).closePending := by
  rw [← record_entry]
  simp only [modifyPostition, PositionDetail.entry, Entry.holdings, Entry.closePending]
  split_ifs with hzero hshort
  · simp [hzero]
  · simp only [false_iff]
    omega
  · simp only [true_iff]
    omega

theorem ledger_modifyPostition {t : ℕ} {direction : Direction} {changed : ℤ}
    {c : PositionCalculator} (h : (c.modifyPostition t direction changed).1 = true) :
    (c.modifyPostition t direction changed).2.ledger =
      c.ledger + .single t (sideOf direction) (changed, 0, 0) := by
  have hentry : ∀ d, (holdDetail changed d).entry = d.entry + (changed, 0, 0) := by
    intro d
    simp [holdDetail, PositionDetail.entry]
  simp only [modifyPostition] at h ⊢
  split_ifs at h ⊢ with hzero
  · rw [hzero]
    have hnone : Ledger.single t (sideOf direction) (0, 0, 0) = 0 := Ledger.single_zero t _
    rw [hnone, add_zero]
  · exact ledger_modify c t _ hentry

theorem sizesHold_updatePending (t : ℕ) (direction : Direction) (offset : Offset) (changed : ℤ)
    (c : PositionCalculator) :
    (c.updatePending t direction offset changed).sizesHold = c.sizesHold := by
  unfold updatePending
  split_ifs <;> rfl

theorem sizesHold_updateTraded {ct : ContractTable} {t : ℕ} {contract : Contract}
    (ht : ct.getByIndex t = some contract) (direction : Direction) (offset : Offset) {traded : ℤ}
    (hv : 0 < traded) (p : ℚ) (c : PositionCalculator) :
    (c.updateTraded ct t direction offset traded p).2.sizesHold =
      (c.sizesHold && decide (0 < contract.size)) := by
  simp only [updateTraded, if_neg (not_le.mpr hv), ht]
  rfl

end PositionCalculator

end FlareTrader
