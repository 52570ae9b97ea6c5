import FlareTrader.AdvancedMatchEngine
import FlareTrader.Rounding

/-! The split of the traded volume of a tick, with the assertions that stand in it and
the conversions to `int`. Where they all pass, the split is the estimate of the engine. -/

namespace FlareTrader.AdvancedMatchEngine

inductive SplitFault
  | assertion (condition : String)
  | conversion
  deriving DecidableEq, Repr

def assert (condition : String) (holds : Bool) : Except SplitFault Unit :=
  if holds then .ok () else .error (.assertion condition)

def toInt (x : ℚ) : Except SplitFault ℤ :=
  if -2 ^ 31 ≤ Rounding.trunc x ∧ Rounding.trunc x < 2 ^ 31 then .ok (Rounding.trunc x)
  else .error .conversion

def deltaVolume (prev tick : TickData) : ℤ := (tick.volume - prev.volume).toNat

def avgPriceBy (fl : ℚ → ℚ) (ct : ContractTable) (prev tick : TickData) : ℚ :=
  let deltaTurnover : ℚ := fl (tick.turnover - prev.turnover).toNat
  fl (deltaTurnover /
    fl (fl (deltaVolume prev tick) * ((ct.getByIndex tick.tickerId).getD {}).size))

def avgPrice (ct : ContractTable) (prev tick : TickData) : ℚ := avgPriceBy id ct prev tick

def askPartBy (fl : ℚ → ℚ) (avgPrice : ℚ) (prev tick : TickData) : ℚ :=
  fl (fl (fl (deltaVolume prev tick) * fl (avgPrice - tick.bestBid)) /
    fl (tick.bestAsk - tick.bestBid))

def splitByPriceBy (fl : ℚ → ℚ) (avgPrice : ℚ) (ct : ContractTable) (prev tick : TickData) :
    Except SplitFault (ℤ × ℤ) := do
  assert "contract && contract->size > 0"
    ((ct.getByIndex tick.tickerId).any fun contract => 0 < contract.size)
  if tick.bestAsk ≤ avgPrice then
    let askFilled ← toInt (fl (deltaVolume prev tick))
    .ok (0, askFilled)
  else if avgPrice ≤ tick.bestBid then
    let bidFilled ← toInt (fl (deltaVolume prev tick))
    .ok (bidFilled, 0)
  else
    assert "spread > 0" (0 < fl (tick.bestAsk - tick.bestBid))
    let askFilled ← toInt (Rounding.halfAway (askPartBy fl avgPrice prev tick) : ℤ)
    let bidFilled ← toInt (fl (fl (deltaVolume prev tick) - askFilled))
    assert "ask_filled >= 0" (0 ≤ askFilled)
    assert "bid_filled >= 0" (0 ≤ bidFilled)
    .ok (bidFilled, askFilled)

def splitFillsBy (fl : ℚ → ℚ) (ct : ContractTable) (prev tick : TickData) :
    Except SplitFault (ℤ × ℤ) :=
  if prev.bestAskVolume = 0 ∧ prev.bestBidVolume = 0 then .ok (0, 0)
  else if prev.bestBidVolume = 0 then do
    let askFilled ← toInt (fl (deltaVolume prev tick))
    .ok (0, askFilled)
  else if prev.bestAskVolume = 0 then do
    let bidFilled ← toInt (fl (deltaVolume prev tick))
    .ok (bidFilled, 0)
  else splitByPriceBy fl (avgPriceBy fl ct prev tick) ct prev tick

def splitFills (ct : ContractTable) (prev tick : TickData) : Except SplitFault (ℤ × ℤ) :=
  splitFillsBy id ct prev tick

section Checks

theorem toInt_bind {α : Type} {n : ℤ} (hlow : -2 ^ 31 ≤ n) (hhigh : n < 2 ^ 31)
    (f : ℤ → Except SplitFault α) : toInt (n : ℚ) >>= f = f n := by
  rw [toInt, Rounding.trunc_intCast, if_pos ⟨hlow, hhigh⟩]
  rfl

theorem of_toInt_bind {α : Type} {x : ℚ} {f : ℤ → Except SplitFault α} {r : α}
    (h : toInt x >>= f = .ok r) : f (Rounding.trunc x) = .ok r := by
  rw [toInt] at h
  split_ifs at h
  · exact h
  · cases h

theorem of_toInt_intCast_bind {α : Type} {n : ℤ} {f : ℤ → Except SplitFault α} {r : α}
    (h : toInt (n : ℚ) >>= f = .ok r) : f n = .ok r := by
  have hcut := of_toInt_bind h
  rwa [Rounding.trunc_intCast] at hcut

theorem of_assert_bind {α : Type} {condition : String} {holds : Bool}
    {f : Unit → Except SplitFault α} {r : α} (h : assert condition holds >>= f = .ok r) :
    holds = true ∧ f () = .ok r := by
  cases holds with
  | false => cases h
  | true => exact ⟨rfl, h⟩

theorem assert_bind {α : Type} {condition : String} {holds : Bool} (h : holds = true)
    (f : Unit → Except SplitFault α) : assert condition holds >>= f = f () := by
  rw [h]
  rfl

end Checks

section Estimate

variable {ct : ContractTable} {prev tick : TickData}

theorem deltaVolume_nonneg (prev tick : TickData) : 0 ≤ deltaVolume prev tick :=
  Int.natCast_nonneg _

theorem estimateFills_eq (ct : ContractTable) (prev tick : TickData) :
    estimateFills ct prev tick =
      if prev.bestAskVolume = 0 ∧ prev.bestBidVolume = 0 then (0, 0)
      else if prev.bestBidVolume = 0 then (0, deltaVolume prev tick)
      else if prev.bestAskVolume = 0 then (deltaVolume prev tick, 0)
      else if tick.bestAsk ≤ avgPrice ct prev tick then (0, deltaVolume prev tick)
      else if avgPrice ct prev tick ≤ tick.bestBid then (deltaVolume prev tick, 0)
      else
        let askFilled := round (deltaVolume prev tick * (avgPrice ct prev tick - tick.bestBid) /
          (tick.bestAsk - tick.bestBid))
        (deltaVolume prev tick - askFilled, askFilled) := rfl

theorem estimateFills_of_splitFills {filled : ℤ × ℤ} (h : splitFills ct prev tick = .ok filled) :
    estimateFills ct prev tick = filled := by
  simp only [splitFills, splitFillsBy, id_eq] at h
  rw [estimateFills_eq]
  split_ifs at h with hnone hbid hask
  · rw [if_pos hnone]
    exact Except.ok.inj h
  · rw [if_neg hnone, if_pos hbid]
    exact Except.ok.inj (of_toInt_intCast_bind h)
  · rw [if_neg hnone, if_neg hbid, if_pos hask]
    exact Except.ok.inj (of_toInt_intCast_bind h)
  rw [if_neg hnone, if_neg hbid, if_neg hask]
  change splitByPriceBy id (avgPrice ct prev tick) ct prev tick = _ at h
  simp only [splitByPriceBy, askPartBy, id_eq] at h
  obtain ⟨-, h⟩ := of_assert_bind h
  split_ifs at h with habove hbelow
  · rw [if_pos habove]
    exact Except.ok.inj (of_toInt_intCast_bind h)
  · rw [if_neg habove, if_pos hbelow]
    exact Except.ok.inj (of_toInt_intCast_bind h)
  · rw [if_neg habove, if_neg hbelow]
    obtain ⟨-, h⟩ := of_assert_bind h
    have h := of_toInt_intCast_bind h
    rw [← Int.cast_sub] at h
    obtain ⟨-, h⟩ := of_assert_bind (of_toInt_intCast_bind h)
    obtain ⟨-, h⟩ := of_assert_bind h
    have hpositive := Rounding.proportion_nonneg (deltaVolume_nonneg prev tick)
      (not_le.mp hbelow).le (not_le.mp habove).le
    rw [← Except.ok.inj h, Rounding.halfAway_of_nonneg hpositive]

def askShare (ct : ContractTable) (prev tick : TickData) : ℤ :=
  if prev.bestBidVolume = 0 then deltaVolume prev tick
  else if prev.bestAskVolume = 0 then 0
  else Rounding.upperShare (deltaVolume prev tick) tick.bestBid tick.bestAsk (avgPrice ct prev tick)

theorem askShare_nonneg : 0 ≤ askShare ct prev tick := by
  unfold askShare
  split_ifs
  · exact deltaVolume_nonneg prev tick
  · exact le_rfl
  · exact Rounding.upperShare_nonneg (deltaVolume_nonneg prev tick)

theorem askShare_le : askShare ct prev tick ≤ deltaVolume prev tick := by
  unfold askShare
  split_ifs
  · exact le_rfl
  · exact deltaVolume_nonneg prev tick
  · exact Rounding.upperShare_le (deltaVolume_nonneg prev tick)

theorem splitByPrice_eq {contract : Contract} (ht : ct.getByIndex tick.tickerId = some contract)
    (hsize : 0 < contract.size) (hmax : deltaVolume prev tick < 2 ^ 31) :
    splitByPriceBy id (avgPrice ct prev tick) ct prev tick = .ok
      (deltaVolume prev tick - Rounding.upperShare (deltaVolume prev tick) tick.bestBid tick.bestAsk
          (avgPrice ct prev tick),
        Rounding.upperShare (deltaVolume prev tick) tick.bestBid tick.bestAsk
          (avgPrice ct prev tick)) := by
  have hzero := deltaVolume_nonneg prev tick
  have hlow : -2 ^ 31 ≤ deltaVolume prev tick := by omega
  have hcontract : ((ct.getByIndex tick.tickerId).any fun contract => 0 < contract.size) = true := by
    rw [ht]
    exact decide_eq_true hsize
  simp only [splitByPriceBy, askPartBy, id_eq]
  rw [assert_bind hcontract, Rounding.upperShare]
  split_ifs with habove hbelow
  · rw [toInt_bind hlow hmax, sub_self]
  · rw [toInt_bind hlow hmax, sub_zero]
  · have hspread : 0 < tick.bestAsk - tick.bestBid :=
      sub_pos.mpr ((not_le.mp hbelow).trans (not_le.mp habove))
    obtain ⟨hnonneg, hle⟩ := Rounding.share_between hzero (not_le.mp hbelow).le
      (not_le.mp habove).le hspread
    rw [assert_bind (decide_eq_true hspread)]
    generalize Rounding.halfAway (K := ℚ) _ = askFilled at hnonneg hle ⊢
    rw [toInt_bind (by omega) (by omega), ← Int.cast_sub, toInt_bind (by omega) (by omega),
      assert_bind (decide_eq_true hnonneg), assert_bind (decide_eq_true (sub_nonneg.mpr hle))]

theorem splitFills_eq {contract : Contract} (ht : ct.getByIndex tick.tickerId = some contract)
    (hsize : 0 < contract.size) (hmax : deltaVolume prev tick < 2 ^ 31)
    (hbest : prev.bestBidVolume ≠ 0 ∨ prev.bestAskVolume ≠ 0) :
    splitFills ct prev tick =
      .ok (deltaVolume prev tick - askShare ct prev tick, askShare ct prev tick) := by
  have hzero := deltaVolume_nonneg prev tick
  have hlow : -2 ^ 31 ≤ deltaVolume prev tick := by omega
  have hsome : ¬(prev.bestAskVolume = 0 ∧ prev.bestBidVolume = 0) :=
    fun hnone => hbest.elim (fun hbid => hbid hnone.2) fun hask => hask hnone.1
  simp only [splitFills, splitFillsBy, id_eq]
  rw [if_neg hsome, askShare]
  split_ifs with hbid hask
  · rw [toInt_bind hlow hmax, sub_self]
  · rw [toInt_bind hlow hmax, sub_zero]
  · exact splitByPrice_eq ht hsize hmax

theorem avgPrice_mono {tick' : TickData} (hticker : tick'.tickerId = tick.tickerId)
    (hvolume : tick'.volume = tick.volume) (hprev : prev.turnover ≤ tick.turnover)
    (hturnover : tick.turnover ≤ tick'.turnover) {contract : Contract}
    (ht : ct.getByIndex tick.tickerId = some contract) (hsize : 0 < contract.size) :
    avgPrice ct prev tick ≤ avgPrice ct prev tick' := by
  have hle : (tick.turnover - prev.turnover).toNat ≤ (tick'.turnover - prev.turnover).toNat := by
    rw [UInt64.toNat_sub_of_le _ _ hprev, UInt64.toNat_sub_of_le _ _ (UInt64.le_trans hprev hturnover)]
    exact Nat.sub_le_sub_right hturnover _
  have hzero : (0 : ℚ) ≤ deltaVolume prev tick := Int.cast_nonneg (deltaVolume_nonneg prev tick)
  have hpositive : (0 : ℚ) < contract.size := Int.cast_pos.mpr hsize
  have hsame : deltaVolume prev tick' = deltaVolume prev tick := by
    rw [deltaVolume, deltaVolume, hvolume]
  simp only [avgPrice, avgPriceBy, id_eq, hticker, hsame, ht, Option.getD_some]
  gcongr

theorem deltaVolume_eq (hless : prev.volume.toNat < tick.volume.toNat) :
    deltaVolume prev tick = (tick.volume.toNat : ℤ) - prev.volume.toNat := by
  have hle : prev.volume ≤ tick.volume := hless.le
  rw [deltaVolume, UInt64.toNat_sub_of_le _ _ hle]
  omega

/-- The traded volume is split without a failure, without a negative part and without
loss, and a higher turnover at the same prices leaves no less to the asks. -/
theorem splitFills_sound (ct : ContractTable) (prev tick : TickData) {contract : Contract}
    (ht : ct.getByIndex tick.tickerId = some contract) (hsize : 0 < contract.size)
    (hmin : 1 ≤ (tick.volume.toNat : ℤ) - prev.volume.toNat)
    (hmax : (tick.volume.toNat : ℤ) - prev.volume.toNat ≤ 2 ^ 31 - 1)
    (hturnover : prev.turnover ≤ tick.turnover)
    (hbest : prev.bestBidVolume ≠ 0 ∨ prev.bestAskVolume ≠ 0) :
    ∃ bidFilled askFilled, splitFills ct prev tick = .ok (bidFilled, askFilled) ∧
      estimateFills ct prev tick = (bidFilled, askFilled) ∧ 0 ≤ bidFilled ∧ 0 ≤ askFilled ∧
      bidFilled + askFilled = (tick.volume.toNat : ℤ) - prev.volume.toNat ∧
      ∀ tick' : TickData, tick'.tickerId = tick.tickerId → tick'.volume = tick.volume →
        tick'.bestBid = tick.bestBid → tick'.bestAsk = tick.bestAsk →
        tick.turnover ≤ tick'.turnover → ∃ bidFilled' askFilled',
          splitFills ct prev tick' = .ok (bidFilled', askFilled') ∧ askFilled ≤ askFilled' := by
  have hvolume : deltaVolume prev tick = (tick.volume.toNat : ℤ) - prev.volume.toNat :=
    deltaVolume_eq (by omega)
  have hsplit := splitFills_eq ht hsize (by omega : deltaVolume prev tick < 2 ^ 31) hbest
  refine ⟨_, _, hsplit, estimateFills_of_splitFills hsplit, sub_nonneg.mpr askShare_le,
    askShare_nonneg, by rw [sub_add_cancel, hvolume], ?_⟩
  intro tick' hticker hsame hbid hask hmore
  have hvolume' : deltaVolume prev tick' = deltaVolume prev tick := by
    rw [deltaVolume, deltaVolume, hsame]
  have hsplit' := splitFills_eq (hticker ▸ ht : ct.getByIndex tick'.tickerId = some contract) hsize
    (by omega : deltaVolume prev tick' < 2 ^ 31) hbest
  refine ⟨_, _, hsplit', ?_⟩
  unfold askShare
  rw [hvolume', hbid, hask]
  split_ifs
  · exact le_rfl
  · exact le_rfl
  · exact Rounding.upperShare_mono (deltaVolume_nonneg prev tick)
      (avgPrice_mono hticker hsame hturnover hmore ht hsize)

end Estimate

def lotTick (volume turnover : UInt64) : TickData where
  tickerId := 1
  volume := volume
  turnover := turnover
  bid := fun _ => 100
  ask := fun _ => 102
  bidVolume := fun _ => 1
  askVolume := fun _ => 1

theorem splitFills_sound_five :
    ∃ bidFilled askFilled, splitFills (.ofList [{ size := 10 }]) (lotTick 0 0) (lotTick 5 5030) =
        .ok (bidFilled, askFilled) ∧
      0 ≤ bidFilled ∧ 0 ≤ askFilled ∧ bidFilled + askFilled = 5 ∧ ∃ bidFilled' askFilled',
        splitFills (.ofList [{ size := 10 }]) (lotTick 0 0) (lotTick 5 5070) =
          .ok (bidFilled', askFilled') ∧ askFilled ≤ askFilled' := by
  obtain ⟨bidFilled, askFilled, hsplit, -, hbid, hask, hsum, hmore⟩ :=
    splitFills_sound (.ofList [{ size := 10 }]) (lotTick 0 0) (lotTick 5 5030) rfl
      (by decide) (by decide) (by decide) (by decide) (Or.inl (by decide))
  exact ⟨bidFilled, askFilled, hsplit, hbid, hask, hsum,
    hmore (lotTick 5 5070) rfl rfl rfl rfl (by decide)⟩

end FlareTrader.AdvancedMatchEngine
