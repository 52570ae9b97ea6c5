import FlareTrader.PositionMoves

/-! The holdings after a start. The gateway's report goes to the common pool and each
record of a strategy is a move out of it, so the report is split among the strategies
and nothing is made or lost. -/

namespace FlareTrader

namespace Startup

open TraderDb

structure Exact (ct : ContractTable) (redis : Redis) (owner : String → Option String)
    (names : List String) : Prop where
  found : ∀ name ∈ kCommonPosPool :: names, ∀ db,
    (redis.keys db (pattern name)).Perm (db.keys.filter fun key => owner key = some name)
  written : ∀ name ∈ kCommonPosPool :: names, ∀ t contract, ct.getByIndex t = some contract →
    owner (getKey name contract.ticker) = some name

/-- Each record of a strategy is filed under the ticker that the table has at its index. -/
def WrittenUnder (ct : ContractTable) (owner : String → Option String) (names : List String)
    (db : PositionStore) : Prop :=
  ∀ name ∈ names, ∀ key pos, db.find? key = some pos → owner key = some name →
    ∃ contract, ct.getByIndex pos.tickerId = some contract ∧ key = getKey name contract.ticker

/-- The strategies and the pool together have what the gateway reported, and each strategy
has what its records say. -/
structure Reconciled (owner : String → Option String) (names : List String) (db : PositionStore)
    (report : List Position) (s : Startup) : Prop where
  total : ∀ t side, (s.posManager.total t side).holdings =
    (reported report t).elim 0 fun pos => (pos.side side).holdings
  recorded : ∀ name ∈ names, ∀ key pos, db.find? key = some pos → owner key = some name →
    ∀ side, s.holdings name pos.tickerId side = (pos.side side).holdings
  others : ∀ name ∈ names, ∀ t,
    (∀ key pos, db.find? key = some pos → owner key = some name → pos.tickerId ≠ t) →
    ∀ side, s.holdings name t side = 0

section Deals

variable {ct : ContractTable} {strategy : String} {s : Startup}

structure Dealt (ct : ContractTable) (strategy : String) (amount : ℕ → Side → ℤ)
    (s s' : Startup) : Prop where
  total : s'.posManager.total = s.posManager.total
  holdings : ∀ key, key ≠ kCommonPosPool → ∀ t side, s'.holdings key t side =
    s.holdings key t side + if key = strategy then amount t side else 0
  traderDb : s'.traderDb = s.traderDb
  posRb : ∀ ctx ∈ s'.posRb, ctx ∈ s.posRb ∨
    (ctx.strategy = kCommonPosPool ∨ ctx.strategy = strategy) ∧
      ∃ t contract, ct.getByIndex t = some contract ∧ ctx.ticker = contract.ticker

theorem dealt_nothing : Dealt ct strategy 0 s s where
  total := rfl
  holdings := by simp
  traderDb := rfl
  posRb := fun ctx hctx => Or.inl hctx

theorem Dealt.andThen {amount amount' : ℕ → Side → ℤ} {s' s'' : Startup}
    (h : Dealt ct strategy amount s s') (h' : Dealt ct strategy amount' s' s'') :
    Dealt ct strategy (amount + amount') s s'' where
  total := h'.total.trans h.total
  holdings := by
    intro key hkey t side
    rw [h'.holdings key hkey, h.holdings key hkey, Pi.add_apply, Pi.add_apply]
    split_ifs
    · rw [add_assoc]
    · rw [add_zero]
  traderDb := h'.traderDb.trans h.traderDb
  posRb := by
    intro ctx hctx
    rcases h'.posRb ctx hctx with hold | hnew
    · exact h.posRb ctx hold
    · exact Or.inr hnew

theorem holdings_eq (key : String) (t : ℕ) (side : Side) :
    s.holdings key t side = (s.posManager.detail key t side).holdings := by
  rw [Startup.holdings, ← PositionManager.detail_entry]
  rfl

theorem movePosition_dealt {t : ℕ} {direction : Direction} {volume : ℤ}
    (h : (s.movePosition ct kCommonPosPool strategy t direction volume).1 = true) :
    Dealt ct strategy (only t (sideOf direction) volume) s
      (s.movePosition ct kCommonPosPool strategy t direction volume).2 where
  total := PositionManager.total_movePosition h
  holdings := by
    intro key hkey t' side
    rw [holdings_eq, holdings_eq, movePosition, queued, PositionManager.detail_movePosition h, only]
    simp only [PositionManager.given, if_neg hkey, zero_add]
    split_ifs
    · rfl
    · rfl
    · rw [add_zero]
    · rw [add_zero]
  traderDb := rfl
  posRb := by
    intro ctx hctx
    rcases mem_queued hctx with hold | hnew
    · exact Or.inl hold
    · obtain ⟨call, hcall, hstrategy, contract, hcontract, hticker⟩ := hnew
      refine Or.inr ⟨?_, call.2.tickerId, contract, hcontract, hticker⟩
      rw [hstrategy]
      exact PositionManager.calls_movePosition hcall

theorem recoverPositions_dealt (posList : List Position)
    (h : (s.recoverPositions ct strategy posList).1 = true) :
    Dealt ct strategy (amountAt posList) s (s.recoverPositions ct strategy posList).2 := by
  induction posList generalizing s with
  | nil => exact dealt_nothing
  | cons pos posList ih =>
    simp only [recoverPositions] at h ⊢
    split_ifs at h ⊢ with hlong hshort
    · have hsum : amountAt (pos :: posList) = only pos.tickerId .long pos.longPos.holdings +
          (only pos.tickerId .short pos.shortPos.holdings + amountAt posList) :=
        amountAt_cons pos posList
      rw [hsum]
      exact (movePosition_dealt hlong).andThen ((movePosition_dealt hshort).andThen (ih h))
    · exact absurd h hshort
    · exact absurd h hlong

end Deals

section Recovery

variable {ct : ContractTable} {redis : Redis} {owner : String → Option String} {names : List String}
  {db : PositionStore} {s s' : Startup}

def owned (owner : String → Option String) (db : PositionStore) (name : String) : List Position :=
  ownRecords db fun key => owner key = some name

theorem Dealt.settled {name name' : String} {amount : ℕ → Side → ℤ}
    (h : Dealt ct name amount s s') (hexact : Exact ct redis owner names) (hname : name ∈ names)
    (hne : name ≠ name') (hne' : kCommonPosPool ≠ name')
    (hs : Settled (fun key => owner key = some name') db s) :
    Settled (fun key => owner key = some name') db s' where
  found := by
    rw [h.traderDb]
    exact hs.found
  others := by
    intro ctx hctx
    rcases h.posRb ctx hctx with hold | hnew
    · exact hs.others ctx hold
    · obtain ⟨hstrategy, t, contract, hcontract, hticker⟩ := hnew
      rw [PositionContext.key, hticker, decide_eq_false_iff_not]
      rcases hstrategy with hpool | hown
      · rw [hpool, hexact.written _ List.mem_cons_self t contract hcontract, Option.some.injEq]
        exact hne'
      · rw [hown, hexact.written name (List.mem_cons_of_mem _ hname) t contract hcontract,
          Option.some.injEq]
        exact hne

theorem Exact.of_cons {name : String} (h : Exact ct redis owner (name :: names)) :
    Exact ct redis owner names := by
  have hmem : ∀ key ∈ kCommonPosPool :: names, key ∈ kCommonPosPool :: name :: names := by
    intro key hkey
    rcases List.mem_cons.mp hkey with rfl | hkey
    · exact List.mem_cons_self
    · exact List.mem_cons_of_mem _ (List.mem_cons_of_mem _ hkey)
  exact ⟨fun key hkey => h.found key (hmem key hkey), fun key hkey => h.written key (hmem key hkey)⟩

theorem recovery_dealt (writer : ℕ → ℕ → ℕ) (hexact : Exact ct redis owner names)
    (hnodup : (kCommonPosPool :: names).Nodup)
    (hsettled : ∀ name ∈ names, Settled (fun key => owner key = some name) db s)
    (h : s.recoveryStrategyPositions ct redis writer names = some (true, s')) :
    s'.posManager.total = s.posManager.total ∧
      (∀ key ∈ names, ∀ t side, s'.holdings key t side =
        s.holdings key t side + amountAt (owned owner db key) t side) ∧
      ∀ key, key ≠ kCommonPosPool → key ∉ names → ∀ t side,
        s'.holdings key t side = s.holdings key t side := by
  induction names generalizing s writer with
  | nil =>
    have hs : s = s' := congrArg Prod.snd (Option.some.inj h)
    subst hs
    refine ⟨rfl, fun key hkey => ?_, fun _ _ _ _ _ => rfl⟩
    cases hkey
  | cons name names ih =>
    obtain ⟨hpool, hnames⟩ := List.nodup_cons.mp hnodup
    obtain ⟨hfresh, hrest⟩ := List.nodup_cons.mp hnames
    have hne : name ≠ kCommonPosPool := fun heq => hpool (heq ▸ List.mem_cons_self)
    have hfound := hexact.found name (List.mem_cons_of_mem _ List.mem_cons_self)
    obtain ⟨posList, n, hread, hperm⟩ := getAllPositions_settled redis (writer 0)
      (hsettled name List.mem_cons_self) hfound
    simp only [recoveryStrategyPositions, hread] at h
    by_cases hr : ((s.written n).recoverPositions ct name posList).1 = true
    · rw [if_pos hr] at h
      have hdealt := recoverPositions_dealt posList hr
      rw [amountAt_perm hperm] at hdealt
      have hnext : ∀ name' ∈ names, Settled (fun key => owner key = some name') db
          ((s.written n).recoverPositions ct name posList).2 := by
        intro name' hname'
        refine hdealt.settled hexact List.mem_cons_self (fun heq => hfresh (heq ▸ hname'))
          (fun heq => hpool (heq ▸ List.mem_cons_of_mem _ hname')) ?_
        exact (hsettled name' (List.mem_cons_of_mem _ hname')).written n
      obtain ⟨htotal, hown, hother⟩ := ih (fun n => writer (n + 1)) hexact.of_cons
        (List.nodup_cons.mpr ⟨fun hmem => hpool (List.mem_cons_of_mem _ hmem), hrest⟩) hnext h
      refine ⟨htotal.trans hdealt.total, fun key hkey t side => ?_,
        fun key hkey hkeys t side => ?_⟩
      · rcases List.mem_cons.mp hkey with rfl | hkey
        · rw [hother key hne hfresh, hdealt.holdings key hne, if_pos rfl]
          rfl
        · have hkeyne : key ≠ name := fun heq => hfresh (heq ▸ hkey)
          have hkeypool : key ≠ kCommonPosPool :=
            fun heq => hpool (heq ▸ List.mem_cons_of_mem _ hkey)
          rw [hown key hkey, hdealt.holdings key hkeypool, if_neg hkeyne, add_zero]
          rfl
      · rw [List.mem_cons, not_or] at hkeys
        rw [hother key hkey hkeys.2, hdealt.holdings key hkey, if_neg hkeys.1, add_zero]
        rfl
    · rw [if_neg hr] at h
      exact absurd (congrArg Prod.fst (Option.some.inj h)) hr

end Recovery

section Report

variable {ct : ContractTable} {s s' : Startup}

theorem total_setPosition {pos : Position} {contract : Contract}
    (ht : ct.getByIndex pos.tickerId = some contract)
    (hnone : ∀ side, (s.posManager.ledgerOf kCommonPosPool pos.tickerId side).holdings = 0)
    (t : ℕ) (side : Side) :
    ((s.setPosition ct kCommonPosPool pos).2.posManager.total t side).holdings =
      (s.posManager.total t side).holdings +
        if t = pos.tickerId then (pos.side side).holdings else 0 := by
  have hledger := PositionCalculator.ledger_setPosition ht (s.posManager.calculator kCommonPosPool)
  have hset : (s.setPosition ct kCommonPosPool pos).2.posManager = s.posManager.put kCommonPosPool
      ((s.posManager.calculator kCommonPosPool).setPosition ct pos).2 := by
    simp only [setPosition, queued, PositionManager.setPosition,
      PositionManager.findCalculator_common]
  have htotal := s.posManager.total_put kCommonPosPool
    ((s.posManager.calculator kCommonPosPool).setPosition ct pos).2
    (add_sub_cancel (s.posManager.ledgerOf kCommonPosPool) _).symm
  have hold := hnone side
  rw [hset, htotal, Pi.add_apply, Pi.add_apply, Pi.sub_apply, Pi.sub_apply, hledger]
  split_ifs with hsame
  · subst hsame
    simp only [Entry.holdings, PositionDetail.entry, Prod.fst_add, Prod.fst_sub] at hold ⊢
    rw [hold, sub_zero]
  · rw [PositionManager.ledgerOf, sub_self, add_zero, add_zero]

theorem reported_cons {pos : Position} {report : List Position}
    (hfresh : pos.tickerId ∉ report.map Position.tickerId) (t : ℕ) (side : Side) :
    ((reported (pos :: report) t).elim 0 fun p => (p.side side).holdings) =
      (if t = pos.tickerId then (pos.side side).holdings else 0) +
        (reported report t).elim 0 fun p => (p.side side).holdings := by
  have hmiss : report.find? (·.tickerId = pos.tickerId) = none :=
    List.find?_eq_none.mpr fun p hp heq =>
      hfresh (List.mem_map.mpr ⟨p, hp, of_decide_eq_true heq⟩)
  rw [reported, reported, List.find?_cons]
  by_cases ht : pos.tickerId = t
  · subst ht
    simp [hmiss]
  · simp [ht, Ne.symm ht]

theorem mem_setPosition_posRb {pos : Position} {ctx : PositionContext}
    (hctx : ctx ∈ (s.setPosition ct kCommonPosPool pos).2.posRb) :
    ctx ∈ s.posRb ∨ ctx.strategy = kCommonPosPool ∧
      ∃ t contract, ct.getByIndex t = some contract ∧ ctx.ticker = contract.ticker := by
  rcases mem_queued hctx with hold | ⟨call, hcall, hstrategy, contract, hcontract, hticker⟩
  · exact Or.inl hold
  · refine Or.inr ⟨?_, call.2.tickerId, contract, hcontract, hticker⟩
    simp only [PositionManager.setPosition, PositionManager.findCalculator_common] at hcall
    split_ifs at hcall
    · rw [hstrategy, List.mem_singleton.mp hcall]
    · cases hcall

theorem setPositions_total {report : List Position} (hnodup : (report.map Position.tickerId).Nodup)
    (hnone : ∀ pos ∈ report, ∀ side,
      (s.posManager.ledgerOf kCommonPosPool pos.tickerId side).holdings = 0)
    (h : s.setPositions ct report = some (true, s')) :
    (∀ t side, (s'.posManager.total t side).holdings = (s.posManager.total t side).holdings +
      (reported report t).elim 0 fun pos => (pos.side side).holdings) ∧
      (∀ key, key ≠ kCommonPosPool → ∀ t side, s'.holdings key t side = s.holdings key t side) ∧
      s'.traderDb = s.traderDb ∧
      ∀ ctx ∈ s'.posRb, ctx ∈ s.posRb ∨ ctx.strategy = kCommonPosPool ∧
        ∃ t contract, ct.getByIndex t = some contract ∧ ctx.ticker = contract.ticker := by
  induction report generalizing s with
  | nil =>
    have hs : s = s' := congrArg Prod.snd (Option.some.inj h)
    subst hs
    exact ⟨fun t side => (add_zero _).symm, fun _ _ _ _ => rfl, rfl, fun _ hctx => Or.inl hctx⟩
  | cons pos report ih =>
    obtain ⟨hfresh, hrest⟩ := List.nodup_cons.mp hnodup
    cases ht : ct.getByIndex pos.tickerId with
    | none =>
      simp only [setPositions, ht] at h
      cases h
    | some contract =>
      simp only [setPositions, ht] at h
      split_ifs at h with hzero hset
      · obtain ⟨htotal, hframe⟩ := ih hrest (fun p hp => hnone p (List.mem_cons_of_mem _ hp)) h
        refine ⟨fun t side => ?_, hframe⟩
        have hflat : (pos.side side).holdings = 0 := by
          cases side
          · exact hzero.1
          · exact hzero.2.2.1
        rw [htotal, reported_cons hfresh, hflat, ite_self, zero_add]
      · have hledger := PositionManager.ledgerOf_setPosition ht kCommonPosPool s.posManager
        rw [PositionManager.findCalculator_common] at hledger
        have hnone' : ∀ p ∈ report, ∀ side, ((s.setPosition ct kCommonPosPool pos).2.posManager.ledgerOf
            kCommonPosPool p.tickerId side).holdings = 0 := by
          intro p hp side
          have hne : p.tickerId ≠ pos.tickerId := fun heq => hfresh (heq ▸ List.mem_map_of_mem hp)
          simp only [setPosition, queued, hledger, hne, and_false, if_false]
          exact hnone p (List.mem_cons_of_mem _ hp) side
        obtain ⟨htotal, hholdings, hdb, hqueue⟩ := ih hrest hnone' h
        refine ⟨fun t side => ?_, fun key hkey t side => ?_, hdb, fun ctx hctx => ?_⟩
        · rw [htotal, total_setPosition ht (hnone pos List.mem_cons_self), reported_cons hfresh, add_assoc]
        · rw [hholdings key hkey]
          simp only [Startup.holdings, setPosition, queued, hledger]
          rw [if_neg fun hboth => hkey hboth.1]
        · rcases hqueue ctx hctx with hold | hnew
          · exact mem_setPosition_posRb hold
          · exact Or.inr hnew
      · exact absurd (congrArg Prod.fst (Option.some.inj h)) hset

end Report

section Start

variable {ct : ContractTable} {redis : Redis} {owner : String → Option String} {names : List String}
  {db : PositionStore} {s : Startup}

theorem amountAt_owned {name key : String} {pos : Position} (hwritten : WrittenUnder ct owner names db)
    (hname : name ∈ names) (hpos : db.find? key = some pos) (howner : owner key = some name)
    (side : Side) : amountAt (owned owner db name) pos.tickerId side = (pos.side side).holdings := by
  obtain ⟨contract, ht, hkey⟩ := hwritten name hname key pos hpos howner
  -- two records of one ticker would be under one key
  have hrest : ((db.erase key).sum fun key' pos' => if decide (owner key' = some name) = true ∧
      pos'.tickerId = pos.tickerId then (pos'.side side).holdings else 0) =
      (db.erase key).sum fun _ _ => 0 := by
    refine SortedMap.sum_congr _ fun key' pos' hpos' => if_neg fun hboth => ?_
    rw [SortedMap.find?_erase] at hpos'
    split_ifs at hpos' with hne
    obtain ⟨contract', ht', hkey'⟩ :=
      hwritten name hname key' pos' hpos' (of_decide_eq_true hboth.1)
    rw [hboth.2, ht] at ht'
    exact hne (by rw [hkey', hkey, Option.some.inj ht'])
  rw [owned, amountAt_ownRecords, SortedMap.sum_eq_add db key, hrest, hpos, SortedMap.sum,
    List.map_const', List.sum_replicate, smul_zero, add_zero, Option.elim_some,
    if_pos ⟨decide_eq_true howner, rfl⟩]

theorem amountAt_owned_none {name : String} {t : ℕ}
    (h : ∀ key pos, db.find? key = some pos → owner key = some name → pos.tickerId ≠ t) (side : Side) :
    amountAt (owned owner db name) t side = 0 := by
  have hzero : (db.sum fun key pos => if decide (owner key = some name) = true ∧ pos.tickerId = t then
      (pos.side side).holdings else 0) = db.sum fun _ _ => 0 :=
    SortedMap.sum_congr db fun key pos hpos =>
      if_neg fun hboth => h key pos hpos (of_decide_eq_true hboth.1) hboth.2
  rw [owned, amountAt_ownRecords, hzero, SortedMap.sum, List.map_const', List.sum_replicate,
    smul_zero]

theorem onPositions_reconciled {writer : ℕ → ℕ → ℕ} {report : List Position}
    (hnodup : (kCommonPosPool :: names).Nodup) (hreport : (report.map Position.tickerId).Nodup)
    (hexact : Exact ct redis owner names) (hwritten : WrittenUnder ct owner names db)
    (h : (init names db).onPositions ct redis writer names report = some (true, s)) :
    Reconciled owner names db report s := by
  obtain ⟨hpool, -⟩ := List.nodup_cons.mp hnodup
  generalize hstart : ({ init names db with
    traderDb := clearPositions redis kCommonPosPool (init names db).traderDb } : Startup) = start
  simp only [onPositions, hstart] at h
  obtain ⟨r, hset, h⟩ := Option.bind_eq_some_iff.mp h
  have hr : r.1 = true := by
    by_contra hfailed
    rw [if_neg hfailed] at h
    exact hfailed (congrArg Prod.fst (Option.some.inj h))
  rw [if_pos hr] at h
  have hledger : ∀ key, start.posManager.ledgerOf key = 0 := by
    rw [← hstart]
    exact ledgerOf_init names db
  have hempty : ∀ key t side, start.holdings key t side = 0 := by
    intro key t side
    rw [Startup.holdings, hledger]
    rfl
  have htotal : start.posManager.total = 0 := by
    rw [← hstart]
    exact PositionManager.total_init names
  obtain ⟨htotal', hholdings, hdb, hqueue⟩ := setPositions_total hreport
    (fun pos _ side => hempty kCommonPosPool pos.tickerId side) (hset.trans (by rw [← hr]))
  have hsettled : ∀ name ∈ names, Settled (fun key => owner key = some name) db r.2 := by
    intro name hname
    have hne : kCommonPosPool ≠ name := fun heq => hpool (heq ▸ hname)
    refine ⟨fun key hkey => ?_, fun ctx hctx => ?_⟩
    · rw [hdb, ← hstart]
      refine find?_erase_of_notMem (fun hmem => ?_) db
      have hfound := (hexact.found _ List.mem_cons_self db).mem_iff.mp hmem
      have hpooled := of_decide_eq_true (List.mem_filter.mp hfound).2
      exact hne (Option.some.inj (hpooled.symm.trans (of_decide_eq_true hkey)))
    · rcases hqueue ctx hctx with hold | hnew
      · rw [← hstart] at hold
        cases hold
      · obtain ⟨hstrategy, t, contract, hcontract, hticker⟩ := hnew
        rw [PositionContext.key, hstrategy, hticker, decide_eq_false_iff_not,
          hexact.written _ List.mem_cons_self t contract hcontract, Option.some.injEq]
        exact hne
  obtain ⟨hmoved, hown, -⟩ := recovery_dealt writer hexact hnodup hsettled h
  have hheld : ∀ name ∈ names, ∀ t side,
      s.holdings name t side = amountAt (owned owner db name) t side := by
    intro name hname t side
    have hne : name ≠ kCommonPosPool := fun heq => hpool (heq ▸ hname)
    rw [hown name hname, hholdings name hne, hempty, zero_add]
  refine ⟨fun t side => ?_, fun name hname key pos hpos howner side => ?_,
    fun name hname t hnone side => ?_⟩
  · rw [hmoved, htotal', htotal]
    exact zero_add _
  · rw [hheld name hname, amountAt_owned hwritten hname hpos howner]
  · rw [hheld name hname, amountAt_owned_none hnone]

end Start

/-- The folder a key is in names its owner when no folder lies in another. -/
theorem exact_of_apart {names : List String} (hapart : Apart names) (ct : ContractTable)
    (redis : Redis) :
    Exact ct redis (fun key => (kCommonPosPool :: names).find? fun name => under name key) names := by
  have hcommon : Literal kCommonPosPool := by
    intro c hc
    fin_cases hc <;> decide
  have hliteral : ∀ name ∈ kCommonPosPool :: names, Literal name := by
    intro name hname
    rcases List.mem_cons.mp hname with rfl | hname
    · exact hcommon
    · exact hapart.literal name hname
  have hunique : ∀ name ∈ kCommonPosPool :: names, ∀ name' ∈ kCommonPosPool :: names, ∀ key,
      under name key = true → under name' key = true → name' = name := by
    intro name hname name' hname' key hunder hunder'
    rcases List.mem_cons.mp hname with rfl | hmem
    · rcases List.mem_cons.mp hname' with rfl | hmem'
      · rfl
      · rw [hapart.under_common hmem' hunder'] at hunder
        cases hunder
    · obtain ⟨ticker, rfl⟩ := exists_ticker hunder'
      exact hapart.own name hmem name' hname' ticker hunder
  have howner : ∀ name ∈ kCommonPosPool :: names, ∀ key,
      (kCommonPosPool :: names).find? (fun name => under name key) = some name ↔
        under name key = true := by
    intro name hname key
    constructor
    · exact fun h => List.find?_some (p := fun name => under name key) h
    · intro hunder
      have hsome := (@List.find?_isSome _ _ fun name => under name key).mpr ⟨name, hname, hunder⟩
      obtain ⟨name', hfound⟩ := Option.isSome_iff_exists.mp hsome
      have hunder' := List.find?_some (p := fun name => under name key) hfound
      rw [hfound, hunique name hname name' (List.mem_of_find?_eq_some hfound) key hunder hunder']
  refine ⟨fun name hname db => ?_, fun name hname t contract _ => ?_⟩
  · have hfilter : (fun key => decide ((kCommonPosPool :: names).find?
        (fun name => under name key) = some name)) = under name := by
      funext key
      rw [Bool.eq_iff_iff, decide_eq_true_iff, howner name hname]
    rw [hfilter]
    exact keys_pattern redis db (hliteral name hname)
  · exact (howner name hname _).mpr (under_getKey name contract.ticker)

end Startup

structure Transferred (m : PositionManager) (src dst : String) (t : ℕ) (direction : Direction)
    (volume : ℤ) (r : Bool × List (String × Position) × PositionManager) : Prop where
  moved : r.1 = true → ∀ key t' side, r.2.2.detail key t' side =
    { m.detail key t' side with
      holdings := (m.detail key t' side).holdings +
        if t' = t ∧ side = sideOf direction then
          (if key = src then -volume else 0) + (if key = dst then volume else 0)
        else 0 }
  covered : r.1 = true → 0 < volume →
    (r.2.2.detail src t (sideOf direction)).closePending ≤
      (r.2.2.detail src t (sideOf direction)).holdings
  refused : r.1 = false → ∀ key t' side, r.2.2.detail key t' side = m.detail key t' side
  labels : ∀ key t' pos', r.2.2.getPosition key t' = some pos' →
    pos'.tickerId = t' ∨ ∃ pos, m.getPosition key t' = some pos ∧ pos'.tickerId = pos.tickerId

theorem PositionManager.movePosition_transferred (m : PositionManager) (src dst : String) (t : ℕ)
    (direction : Direction) (volume : ℤ) :
    Transferred m src dst t direction volume (m.movePosition src dst t direction volume) where
  moved := by
    intro h key t' side
    rw [detail_movePosition h]
    by_cases hside : t' = t ∧ side = sideOf direction
    · rw [if_pos hside, if_pos hside]
      rfl
    · rw [if_neg hside, if_neg hside, add_zero]
  covered := covered_movePosition
  refused := detail_movePosition_refused
  labels := fun _ _ _ => tickerId_movePosition

/-- Every move conserves holdings, and so does a start that succeeds. -/
theorem holdings_are_conserved :
    (∀ (m : PositionManager) (src dst : String) (t : ℕ) (direction : Direction) (volume : ℤ),
      Transferred m src dst t direction volume (m.movePosition src dst t direction volume)) ∧
    ∀ (ct : ContractTable) (redis : Redis) (owner : String → Option String)
      (writer : ℕ → ℕ → ℕ) (names : List String) (db : PositionStore) (report : List Position)
      (s : Startup), (kCommonPosPool :: names).Nodup → (report.map Position.tickerId).Nodup →
      Startup.Exact ct redis owner names → Startup.WrittenUnder ct owner names db →
      (Startup.init names db).onPositions ct redis writer names report = some (true, s) →
      Startup.Reconciled owner names db report s :=
  ⟨PositionManager.movePosition_transferred,
    fun _ _ _ _ _ _ _ _ hnodup hreport hexact hwritten h =>
      Startup.onPositions_reconciled hnodup hreport hexact hwritten h⟩

theorem five_lots_are_conserved :
    ∃ s, (Startup.init ["strategy"] Startup.fiveStored).onPositions (.ofList [ticker001])
        Startup.starRedis (fun _ _ => 0) ["strategy"] [Startup.longFive 1] = some (true, s) ∧
      Startup.Reconciled (fun key => [kCommonPosPool, "strategy"].find? fun name =>
        TraderDb.under name key) ["strategy"] Startup.fiveStored [Startup.longFive 1] s := by
  have hrun : ((Startup.init ["strategy"] Startup.fiveStored).onPositions (.ofList [ticker001])
      Startup.starRedis (fun _ _ => 0) ["strategy"] [Startup.longFive 1]).map Prod.fst =
        some true := by
    decide +kernel
  obtain ⟨r, hstart, hr⟩ := Option.map_eq_some_iff.mp hrun
  refine ⟨r.2, hstart.trans (by rw [← hr]), ?_⟩
  refine holdings_are_conserved.2 (.ofList [ticker001]) Startup.starRedis _ (fun _ _ => 0) _ _ _ _
    (by decide) (by decide)
    (Startup.exact_of_apart (.of_plain (by decide) (by decide) Startup.plain_strategy) _ _) ?_
    (hstart.trans (by rw [← hr]))
  intro name hname key pos hpos _
  obtain ⟨rfl, rfl⟩ := Startup.find?_fiveStored hpos
  rw [List.mem_singleton.mp hname]
  exact ⟨_, rfl, rfl⟩

end FlareTrader
