import FlareTrader.StrategyPositions
import FlareTrader.TraderDb

/-! The positions at the start of the order management system. All holdings that the
gateway reports go to the common pool; what is stored for a strategy is then moved
from the pool to the strategy, by the ticker id in the record. -/

namespace FlareTrader

structure Startup where
  posManager : PositionManager
  traderDb : PositionStore
  posRb : List PositionContext := []

namespace Startup

def init (strategyConfigList : List String) (traderDb : PositionStore) : Startup where
  posManager := .init strategyConfigList
  traderDb := traderDb

def written (n : ℕ) (s : Startup) : Startup :=
  { s with
    traderDb := (s.posRb.take n).foldl PositionContext.write s.traderDb
    posRb := s.posRb.drop n }

def queued (ct : ContractTable) (s : Startup)
    (r : Bool × List (String × Position) × PositionManager) : Bool × Startup :=
  (r.1, { s with
    posManager := r.2.2
    posRb := s.posRb ++ r.2.1.filterMap (PositionContext.ofCall ct) })

def setPosition (ct : ContractTable) (strategy : String) (pos : Position) (s : Startup) :
    Bool × Startup :=
  s.queued ct (s.posManager.setPosition ct strategy pos)

def movePosition (ct : ContractTable) (srcStrategy dstStrategy : String) (tickerId : ℕ)
    (direction : Direction) (volume : ℤ) (s : Startup) : Bool × Startup :=
  s.queued ct (s.posManager.movePosition srcStrategy dstStrategy tickerId direction volume)

/-- Before each request the writing thread may have got further, `writer` says by
how many entries. A key that has no value is read through a null pointer. -/
def getPositions : (ℕ → ℕ) → List String → Startup → Option (List Position × Startup)
  | _, [], s => some ([], s)
  | writer, key :: keys, s =>
    let s := s.written (writer 0)
    match s.traderDb.find? key with
    | none => none
    | some pos =>
      (getPositions (fun n => writer (n + 1)) keys s).map fun r => (pos :: r.1, r.2)

def getAllPositions (redis : Redis) (writer : ℕ → ℕ) (strategy : String) (s : Startup) :
    Option (List Position × Startup) :=
  let s := s.written (writer 0)
  getPositions (fun n => writer (n + 1)) (redis.keys s.traderDb (TraderDb.pattern strategy)) s

def recoverPositions (ct : ContractTable) (strategy : String) :
    List Position → Startup → Bool × Startup
  | [], s => (true, s)
  | pos :: posList, s =>
    let long :=
      s.movePosition ct kCommonPosPool strategy pos.tickerId .kBuy pos.longPos.holdings
    if long.1 then
      let short :=
        long.2.movePosition ct kCommonPosPool strategy pos.tickerId .kSell pos.shortPos.holdings
      if short.1 then recoverPositions ct strategy posList short.2 else short
    else long

def recoveryStrategyPositions (ct : ContractTable) (redis : Redis) :
    (ℕ → ℕ → ℕ) → List String → Startup → Option (Bool × Startup)
  | _, [], s => some (true, s)
  | writer, strategy :: strategies, s =>
    match s.getAllPositions redis (writer 0) strategy with
    | none => none
    | some (posList, s) =>
      let r := s.recoverPositions ct strategy posList
      if r.1 then recoveryStrategyPositions ct redis (fun n => writer (n + 1)) strategies r.2
      else some r

/-- The program exits at a position of no contract. -/
def setPositions (ct : ContractTable) : List Position → Startup → Option (Bool × Startup)
  | [], s => some (true, s)
  | position :: positions, s =>
    let lp := position.longPos
    let sp := position.shortPos
    match ct.getByIndex position.tickerId with
    | none => none
    | some _ =>
      if lp.holdings = 0 ∧ lp.frozen = 0 ∧ sp.holdings = 0 ∧ sp.frozen = 0 then
        setPositions ct positions s
      else
        let r := s.setPosition ct kCommonPosPool position
        if r.1 then setPositions ct positions r.2 else some r

def onPositions (ct : ContractTable) (redis : Redis) (writer : ℕ → ℕ → ℕ)
    (strategyConfigList : List String) (positions : List Position) (s : Startup) :
    Option (Bool × Startup) :=
  let s := { s with traderDb := TraderDb.clearPositions redis kCommonPosPool s.traderDb }
  (s.setPositions ct positions).bind fun r =>
    if r.1 then r.2.recoveryStrategyPositions ct redis writer strategyConfigList else some r

def holdings (s : Startup) (strategy : String) (tickerId : ℕ) (side : Side) : ℤ :=
  (s.posManager.ledgerOf strategy tickerId side).holdings

def available (s : Startup) (tickerId : ℕ) (side : Side) : ℤ :=
  (s.posManager.ledgerOf kCommonPosPool tickerId side).holdings -
    (s.posManager.ledgerOf kCommonPosPool tickerId side).closePending

/-- Amounts are taken from the pool and given to a strategy, or the pool falls short
of one of them. -/
structure Moved (strategy : String) (amount : ℕ → Side → ℤ) (s : Startup)
    (r : Bool × Startup) : Prop where
  succeeds : r.1 = true ↔ ∀ t side, amount t side = 0 ∨ amount t side ≤ s.available t side
  available : r.1 = true → ∀ t side, r.2.available t side = s.available t side - amount t side
  holdings : r.1 = true → ∀ key, key ≠ kCommonPosPool → ∀ t side, r.2.holdings key t side =
    s.holdings key t side + if key = strategy then amount t side else 0
  contains : ∀ key, r.2.posManager.stPosCalculators.contains key =
    s.posManager.stPosCalculators.contains key
  traderDb : r.2.traderDb = s.traderDb
  posRb : ∀ ctx ∈ r.2.posRb,
    ctx ∈ s.posRb ∨ ctx.strategy = kCommonPosPool ∨ ctx.strategy = strategy

theorem covers_add {a b pool : ℤ} (ha : 0 ≤ a) (hb : 0 ≤ b) :
    (a = 0 ∨ a ≤ pool) ∧ (b = 0 ∨ b ≤ pool - a) ↔ a + b = 0 ∨ a + b ≤ pool := by
  omega

section Moves

variable {ct : ContractTable} {strategy : String} {s : Startup}

theorem moved_nothing : Moved strategy 0 s (true, s) where
  succeeds := by simp
  available := by simp
  holdings := by simp
  contains := fun _ => rfl
  traderDb := rfl
  posRb := fun ctx hctx => Or.inl hctx

theorem Moved.covers_iff {amount rest : ℕ → Side → ℤ} {r : Bool × Startup}
    (h : Moved strategy amount s r) (hamount : ∀ t side, 0 ≤ amount t side)
    (hrest : ∀ t side, 0 ≤ rest t side) :
    (r.1 = true ∧ ∀ t side, rest t side = 0 ∨ rest t side ≤ r.2.available t side) ↔
      ∀ t side, amount t side + rest t side = 0 ∨
        amount t side + rest t side ≤ s.available t side := by
  have hsum := fun t side => @covers_add _ _ (s.available t side) (hamount t side) (hrest t side)
  constructor
  · intro hboth t side
    obtain ⟨hr, hall⟩ := hboth
    have hsecond := hall t side
    rw [h.available hr] at hsecond
    exact (hsum t side).mp ⟨h.succeeds.mp hr t side, hsecond⟩
  · intro hall
    have hr := h.succeeds.mpr fun t side => ((hsum t side).mpr (hall t side)).1
    refine ⟨hr, fun t side => ?_⟩
    rw [h.available hr]
    exact ((hsum t side).mpr (hall t side)).2

theorem Moved.andThen {amount amount' : ℕ → Side → ℤ} {r q : Bool × Startup}
    (h : Moved strategy amount s r) (h' : Moved strategy amount' r.2 q)
    (hamount : ∀ t side, 0 ≤ amount t side) (hamount' : ∀ t side, 0 ≤ amount' t side) :
    Moved strategy (amount + amount') s (if r.1 then q else r) := by
  have hsucceeds : (if r.1 then q else r).1 = true ↔ r.1 = true ∧ q.1 = true := by
    split_ifs with hr
    · simp [hr]
    · simp [hr]
  refine ⟨?_, fun hall t side => ?_, fun hall key hkey t side => ?_, fun key => ?_, ?_, ?_⟩
  · rw [hsucceeds, h'.succeeds]
    exact h.covers_iff hamount hamount'
  · obtain ⟨hr, hq⟩ := hsucceeds.mp hall
    rw [if_pos hr, h'.available hq, h.available hr, Pi.add_apply, Pi.add_apply]
    ring
  · obtain ⟨hr, hq⟩ := hsucceeds.mp hall
    rw [if_pos hr, h'.holdings hq key hkey, h.holdings hr key hkey]
    split_ifs
    · rw [Pi.add_apply, Pi.add_apply]
      ring
    · ring
  · split_ifs
    · rw [h'.contains, h.contains]
    · exact h.contains key
  · split_ifs
    · rw [h'.traderDb, h.traderDb]
    · exact h.traderDb
  · intro ctx hctx
    split_ifs at hctx
    · rcases h'.posRb ctx hctx with hold | hnew
      · exact h.posRb ctx hold
      · exact Or.inr hnew
    · exact h.posRb ctx hctx

def only (t : ℕ) (side : Side) (volume : ℤ) : ℕ → Side → ℤ :=
  fun t' side' => if t' = t ∧ side' = side then volume else 0

theorem only_nonneg (t : ℕ) (side : Side) {volume : ℤ} (h : 0 ≤ volume) (t' : ℕ) (side' : Side) :
    0 ≤ only t side volume t' side' := by
  unfold only
  split_ifs
  · exact h
  · exact le_rfl

theorem mem_queued {r : Bool × List (String × Position) × PositionManager} {ctx : PositionContext}
    (h : ctx ∈ (s.queued ct r).2.posRb) :
    ctx ∈ s.posRb ∨ ∃ call ∈ r.2.1, ctx.strategy = call.1 ∧
      ∃ contract, ct.getByIndex call.2.tickerId = some contract ∧ ctx.ticker = contract.ticker := by
  rcases List.mem_append.mp h with h | h
  · exact Or.inl h
  · obtain ⟨call, hcall, hctx⟩ := List.mem_filterMap.mp h
    obtain ⟨contract, hcontract, rfl⟩ := Option.map_eq_some_iff.mp hctx
    exact Or.inr ⟨call, hcall, rfl, contract, hcontract, rfl⟩

theorem movePosition_moved (hne : strategy ≠ kCommonPosPool)
    (hcontains : s.posManager.stPosCalculators.contains strategy = true) (t : ℕ)
    (direction : Direction) {volume : ℤ} (hv : 0 ≤ volume) :
    Moved strategy (only t (sideOf direction) volume) s
      (s.movePosition ct kCommonPosPool strategy t direction volume) := by
  have hcommon := s.posManager.hasCommon
  have hledger := fun h => @PositionManager.ledgerOf_movePosition s.posManager kCommonPosPool
    strategy t direction volume hv hcommon hcontains (Ne.symm hne) h
  refine ⟨?_, fun h t' side' => ?_, fun h key hkey t' side' => ?_, fun key => ?_, rfl,
    fun ctx hctx => ?_⟩
  · have hsucceeds := @PositionManager.movePosition_succeeds_iff s.posManager kCommonPosPool
      strategy t direction volume hv hcommon hcontains
    refine hsucceeds.trans ⟨fun h t' side' => ?_, fun h => ?_⟩
    · unfold only
      split_ifs with hkey
      · obtain ⟨rfl, rfl⟩ := hkey
        exact h
      · exact Or.inl rfl
    · have hone := h t (sideOf direction)
      rwa [only, if_pos ⟨rfl, rfl⟩] at hone
  · have hpool : (s.movePosition ct kCommonPosPool strategy t direction volume).2.available t' side' =
        s.available t' side' - only t (sideOf direction) volume t' side' := by
      simp only [Startup.available, movePosition, queued, hledger h, if_true, Pi.add_apply,
        Ledger.single, only]
      split_ifs
      · simp only [Entry.holdings, Entry.closePending, Prod.fst_add, Prod.snd_add]
        ring
      · simp
    exact hpool
  · simp only [Startup.holdings, movePosition, queued, hledger h, if_neg hkey, Pi.add_apply, only]
    by_cases hkey' : key = strategy
    · simp only [if_pos hkey', Ledger.single]
      split_ifs
      · rfl
      · rfl
    · simp [hkey']
  · exact PositionManager.contains_movePosition hv hcommon hcontains key
  · rcases mem_queued hctx with hold | hnew
    · exact Or.inl hold
    · obtain ⟨call, hcall, hstrategy, -⟩ := hnew
      rw [hstrategy]
      exact Or.inr (PositionManager.calls_movePosition hcall)

theorem amountAt_cons (pos : Position) (posList : List Position) :
    TraderDb.amountAt (pos :: posList) = only pos.tickerId .long pos.longPos.holdings +
      (only pos.tickerId .short pos.shortPos.holdings + TraderDb.amountAt posList) := by
  funext t side
  simp only [TraderDb.amountAt, List.map_cons, List.sum_cons, Pi.add_apply, only]
  by_cases ht : t = pos.tickerId
  · cases side <;> simp [ht, Position.side]
  · simp [ht, Ne.symm ht]

theorem recoverPositions_moved (hne : strategy ≠ kCommonPosPool) (posList : List Position)
    (hcontains : s.posManager.stPosCalculators.contains strategy = true)
    (hnonneg : ∀ pos ∈ posList, ∀ side, 0 ≤ (pos.side side).holdings) :
    Moved strategy (TraderDb.amountAt posList) s (s.recoverPositions ct strategy posList) := by
  induction posList generalizing s with
  | nil => exact moved_nothing
  | cons pos posList ih =>
    have hpos := hnonneg pos List.mem_cons_self
    have hrest := fun p hp => hnonneg p (List.mem_cons_of_mem _ hp)
    have hlong := @movePosition_moved ct strategy s hne hcontains pos.tickerId .kBuy
      pos.longPos.holdings (hpos .long)
    have hcontains' := (hlong.contains strategy).trans hcontains
    have hshort := @movePosition_moved ct strategy _ hne hcontains' pos.tickerId .kSell
      pos.shortPos.holdings (hpos .short)
    have htail := ih ((hshort.contains strategy).trans hcontains') hrest
    have hsum := amountAt_cons pos posList
    have hsecond := hshort.andThen htail (only_nonneg _ _ (hpos .short))
      (TraderDb.amountAt_nonneg hrest)
    have hsecond_nonneg : ∀ t side, 0 ≤ (only pos.tickerId .short pos.shortPos.holdings +
        TraderDb.amountAt posList) t side := fun t side =>
      add_nonneg (only_nonneg _ _ (hpos .short) t side) (TraderDb.amountAt_nonneg hrest t side)
    rw [hsum]
    exact hlong.andThen hsecond (only_nonneg _ _ (hpos .long)) hsecond_nonneg

end Moves

end Startup

/-- Names of strategies that can stand in a pattern and whose keys do not mix. -/
structure Apart (names : List String) : Prop where
  nodup : names.Nodup
  notCommon : kCommonPosPool ∉ names
  literal : ∀ name ∈ names, Literal name
  own : ∀ name ∈ names, ∀ name' ∈ kCommonPosPool :: names, ∀ ticker,
    TraderDb.under name (TraderDb.getKey name' ticker) = true → name' = name

theorem Apart.of_plain {names : List String} (hnodup : names.Nodup)
    (hcommon : kCommonPosPool ∉ names)
    (hplain : ∀ name ∈ names, ∀ c ∈ name.toList, c ∉ "/*?[\\".toList) : Apart names where
  nodup := hnodup
  notCommon := hcommon
  literal := fun name hname c hc hspecial => hplain name hname c hc (List.mem_cons_of_mem '/' hspecial)
  own := by
    have hslash : ∀ name ∈ names, '/' ∉ name.toList :=
      fun name hname hc => hplain name hname '/' hc List.mem_cons_self
    intro name hname name' hname' ticker hunder
    refine TraderDb.under_unique ?_ (hslash name hname) (TraderDb.under_getKey name' ticker) hunder
    rcases List.mem_cons.mp hname' with rfl | hname'
    · decide
    · exact hslash name' hname'

theorem Apart.of_cons {name : String} {names : List String} (h : Apart (name :: names)) :
    Apart names where
  nodup := (List.nodup_cons.mp h.nodup).2
  notCommon := fun hc => h.notCommon (List.mem_cons_of_mem _ hc)
  literal := fun name' hn => h.literal name' (List.mem_cons_of_mem _ hn)
  own := by
    intro name' hname' name'' hname'' ticker
    refine h.own name' (List.mem_cons_of_mem _ hname') name'' ?_ ticker
    rcases List.mem_cons.mp hname'' with heq | hmem
    · exact heq ▸ List.mem_cons_self
    · exact List.mem_cons_of_mem _ (List.mem_cons_of_mem _ hmem)

theorem Apart.under_getKey {names : List String} (h : Apart names) {name name' : String}
    (hname : name ∈ names) (hname' : name' ∈ kCommonPosPool :: names) (hne : name' ≠ name)
    (ticker : String) : TraderDb.under name (TraderDb.getKey name' ticker) = false := by
  rw [← Bool.not_eq_true]
  exact fun hunder => hne (h.own name hname name' hname' ticker hunder)

theorem Apart.under_common {names : List String} (h : Apart names) {name : String}
    (hname : name ∈ names) {key : String} (hkey : TraderDb.under name key = true) :
    TraderDb.under kCommonPosPool key = false := by
  rw [← Bool.not_eq_true]
  intro hc
  obtain ⟨ticker, rfl⟩ := TraderDb.exists_ticker hc
  exact h.notCommon (h.own name hname _ List.mem_cons_self ticker hkey ▸ hname)

namespace Startup

open TraderDb

/-- What is stored for the strategies still to come is what was stored for them at
first, and nothing of it is going to be written. -/
structure Intact (db : PositionStore) (names : List String) (s : Startup) : Prop where
  found : ∀ name ∈ names, ∀ key, under name key = true → s.traderDb.find? key = db.find? key
  others : ∀ ctx ∈ s.posRb, ∀ name ∈ names, under name ctx.key = false

section Reads

variable {db : PositionStore} {names : List String} {s : Startup} {strategy : String}

theorem find?_write {ctxs : List PositionContext} {key : String} (db : PositionStore)
    (h : ∀ ctx ∈ ctxs, ctx.key ≠ key) :
    (ctxs.foldl PositionContext.write db).find? key = db.find? key := by
  induction ctxs generalizing db with
  | nil => rfl
  | cons ctx ctxs ih =>
    have hne := h ctx List.mem_cons_self
    rw [List.foldl_cons, ih _ fun c hc => h c (List.mem_cons_of_mem _ hc)]
    exact SortedMap.find?_insert_of_ne db (Ne.symm hne) ctx.pos

theorem written_written (s : Startup) (n k : ℕ) : (s.written n).written k = s.written (n + k) := by
  have htake : s.posRb.take (n + k) = s.posRb.take n ++ (s.posRb.drop n).take k := List.take_add
  simp only [written, List.drop_drop, htake, List.foldl_append]

/-- The records under the keys `own` are as they were, and stay so while the writing
thread gets on. -/
structure Settled (own : String → Bool) (db : PositionStore) (s : Startup) : Prop where
  found : ∀ key, own key = true → s.traderDb.find? key = db.find? key
  others : ∀ ctx ∈ s.posRb, own ctx.key = false

theorem Settled.written {own : String → Bool} (h : Settled own db s) (n : ℕ) :
    Settled own db (s.written n) where
  found := by
    intro key hkey
    have hother : ∀ ctx ∈ s.posRb.take n, ctx.key ≠ key := by
      intro ctx hctx heq
      have hown := h.others ctx (List.mem_of_mem_take hctx)
      rw [heq, hkey] at hown
      cases hown
    exact (find?_write s.traderDb hother).trans (h.found key hkey)
  others := fun ctx hctx => h.others ctx (List.mem_of_mem_drop hctx)

theorem getPositions_settled {own : String → Bool} (writer : ℕ → ℕ) {keys : List String}
    (h : Settled own db s) (hkeys : ∀ key ∈ keys, key ∈ db.keys ∧ own key = true) :
    ∃ n, s.getPositions writer keys = some (keys.filterMap db.find?, s.written n) := by
  induction keys generalizing s writer with
  | nil => exact ⟨0, by simp [getPositions, Startup.written]⟩
  | cons key keys ih =>
    obtain ⟨hmem, hown⟩ := hkeys key List.mem_cons_self
    obtain ⟨pos, hpos⟩ := SortedMap.mem_keys_iff.mp hmem
    have hwritten := h.written (writer 0)
    have hfound := (hwritten.found key hown).trans hpos
    obtain ⟨n, hrest⟩ := ih (fun n => writer (n + 1)) hwritten
      fun k hk => hkeys k (List.mem_cons_of_mem _ hk)
    refine ⟨writer 0 + n, ?_⟩
    simp only [getPositions, hfound, hrest, Option.map_some, List.filterMap_cons, hpos,
      written_written]

theorem getAllPositions_settled {own : String → Bool} (redis : Redis) (writer : ℕ → ℕ)
    (h : Settled own db s)
    (hkeys : ∀ db', (redis.keys db' (pattern strategy)).Perm (db'.keys.filter own)) :
    ∃ posList n, s.getAllPositions redis writer strategy = some (posList, s.written n) ∧
      posList.Perm (ownRecords db own) := by
  have hwritten := h.written (writer 0)
  have hperm : (redis.keys (s.written (writer 0)).traderDb (pattern strategy)).Perm
      (db.keys.filter own) := by
    refine (hkeys _).trans ?_
    refine (List.perm_ext_iff_of_nodup ((SortedMap.keys_nodup _).filter _)
      ((SortedMap.keys_nodup _).filter _)).mpr fun key => ?_
    simp only [List.mem_filter, SortedMap.mem_keys_iff]
    refine and_congr_left fun hkey => ?_
    rw [hwritten.found key hkey]
  obtain ⟨n, hpositions⟩ := getPositions_settled (fun n => writer (n + 1)) hwritten
    fun key hkey => List.mem_filter.mp (hperm.mem_iff.mp hkey)
  have hrecords := hperm.filterMap db.find?
  rw [← ownRecords_eq] at hrecords
  refine ⟨_, writer 0 + n, ?_, hrecords⟩
  rw [← written_written]
  exact hpositions

theorem Intact.settled (h : Intact db names s) (hname : strategy ∈ names) :
    Settled (under strategy) db s :=
  ⟨h.found strategy hname, fun ctx hctx => h.others ctx hctx strategy hname⟩

theorem Intact.written (h : Intact db names s) (n : ℕ) : Intact db names (s.written n) where
  found := fun _ hname => ((h.settled hname).written n).found
  others := fun ctx hctx => h.others ctx (List.mem_of_mem_drop hctx)

theorem getAllPositions_eq (redis : Redis) (writer : ℕ → ℕ) (h : Intact db names s)
    (hname : strategy ∈ names) (hliteral : Literal strategy) :
    ∃ posList s', s.getAllPositions redis writer strategy = some (posList, s') ∧
      posList.Perm (records db strategy) ∧ s'.posManager = s.posManager ∧ Intact db names s' := by
  obtain ⟨posList, n, hread, hperm⟩ := getAllPositions_settled redis writer (h.settled hname)
    fun db' => keys_pattern redis db' hliteral
  exact ⟨posList, s.written n, hread, hperm, rfl, h.written n⟩

end Reads

section Recovery

variable {ct : ContractTable} {db : PositionStore} {names : List String} {s : Startup}

def demand (db : PositionStore) (names : List String) (t : ℕ) (side : Side) : ℤ :=
  (names.map fun name => amountAt (records db name) t side).sum

theorem demand_nonneg (h : ∀ name, ∀ pos ∈ records db name, ∀ side, 0 ≤ (pos.side side).holdings)
    (names : List String) (t : ℕ) (side : Side) : 0 ≤ demand db names t side := by
  apply List.sum_nonneg
  intro amount hamount
  obtain ⟨name, -, rfl⟩ := List.mem_map.mp hamount
  exact amountAt_nonneg (h name) t side

theorem Intact.moved {name : String} {amount : ℕ → Side → ℤ} {r : Bool × Startup}
    (h : Intact db (name :: names) s) (hapart : Apart (name :: names))
    (hmoved : Moved name amount s r) : Intact db names r.2 where
  found := by
    intro name' hname' key hkey
    rw [hmoved.traderDb]
    exact h.found name' (List.mem_cons_of_mem _ hname') key hkey
  others := by
    intro ctx hctx name' hname'
    have hmem := List.mem_cons_of_mem name hname'
    rcases hmoved.posRb ctx hctx with hold | hcommon | hsame
    · exact h.others ctx hold name' hmem
    · have hne : kCommonPosPool ≠ name' := fun heq => hapart.notCommon (heq ▸ hmem)
      rw [PositionContext.key, hcommon]
      exact hapart.under_getKey hmem List.mem_cons_self hne ctx.ticker
    · have hne : name ≠ name' := fun heq => (List.nodup_cons.mp hapart.nodup).1 (heq ▸ hname')
      rw [PositionContext.key, hsame]
      exact hapart.under_getKey hmem (List.mem_cons_of_mem _ List.mem_cons_self) hne ctx.ticker

theorem recovery_spec (redis : Redis) (writer : ℕ → ℕ → ℕ) (hapart : Apart names)
    (hcontains : ∀ name ∈ names, s.posManager.stPosCalculators.contains name = true)
    (hnonneg : ∀ name, ∀ pos ∈ records db name, ∀ side, 0 ≤ (pos.side side).holdings)
    (h : Intact db names s) :
    ∃ r, s.recoveryStrategyPositions ct redis writer names = some r ∧
      (r.1 = true ↔ ∀ t side, demand db names t side = 0 ∨
        demand db names t side ≤ s.available t side) ∧
      (r.1 = true → ∀ key ∈ names, ∀ t side, r.2.holdings key t side =
        s.holdings key t side + amountAt (records db key) t side) ∧
      (r.1 = true → ∀ key, key ≠ kCommonPosPool → key ∉ names → ∀ t side,
        r.2.holdings key t side = s.holdings key t side) := by
  induction names generalizing s writer with
  | nil =>
    refine ⟨(true, s), rfl, by simp [demand], fun _ key hkey => ?_, fun _ key _ _ t side => rfl⟩
    cases hkey
  | cons name names ih =>
    obtain ⟨hnotMem, -⟩ := List.nodup_cons.mp hapart.nodup
    have hne : name ≠ kCommonPosPool := fun heq => hapart.notCommon (heq ▸ List.mem_cons_self)
    obtain ⟨posList, s', hread, hperm, hmanager, hintact⟩ := getAllPositions_eq redis (writer 0) h
      List.mem_cons_self (hapart.literal name List.mem_cons_self)
    have hcontains' : ∀ key ∈ name :: names,
        s'.posManager.stPosCalculators.contains key = true := by
      rw [hmanager]
      exact hcontains
    have hmoved := @recoverPositions_moved ct name s' hne posList
      (hcontains' name List.mem_cons_self) fun pos hpos => hnonneg name pos (hperm.mem_iff.mp hpos)
    rw [amountAt_perm hperm] at hmoved
    have havailable : s'.available = s.available := by
      funext t side
      rw [Startup.available, Startup.available, hmanager]
    have hholdings : ∀ key t side, s'.holdings key t side = s.holdings key t side := by
      intro key t side
      rw [Startup.holdings, Startup.holdings, hmanager]
    generalize hr : s'.recoverPositions ct name posList = r at hmoved
    obtain ⟨q, hrest, hsucceeds, hown, hother⟩ := ih (fun n => writer (n + 1)) hapart.of_cons
      (fun key hkey => (hmoved.contains key).trans (hcontains' key (List.mem_cons_of_mem _ hkey)))
      (hintact.moved hapart hmoved)
    have hcovers := hmoved.covers_iff (amountAt_nonneg (hnonneg name))
      (demand_nonneg hnonneg names)
    rw [havailable] at hcovers
    by_cases hfirst : r.1 = true
    · refine ⟨q, by simp only [recoveryStrategyPositions, hread, hr, hfirst, if_true, hrest],
        ?_, fun hq key hkey t side => ?_, fun hq key hkey hkeys t side => ?_⟩
      · rw [and_iff_right hfirst] at hcovers
        exact hsucceeds.trans hcovers
      · rcases List.mem_cons.mp hkey with heq | hkey
        · subst heq
          rw [hother hq key hne hnotMem, hmoved.holdings hfirst key hne, hholdings, if_pos rfl]
        · have hkeyne : key ≠ name := fun heq => hnotMem (heq ▸ hkey)
          have hpool : key ≠ kCommonPosPool :=
            fun heq => hapart.notCommon (heq ▸ List.mem_cons_of_mem _ hkey)
          rw [hown hq key hkey, hmoved.holdings hfirst key hpool, hholdings, if_neg hkeyne, add_zero]
      · rw [List.mem_cons, not_or] at hkeys
        obtain ⟨hkeyne, hkeys⟩ := hkeys
        rw [hother hq key hkey hkeys, hmoved.holdings hfirst key hkey, hholdings, if_neg hkeyne,
          add_zero]
    · refine ⟨r, by simp [recoveryStrategyPositions, hread, hr, hfirst], ?_,
        fun hq => absurd hq hfirst, fun hq => absurd hq hfirst⟩
      exact iff_of_false hfirst fun hall => hfirst (hcovers.mpr hall).1

end Recovery

def reported (report : List Position) (t : ℕ) : Option Position := report.find? (·.tickerId = t)

section Report

variable {ct : ContractTable} {s : Startup}

structure Reports (ct : ContractTable) (report : List Position) : Prop where
  nodup : (report.map Position.tickerId).Nodup
  listed : ∀ pos ∈ report, ∃ contract, ct.getByIndex pos.tickerId = some contract
  idle : ∀ pos ∈ report, ∀ side, (pos.side side).closePending = 0

theorem Reports.of_cons {pos : Position} {report : List Position}
    (h : Reports ct (pos :: report)) : Reports ct report where
  nodup := (List.nodup_cons.mp h.nodup).2
  listed := fun p hp => h.listed p (List.mem_cons_of_mem _ hp)
  idle := fun p hp => h.idle p (List.mem_cons_of_mem _ hp)

structure Pooled (pos : Position) (s : Startup) (r : Bool × Startup) : Prop where
  succeeds : r.1 = true
  available : ∀ t side, r.2.available t side =
    if t = pos.tickerId then (pos.side side).holdings else s.available t side
  holdings : ∀ key, key ≠ kCommonPosPool → ∀ t side, r.2.holdings key t side = s.holdings key t side
  contains : ∀ key, r.2.posManager.stPosCalculators.contains key =
    s.posManager.stPosCalculators.contains key
  traderDb : r.2.traderDb = s.traderDb
  posRb : ∀ ctx ∈ r.2.posRb, ctx ∈ s.posRb ∨ ctx.strategy = kCommonPosPool

theorem setPosition_pooled {pos : Position} {contract : Contract}
    (ht : ct.getByIndex pos.tickerId = some contract)
    (hidle : ∀ side, (pos.side side).closePending = 0) :
    Pooled pos s (s.setPosition ct kCommonPosPool pos) := by
  have hledger := PositionManager.ledgerOf_setPosition ht kCommonPosPool s.posManager
  rw [PositionManager.findCalculator_common] at hledger
  refine ⟨PositionManager.setPosition_succeeds ht kCommonPosPool s.posManager,
    fun t side => ?_, fun key hkey t side => ?_, fun key => ?_, rfl, fun ctx hctx => ?_⟩
  · simp only [Startup.available, setPosition, queued, hledger, true_and]
    split_ifs
    · simp [PositionDetail.entry, Entry.holdings, Entry.closePending, hidle side]
    · rfl
  · simp only [Startup.holdings, setPosition, queued, hledger]
    rw [if_neg fun hboth => hkey hboth.1]
  · exact PositionManager.contains_setPosition ct kCommonPosPool pos s.posManager key
  · rcases mem_queued hctx with hold | hnew
    · exact Or.inl hold
    · obtain ⟨call, hcall, hstrategy, -⟩ := hnew
      simp only [PositionManager.setPosition, PositionManager.findCalculator_common] at hcall
      split_ifs at hcall
      · rw [hstrategy, List.mem_singleton.mp hcall]
        exact Or.inr rfl
      · cases hcall

theorem setPositions_spec {report : List Position} (hreport : Reports ct report)
    (hnone : ∀ pos ∈ report, ∀ side, s.available pos.tickerId side = 0) :
    ∃ s', s.setPositions ct report = some (true, s') ∧
      (∀ t side, s'.available t side =
        (reported report t).elim (s.available t side) fun pos => (pos.side side).holdings) ∧
      (∀ key, key ≠ kCommonPosPool → ∀ t side, s'.holdings key t side = s.holdings key t side) ∧
      (∀ key, s'.posManager.stPosCalculators.contains key =
        s.posManager.stPosCalculators.contains key) ∧
      s'.traderDb = s.traderDb ∧
      ∀ ctx ∈ s'.posRb, ctx ∈ s.posRb ∨ ctx.strategy = kCommonPosPool := by
  induction report generalizing s with
  | nil =>
    exact ⟨s, rfl, fun _ _ => rfl, fun _ _ _ _ => rfl, fun _ => rfl, rfl, fun _ h => Or.inl h⟩
  | cons pos report ih =>
    obtain ⟨contract, ht⟩ := hreport.listed pos List.mem_cons_self
    obtain ⟨hfresh, -⟩ := List.nodup_cons.mp hreport.nodup
    have hrest := fun p hp => hnone p (List.mem_cons_of_mem _ hp)
    have hmiss : report.find? (·.tickerId = pos.tickerId) = none :=
      List.find?_eq_none.mpr fun p hp heq =>
        hfresh (List.mem_map.mpr ⟨p, hp, of_decide_eq_true heq⟩)
    by_cases hzero : pos.longPos.holdings = 0 ∧ pos.longPos.frozen = 0 ∧
        pos.shortPos.holdings = 0 ∧ pos.shortPos.frozen = 0
    · obtain ⟨s', hset, havailable, hframe⟩ := ih hreport.of_cons hrest
      refine ⟨s', by simp only [setPositions, ht, if_pos hzero, hset], fun t side => ?_, hframe⟩
      rw [havailable, reported, reported, List.find?_cons]
      by_cases hpos : pos.tickerId = t
      · subst hpos
        have hflat : (pos.side side).holdings = 0 := by
          cases side
          · exact hzero.1
          · exact hzero.2.2.1
        simp [hmiss, hflat, hnone pos List.mem_cons_self side]
      · simp [hpos]
    · have hpooled := @setPosition_pooled ct s pos contract ht (hreport.idle pos List.mem_cons_self)
      generalize hr : s.setPosition ct kCommonPosPool pos = r at hpooled
      have hnone' : ∀ p ∈ report, ∀ side, r.2.available p.tickerId side = 0 := by
        intro p hp side
        have hne : p.tickerId ≠ pos.tickerId := fun heq => hfresh (heq ▸ List.mem_map_of_mem hp)
        rw [hpooled.available, if_neg hne]
        exact hrest p hp side
      obtain ⟨s', hset, havailable, hholdings, hcontains, hdb, hqueue⟩ :=
        ih hreport.of_cons hnone'
      refine ⟨s', by simp only [setPositions, ht, if_neg hzero, hr, hpooled.succeeds, if_true, hset],
        fun t side => ?_, fun key hkey t side => ?_, fun key => ?_, hdb.trans hpooled.traderDb,
        fun ctx hctx => ?_⟩
      · rw [havailable, hpooled.available, reported, reported, List.find?_cons]
        by_cases hpos : pos.tickerId = t
        · subst hpos
          simp [hmiss]
        · simp [hpos, Ne.symm hpos]
      · rw [hholdings key hkey, hpooled.holdings key hkey]
      · rw [hcontains, hpooled.contains]
      · rcases hqueue ctx hctx with hold | hnew
        · exact hpooled.posRb ctx hold
        · exact Or.inr hnew

end Report

def heldAt (ct : ContractTable) (db : PositionStore) (strategy : String) (t : ℕ) (side : Side) : ℤ :=
  (ct.getByIndex t).elim 0 fun contract => heldUnder db strategy contract.ticker side

def Covers (ct : ContractTable) (db : PositionStore) (names : List String)
    (report : List Position) : Prop :=
  ∀ t contract, ct.getByIndex t = some contract → ∀ side,
    (names.map fun name => heldUnder db name contract.ticker side).sum ≤
      (reported report t).elim 0 fun pos => (pos.side side).holdings

/-- The start succeeds, and all strategies hold what was persisted under the name of
each ticker. -/
def Survives (ct : ContractTable) (redis : Redis) (writer : ℕ → ℕ → ℕ) (names : List String)
    (report : List Position) (db : PositionStore) : Prop :=
  ∃ s, (init names db).onPositions ct redis writer names report = some (true, s) ∧
    ∀ name ∈ names, ∀ t contract, ct.getByIndex t = some contract → ∀ side,
      s.holdings name t side = heldUnder db name contract.ticker side

section Start

variable {ct : ContractTable} {names : List String}

theorem ledgerOf_init (names : List String) (db : PositionStore) (key : String) :
    (init names db).posManager.ledgerOf key = 0 := by
  rw [init, PositionManager.ledgerOf, PositionManager.calculator_init]
  exact PositionCalculator.ledger_empty

theorem onPositions_spec (redis : Redis) (writer : ℕ → ℕ → ℕ) (hapart : Apart names)
    {report : List Position} (hreport : Reports ct report) {db : PositionStore}
    (hnonneg : ∀ name, ∀ pos ∈ records db name, ∀ side, 0 ≤ (pos.side side).holdings) :
    ∃ r, (init names db).onPositions ct redis writer names report = some r ∧
      (r.1 = true ↔ ∀ t side, demand db names t side = 0 ∨ demand db names t side ≤
        (reported report t).elim 0 fun pos => (pos.side side).holdings) ∧
      (r.1 = true → ∀ name ∈ names, ∀ t side,
        r.2.holdings name t side = amountAt (records db name) t side) := by
  have hcommon : Literal kCommonPosPool := by
    intro c hc
    fin_cases hc <;> decide
  generalize hstart : ({ init names db with
    traderDb := clearPositions redis kCommonPosPool (init names db).traderDb } : Startup) = start
  have hledger : ∀ key, start.posManager.ledgerOf key = 0 := by
    rw [← hstart]
    exact ledgerOf_init names db
  have hpool : ∀ t side, start.available t side = 0 := by
    intro t side
    rw [Startup.available, hledger]
    rfl
  have hempty : ∀ key t side, start.holdings key t side = 0 := by
    intro key t side
    rw [Startup.holdings, hledger]
    rfl
  obtain ⟨s, hset, havailable, hholdings, hcontains, hdb, hqueue⟩ :=
    setPositions_spec hreport fun pos _ side => hpool pos.tickerId side
  have hintact : Intact db names s := by
    refine ⟨fun name hname key hkey => ?_, fun ctx hctx name hname => ?_⟩
    · rw [hdb, ← hstart]
      exact find?_clearPositions redis db hcommon (hapart.under_common hname hkey)
    · rcases hqueue ctx hctx with hold | hpooled
      · rw [← hstart] at hold
        cases hold
      · have hne : kCommonPosPool ≠ name := fun heq => hapart.notCommon (heq ▸ hname)
        rw [PositionContext.key, hpooled]
        exact hapart.under_getKey hname List.mem_cons_self hne ctx.ticker
  have hknown : ∀ name ∈ names, s.posManager.stPosCalculators.contains name = true := by
    intro name hname
    rw [hcontains, ← hstart]
    exact PositionManager.contains_init_iff.mpr (Or.inl hname)
  obtain ⟨r, hrun, hsucceeds, hown, -⟩ :=
    @recovery_spec ct db names s redis writer hapart hknown hnonneg hintact
  refine ⟨r, ?_, ?_, fun hr name hname t side => ?_⟩
  · simp only [onPositions, hstart, hset, Option.bind_some, if_true, hrun]
  · rw [hsucceeds]
    simp only [havailable, hpool]
  · have hne : name ≠ kCommonPosPool := fun heq => hapart.notCommon (heq ▸ hname)
    rw [hown hr name hname, hholdings name hne, hempty, zero_add]

/-- The condition holds for a strategy when the ticker id in each of its records is the
one index at which the table has the ticker of the key. -/
theorem amountAt_of_kept {ct : ContractTable} {db : PositionStore} {name : String}
    (h : ∀ ticker pos, db.find? (getKey name ticker) = some pos → ∀ t, pos.tickerId = t ↔
      ∃ contract, ct.getByIndex t = some contract ∧ contract.ticker = ticker)
    (t : ℕ) (side : Side) : amountAt (records db name) t side = heldAt ct db name t side := by
  rw [amountAt_records, heldAt]
  cases ht : ct.getByIndex t with
  | none =>
    have hzero : (db.sum fun key pos => if under name key = true ∧ pos.tickerId = t then
        (pos.side side).holdings else 0) = db.sum fun _ _ => 0 := by
      refine SortedMap.sum_congr db fun key pos hpos => if_neg fun hboth => ?_
      obtain ⟨ticker, rfl⟩ := exists_ticker hboth.1
      obtain ⟨contract, hcontract, -⟩ := (h ticker pos hpos t).mp hboth.2
      rw [ht] at hcontract
      cases hcontract
    rw [hzero, SortedMap.sum, List.map_const', List.sum_replicate, smul_zero, Option.elim_none]
  | some contract =>
    have hindex : ∀ ticker pos, db.find? (getKey name ticker) = some pos →
        (pos.tickerId = t ↔ contract.ticker = ticker) := by
      intro ticker pos hpos
      rw [h ticker pos hpos t, ht]
      simp
    have hrest : ((db.erase (getKey name contract.ticker)).sum fun key pos =>
        if under name key = true ∧ pos.tickerId = t then (pos.side side).holdings else 0) =
        (db.erase (getKey name contract.ticker)).sum fun _ _ => 0 := by
      refine SortedMap.sum_congr _ fun key pos hpos => if_neg fun hboth => ?_
      obtain ⟨ticker, rfl⟩ := exists_ticker hboth.1
      rw [SortedMap.find?_erase] at hpos
      split_ifs at hpos with hkey
      exact hkey (congrArg (getKey name) ((hindex ticker pos hpos).mp hboth.2).symm)
    rw [SortedMap.sum_eq_add db (getKey name contract.ticker), hrest, SortedMap.sum,
      List.map_const', List.sum_replicate, smul_zero, add_zero, Option.elim_some, heldUnder]
    cases hpos : db.find? (getKey name contract.ticker) with
    | none => rfl
    | some pos => simp [(hindex contract.ticker pos hpos).mpr rfl]

theorem positions_survive_iff (ct₁ ct₂ : ContractTable) (redis : Redis) (writer : ℕ → ℕ → ℕ)
    (names : List String) (hapart : Apart names) (calls : List (String × Position))
    (hcalls : ∀ call ∈ calls, ∀ side, 0 ≤ (call.2.side side).holdings)
    (report : List Position) (hreport : Reports ct₂ report)
    (hcovers : Covers ct₂ (persisted ct₁ calls) names report) :
    Survives ct₂ redis writer names report (persisted ct₁ calls) ↔
      ∀ name ∈ names, ∀ t side, amountAt (records (persisted ct₁ calls) name) t side =
        heldAt ct₂ (persisted ct₁ calls) name t side := by
  have hnonneg : ∀ name, ∀ pos ∈ records (persisted ct₁ calls) name, ∀ side,
      0 ≤ (pos.side side).holdings := by
    intro name pos hpos
    obtain ⟨key, hkey⟩ := mem_records hpos
    obtain ⟨call, hcall, rfl⟩ := exists_call hkey
    exact hcalls call hcall
  obtain ⟨r, hrun, hsucceeds, hheld⟩ := onPositions_spec redis writer hapart hreport hnonneg
  constructor
  · intro h name hname t side
    obtain ⟨s, hstart, hsame⟩ := h
    have hr : r = (true, s) := Option.some.inj (hrun.symm.trans hstart)
    have htrue : r.1 = true := by rw [hr]
    rw [heldAt]
    cases ht : ct₂.getByIndex t with
    | some contract =>
      rw [← hheld htrue name hname t side, hr]
      exact hsame name hname t contract ht side
    | none =>
      -- the pool has nothing where the new table has no contract
      have hreported : reported report t = none := by
        refine List.find?_eq_none.mpr fun pos hpos heq => ?_
        obtain ⟨contract, hcontract⟩ := hreport.listed pos hpos
        rw [of_decide_eq_true heq, ht] at hcontract
        cases hcontract
      have hdemand := hsucceeds.mp htrue t side
      rw [hreported, Option.elim_none] at hdemand
      have hle : amountAt (records (persisted ct₁ calls) name) t side ≤
          demand (persisted ct₁ calls) names t side := by
        refine List.single_le_sum (fun amount hamount => ?_) _ (List.mem_map_of_mem hname)
        obtain ⟨name', -, rfl⟩ := List.mem_map.mp hamount
        exact amountAt_nonneg (hnonneg name') t side
      have hge := amountAt_nonneg (hnonneg name) t side
      rw [Option.elim_none]
      omega
  · intro h
    have hdemand : ∀ t side, demand (persisted ct₁ calls) names t side =
        (names.map fun name => heldAt ct₂ (persisted ct₁ calls) name t side).sum :=
      fun t side => congrArg List.sum (List.map_congr_left fun name hname => h name hname t side)
    have htrue : r.1 = true := by
      refine hsucceeds.mpr fun t side => ?_
      rw [hdemand]
      unfold heldAt
      cases ht : ct₂.getByIndex t with
      | none => simp
      | some contract => exact Or.inr (hcovers t contract ht side)
    refine ⟨r.2, by rw [hrun, ← htrue], fun name hname t contract ht side => ?_⟩
    rw [hheld htrue name hname, h name hname, heldAt, ht, Option.elim_some]

end Start

def starRedis : Redis where
  keys := fun db pattern => db.keys.filter fun key => pattern.toList.dropLast.isPrefixOf key.toList
  keys_literal := by
    intro db text _
    have hstar : (text ++ "*").toList.dropLast = text.toList := by
      rw [String.toList_append]
      exact List.dropLast_concat
    rw [hstar]

def ticker002 : Contract := { ticker001 with ticker := "ticker002" }

def longFive (tickerId : ℕ) : Position := { tickerId, longPos := { holdings := 5 } }

def fiveStored : PositionStore := persisted (.ofList [ticker001]) [("strategy", longFive 1)]

theorem find?_fiveStored {key : String} {pos : Position} (h : fiveStored.find? key = some pos) :
    key = getKey "strategy" "ticker001" ∧ pos = longFive 1 := by
  have hinsert : fiveStored =
      SortedMap.empty.insert (getKey "strategy" "ticker001") (longFive 1) := rfl
  rw [hinsert, SortedMap.find?_insert] at h
  split_ifs at h with hkey
  · exact ⟨hkey, (Option.some.inj h).symm⟩
  · cases h

theorem plain_strategy : ∀ name ∈ ["strategy"], ∀ c ∈ name.toList, c ∉ "/*?[\\".toList := by
  intro name hname c hc
  rw [List.mem_singleton.mp hname] at hc
  fin_cases hc <;> decide

theorem positions_survive_appended :
    Survives (.ofList [ticker001, ticker002]) starRedis (fun _ _ => 0) ["strategy"] [longFive 1]
      fiveStored := by
  have hlisted : ∀ t contract, ContractTable.getByIndex (.ofList [ticker001, ticker002]) t =
      some contract → t = 1 ∧ contract.ticker = "ticker001" ∨
        t = 2 ∧ contract.ticker = "ticker002" := by
    intro t contract h
    rcases t with _ | _ | _ | t
    · cases h
    · exact Or.inl ⟨rfl, congrArg Contract.ticker (Option.some.inj h).symm⟩
    · exact Or.inr ⟨rfl, congrArg Contract.ticker (Option.some.inj h).symm⟩
    · cases h
  refine (positions_survive_iff (.ofList [ticker001]) (.ofList [ticker001, ticker002]) starRedis
    (fun _ _ => 0) ["strategy"] (.of_plain (by decide) (by decide) plain_strategy)
    [("strategy", longFive 1)] ?_ [longFive 1] ⟨by decide, ?_, ?_⟩ ?_).mpr ?_
  · intro call hcall side
    rw [List.mem_singleton.mp hcall]
    cases side <;> decide
  · intro pos hpos
    rw [List.mem_singleton.mp hpos]
    exact ⟨_, rfl⟩
  · intro pos hpos side
    rw [List.mem_singleton.mp hpos]
    cases side <;> rfl
  · intro t contract ht side
    rcases hlisted t contract ht with ⟨rfl, hticker⟩ | ⟨rfl, hticker⟩
    · rw [hticker]
      cases side <;> decide +kernel
    · rw [hticker]
      cases side <;> decide +kernel
  · intro name hname
    rw [List.mem_singleton.mp hname]
    refine amountAt_of_kept fun ticker pos hpos t => ?_
    obtain ⟨hkey, rfl⟩ := find?_fiveStored hpos
    obtain rfl := getKey_inj hkey
    constructor
    · rintro rfl
      exact ⟨_, rfl, rfl⟩
    · rintro ⟨contract, ht, hticker⟩
      rcases hlisted t contract ht with ⟨rfl, -⟩ | ⟨rfl, hother⟩
      · rfl
      · rw [hticker] at hother
        exact absurd hother (by decide)

def swappedTable : ContractTable := .ofList [ticker002, ticker001]

def swappedStored : PositionStore :=
  persisted (.ofList [ticker001, ticker002]) [("strategy", longFive 1)]

/-- Two rows change places, and five lots of the one ticker become five of the other. -/
theorem swappedTable_mixes_tickers :
    Covers swappedTable swappedStored ["strategy"] [longFive 2, longFive 1] ∧
      ¬ Survives swappedTable starRedis (fun _ _ => 0) ["strategy"] [longFive 2, longFive 1]
        swappedStored := by
  refine ⟨fun t contract ht side => ?_, fun h => ?_⟩
  · rcases t with _ | _ | _ | t
    · cases ht
    · cases Option.some.inj ht
      cases side <;> decide +kernel
    · cases Option.some.inj ht
      cases side <;> decide +kernel
    · cases ht
  · have hrun : ((init ["strategy"] swappedStored).onPositions swappedTable starRedis
        (fun _ _ => 0) ["strategy"] [longFive 2, longFive 1]).map
        (fun r => r.2.holdings "strategy" 2 .long) = some 0 := by
      decide +kernel
    have hstored : heldUnder swappedStored "strategy" "ticker001" .long = 5 := by decide +kernel
    obtain ⟨s, hstart, hsame⟩ := h
    rw [hstart, Option.map_some] at hrun
    have hlong := hsame "strategy" List.mem_cons_self 2 _ rfl .long
    rw [Option.some.inj hrun] at hlong
    exact absurd (hlong.trans hstored) (by decide)

end Startup

end FlareTrader
