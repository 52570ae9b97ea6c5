import FlareTrader.PositionManager

/-! The store of the positions, a redis with one key for each strategy and ticker.
What the calculators report is queued first and written later. -/

namespace FlareTrader

abbrev PositionStore := SortedMap String Position (· < ·)

def Literal (text : String) : Prop := ∀ c ∈ text.toList, c ∉ "*?[\\".toList

/-- `keys` finds the keys that match a pattern, in an order of its own. For literal
text and a star these are the keys that begin with the text. -/
structure Redis where
  keys : PositionStore → String → List String
  keys_literal : ∀ db text, Literal text →
    (keys db (text ++ "*")).Perm (db.keys.filter fun key => text.toList.isPrefixOf key.toList)

namespace TraderDb

def getKey (strategy ticker : String) : String := "pos/" ++ strategy ++ "/" ++ ticker

def pattern (strategy : String) : String := "pos/" ++ strategy ++ "/*"

def setPosition (strategy ticker : String) (pos : Position) (db : PositionStore) : PositionStore :=
  db.insert (getKey strategy ticker) pos

def clearPositions (redis : Redis) (strategy : String) (db : PositionStore) : PositionStore :=
  (redis.keys db (pattern strategy)).foldl SortedMap.erase db

end TraderDb

structure PositionContext where
  strategy : String
  ticker : String
  pos : Position

namespace PositionContext

/-- The callback of the position manager. A position of no contract is dropped. -/
def ofCall (ct : ContractTable) (call : String × Position) : Option PositionContext :=
  (ct.getByIndex call.2.tickerId).map fun contract => ⟨call.1, contract.ticker, call.2⟩

def write (db : PositionStore) (ctx : PositionContext) : PositionStore :=
  TraderDb.setPosition ctx.strategy ctx.ticker ctx.pos db

def key (ctx : PositionContext) : String := TraderDb.getKey ctx.strategy ctx.ticker

end PositionContext

def persisted (ct : ContractTable) (calls : List (String × Position)) : PositionStore :=
  (calls.filterMap (PositionContext.ofCall ct)).foldl PositionContext.write .empty

namespace TraderDb

def folder (strategy : String) : String := "pos/" ++ strategy ++ "/"

def under (strategy key : String) : Bool := (folder strategy).toList.isPrefixOf key.toList

def records (db : PositionStore) (strategy : String) : List Position :=
  (db.entries.filter fun e => under strategy e.1).map Prod.snd

def amountAt (posList : List Position) (tickerId : ℕ) (side : Side) : ℤ :=
  (posList.map fun pos => if pos.tickerId = tickerId then (pos.side side).holdings else 0).sum

def heldUnder (db : PositionStore) (strategy ticker : String) (side : Side) : ℤ :=
  (db.find? (getKey strategy ticker)).elim 0 fun pos => (pos.side side).holdings

theorem toList_folder (strategy : String) :
    (folder strategy).toList = "pos/".toList ++ (strategy.toList ++ ['/']) := by
  simp [folder, String.toList_append]

theorem toList_getKey (strategy ticker : String) :
    (getKey strategy ticker).toList = (folder strategy).toList ++ ticker.toList := by
  simp [getKey, folder, String.toList_append]

theorem pattern_eq (strategy : String) : pattern strategy = folder strategy ++ "*" := by
  rw [pattern, folder, @String.append_assoc _ "/" "*"]
  rfl

@[simp] theorem under_getKey (strategy ticker : String) :
    under strategy (getKey strategy ticker) = true := by
  rw [under, List.isPrefixOf_iff_prefix, toList_getKey]
  exact List.prefix_append _ _

theorem exists_ticker {strategy key : String} (h : under strategy key = true) :
    ∃ ticker, key = getKey strategy ticker := by
  obtain ⟨rest, hrest⟩ := List.isPrefixOf_iff_prefix.mp h
  refine ⟨String.ofList rest, String.toList_inj.mp ?_⟩
  rw [toList_getKey, String.toList_ofList, hrest]

theorem getKey_inj {strategy ticker ticker' : String}
    (h : getKey strategy ticker = getKey strategy ticker') : ticker = ticker' := by
  have hlist := congrArg String.toList h
  rw [toList_getKey, toList_getKey] at hlist
  exact String.toList_inj.mp (List.append_cancel_left hlist)

theorem takeWhile_folder {strategy key : String} (hslash : '/' ∉ strategy.toList)
    (h : under strategy key = true) :
    (key.toList.drop 4).takeWhile (· ≠ '/') = strategy.toList := by
  obtain ⟨rest, hrest⟩ := List.isPrefixOf_iff_prefix.mp h
  have hdrop : key.toList.drop 4 = strategy.toList ++ '/' :: rest := by
    rw [← hrest, toList_folder]
    simp
  have hplain : ∀ c ∈ strategy.toList, decide (c ≠ '/') = true := by
    intro c hc
    exact decide_eq_true fun heq => hslash (heq ▸ hc)
  rw [hdrop, List.takeWhile_append_of_pos hplain]
  simp

theorem under_unique {strategy strategy' key : String} (hslash : '/' ∉ strategy.toList)
    (hslash' : '/' ∉ strategy'.toList) (h : under strategy key = true)
    (h' : under strategy' key = true) : strategy = strategy' := by
  apply String.toList_inj.mp
  rw [← takeWhile_folder hslash h, takeWhile_folder hslash' h']

theorem literal_folder {strategy : String} (h : Literal strategy) : Literal (folder strategy) := by
  intro c hc
  rw [toList_folder, List.mem_append, List.mem_append] at hc
  rcases hc with hc | hc | hc
  · fin_cases hc <;> decide
  · exact h c hc
  · rw [List.mem_singleton.mp hc]
    decide

theorem keys_pattern (redis : Redis) (db : PositionStore) {strategy : String}
    (h : Literal strategy) :
    (redis.keys db (pattern strategy)).Perm (db.keys.filter (under strategy)) := by
  rw [pattern_eq]
  exact redis.keys_literal db (folder strategy) (literal_folder h)

theorem find?_erase_of_notMem {keys : List String} {key : String} (h : key ∉ keys)
    (db : PositionStore) : (keys.foldl SortedMap.erase db).find? key = db.find? key := by
  induction keys generalizing db with
  | nil => rfl
  | cons key' keys ih =>
    rw [List.mem_cons, not_or] at h
    rw [List.foldl_cons, ih h.2, SortedMap.find?_erase_of_ne _ h.1]

theorem find?_clearPositions (redis : Redis) (db : PositionStore) {strategy key : String}
    (h : Literal strategy) (hkey : under strategy key = false) :
    (clearPositions redis strategy db).find? key = db.find? key := by
  refine find?_erase_of_notMem (fun hmem => ?_) db
  have hunder := (List.mem_filter.mp ((keys_pattern redis db h).mem_iff.mp hmem)).2
  rw [hkey] at hunder
  cases hunder

theorem exists_call {ct : ContractTable} {calls : List (String × Position)} {key : String}
    {pos : Position} (h : (persisted ct calls).find? key = some pos) :
    ∃ call ∈ calls, call.2 = pos := by
  have hwrite : ∀ (ctxs : List PositionContext) (db : PositionStore),
      (ctxs.foldl PositionContext.write db).find? key = some pos →
      db.find? key = some pos ∨ ∃ ctx ∈ ctxs, ctx.pos = pos := by
    intro ctxs
    induction ctxs with
    | nil => exact fun db hdb => Or.inl hdb
    | cons ctx ctxs ih =>
      intro db hdb
      rcases ih _ hdb with hfirst | hrest
      · rw [PositionContext.write, setPosition, SortedMap.find?_insert] at hfirst
        split_ifs at hfirst
        · exact Or.inr ⟨ctx, List.mem_cons_self, Option.some.inj hfirst⟩
        · exact Or.inl hfirst
      · obtain ⟨ctx', hctx', hpos⟩ := hrest
        exact Or.inr ⟨ctx', List.mem_cons_of_mem _ hctx', hpos⟩
  rcases hwrite _ _ h with hempty | hctx
  · cases hempty
  · obtain ⟨ctx, hmem, hpos⟩ := hctx
    obtain ⟨call, hcall, hof⟩ := List.mem_filterMap.mp hmem
    obtain ⟨contract, -, heq⟩ := Option.map_eq_some_iff.mp hof
    refine ⟨call, hcall, ?_⟩
    rw [← hpos, ← heq]

theorem mem_records {db : PositionStore} {strategy : String} {pos : Position}
    (h : pos ∈ records db strategy) : ∃ key, db.find? key = some pos := by
  obtain ⟨e, he, hpos⟩ := List.mem_map.mp h
  refine ⟨e.1, ?_⟩
  rw [← hpos]
  exact SortedMap.find?_eq_some.mpr (List.mem_of_mem_filter he)

def ownRecords (db : PositionStore) (own : String → Bool) : List Position :=
  (db.entries.filter fun e => own e.1).map Prod.snd

theorem ownRecords_eq (db : PositionStore) (own : String → Bool) :
    ownRecords db own = (db.keys.filter own).filterMap db.find? := by
  have hentries : ∀ l : List (String × Position), (∀ e ∈ l, db.find? e.1 = some e.2) →
      (l.filter fun e => own e.1).map Prod.snd =
        ((l.map Prod.fst).filter own).filterMap db.find? := by
    intro l
    induction l with
    | nil => exact fun _ => rfl
    | cons e l ih =>
      intro hl
      have hrest := ih fun e he => hl e (List.mem_cons_of_mem _ he)
      rw [List.map_cons, List.filter_cons, List.filter_cons]
      split_ifs
      · rw [List.map_cons, List.filterMap_cons, hl e List.mem_cons_self, hrest]
      · exact hrest
  exact hentries db.entries fun e he => SortedMap.find?_eq_some.mpr he

theorem amountAt_ownRecords (db : PositionStore) (own : String → Bool) (t : ℕ) (side : Side) :
    amountAt (ownRecords db own) t side = db.sum fun key pos =>
      if own key = true ∧ pos.tickerId = t then (pos.side side).holdings else 0 := by
  unfold amountAt ownRecords SortedMap.sum
  induction db.entries with
  | nil => rfl
  | cons e entries ih =>
    rw [List.filter_cons, List.map_cons, List.sum_cons]
    by_cases he : own e.1 = true
    · rw [if_pos he, List.map_cons, List.map_cons, List.sum_cons, ih]
      simp [he]
    · rw [if_neg he, ih]
      simp [he]

theorem amountAt_records (db : PositionStore) (strategy : String) (t : ℕ) (side : Side) :
    amountAt (records db strategy) t side = db.sum fun key pos =>
      if under strategy key = true ∧ pos.tickerId = t then (pos.side side).holdings else 0 :=
  amountAt_ownRecords db (under strategy) t side

theorem amountAt_perm {posList posList' : List Position} (h : posList.Perm posList') :
    amountAt posList = amountAt posList' := by
  funext t side
  exact (h.map _).sum_eq

theorem amountAt_nonneg {posList : List Position}
    (h : ∀ pos ∈ posList, ∀ side, 0 ≤ (pos.side side).holdings) (t : ℕ) (side : Side) :
    0 ≤ amountAt posList t side := by
  apply List.sum_nonneg
  intro amount hamount
  obtain ⟨pos, hpos, rfl⟩ := List.mem_map.mp hamount
  split_ifs
  · exact h pos hpos side
  · exact le_rfl

end TraderDb

end FlareTrader
