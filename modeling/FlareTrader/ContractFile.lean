import FlareTrader.StringUtils
import FlareTrader.TradeMsg

/-! The file of the contract table. A contract is a line of fourteen fields with commas
between them; a reader that drops empty fields can read it back only if no field is empty. -/

namespace FlareTrader

/-- Numbers are printed by one library and read by another. What is printed has neither
comma nor line break. -/
structure NumberFormat where
  formatInt : ℤ → List Char
  formatDouble : ℚ → List Char
  stoi : List Char → Option ℤ
  stod : List Char → Option ℚ
  stoi_formatInt : ∀ n, stoi (formatInt n) = some n
  stod_formatDouble : ∀ x, stod (formatDouble x) = some x
  plainInt : ∀ n, formatInt n ≠ [] ∧ ',' ∉ formatInt n ∧ '\n' ∉ formatInt n
  plainDouble : ∀ x, formatDouble x ≠ [] ∧ ',' ∉ formatDouble x ∧ '\n' ∉ formatDouble x

def ProductType.toText : ProductType → String
  | .kFutures => "Futures"
  | .kOptions => "Options"
  | .kStock => "Stock"
  | .kFund => "Fund"
  | .kUnknown => "Unknown"

def stringToProductType (product : String) : ProductType :=
  if product = "Futures" then .kFutures
  else if product = "Options" then .kOptions
  else if product = "Stock" then .kStock
  else if product = "Fund" then .kFund
  else .kUnknown

namespace ContractFile

def header : String :=
  "ticker,exchange,name,product_type,size,price_tick,long_margin_rate,short_margin_rate," ++
    "max_market_order_volume,min_market_order_volume,max_limit_order_volume," ++
    "min_limit_order_volume,delivery_year,delivery_month"

variable (fmt : NumberFormat)

def fieldsOf (contract : Contract) : List (List Char) :=
  [contract.ticker.toList, contract.exchange.toList, contract.name.toList,
    contract.productType.toText.toList, fmt.formatInt contract.size,
    fmt.formatDouble contract.priceTick, fmt.formatDouble contract.longMarginRate,
    fmt.formatDouble contract.shortMarginRate, fmt.formatInt contract.maxMarketOrderVolume,
    fmt.formatInt contract.minMarketOrderVolume, fmt.formatInt contract.maxLimitOrderVolume,
    fmt.formatInt contract.minLimitOrderVolume, fmt.formatInt contract.deliveryYear,
    fmt.formatInt contract.deliveryMonth]

def formatLine (contract : Contract) : List Char := [','].intercalate (fieldsOf fmt contract)

def storeContractList (contracts : List Contract) : List Char :=
  header.toList ++ '\n' :: contracts.flatMap fun contract => formatLine fmt contract ++ ['\n']

def getlines : List Char → List (List Char)
  | [] => []
  | c :: cs =>
    if c = '\n' then [] :: getlines cs
    else match getlines cs with
      | [] => [[c]]
      | line :: lines => (c :: line) :: lines

/-- A number that cannot be read is an exception, which nothing here catches. -/
def parseContract : List (List Char) → Option Contract
  | [ticker, exchange, name, productType, size, priceTick, longMarginRate, shortMarginRate,
      maxMarketOrderVolume, minMarketOrderVolume, maxLimitOrderVolume, minLimitOrderVolume,
      deliveryYear, deliveryMonth] => do
    some
      { ticker := String.ofList ticker
        exchange := String.ofList exchange
        name := String.ofList name
        productType := stringToProductType (String.ofList productType)
        size := ← fmt.stoi size
        priceTick := ← fmt.stod priceTick
        longMarginRate := ← fmt.stod longMarginRate
        shortMarginRate := ← fmt.stod shortMarginRate
        maxMarketOrderVolume := ← fmt.stoi maxMarketOrderVolume
        minMarketOrderVolume := ← fmt.stoi minMarketOrderVolume
        maxLimitOrderVolume := ← fmt.stoi maxLimitOrderVolume
        minLimitOrderVolume := ← fmt.stoi minLimitOrderVolume
        deliveryYear := ← fmt.stoi deliveryYear
        deliveryMonth := ← fmt.stoi deliveryMonth }
  | _ => none

def loadLines : List (List Char) → Option (Bool × List Contract)
  | [] => some (true, [])
  | line :: lines =>
    (stringSplit line [',']).bind fun fields =>
      if fields = [] ∨ fields.head?.bind List.head? = some '\n' then loadLines lines
      else if fields.length ≠ 14 then some (false, [])
      else
        (parseContract fmt fields).bind fun contract =>
          (loadLines lines).map fun r => (r.1, contract :: r.2)

def loadContractList (file : Option (List Char)) : Option (Bool × List Contract) :=
  match file with
  | none => some (false, [])
  | some text => loadLines fmt (getlines text).tail

def Plain (contract : Contract) : Prop :=
  ∀ text ∈ [contract.ticker, contract.exchange, contract.name],
    ',' ∉ text.toList ∧ '\n' ∉ text.toList

def Filled (contract : Contract) : Prop :=
  contract.ticker ≠ "" ∧ contract.exchange ≠ "" ∧ contract.name ≠ ""

instance (contract : Contract) : Decidable (Plain contract) :=
  inferInstanceAs (Decidable (∀ text ∈ [contract.ticker, contract.exchange, contract.name],
    ',' ∉ text.toList ∧ '\n' ∉ text.toList))

instance (contract : Contract) : Decidable (Filled contract) :=
  inferInstanceAs (Decidable (_ ∧ _))

/-- The index in the table is not stored. -/
def withoutId (contract : Contract) : Contract := { contract with tickerId := 0 }

def RoundTrips (contracts : List Contract) : Prop :=
  ∃ loaded, loadContractList fmt (some (storeContractList fmt contracts)) = some (true, loaded) ∧
    loaded.map withoutId = contracts.map withoutId

section Lines

variable {fmt} {contract : Contract}

theorem getlines_cons {line : List Char} (h : '\n' ∉ line) (rest : List Char) :
    getlines (line ++ '\n' :: rest) = line :: getlines rest := by
  induction line with
  | nil => rw [List.nil_append, getlines, if_pos rfl]
  | cons c cs ih =>
    rw [List.mem_cons, not_or] at h
    rw [List.cons_append, getlines, if_neg (Ne.symm h.1), ih h.2]

theorem getlines_flatMap {lines : List (List Char)} (h : ∀ line ∈ lines, '\n' ∉ line) :
    getlines (lines.flatMap fun line => line ++ ['\n']) = lines := by
  induction lines with
  | nil => rfl
  | cons line lines ih =>
    rw [List.flatMap_cons, List.append_assoc, List.singleton_append,
      getlines_cons (h line List.mem_cons_self), ih fun l hl => h l (List.mem_cons_of_mem _ hl)]

theorem stringToProductType_toText (product : ProductType) :
    stringToProductType product.toText = product := by
  cases product <;> rfl

theorem plain_fieldsOf (h : Plain contract) : ∀ field ∈ fieldsOf fmt contract,
    ',' ∉ field ∧ '\n' ∉ field := by
  have hproduct : ',' ∉ contract.productType.toText.toList ∧
      '\n' ∉ contract.productType.toText.toList := by
    cases contract.productType <;> decide
  have hints := fun n => (fmt.plainInt n).2
  have hdoubles := fun x => (fmt.plainDouble x).2
  have hticker := h contract.ticker (by simp)
  have hexchange := h contract.exchange (by simp)
  have hname := h contract.name (by simp)
  simp only [fieldsOf, List.forall_mem_cons]
  exact ⟨hticker, hexchange, hname, hproduct, hints _, hdoubles _, hdoubles _, hdoubles _, hints _,
    hints _, hints _, hints _, hints _, hints _, List.forall_mem_nil _⟩

theorem newline_notMem_formatLine (h : Plain contract) : '\n' ∉ formatLine fmt contract :=
  notMem_intercalate (by decide) fun field hfield => (plain_fieldsOf h field hfield).2

theorem split_formatLine (h : Plain contract) : stringSplit (formatLine fmt contract) [','] =
    some ((fieldsOf fmt contract).filter fun field => field ≠ []) :=
  stringSplit_intercalate fun field hfield => (plain_fieldsOf h field hfield).1

theorem getlines_store {contracts : List Contract} (h : ∀ contract ∈ contracts, Plain contract) :
    (getlines (storeContractList fmt contracts)).tail = contracts.map (formatLine fmt) := by
  have hheader : '\n' ∉ header.toList := by decide +kernel
  have hlines : ∀ line ∈ contracts.map (formatLine fmt), '\n' ∉ line := by
    intro line hline
    obtain ⟨contract, hcontract, rfl⟩ := List.mem_map.mp hline
    exact newline_notMem_formatLine (h contract hcontract)
  have hbody := getlines_flatMap hlines
  rw [List.flatMap_map] at hbody
  rw [storeContractList, getlines_cons hheader, List.tail_cons, hbody]

theorem fieldsOf_nonempty (contract : Contract) :
    ∀ field ∈ (fieldsOf fmt contract).drop 3, field ≠ [] := by
  have hproduct : contract.productType.toText.toList ≠ [] := by
    cases contract.productType <;> decide
  have hints := fun n => (fmt.plainInt n).1
  have hdoubles := fun x => (fmt.plainDouble x).1
  simp only [fieldsOf, List.drop_succ_cons, List.drop_zero, List.forall_mem_cons]
  exact ⟨hproduct, hints _, hdoubles _, hdoubles _, hdoubles _, hints _, hints _, hints _, hints _,
    hints _, hints _, List.forall_mem_nil _⟩

theorem filled_iff (contract : Contract) :
    Filled contract ↔ ∀ field ∈ fieldsOf fmt contract, field ≠ [] := by
  have hsplit : fieldsOf fmt contract = [contract.ticker.toList, contract.exchange.toList,
      contract.name.toList] ++ (fieldsOf fmt contract).drop 3 := rfl
  have hempty : ∀ text : String, text.toList ≠ [] ↔ text ≠ "" := fun text =>
    not_congr String.toList_eq_nil_iff
  rw [hsplit, List.forall_mem_append, and_iff_left (fieldsOf_nonempty contract)]
  simp only [List.forall_mem_cons, hempty, Filled]
  constructor
  · intro h
    exact ⟨h.1, h.2.1, h.2.2, List.forall_mem_nil _⟩
  · intro h
    exact ⟨h.1, h.2.1, h.2.2.1⟩

theorem parse_fieldsOf (contract : Contract) :
    parseContract fmt (fieldsOf fmt contract) = some (withoutId contract) := by
  simp only [fieldsOf, parseContract, fmt.stoi_formatInt, fmt.stod_formatDouble,
    String.ofList_toList, stringToProductType_toText]
  rfl

end Lines

section Load

variable {fmt}

/-- Loading goes on as long as no field is empty, and fails at the first contract that
has one. -/
theorem loadLines_formatLine {contracts : List Contract}
    (h : ∀ contract ∈ contracts, Plain contract) :
    loadLines fmt (contracts.map (formatLine fmt)) =
      some (decide (∀ contract ∈ contracts, Filled contract),
        (contracts.takeWhile fun contract => Filled contract).map withoutId) := by
  induction contracts with
  | nil => rfl
  | cons contract contracts ih =>
    have hplain := h contract List.mem_cons_self
    have hfields := @plain_fieldsOf fmt contract hplain
    have hrest := ih fun c hc => h c (List.mem_cons_of_mem _ hc)
    have hmem : ∀ field ∈ (fieldsOf fmt contract).drop 3,
        field ∈ (fieldsOf fmt contract).filter (fun field => field ≠ []) := by
      intro field hfield
      exact List.mem_filter.mpr ⟨List.mem_of_mem_drop hfield,
        decide_eq_true (fieldsOf_nonempty contract field hfield)⟩
    have hskip : ¬((fieldsOf fmt contract).filter (fun field => field ≠ []) = [] ∨
        ((fieldsOf fmt contract).filter fun field => field ≠ []).head?.bind List.head? =
          some '\n') := by
      refine not_or.mpr ⟨List.ne_nil_of_mem (hmem _ List.mem_cons_self), fun hhead => ?_⟩
      obtain ⟨field, hfirst, hc⟩ := Option.bind_eq_some_iff.mp hhead
      have hfield := List.mem_of_mem_filter (List.mem_of_head? hfirst)
      exact (hfields field hfield).2 (List.mem_of_head? hc)
    rw [List.map_cons, loadLines, split_formatLine hplain, Option.bind_some, if_neg hskip]
    by_cases hfilled : Filled contract
    · have hall : ∀ field ∈ fieldsOf fmt contract, decide (field ≠ []) = true := by
        intro field hfield
        exact decide_eq_true ((filled_iff contract).mp hfilled field hfield)
      have hlength : ¬(fieldsOf fmt contract).length ≠ 14 := not_not.mpr rfl
      rw [List.filter_eq_self.mpr hall, if_neg hlength, parse_fieldsOf, Option.bind_some, hrest]
      simp [hfilled]
    · have hshort : ((fieldsOf fmt contract).filter fun field => field ≠ []).length ≠ 14 := by
        have hlost : ∃ field ∈ fieldsOf fmt contract, ¬decide (field ≠ []) = true := by
          by_contra hnone
          refine hfilled ((@filled_iff fmt contract).mpr fun field hfield hempty => ?_)
          exact hnone ⟨field, hfield, by simp [hempty]⟩
        exact ne_of_lt (List.length_filter_lt_length_iff_exists.mpr hlost)
      rw [if_pos hshort]
      simp [hfilled]

/-- The file round-trips exactly when ticker, exchange and name of every contract have
some text. -/
theorem contractFile_roundTrips_iff (fmt : NumberFormat) (contracts : List Contract)
    (h : ∀ contract ∈ contracts, Plain contract) :
    RoundTrips fmt contracts ↔ ∀ contract ∈ contracts, Filled contract := by
  have hload : loadContractList fmt (some (storeContractList fmt contracts)) =
      some (decide (∀ contract ∈ contracts, Filled contract),
        (contracts.takeWhile fun contract => Filled contract).map withoutId) := by
    rw [loadContractList, getlines_store h, loadLines_formatLine h]
  constructor
  · intro hround
    obtain ⟨loaded, hsome, -⟩ := hround
    rw [hload] at hsome
    exact of_decide_eq_true (congrArg Prod.fst (Option.some.inj hsome))
  · intro hfilled
    have hall : contracts.takeWhile (fun contract => Filled contract) = contracts :=
      List.takeWhile_eq_self_iff.mpr fun c hc => decide_eq_true (hfilled c hc)
    rw [hall, decide_eq_true hfilled] at hload
    refine ⟨_, hload, ?_⟩
    rw [List.map_map]
    rfl

end Load

section Decimal

def decimalText (n : ℤ) : List Char :=
  if n < 0 then '-' :: Nat.toDigits 10 n.natAbs else Nat.toDigits 10 n.natAbs

def readDecimal : List Char → Option ℤ
  | [] => none
  | c :: cs =>
    if c = '-' then some (-Nat.ofDigitChars 10 cs 0) else some (Nat.ofDigitChars 10 (c :: cs) 0)

def fractionText (x : ℚ) : List Char :=
  if x.den = 1 then decimalText x.num ++ ".0".toList
  else decimalText x.num ++ '/' :: decimalText x.den

def readFraction (text : List Char) : Option ℚ :=
  (readDecimal (text.takeWhile fun c => c ≠ '.' ∧ c ≠ '/')).bind fun num =>
    match text.dropWhile fun c => c ≠ '.' ∧ c ≠ '/' with
    | '/' :: den => (readDecimal den).map fun den => num / den
    | _ => some num

theorem mem_decimalText {n : ℤ} {c : Char} (h : c ∈ decimalText n) : c = '-' ∨ c.isDigit = true := by
  unfold decimalText at h
  split_ifs at h
  · rcases List.mem_cons.mp h with hsign | hdigit
    · exact Or.inl hsign
    · exact Or.inr (Nat.isDigit_of_mem_toDigits (by decide) (by decide) hdigit)
  · exact Or.inr (Nat.isDigit_of_mem_toDigits (by decide) (by decide) h)

theorem notMem_decimalText (n : ℤ) {c : Char} (hsign : c ≠ '-') (hdigit : c.isDigit = false) :
    c ∉ decimalText n := by
  intro h
  rcases mem_decimalText h with heq | heq
  · exact hsign heq
  · rw [hdigit] at heq
    cases heq

theorem decimalText_ne_nil (n : ℤ) : decimalText n ≠ [] := by
  unfold decimalText
  split_ifs
  · exact List.cons_ne_nil _ _
  · exact Nat.toDigits_ne_nil

theorem readDecimal_decimalText (n : ℤ) : readDecimal (decimalText n) = some n := by
  unfold decimalText
  split_ifs with hn
  · have hvalue : (-(n.natAbs : ℤ)) = n := by omega
    rw [readDecimal, if_pos rfl, Nat.ofDigitChars_toDigits (by decide) (by decide), hvalue]
  · have hvalue : ((n.natAbs : ℕ) : ℤ) = n := by omega
    cases hdigits : Nat.toDigits 10 n.natAbs with
    | nil => exact absurd hdigits Nat.toDigits_ne_nil
    | cons c cs =>
      have hc : c ≠ '-' := by
        intro hsign
        have hd : '-' ∈ Nat.toDigits 10 n.natAbs := by
          rw [hdigits, hsign]
          exact List.mem_cons_self
        exact absurd (Nat.isDigit_of_mem_toDigits (by decide) (by decide) hd) (by decide)
      rw [readDecimal, if_neg hc, ← hdigits, Nat.ofDigitChars_toDigits (by decide) (by decide), hvalue]

theorem readFraction_fractionText (x : ℚ) : readFraction (fractionText x) = some x := by
  have hnum : ∀ c ∈ decimalText x.num, decide (c ≠ '.' ∧ c ≠ '/') = true := by
    intro c hc
    refine decide_eq_true ⟨fun hdot => ?_, fun hslash => ?_⟩
    · rw [hdot] at hc
      exact notMem_decimalText x.num (by decide) (by decide) hc
    · rw [hslash] at hc
      exact notMem_decimalText x.num (by decide) (by decide) hc
  unfold fractionText readFraction
  split_ifs with hden
  · rw [List.takeWhile_append_of_pos hnum, List.dropWhile_append_of_pos hnum]
    have hx : (x.num : ℚ) = x := by
      conv_rhs => rw [← Rat.num_div_den x, hden]
      simp
    simp [readDecimal_decimalText, hx]
  · rw [List.takeWhile_append_of_pos hnum, List.dropWhile_append_of_pos hnum]
    simp [readDecimal_decimalText, Rat.num_div_den]

theorem plain_fractionText (x : ℚ) {c : Char} (hsign : c ≠ '-') (hdigit : c.isDigit = false)
    (hmark : c ≠ '.' ∧ c ≠ '/' ∧ c ≠ '0') : c ∉ fractionText x := by
  have hnum := notMem_decimalText x.num hsign hdigit
  have hden := notMem_decimalText x.den hsign hdigit
  unfold fractionText
  split_ifs
  · rw [List.mem_append, not_or]
    exact ⟨hnum, by simp [hmark]⟩
  · rw [List.mem_append, List.mem_cons, not_or, not_or]
    exact ⟨hnum, hmark.2.1, hden⟩

def decimalFormat : NumberFormat where
  formatInt := decimalText
  formatDouble := fractionText
  stoi := readDecimal
  stod := readFraction
  stoi_formatInt := readDecimal_decimalText
  stod_formatDouble := readFraction_fractionText
  plainInt := fun n => ⟨decimalText_ne_nil n, notMem_decimalText n (by decide) (by decide),
    notMem_decimalText n (by decide) (by decide)⟩
  plainDouble := fun x => by
    refine ⟨?_, plain_fractionText x (by decide) (by decide) (by decide),
      plain_fractionText x (by decide) (by decide) (by decide)⟩
    unfold fractionText
    split_ifs
    · exact List.append_ne_nil_of_left_ne_nil (decimalText_ne_nil _) _
    · exact List.append_ne_nil_of_left_ne_nil (decimalText_ne_nil _) _

end Decimal

def named (ticker name : String) : Contract :=
  { ticker, exchange := "SHFE", name, size := 10, priceTick := 1, deliveryYear := 2020,
    deliveryMonth := 9 }

theorem contractFile_roundTrips_two :
    RoundTrips decimalFormat [named "cu2009" "copper", named "rb2009" "rebar"] :=
  (contractFile_roundTrips_iff decimalFormat _ (by decide +kernel)).mpr (by decide +kernel)

theorem unnamed_contract_is_not_loaded :
    (∀ contract ∈ [named "cu2009" "", named "rb2009" "rebar"], Plain contract) ∧
      ¬ RoundTrips decimalFormat [named "cu2009" "", named "rb2009" "rebar"] := by
  have hload : loadContractList decimalFormat
      (some (storeContractList decimalFormat [named "cu2009" "", named "rb2009" "rebar"])) =
        some (false, []) := by
    decide +kernel
  refine ⟨by decide +kernel, fun hround => ?_⟩
  obtain ⟨loaded, hsome, -⟩ := hround
  rw [hload] at hsome
  exact absurd (congrArg Prod.fst (Option.some.inj hsome)) Bool.false_ne_true

end ContractFile

end FlareTrader
