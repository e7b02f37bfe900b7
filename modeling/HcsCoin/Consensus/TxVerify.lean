import HcsCoin.Coins.View

/-!
# Transaction checks against the coins

`CheckTxInputs` of `consensus/tx_verify.cpp`.  Amounts are added in 64 bits, as
the source adds them; that no sum wraps is a theorem about transactions that
pass.
-/

namespace HcsCoin

open Foundation CCoinsViewCache CoinsM CoinsStack Check

inductive TxValidationResult where
  | consensus
  | missingInputs
  | prematureSpend
  deriving DecidableEq

structure TxInvalid where
  result : TxValidationResult
  rejectReason : String
  debugMessage : String
  deriving DecidableEq

abbrev TxCheck := Check CoinsStack TxInvalid

def COINBASE_MATURITY : Int := 100

/-- At least two decimals are kept. -/
def formatMoney (n : Int64) : String :=
  let quotient := n.toInt.natAbs / COIN.natAbs
  let remainder := n.toInt.natAbs % COIN.natAbs
  let digits := (toString remainder).toList
  let decimals := List.replicate (8 - digits.length) '0' ++ digits
  let trimmed := ((decimals.drop 2).reverse.dropWhile (· == '0')).reverse
  (if n < 0 then "-" else "") ++ toString quotient ++ "." ++ String.ofList (decimals.take 2 ++ trimmed)

example : formatMoney 123450000 = "1.2345" ∧ formatMoney (-5000000000) = "-50.00" := by
  decide

def valueOutLoop (nValueOut : Int64) : List CTxOut → Option Int64
  | [] => some nValueOut
  | txout :: vout =>
    if !moneyRange txout.nValue.toInt || !moneyRange (nValueOut + txout.nValue).toInt then none
    else valueOutLoop (nValueOut + txout.nValue) vout

def getValueOut (tx : CTransaction) : Option Int64 := valueOutLoop 0 tx.vout

section Checks

variable (usage : Coin → Nat)

def haveAll : List CTxIn → CoinsM Bool
  | [] => pure true
  | txin :: vin => do
    if ← haveCoin usage txin.prevout then haveAll vin else pure false

def haveInputs (tx : CTransaction) : CoinsM Bool :=
  if tx.isCoinBase then pure true else haveAll usage tx.vin

def sumInputs (nSpendHeight : Nat) : List CTxIn → Int64 → TxCheck Int64
  | [], nValueIn => pure nValueIn
  | txin :: vin, nValueIn => do
    let coin ← accessCoin usage txin.prevout
    (Action.assert (!coin.isSpent) : CoinsM Unit)
    let depth : Int := nSpendHeight - coin.nHeight
    rejectIf (coin.fCoinBase && decide (depth < COINBASE_MATURITY))
      ⟨.prematureSpend, "bad-txns-premature-spend-of-coinbase",
        "tried to spend coinbase at depth " ++ toString depth⟩
    let nValueIn := nValueIn + coin.out.nValue
    rejectIf (!moneyRange coin.out.nValue.toInt || !moneyRange nValueIn.toInt)
      ⟨.consensus, "bad-txns-inputvalues-outofrange", ""⟩
    sumInputs nSpendHeight vin nValueIn

def checkTxInputs (tx : CTransaction) (nSpendHeight : Nat) : TxCheck Int64 := do
  let available ← haveInputs usage tx
  rejectIf (!available)
    ⟨.missingInputs, "bad-txns-inputs-missingorspent", "CheckTxInputs: inputs missing/spent"⟩
  let nValueIn ← sumInputs usage nSpendHeight tx.vin 0
  let valueOut ← (Action.ofOption (getValueOut tx) : CoinsM Int64)
  rejectIf (decide (nValueIn < valueOut))
    ⟨.consensus, "bad-txns-in-belowout",
      "value in (" ++ formatMoney nValueIn ++ ") < value out (" ++ formatMoney valueOut ++ ")"⟩
  let txfee := nValueIn - valueOut
  rejectIf (!moneyRange txfee.toInt) ⟨.consensus, "bad-txns-fee-outofrange", ""⟩
  pure txfee

end Checks

/-! ## Sums of amounts -/

def Coin.amount (coin : Coin) : Int := coin.out.nValue.toInt

def CTxOut.amount (txout : CTxOut) : Int := txout.nValue.toInt

variable {a b total : Int64} {vout : List CTxOut} {tx : CTransaction} {vin : List CTxIn}
  {nSpendHeight : Nat}

theorem toInt_add_of_moneyRange (ha : moneyRange a.toInt = true) (hb : moneyRange b.toInt = true) :
    (a + b).toInt = a.toInt + b.toInt := by
  rw [moneyRange_iff, MAX_MONEY, COIN] at ha hb
  rw [Int64.toInt_add]
  exact Int.bmod_eq_of_le (by omega) (by omega)

theorem toInt_sub_of_moneyRange (ha : moneyRange a.toInt = true) (hb : moneyRange b.toInt = true) :
    (a - b).toInt = a.toInt - b.toInt := by
  rw [moneyRange_iff, MAX_MONEY, COIN] at ha hb
  rw [Int64.toInt_sub]
  exact Int.bmod_eq_of_le (by omega) (by omega)

theorem valueOutLoop_eq_some {nValueOut : Int64} (hstart : moneyRange nValueOut.toInt = true)
    (h : valueOutLoop nValueOut vout = some total) :
    total.toInt = nValueOut.toInt + (vout.map CTxOut.amount).sum ∧
      moneyRange total.toInt = true := by
  induction vout generalizing nValueOut with
  | nil =>
    obtain rfl := Option.some.inj h
    exact ⟨by simp, hstart⟩
  | cons txout vout ih =>
    rw [valueOutLoop] at h
    split at h
    case isTrue => cases h
    case isFalse hrange =>
      simp only [Bool.or_eq_true, Bool.not_eq_true', not_or, Bool.not_eq_false] at hrange
      obtain ⟨htotal, hmoney⟩ := ih hrange.2 h
      refine ⟨?_, hmoney⟩
      rw [htotal, toInt_add_of_moneyRange hstart hrange.1, List.map_cons, List.sum_cons,
        ← Int.add_assoc]
      rfl

theorem getValueOut_eq_some {valueOut : Int64} (h : getValueOut tx = some valueOut) :
    valueOut.toInt = (tx.vout.map CTxOut.amount).sum ∧ moneyRange valueOut.toInt = true := by
  obtain ⟨htotal, hmoney⟩ := valueOutLoop_eq_some (by decide) h
  exact ⟨htotal.trans (Int.zero_add _), hmoney⟩

/-- Sums that never leave the money range, at whichever amount the addition stops. -/
def StaysInRange (amounts : List Int) : Prop :=
  ∀ k, moneyRange (amounts.take k).sum = true

theorem checkOutputs_staysInRange {nValueOut : Int} (hstart : moneyRange nValueOut = true)
    (h : checkOutputs nValueOut vout = .ok ()) (k : Nat) :
    moneyRange (nValueOut + ((vout.map CTxOut.amount).take k).sum) = true := by
  induction vout generalizing nValueOut k with
  | nil => simpa using hstart
  | cons txout vout ih =>
    rw [checkOutputs] at h
    split at h
    case isTrue => cases h
    case isFalse =>
      split at h
      case isTrue => cases h
      case isFalse =>
        split at h
        case isFalse => cases h
        case isTrue htotal =>
          cases k with
          | zero => simpa using hstart
          | succ k =>
            have hrest := ih htotal h k
            rw [Int.add_assoc] at hrest
            exact hrest

variable {usage : Coin → Nat} {stack stack' : CoinsStack}

theorem keeps_haveAll (vin : List CTxIn) : (haveAll usage vin).Keeps (Grows usage) := by
  induction vin with
  | nil => exact .pure true
  | cons txin vin ih =>
    refine (keeps_haveCoin txin.prevout).bind fun found => ?_
    cases found with
    | true => exact ih
    | false => exact .pure false

theorem holding_of_haveAll (hbelow : stack.below.Sane usage)
    (h : haveAll usage vin stack = some (true, stack')) :
    ∃ coins, stack'.Holding (vin.map CTxIn.prevout) coins := by
  induction vin generalizing stack with
  | nil => exact ⟨[], .nil⟩
  | cons txin vin ih =>
    obtain ⟨found, stack₁, hhave, hrest⟩ := Action.bind_iff.mp h
    cases found with
    | false => exact absurd (Action.pure_iff.mp hrest).1 (by decide)
    | true =>
      obtain ⟨entry, hentry, hunspent⟩ := entry_of_haveCoin hhave
      have hgrown := keeps_haveCoin txin.prevout stack true stack₁ hhave hbelow
      have hgrown' := keeps_haveAll vin stack₁ true stack' hrest hgrown.below
      obtain ⟨coins, hcoins⟩ := ih hgrown.below hrest
      exact ⟨entry.coin :: coins, .cons ⟨entry, hgrown'.keep hentry, rfl, hunspent⟩ hcoins⟩

theorem sumInputs_ok {coins : List Coin} {nValueIn : Int64}
    (hold : stack.Holding (vin.map CTxIn.prevout) coins)
    (hstart : moneyRange nValueIn.toInt = true)
    (h : sumInputs usage nSpendHeight vin nValueIn stack = some (.ok total, stack')) :
    stack' = stack ∧ total.toInt = nValueIn.toInt + (coins.map Coin.amount).sum ∧
      (∀ coin ∈ coins, moneyRange coin.amount = true) ∧
      ∀ k, moneyRange (nValueIn.toInt + ((coins.map Coin.amount).take k).sum) = true := by
  induction vin generalizing coins nValueIn with
  | nil =>
    obtain rfl := List.forall₂_nil_left_iff.mp hold
    obtain ⟨rfl, rfl⟩ := pure_iff.mp h
    exact ⟨rfl, by simp, nofun, fun k => by simpa using hstart⟩
  | cons txin vin ih =>
    obtain ⟨coin, coins, ⟨entry, hentry, rfl, hunspent⟩, hrest, rfl⟩ :=
      List.forall₂_cons_left_iff.mp hold
    obtain ⟨coin, stack₁, haccess, h⟩ := bind_iff.mp h
    rw [lift_iff, accessCoin_of_some hentry] at haccess
    obtain ⟨rfl, rfl⟩ := Prod.mk.inj (Option.some.inj haccess)
    obtain ⟨-, h⟩ := assert_bind_iff.mp h
    obtain ⟨-, h⟩ := rejectIf_bind_iff.mp h
    obtain ⟨hrange, h⟩ := rejectIf_bind_iff.mp h
    simp only [Bool.or_eq_false_iff, Bool.not_eq_false'] at hrange
    obtain ⟨hvalue, hmoney⟩ := hrange
    obtain ⟨rfl, htotal, hall, hsums⟩ := ih hrest hmoney h
    have hadd := toInt_add_of_moneyRange hstart hvalue
    refine ⟨rfl, ?_, List.forall_mem_cons.mpr ⟨hvalue, hall⟩, fun k => ?_⟩
    · rw [htotal, hadd, List.map_cons, List.sum_cons, ← Int.add_assoc]
      rfl
    · cases k with
      | zero => simpa using hstart
      | succ k =>
        have hsum := hsums k
        rw [hadd, Int.add_assoc] at hsum
        exact hsum

/-- What a transaction that passes consumes: coins at hand whose values stay in range while they
are added up, and cover the outputs and the fee. -/
theorem checkTxInputs_ok {txfee : Int64} (hbelow : stack.below.Sane usage)
    (hcoinbase : tx.isCoinBase = false)
    (h : checkTxInputs usage tx nSpendHeight stack = some (.ok txfee, stack')) :
    Grown usage stack stack' ∧ moneyRange txfee.toInt = true ∧
      ∃ coins, stack'.Holding (tx.vin.map CTxIn.prevout) coins ∧
        (∀ coin ∈ coins, moneyRange coin.amount = true) ∧
        StaysInRange (coins.map Coin.amount) ∧
        txfee.toInt = (coins.map Coin.amount).sum - (tx.vout.map CTxOut.amount).sum := by
  obtain ⟨available, stack₁, havail, hrun⟩ := bind_iff.mp h
  rw [lift_iff, haveInputs, if_neg (by simp [hcoinbase])] at havail
  obtain ⟨hfound, hrun₁⟩ := rejectIf_bind_iff.mp hrun
  rw [Bool.not_eq_false'] at hfound
  rw [hfound] at havail
  have hgrown := keeps_haveAll tx.vin stack true stack₁ havail hbelow
  obtain ⟨coins, hold⟩ := holding_of_haveAll hbelow havail
  obtain ⟨nValueIn, stack₂, hsum, hrun₂⟩ := bind_iff.mp hrun₁
  obtain ⟨rfl, htotal, hall, hsums⟩ := sumInputs_ok hold (by decide) hsum
  obtain ⟨valueOut, stack₃, hout, hrun₃⟩ := bind_iff.mp hrun₂
  obtain ⟨hsome, rfl⟩ := Action.ofOption_iff.mp (lift_iff.mp hout)
  obtain ⟨hvalueOut, hmoneyOut⟩ := getValueOut_eq_some hsome
  obtain ⟨-, hrun₄⟩ := rejectIf_bind_iff.mp hrun₃
  obtain ⟨hfee, hrun₅⟩ := rejectIf_bind_iff.mp hrun₄
  obtain ⟨rfl, rfl⟩ := pure_iff.mp hrun₅
  rw [Bool.not_eq_false'] at hfee
  have hzero : (0 : Int64).toInt = 0 := rfl
  simp only [hzero, Int.zero_add] at htotal hsums
  have hmoneyIn : moneyRange nValueIn.toInt = true := by
    have hlast := hsums coins.length
    rwa [List.take_of_length_le (by simp), ← htotal] at hlast
  refine ⟨hgrown, hfee, coins, hold, hall, hsums, ?_⟩
  rw [toInt_sub_of_moneyRange hmoneyIn hmoneyOut, htotal, hvalueOut]

end HcsCoin
