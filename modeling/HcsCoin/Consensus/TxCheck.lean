import HcsCoin.Primitives.Transaction
import HcsCoin.Script.Script
import Mathlib.Data.UInt

/-!
# Context-free transaction checks

`CheckTransaction` of `consensus/tx_check.cpp` and `GetLegacySigOpCount` of
`consensus/tx_verify.cpp`.  A failed check carries the reject reason; its result
is always `TX_CONSENSUS` and its debug message is empty.
-/

namespace HcsCoin

open Foundation CTransaction

def WITNESS_SCALE_FACTOR : Nat := 4
def MAX_BLOCK_WEIGHT : Nat := 4000000
def MAX_BLOCK_SIGOPS_COST : Nat := 80000

def COIN : Int := 100000000
def MAX_MONEY : Int := 21000000 * COIN

def moneyRange (nValue : Int) : Bool := nValue ≥ 0 ∧ nValue ≤ MAX_MONEY

theorem moneyRange_iff (nValue : Int) : moneyRange nValue = true ↔ 0 ≤ nValue ∧ nValue ≤ MAX_MONEY :=
  decide_eq_true_iff

def oversize (stripped : Bytes) : Bool := stripped.length * WITNESS_SCALE_FACTOR > MAX_BLOCK_WEIGHT

theorem oversize_eq_false_iff (stripped : Bytes) :
    oversize stripped = false ↔ stripped.length ≤ 1000000 := by
  rw [oversize, decide_eq_false_iff_not, WITNESS_SCALE_FACTOR, MAX_BLOCK_WEIGHT]
  omega

def checkOutputs (nValueOut : Int) : List CTxOut → Except String Unit
  | [] => .ok ()
  | txout :: rest =>
    if txout.nValue.toInt < 0 then .error "bad-txns-vout-negative"
    else if txout.nValue.toInt > MAX_MONEY then .error "bad-txns-vout-toolarge"
    else if moneyRange (nValueOut + txout.nValue.toInt) then
      checkOutputs (nValueOut + txout.nValue.toInt) rest
    else .error "bad-txns-txouttotal-toolarge"

def checkCoinBaseOrPrevouts (tx : CTransaction) : Except String Unit :=
  if tx.isCoinBase then
    if tx.vin.head?.any fun txin => txin.scriptSig.length < 2 ∨ txin.scriptSig.length > 100 then
      .error "bad-cb-length"
    else .ok ()
  else if tx.vin.any fun txin => txin.prevout.isNull then .error "bad-txns-prevout-null"
  else .ok ()

def checkTransaction (tx : CTransaction) : Except String Unit := do
  if tx.vin.isEmpty then .error "bad-txns-vin-empty"
  else if tx.vout.isEmpty then .error "bad-txns-vout-empty"
  else if oversize (serializeTransaction false tx) then .error "bad-txns-oversize"
  else
    checkOutputs 0 tx.vout
    if (tx.vin.map CTxIn.prevout).Nodup then checkCoinBaseOrPrevouts tx
    else .error "bad-txns-inputs-duplicate"

def getLegacySigOpCount (tx : CTransaction) : UInt32 :=
  (tx.vin.map fun txin => CScript.getSigOpCount txin.scriptSig false).sum +
    (tx.vout.map fun txout => CScript.getSigOpCount txout.scriptPubKey false).sum

theorem checkTransaction_ok {tx : CTransaction} (h : checkTransaction tx = .ok ()) :
    tx.vin ≠ [] ∧ tx.vout ≠ [] ∧ oversize (serializeTransaction false tx) = false := by
  simp only [checkTransaction] at h
  split at h
  case isTrue => exact absurd h nofun
  case isFalse hvin =>
    split at h
    case isTrue => exact absurd h nofun
    case isFalse hvout =>
      split at h
      case isTrue => exact absurd h nofun
      case isFalse hsize =>
        exact ⟨fun hnil => hvin (List.isEmpty_iff.mpr hnil),
          fun hnil => hvout (List.isEmpty_iff.mpr hnil), Bool.eq_false_iff.mpr hsize⟩

theorem checkTransaction_ok_sizes {tx : CTransaction} (h : checkTransaction tx = .ok ()) :
    tx.vin.length ≤ 1000000 ∧ tx.vout.length ≤ 1000000 := by
  have hsize := (oversize_eq_false_iff _).mp (checkTransaction_ok h).2.2
  obtain ⟨hvin, hvout⟩ := length_le_serializeTransaction tx
  exact ⟨hvin.trans hsize, hvout.trans hsize⟩

theorem checkTransaction_ok_amounts {tx : CTransaction} (h : checkTransaction tx = .ok ()) :
    checkOutputs 0 tx.vout = .ok () ∧ (tx.vin.map CTxIn.prevout).Nodup := by
  obtain ⟨hvin, hvout, hsize⟩ := checkTransaction_ok h
  rw [checkTransaction, if_neg (mt List.isEmpty_iff.mp hvin),
    if_neg (mt List.isEmpty_iff.mp hvout), if_neg (by simp [hsize])] at h
  cases houtputs : checkOutputs 0 tx.vout with
  | error e =>
    rw [houtputs] at h
    cases h
  | ok =>
    rw [houtputs] at h
    refine ⟨rfl, ?_⟩
    by_contra hdup
    change (if (tx.vin.map CTxIn.prevout).Nodup then checkCoinBaseOrPrevouts tx
      else .error "bad-txns-inputs-duplicate") = _ at h
    rw [if_neg hdup] at h
    cases h

/-! ## Witness data plays no part -/

variable (tx : CTransaction)

theorem isCoinBase_strip : tx.strip.isCoinBase = tx.isCoinBase := by
  obtain ⟨vin, vout, version, nLockTime⟩ := tx
  rcases vin with _ | ⟨first, _ | ⟨second, rest⟩⟩ <;> simp [strip, isCoinBase]

theorem getLegacySigOpCount_strip : getLegacySigOpCount tx.strip = getLegacySigOpCount tx := by
  simp [getLegacySigOpCount, strip, Function.comp_def]

theorem checkTransaction_strip : checkTransaction tx.strip = checkTransaction tx := by
  have hprevouts : checkCoinBaseOrPrevouts tx.strip = checkCoinBaseOrPrevouts tx := by
    rw [checkCoinBaseOrPrevouts, checkCoinBaseOrPrevouts, isCoinBase_strip]
    simp [strip, Option.any_map, Function.comp_def]
  rw [checkTransaction, checkTransaction, hprevouts, serializeTransaction_strip]
  simp [strip, Function.comp_def]

theorem getHash_strip : tx.strip.getHash = tx.getHash := by
  rw [getHash, getHash, serializeTransaction_strip]

theorem checkOutputs_ok {nValueOut : Int} {vout : List CTxOut} (hstart : moneyRange nValueOut)
    (h : checkOutputs nValueOut vout = .ok ()) :
    (∀ txout ∈ vout, moneyRange txout.nValue.toInt) ∧
      moneyRange (nValueOut + (vout.map fun txout => txout.nValue.toInt).sum) := by
  induction vout generalizing nValueOut with
  | nil => exact ⟨nofun, by simpa using hstart⟩
  | cons txout rest ih =>
    simp only [checkOutputs] at h
    split at h
    case isTrue => exact absurd h nofun
    case isFalse hneg =>
      split at h
      case isTrue => exact absurd h nofun
      case isFalse hlarge =>
        split at h
        case isFalse => exact absurd h nofun
        case isTrue htotal =>
          obtain ⟨hrest, hsum⟩ := ih htotal h
          have hfirst : moneyRange txout.nValue.toInt := by
            simp only [moneyRange, decide_eq_true_eq]
            omega
          refine ⟨List.forall_mem_cons.mpr ⟨hfirst, hrest⟩, ?_⟩
          rw [List.map_cons, List.sum_cons, ← Int.add_assoc]
          exact hsum

end HcsCoin
