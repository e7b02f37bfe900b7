import HcsCoin.Chain
import HcsCoin.Consensus.Params

/-!
# Proof of work

Difficulty adjustment and the proof-of-work check of `pow.cpp`.  The retarget
product is taken modulo `2 ^ 256` before it is divided and capped.  It is exact
as long as it fits 256 bits; with the raised limit of this chain it need not.
-/

namespace HcsCoin

open Foundation ArithUint256

def limitTimespan (params : Params) (nActualTimespan : Int) : Int :=
  let low := if nActualTimespan < (params.nPowTargetTimespan / 4 : Nat)
    then ((params.nPowTargetTimespan / 4 : Nat) : Int) else nActualTimespan
  if low > (params.nPowTargetTimespan * 4 : Nat) then ((params.nPowTargetTimespan * 4 : Nat) : Int)
  else low

/-- `bn *= timespan; bn /= nPowTargetTimespan; if (bn > powLimit) bn = powLimit`.
The multiplication is the one by a 32-bit word. -/
def scaleTarget (params : Params) (bn : ArithUint256) (timespan : Int) : Option ArithUint256 := do
  let bnPowLimit := uintToArith256 params.powLimit
  let bn ← (bn.mulWord (UInt32.ofInt timespan)).div
    (ofUInt64 (UInt64.ofNat params.nPowTargetTimespan))
  some (if bn.compareTo bnPowLimit = .gt then bnPowLimit else bn)

/-- The `nBits` that is scaled: the last block's, or with BIP94 that of the first
block of the period. -/
def retargetBits (find : BlockHeap) (pindexLast : CBlockIndex) (params : Params) :
    Option UInt32 :=
  if params.enforceBIP94 then do
    let nHeightFirst : Int := pindexLast.nHeight - ((params.difficultyAdjustmentInterval : Int) - 1)
    let pindexFirst ← pindexLast.getAncestor find nHeightFirst
    pindexFirst.map CBlockIndex.nBits
  else some pindexLast.nBits

def calculateNextWorkRequired (find : BlockHeap) (pindexLast : CBlockIndex)
    (nFirstBlockTime : Int) (params : Params) : Option UInt32 :=
  if params.fPowNoRetargeting then some pindexLast.nBits
  else do
    let nActualTimespan := limitTimespan params (pindexLast.getBlockTime - nFirstBlockTime)
    let bits ← retargetBits find pindexLast params
    let bnNew ← scaleTarget params (setCompact bits).value nActualTimespan
    some (bnNew.getCompact false)

/-- The loop back to the last block without the special minimum difficulty.  It
stops at a multiple of the interval, so `nHeight + 1` rounds are enough. -/
def lastNonSpecialBits (find : BlockHeap) (params : Params) (nProofOfWorkLimit : UInt32) :
    Nat → CBlockIndex → Option UInt32
  | 0, _ => none
  | rounds + 1, pindex =>
    if pindex.pprev.isSome && pindex.nHeight % params.difficultyAdjustmentInterval != 0 &&
        pindex.nBits == nProofOfWorkLimit then do
      let prev ← pindex.prev? find
      lastNonSpecialBits find params nProofOfWorkLimit rounds prev
    else some pindex.nBits

def getNextWorkRequired (find : BlockHeap) (pindexLast : CBlockIndex) (pblock : CBlockHeader)
    (params : Params) : Option UInt32 :=
  let nProofOfWorkLimit := (uintToArith256 params.powLimit).getCompact false
  if (pindexLast.nHeight + 1) % params.difficultyAdjustmentInterval ≠ 0 then
    if params.fPowAllowMinDifficultyBlocks then
      if pblock.getBlockTime > pindexLast.getBlockTime + params.nPowTargetSpacing * 2 then
        some nProofOfWorkLimit
      else
        lastNonSpecialBits find params nProofOfWorkLimit (pindexLast.nHeight + 1) pindexLast
    else some pindexLast.nBits
  else do
    let nHeightFirst : Int := pindexLast.nHeight - ((params.difficultyAdjustmentInterval : Int) - 1)
    if nHeightFirst ≥ 0 then
      let pindexFirst ← (← pindexLast.getAncestor find nHeightFirst)
      calculateNextWorkRequired find pindexLast pindexFirst.getBlockTime params
    else none

def permittedDifficultyTransition (params : Params) (height : Nat) (oldNbits newNbits : UInt32) :
    Option Bool :=
  if params.fPowAllowMinDifficultyBlocks then some true
  else if height % params.difficultyAdjustmentInterval = 0 then do
    let observed := (setCompact newNbits).value
    let old := (setCompact oldNbits).value
    let largest ← scaleTarget params old (params.nPowTargetTimespan * 4 : Nat)
    let maximum := (setCompact (largest.getCompact false)).value
    if maximum.compareTo observed = .lt then some false
    else do
      let smallest ← scaleTarget params old (params.nPowTargetTimespan / 4 : Nat)
      let minimum := (setCompact (smallest.getCompact false)).value
      if minimum.compareTo observed = .gt then some false else some true
  else some (oldNbits == newNbits)

/-- `CheckProofOfWorkImpl`, which `CheckProofOfWork` is outside fuzzing. -/
def checkProofOfWork (hash : Uint256) (nBits : UInt32) (params : Params) : Bool :=
  match deriveTarget nBits params.powLimit with
  | none => false
  | some bnTarget => (uintToArith256 hash).compareTo bnTarget != .gt

theorem checkProofOfWork_iff (hash : Uint256) (nBits : UInt32) (params : Params) :
    checkProofOfWork hash nBits params = true ↔
      ∃ target, deriveTarget nBits params.powLimit = some target ∧ hash.toNat ≤ target.toNat := by
  rw [checkProofOfWork]
  cases deriveTarget nBits params.powLimit with
  | none => simp
  | some target => simp [BaseUint.compareTo_eq, toNat_uintToArith256, Nat.compare_eq_gt]

/-! ## Arithmetic of the retarget -/

def clampTimespan (timespan : Nat) (actual : Int) : Nat :=
  (max ((timespan / 4 : Nat) : Int) (min actual (timespan * 4 : Nat))).toNat

def exactTarget (params : Params) (base : Nat) (actual : Int) : Nat :=
  min params.powLimit.toNat
    (base * clampTimespan params.nPowTargetTimespan actual / params.nPowTargetTimespan)

def ArithUint256.ofNat (n : Nat) : ArithUint256 := uintToArith256 (.ofHex n)

theorem ArithUint256.toNat_ofNat {n : Nat} (h : n < 2 ^ 256) : (ofNat n).toNat = n := by
  rw [ofNat, toNat_uintToArith256]
  exact BaseBlob.toNat_ofHex h

theorem limitTimespan_eq (params : Params) (actual : Int) :
    limitTimespan params actual = clampTimespan params.nPowTargetTimespan actual := by
  simp only [limitTimespan, clampTimespan]
  split <;> split <;> omega

theorem clampTimespan_bounds (timespan : Nat) (actual : Int) :
    timespan / 4 ≤ clampTimespan timespan actual ∧
      clampTimespan timespan actual ≤ timespan * 4 := by
  simp only [clampTimespan]
  omega

/-- Timespans for which the word multiplication and the division see the numbers
they are meant to. -/
structure Params.SaneTimespan (params : Params) : Prop where
  pos : 0 < params.nPowTargetTimespan
  fits : params.nPowTargetTimespan * 4 < 2 ^ 32

theorem saneTimespan (net : Network) : (consensusParams net).SaneTimespan := by
  cases net <;> constructor <;> decide

theorem scaleTarget_spec {params : Params} (hsane : params.SaneTimespan) (bn : ArithUint256)
    {timespan : Nat} (hspan : timespan ≤ params.nPowTargetTimespan * 4) :
    ∃ t, scaleTarget params bn timespan = some t ∧
      t.toNat = min params.powLimit.toNat
        (bn.toNat * timespan % 2 ^ 256 / params.nPowTargetTimespan) := by
  have hpos := hsane.pos
  have hfits := hsane.fits
  have hword : (UInt32.ofInt timespan).toNat = timespan := by
    rw [UInt32.ofInt, UInt32.toNat_ofNat']
    omega
  have hdivisor : (ofUInt64 (UInt64.ofNat params.nPowTargetTimespan)).toNat =
      params.nPowTargetTimespan := by
    rw [toNat_ofUInt64, UInt64.toNat_ofNat']
    omega
  obtain ⟨q, hq, hvalue⟩ := BaseUint.div_of_pos (bn.mulWord (UInt32.ofInt timespan))
    (b := ofUInt64 (UInt64.ofNat params.nPowTargetTimespan)) (by omega)
  rw [hdivisor, BaseUint.toNat_mulWord, hword] at hvalue
  simp only [scaleTarget, hq, some_bind, Option.some.injEq,
    exists_eq_left', BaseUint.compareTo_eq, Nat.compare_eq_gt, toNat_uintToArith256]
  rw [← hvalue]
  split
  next hgt => rw [toNat_uintToArith256, min_eq_left hgt.le]
  next hle => rw [min_eq_right (Nat.not_lt.mp hle)]

end HcsCoin
