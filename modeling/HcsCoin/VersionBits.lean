import HcsCoin.Chain
import HcsCoin.Foundation.FiniteMap

/-!
# Version bits

The deployment state machine of BIP 9 as `versionbits.cpp` computes it: a state
belongs to a whole period, it is found by walking back to a period whose state is
known and replaying from there, and what is found on the way is cached by block.
The states are those of the recursion from genesis, period by period, whatever
was asked before and on whichever branch.
-/

namespace HcsCoin

open Foundation CBlockIndex

inductive ThresholdState where
  | defined
  | started
  | lockedIn
  | active
  | failed
  deriving DecidableEq

namespace BIP9Deployment

def ALWAYS_ACTIVE : Int := -1
def NEVER_ACTIVE : Int := -2

end BIP9Deployment

structure BIP9Deployment where
  bit : Nat := 28
  nStartTime : Int := BIP9Deployment.NEVER_ACTIVE
  nTimeout : Int := BIP9Deployment.NEVER_ACTIVE
  minActivationHeight : Int := 0
  period : UInt32 := 2016
  threshold : UInt32 := 1916

def VERSIONBITS_TOP_BITS : Int32 := 0x20000000
def VERSIONBITS_TOP_MASK : Int32 := (0xE0000000 : UInt32).toInt32

structure AbstractThresholdConditionChecker where
  condition : CBlockIndex → Bool
  beginTime : Int
  endTime : Int
  minActivationHeight : Int
  period : Int
  threshold : Int

def BIP9Deployment.mask (dep : BIP9Deployment) : UInt32 := 1 <<< UInt32.ofNat dep.bit

def versionBitsConditionChecker (dep : BIP9Deployment) : AbstractThresholdConditionChecker where
  condition pindex :=
    pindex.nVersion &&& VERSIONBITS_TOP_MASK == VERSIONBITS_TOP_BITS &&
      pindex.nVersion.toUInt32 &&& dep.mask != 0
  beginTime := dep.nStartTime
  endTime := dep.nTimeout
  minActivationHeight := dep.minActivationHeight
  period := dep.period.toInt32.toInt
  threshold := dep.threshold.toInt32.toInt

/-- The period is read as an `int`. -/
theorem one_le_period_iff (dep : BIP9Deployment) :
    1 ≤ (versionBitsConditionChecker dep).period ↔
      1 ≤ dep.period.toNat ∧ dep.period.toNat < 2 ^ 31 := by
  have hlt := dep.period.toNat_lt
  show 1 ≤ dep.period.toBitVec.toInt ↔ _
  rw [BitVec.toInt_eq_toNat_cond, UInt32.toNat_toBitVec]
  split <;> omega

/-- Keyed by the last block of the period before; the null pointer is `none`. -/
abbrev ThresholdConditionCache := FiniteMap (Option Uint256) ThresholdState

namespace AbstractThresholdConditionChecker

def pointerTo (pindex : Option CBlockIndex) : Option Uint256 := pindex.bind getBlockHash

section Functions

variable (find : BlockHeap) (checker : AbstractThresholdConditionChecker)

def countSignals : Nat → Option CBlockIndex → Option Nat
  | 0, _ => some 0
  | n + 1, pindexCount => do
    let b ← pindexCount
    let count ← countSignals n (b.prev? find)
    some (count + (checker.condition b).toNat)

def stateNext (state : ThresholdState) (pindexPrev : CBlockIndex) : Option ThresholdState :=
  match state with
  | .defined => do
    let time ← pindexPrev.getMedianTimePast find
    some (if time ≥ checker.beginTime then .started else .defined)
  | .started => do
    let count ← countSignals find checker checker.period.toNat (some pindexPrev)
    if (count : Int) ≥ checker.threshold then some .lockedIn
    else do
      let time ← pindexPrev.getMedianTimePast find
      some (if time ≥ checker.endTime then .failed else .started)
  | .lockedIn =>
    some (if (pindexPrev.nHeight : Int) + 1 ≥ checker.minActivationHeight then .active
      else .lockedIn)
  | .failed => some .failed
  | .active => some .active

/-- The last block of the period before that of the block after `pindexPrev`. -/
def periodParent (pindexPrev : CBlockIndex) : Option (Option CBlockIndex) :=
  if checker.period = 0 then none
  else pindexPrev.getAncestor find
    (pindexPrev.nHeight - ((pindexPrev.nHeight : Int) + 1).tmod checker.period)

/-- Walks back to a period whose state is known, and collects the others on the way. -/
def walkBack (cache : ThresholdConditionCache) :
    Nat → Option CBlockIndex → List CBlockIndex →
      Option (ThresholdState × ThresholdConditionCache × List CBlockIndex)
  | 0, _, _ => none
  | rounds + 1, pindexPrev, vToCompute =>
    match cache.lookup (pointerTo pindexPrev) with
    | some state => some (state, cache, vToCompute)
    | none =>
      match pindexPrev with
      | none => some (.defined, cache.insert none .defined, vToCompute)
      | some b => do
        let time ← b.getMedianTimePast find
        if time < checker.beginTime then
          some (.defined, cache.insert b.getBlockHash .defined, vToCompute)
        else do
          let parent ← b.getAncestor find (b.nHeight - checker.period)
          walkBack cache rounds parent (b :: vToCompute)

def replay : List CBlockIndex → ThresholdState → ThresholdConditionCache →
    Option (ThresholdState × ThresholdConditionCache)
  | [], state, cache => some (state, cache)
  | b :: vToCompute, state, cache => do
    let state ← stateNext find checker state b
    replay vToCompute state (cache.insert b.getBlockHash state)

def blocks (pindex : Option CBlockIndex) : Nat := pindex.elim 0 fun b => b.nHeight + 1

def stateOfPeriod (pindexPrev : Option CBlockIndex) (cache : ThresholdConditionCache) :
    Option (ThresholdState × ThresholdConditionCache) := do
  let walked ← walkBack find checker cache (blocks pindexPrev + 1) pindexPrev []
  replay find checker walked.2.2 walked.1 walked.2.1

def getStateFor (pindexPrev : Option CBlockIndex) (cache : ThresholdConditionCache) :
    Option (ThresholdState × ThresholdConditionCache) :=
  if checker.beginTime = BIP9Deployment.ALWAYS_ACTIVE then some (.active, cache)
  else if checker.beginTime = BIP9Deployment.NEVER_ACTIVE then some (.failed, cache)
  else
    match pindexPrev with
    | none => stateOfPeriod find checker none cache
    | some b => do
      let parent ← periodParent find checker b
      stateOfPeriod find checker parent cache

def sinceWalk (initialState : ThresholdState) :
    Nat → CBlockIndex → ThresholdConditionCache → Option (Nat × ThresholdConditionCache)
  | 0, _, _ => none
  | rounds + 1, pindexPrev, cache => do
    let previousPeriodParent ← pindexPrev.getAncestor find (pindexPrev.nHeight - checker.period)
    match previousPeriodParent with
    | none => some (pindexPrev.nHeight + 1, cache)
    | some parent => do
      let found ← getStateFor find checker (some parent) cache
      if found.1 = initialState then sinceWalk initialState rounds parent found.2
      else some (pindexPrev.nHeight + 1, found.2)

def getStateSinceHeightFor (pindexPrev : Option CBlockIndex) (cache : ThresholdConditionCache) :
    Option (Nat × ThresholdConditionCache) :=
  if checker.beginTime = BIP9Deployment.ALWAYS_ACTIVE ∨
      checker.beginTime = BIP9Deployment.NEVER_ACTIVE then some (0, cache)
  else do
    let found ← getStateFor find checker pindexPrev cache
    if found.1 = .defined then some (0, found.2)
    else do
      let b ← pindexPrev
      let aligned ← periodParent find checker b
      let parent ← aligned
      sinceWalk find checker found.1 (blocks (some parent)) parent found.2

end Functions

/-! ## The recursion from genesis -/

section Recursion

variable (checker : AbstractThresholdConditionChecker)

/-- The states of the periods of a chain, given by the median times past and the signals of its
blocks. -/
def periodState (mtp : Nat → Int) (signals : Nat → Bool) : Nat → ThresholdState
  | 0 => .defined
  | k + 1 =>
    match periodState mtp signals k with
    | .defined =>
      if checker.beginTime ≤ mtp ((k + 1) * checker.period.toNat - 1) then .started
      else .defined
    | .started =>
      if checker.threshold ≤
          (List.range' (k * checker.period.toNat) checker.period.toNat).countP signals then
        .lockedIn
      else if checker.endTime ≤ mtp ((k + 1) * checker.period.toNat - 1) then .failed
      else .started
    | .lockedIn =>
      if checker.minActivationHeight ≤ ((k + 1) * checker.period.toNat : Nat) then .active
      else .lockedIn
    | .active => .active
    | .failed => .failed

def deploymentState (mtp : Nat → Int) (signals : Nat → Bool) (k : Nat) : ThresholdState :=
  if checker.beginTime = BIP9Deployment.ALWAYS_ACTIVE then .active
  else if checker.beginTime = BIP9Deployment.NEVER_ACTIVE then .failed
  else periodState checker mtp signals k

variable {checker} {mtp mtp' : Nat → Int} {signals signals' : Nat → Bool} {k : Nat}
  {state : Nat → ThresholdState}

theorem periodState_congr (hperiod : 0 < checker.period.toNat)
    (hmtp : ∀ h < k * checker.period.toNat, mtp h = mtp' h)
    (hsignals : ∀ h < k * checker.period.toNat, signals h = signals' h) :
    periodState checker mtp signals k = periodState checker mtp' signals' k := by
  induction k with
  | zero => rfl
  | succ k ih =>
    have hle : k * checker.period.toNat ≤ (k + 1) * checker.period.toNat :=
      Nat.mul_le_mul_right _ (Nat.le_succ k)
    have hlast : (k + 1) * checker.period.toNat - 1 < (k + 1) * checker.period.toNat :=
      Nat.sub_one_lt (Nat.mul_pos (Nat.succ_pos k) hperiod).ne'
    have hcount : (List.range' (k * checker.period.toNat) checker.period.toNat).countP signals =
        (List.range' (k * checker.period.toNat) checker.period.toNat).countP signals' := by
      refine List.countP_congr fun h hmem => ?_
      rw [hsignals h]
      rw [List.mem_range'_1] at hmem
      rw [Nat.succ_mul]
      exact hmem.2
    rw [periodState, periodState, ih (fun h hlt => hmtp h (hlt.trans_le hle))
      (fun h hlt => hsignals h (hlt.trans_le hle)), hmtp _ hlast, hcount]

theorem periodState_eq_defined
    (hmtp : ∀ j < k, mtp ((j + 1) * checker.period.toNat - 1) < checker.beginTime) :
    periodState checker mtp signals k = .defined := by
  induction k with
  | zero => rfl
  | succ k ih =>
    rw [periodState, ih fun j hj => hmtp j (Nat.lt_succ_of_lt hj)]
    exact if_neg (not_le.mpr (hmtp k (Nat.lt_succ_self k)))

theorem periodState_add_of_final (h : periodState checker mtp signals k = .active ∨
    periodState checker mtp signals k = .failed) (n : Nat) :
    periodState checker mtp signals (k + n) = periodState checker mtp signals k := by
  induction n with
  | zero => rfl
  | succ n ih =>
    rw [← Nat.add_assoc, periodState, ih]
    obtain hstate | hstate := h <;> rw [hstate]

theorem periodState_eq_defined_of_le (h : periodState checker mtp signals k = .defined) {j : Nat}
    (hj : j ≤ k) : periodState checker mtp signals j = .defined := by
  induction k with
  | zero =>
    rw [Nat.le_zero.mp hj]
    rfl
  | succ k ih =>
    obtain rfl | hlt := hj.eq_or_lt
    · exact h
    · refine ih ?_ (Nat.le_of_lt_succ hlt)
      rw [periodState] at h
      split at h <;> first | assumption | (repeat' split at h) <;> cases h

def heldFrom (state : Nat → ThresholdState) (k : Nat) : Set Nat :=
  { first | first ≤ k ∧ ∀ j, first ≤ j → j ≤ k → state j = state k }

theorem isLeast_zero_heldFrom (h : ∀ j ≤ k, state j = state k) : IsLeast (heldFrom state k) 0 :=
  ⟨⟨Nat.zero_le k, fun j _ hj => h j hj⟩, fun _ _ => Nat.zero_le _⟩

theorem isLeast_heldFrom {first : Nat} (hfirst : first + 1 ≤ k)
    (h : ∀ j, first + 1 ≤ j → j ≤ k → state j = state k) (hbefore : state first ≠ state k) :
    IsLeast (heldFrom state k) (first + 1) := by
  refine ⟨⟨hfirst, h⟩, fun other hother => ?_⟩
  by_contra hlt
  exact hbefore (hother.2 first (by omega) (by omega))

end Recursion

/-! ## The chain of a block -/

section Chains

variable (find : BlockHeap) (checker : AbstractThresholdConditionChecker)

def mtpAt (tip : CBlockIndex) (h : Nat) : Int :=
  ((backBy find (tip.nHeight - h) tip).bind (getMedianTimePast find)).getD 0

def signalsAt (tip : CBlockIndex) (h : Nat) : Bool :=
  (backBy find (tip.nHeight - h) tip).any checker.condition

def stateAt (tip : CBlockIndex) (k : Nat) : ThresholdState :=
  periodState checker (mtpAt find tip) (signalsAt find checker tip) k

def boundary (tip : CBlockIndex) : Nat → Option CBlockIndex
  | 0 => none
  | k + 1 => backBy find (tip.nHeight + 1 - (k + 1) * checker.period.toNat) tip

def MedianTimesMonotone : Prop :=
  ∀ p b prev time prevTime, find p = some b → b.prev? find = some prev →
    b.getMedianTimePast find = some time → prev.getMedianTimePast find = some prevTime →
    prevTime ≤ time

end Chains

section Tree

variable {find : BlockHeap} {checker : AbstractThresholdConditionChecker} {tip b : CBlockIndex}
  {h k steps : Nat}

def Filed (find : BlockHeap) (b : CBlockIndex) : Prop := ∃ p, find p = some b

theorem Filed.exists_backBy (htree : Tree find) (htip : Filed find tip)
    (hsteps : steps ≤ tip.nHeight) :
    ∃ b, backBy find steps tip = some b ∧ b.nHeight = tip.nHeight - steps ∧ Filed find b := by
  obtain ⟨p, hp⟩ := htip
  obtain ⟨b, hback, hheight, -⟩ := (htree.linked p tip hp).exists_backBy htree.linked hsteps
  exact ⟨b, hback, hheight, exists_find_of_backBy ⟨p, hp⟩ hback⟩

theorem backBy_of_ancestor (hback : backBy find steps tip = some b)
    (hheight : b.nHeight = tip.nHeight - steps) (hsteps : steps ≤ tip.nHeight)
    (hle : h ≤ b.nHeight) : backBy find (tip.nHeight - h) tip = backBy find (b.nHeight - h) b := by
  rw [show tip.nHeight - h = steps + (b.nHeight - h) by omega, backBy_add, hback]
  rfl

theorem stateAt_of_ancestor (hperiod : 0 < checker.period.toNat)
    (hback : backBy find steps tip = some b) (hheight : b.nHeight = tip.nHeight - steps)
    (hsteps : steps ≤ tip.nHeight) (hk : k * checker.period.toNat ≤ b.nHeight + 1) :
    stateAt find checker tip k = stateAt find checker b k := by
  refine periodState_congr hperiod (fun h hlt => ?_) (fun h hlt => ?_)
  · rw [mtpAt, mtpAt, backBy_of_ancestor hback hheight hsteps (by omega)]
  · rw [signalsAt, signalsAt, backBy_of_ancestor hback hheight hsteps (by omega)]

theorem stateAt_boundary (hperiod : 0 < checker.period.toNat)
    (hk : (k + 1) * checker.period.toNat ≤ tip.nHeight + 1)
    (hb : boundary find checker tip (k + 1) = some b)
    (hheight : b.nHeight + 1 = (k + 1) * checker.period.toNat) :
    stateAt find checker tip (k + 1) = stateAt find checker b (k + 1) :=
  stateAt_of_ancestor hperiod hb (by omega) (by omega) hheight.ge

theorem mtpAt_eq {time : Int} (hback : backBy find (tip.nHeight - h) tip = some b)
    (htime : b.getMedianTimePast find = some time) : mtpAt find tip h = time := by
  rw [mtpAt, hback, Option.bind_some, htime]
  rfl

variable (htree : Tree find) (htip : Filed find tip)
include htree htip

theorem exists_boundary (hperiod : 0 < checker.period.toNat)
    (hk : (k + 1) * checker.period.toNat ≤ tip.nHeight + 1) :
    ∃ b, boundary find checker tip (k + 1) = some b ∧
      b.nHeight + 1 = (k + 1) * checker.period.toNat ∧ Filed find b ∧
      b.nHeight = tip.nHeight - (tip.nHeight + 1 - (k + 1) * checker.period.toNat) := by
  have hpos : 0 < (k + 1) * checker.period.toNat := Nat.mul_pos (Nat.succ_pos k) hperiod
  obtain ⟨b, hback, hheight, hfiled⟩ := htip.exists_backBy htree
    (show tip.nHeight + 1 - (k + 1) * checker.period.toNat ≤ tip.nHeight by omega)
  exact ⟨b, hback, by omega, hfiled, hheight⟩

theorem getAncestor_boundary (hperiod : 1 ≤ checker.period)
    (hk : (k + 1) * checker.period.toNat ≤ tip.nHeight + 1)
    (hb : boundary find checker tip (k + 1) = some b) :
    b.getAncestor find (b.nHeight - checker.period) = some (boundary find checker tip k) := by
  obtain ⟨b', hb', hheight, hfiled, hsteps⟩ := exists_boundary htree htip (by omega) hk
  obtain rfl := Option.some.inj (hb'.symm.trans hb)
  obtain ⟨p, hp⟩ := hfiled
  cases k with
  | zero =>
    rw [getAncestor, if_pos (by omega)]
    rfl
  | succ k =>
    obtain ⟨below, hbelow, hbelowHeight, -⟩ := exists_boundary htree htip (by omega)
      (show (k + 1) * checker.period.toNat ≤ tip.nHeight + 1 by
        rw [Nat.succ_mul] at hk
        omega)
    have hmul : (k + 1 + 1) * checker.period.toNat =
        (k + 1) * checker.period.toNat + checker.period.toNat := Nat.succ_mul _ _
    have hcast : (b'.nHeight : Int) - checker.period = (below.nHeight : Nat) := by omega
    rw [hcast, getAncestor_eq htree.linked (htree.linked p b' hp) (by omega), hbelow]
    rw [boundary] at hb' hbelow
    rw [← backBy_of_ancestor hb' hsteps (by omega) (by omega),
      show tip.nHeight - below.nHeight = tip.nHeight + 1 - (k + 1) * checker.period.toNat by omega,
      hbelow]
    rfl

theorem mtpAt_le_succ (hmedian : MedianTimesMonotone find) (hlt : h < tip.nHeight) :
    mtpAt find tip h ≤ mtpAt find tip (h + 1) := by
  obtain ⟨b, hb, hheight, ⟨p, hp⟩⟩ := htip.exists_backBy htree (Nat.sub_le tip.nHeight (h + 1))
  obtain ⟨prev, hprev, hprevHeight⟩ := (htree.linked p b hp).prev_height (by omega)
  obtain ⟨q, -, hq⟩ := Option.bind_eq_some_iff.mp hprev
  obtain ⟨time, htime⟩ := htree.exists_medianTimePast ⟨p, hp⟩
  obtain ⟨prevTime, hprevTime⟩ := htree.exists_medianTimePast ⟨q, hq⟩
  have hback : backBy find (tip.nHeight - h) tip = some prev := by
    rw [show tip.nHeight - h = tip.nHeight - (h + 1) + 1 by omega, backBy_add, hb,
      some_bind, backBy, hprev]
    rfl
  rw [mtpAt_eq hb htime, mtpAt_eq hback hprevTime]
  exact hmedian p b prev time prevTime hp hprev htime hprevTime

theorem mtpAt_mono (hmedian : MedianTimesMonotone find) {h' : Nat} (hle : h ≤ h')
    (htop : h' ≤ tip.nHeight) :
    mtpAt find tip h ≤ mtpAt find tip h' := by
  induction h' with
  | zero => rw [Nat.le_zero.mp hle]
  | succ h' ih =>
    obtain heq | hlt := hle.eq_or_lt
    · rw [heq]
    · exact (ih (Nat.le_of_lt_succ hlt) (by omega)).trans (mtpAt_le_succ htree htip hmedian htop)

theorem stateAt_eq_defined (hmedian : MedianTimesMonotone find)
    (hk : k * checker.period.toNat ≤ tip.nHeight + 1)
    (hmtp : mtpAt find tip (k * checker.period.toNat - 1) < checker.beginTime) :
    stateAt find checker tip k = .defined := by
  refine periodState_eq_defined fun j hj => lt_of_le_of_lt ?_ hmtp
  have hle : (j + 1) * checker.period.toNat ≤ k * checker.period.toNat := Nat.mul_le_mul_right _ hj
  exact mtpAt_mono htree htip hmedian (by omega) (by omega)

theorem countSignals_eq {n : Nat} (hb : backBy find (tip.nHeight - h) tip = some b)
    (hh : h ≤ tip.nHeight) (hn : n ≤ h + 1) :
    countSignals find checker n (some b) =
      some ((List.range' (h + 1 - n) n).countP (signalsAt find checker tip)) := by
  induction n generalizing h b with
  | zero => rfl
  | succ n ih =>
    have hsignal : signalsAt find checker tip h = checker.condition b := by
      rw [signalsAt, hb]
      rfl
    have hcount : countSignals find checker n (b.prev? find) =
        some ((List.range' (h - n) n).countP (signalsAt find checker tip)) := by
      cases n with
      | zero => rfl
      | succ n =>
        obtain ⟨prev, hprev, hheight, -⟩ := htip.exists_backBy htree
          (Nat.sub_le tip.nHeight (h - 1))
        have hback := hprev
        rw [show tip.nHeight - (h - 1) = tip.nHeight - h + 1 by omega, backBy_add, hb] at hback
        have hb_prev : b.prev? find = some prev := by simpa [backBy] using hback
        rw [hb_prev, ih hprev (by omega) (by omega), Nat.sub_add_cancel (by omega)]
    have hlast : h - n + n = h := by omega
    rw [countSignals, some_bind, hcount, Nat.add_sub_add_right,
      List.range'_1_concat, List.countP_append, hlast]
    simp [hsignal]
    cases checker.condition b <;> rfl

theorem stateNext_boundary (hperiod : 1 ≤ checker.period)
    (hk : (k + 1) * checker.period.toNat ≤ tip.nHeight + 1)
    (hb : boundary find checker tip (k + 1) = some b) :
    stateNext find checker (stateAt find checker tip k) b =
      some (stateAt find checker tip (k + 1)) := by
  obtain ⟨b', hb', hheight, hfiled, hsteps⟩ := exists_boundary htree htip (by omega) hk
  obtain rfl := Option.some.inj (hb'.symm.trans hb)
  have hback : backBy find (tip.nHeight - ((k + 1) * checker.period.toNat - 1)) tip = some b' := by
    rw [show tip.nHeight - ((k + 1) * checker.period.toNat - 1) =
      tip.nHeight + 1 - (k + 1) * checker.period.toNat by omega]
    exact hb
  obtain ⟨time, htime⟩ := htree.exists_medianTimePast hfiled
  have hmtp := mtpAt_eq hback htime
  have hmul : (k + 1) * checker.period.toNat =
      k * checker.period.toNat + checker.period.toNat := Nat.succ_mul _ _
  have hcount := @countSignals_eq find checker tip b' ((k + 1) * checker.period.toNat - 1) htree htip
    checker.period.toNat hback (by omega) (by omega)
  rw [show (k + 1) * checker.period.toNat - 1 + 1 - checker.period.toNat =
    k * checker.period.toNat by omega] at hcount
  have hcast : ((b'.nHeight : Int) + 1) = ((k + 1) * checker.period.toNat : Nat) := by omega
  rw [stateAt, stateAt, periodState]
  cases periodState checker (mtpAt find tip) (signalsAt find checker tip) k with
  | defined => simp only [stateNext, htime, hmtp, some_bind, ge_iff_le]
  | started =>
    simp only [stateNext, htime, hmtp, hcount, some_bind, ge_iff_le]
    split <;> rfl
  | lockedIn => simp only [stateNext, hcast, ge_iff_le]
  | active => rfl
  | failed => rfl

end Tree

/-! ## The cache -/

section Cache

variable {find : BlockHeap} {checker : AbstractThresholdConditionChecker} {tip b : CBlockIndex}
  {cache : ThresholdConditionCache} {k : Nat}

structure Sound (find : BlockHeap) (checker : AbstractThresholdConditionChecker)
    (cache : ThresholdConditionCache) : Prop where
  root : ∀ state, cache.lookup none = some state → state = .defined
  known : ∀ tip k state, Filed find tip → k * checker.period.toNat ≤ tip.nHeight + 1 →
    cache.lookup (pointerTo (boundary find checker tip k)) = some state →
    state = stateAt find checker tip k

theorem sound_empty : Sound find checker ∅ := by
  refine ⟨fun state h => ?_, fun tip k state _ _ h => ?_⟩ <;>
    rw [AList.lookup_empty] at h <;> cases h

variable (htree : Tree find)
include htree

theorem Filed.eq_of_hash {b' : CBlockIndex} (hb : Filed find b)
    (hb' : Filed find b') (h : b.getBlockHash = b'.getBlockHash) : b = b' := by
  obtain ⟨p, hp⟩ := hb
  obtain ⟨q, hq⟩ := hb'
  rw [getBlockHash, getBlockHash, htree.hash p b hp, htree.hash q b' hq] at h
  obtain rfl := Option.some.inj h
  exact Option.some.inj (hp.symm.trans hq)

variable (hperiod : 1 ≤ checker.period)
include hperiod

theorem pointerTo_boundary_ne_none (htip : Filed find tip)
    (hk : (k + 1) * checker.period.toNat ≤ tip.nHeight + 1) :
    pointerTo (boundary find checker tip (k + 1)) ≠ none := by
  obtain ⟨b, hb, -, ⟨p, hp⟩, -⟩ := exists_boundary htree htip (by omega) hk
  rw [hb, pointerTo, Option.bind_some, getBlockHash, htree.hash p b hp]
  exact Option.some_ne_none p

theorem stateAt_eq_of_pointer {tip' : CBlockIndex} {k' : Nat} (htip : Filed find tip)
    (htip' : Filed find tip') (hk : k * checker.period.toNat ≤ tip.nHeight + 1)
    (hk' : k' * checker.period.toNat ≤ tip'.nHeight + 1)
    (h : pointerTo (boundary find checker tip k) = pointerTo (boundary find checker tip' k')) :
    stateAt find checker tip k = stateAt find checker tip' k' := by
  cases k with
  | zero =>
    cases k' with
    | zero => rfl
    | succ k' => exact absurd h.symm (pointerTo_boundary_ne_none htree hperiod htip' hk')
  | succ k =>
    cases k' with
    | zero => exact absurd h (pointerTo_boundary_ne_none htree hperiod htip hk)
    | succ k' =>
      have hpos : 0 < checker.period.toNat := by omega
      obtain ⟨b, hb, hheight, hfiled, -⟩ := exists_boundary htree htip hpos hk
      obtain ⟨b', hb', hheight', hfiled', -⟩ := exists_boundary htree htip' hpos hk'
      rw [hb, hb'] at h
      obtain rfl := hfiled.eq_of_hash htree hfiled' h
      obtain rfl : k = k' :=
        Nat.succ.inj (Nat.eq_of_mul_eq_mul_right hpos (hheight.symm.trans hheight'))
      rw [stateAt_boundary hpos hk hb hheight, stateAt_boundary hpos hk' hb' hheight]

omit htree hperiod in
theorem Sound.insert (h : Sound find checker cache) {p : Option Uint256} {state : ThresholdState}
    (hroot : p = none → state = .defined)
    (hknown : ∀ tip k, Filed find tip → k * checker.period.toNat ≤ tip.nHeight + 1 →
      p = pointerTo (boundary find checker tip k) → state = stateAt find checker tip k) :
    Sound find checker (cache.insert p state) := by
  refine ⟨fun state' hlookup => ?_, fun tip k state' htip hk hlookup => ?_⟩ <;>
    rw [FiniteMap.lookup_insert_eq] at hlookup <;> split at hlookup
  case refine_1.isTrue hnone => exact Option.some.inj hlookup ▸ hroot hnone.symm
  case refine_1.isFalse => exact h.root state' hlookup
  case refine_2.isTrue heq => exact Option.some.inj hlookup ▸ hknown tip k htip hk heq.symm
  case refine_2.isFalse => exact h.known tip k state' htip hk hlookup

theorem Sound.insert_root (h : Sound find checker cache) :
    Sound find checker (cache.insert none .defined) := by
  refine h.insert (fun _ => rfl) fun tip k htip hk hp => ?_
  cases k with
  | zero => rfl
  | succ k => exact absurd hp.symm (pointerTo_boundary_ne_none htree hperiod htip hk)

theorem Sound.insert_stateAt (h : Sound find checker cache) (htip : Filed find tip)
    (hk : k * checker.period.toNat ≤ tip.nHeight + 1) :
    Sound find checker (cache.insert (pointerTo (boundary find checker tip k))
      (stateAt find checker tip k)) := by
  refine h.insert (fun hnone => ?_) fun tip' k' htip' hk' hp =>
    stateAt_eq_of_pointer htree hperiod htip htip' hk hk' hp
  cases k with
  | zero => rfl
  | succ k => exact absurd hnone (pointerTo_boundary_ne_none htree hperiod htip hk)

section

variable (hmedian : MedianTimesMonotone find) (hcache : Sound find checker cache)
  (htip : Filed find tip) (hk : k * checker.period.toNat ≤ tip.nHeight + 1)
include hmedian hcache htip hk

theorem exists_walkBack_replay {rounds : Nat} (hrounds : k < rounds) (vToCompute : List CBlockIndex) :
    ∃ walked cache', walkBack find checker cache rounds (boundary find checker tip k) vToCompute =
        some walked ∧ Sound find checker cache' ∧
      replay find checker walked.2.2 walked.1 walked.2.1 =
        replay find checker vToCompute (stateAt find checker tip k) cache' := by
  have hpos : 0 < checker.period.toNat := by omega
  induction k generalizing rounds vToCompute with
  | zero =>
    obtain _ | rounds := rounds
    · omega
    rw [walkBack.eq_def]
    dsimp only
    split
    case h_1 state hlookup =>
      refine ⟨_, cache, rfl, hcache, ?_⟩
      rw [hcache.known tip 0 state htip hk hlookup]
    case h_2 => exact ⟨_, cache.insert none .defined, rfl, hcache.insert_root htree hperiod, rfl⟩
  | succ k ih =>
    obtain _ | rounds := rounds
    · omega
    obtain ⟨b, hb, hheight, hfiled, -⟩ := exists_boundary htree htip hpos hk
    have hmul : (k + 1) * checker.period.toNat =
        k * checker.period.toNat + checker.period.toNat := Nat.succ_mul _ _
    obtain ⟨time, htime⟩ := htree.exists_medianTimePast hfiled
    have hkey : b.getBlockHash = pointerTo (boundary find checker tip (k + 1)) := by
      rw [hb]
      rfl
    rw [walkBack.eq_def]
    dsimp only
    split
    case h_1 state hlookup =>
      refine ⟨_, cache, rfl, hcache, ?_⟩
      rw [hcache.known tip (k + 1) state htip hk hlookup]
    case h_2 =>
      rw [hb]
      dsimp only
      rw [htime, some_bind]
      split
      case isTrue hearly =>
        have hback : backBy find (tip.nHeight - ((k + 1) * checker.period.toNat - 1)) tip =
            some b := by
          rw [show tip.nHeight - ((k + 1) * checker.period.toNat - 1) =
            tip.nHeight + 1 - (k + 1) * checker.period.toNat by omega]
          exact hb
        have hdefined : stateAt find checker tip (k + 1) = .defined :=
          stateAt_eq_defined htree htip hmedian hk (by rw [mtpAt_eq hback htime]; exact hearly)
        have hinsert := hcache.insert_stateAt htree hperiod htip hk
        rw [← hkey, hdefined] at hinsert
        exact ⟨_, _, rfl, hinsert, by rw [hdefined]⟩
      case isFalse =>
        rw [getAncestor_boundary htree htip hperiod hk hb, some_bind]
        obtain ⟨walked, cache', hwalk, hsound, hreplay⟩ :=
          ih (by omega) (Nat.lt_of_succ_lt_succ hrounds) (b :: vToCompute)
        refine ⟨walked, _, hwalk, hkey ▸ hsound.insert_stateAt htree hperiod htip hk, ?_⟩
        rw [hreplay, replay, stateNext_boundary htree htip hperiod hk hb]
        rfl

theorem exists_stateOfPeriod :
    ∃ cache', stateOfPeriod find checker (boundary find checker tip k) cache =
      some (stateAt find checker tip k, cache') ∧ Sound find checker cache' := by
  have hrounds : k < blocks (boundary find checker tip k) + 1 := by
    cases k with
    | zero => exact Nat.succ_pos _
    | succ k =>
      obtain ⟨b, hb, hheight, -⟩ := exists_boundary htree htip (by omega) hk
      rw [hb]
      change k + 1 < b.nHeight + 1 + 1
      rw [hheight]
      exact Nat.lt_succ_of_le (Nat.le_mul_of_pos_right _ (by omega))
  obtain ⟨walked, cache', hwalk, hsound, hreplay⟩ :=
    exists_walkBack_replay htree hperiod hmedian hcache htip hk hrounds []
  refine ⟨cache', ?_, hsound⟩
  rw [stateOfPeriod, hwalk, some_bind, hreplay]
  rfl

end

theorem exists_stateOfPeriod_none (hcache : Sound find checker cache) :
    ∃ cache', stateOfPeriod find checker none cache = some (.defined, cache') ∧
      Sound find checker cache' := by
  rw [stateOfPeriod, walkBack.eq_def]
  dsimp only [blocks, pointerTo, Option.elim_none, Option.bind_none]
  cases hlookup : cache.lookup none with
  | some state =>
    obtain rfl := hcache.root state hlookup
    exact ⟨cache, rfl, hcache⟩
  | none => exact ⟨_, rfl, hcache.insert_root htree hperiod⟩

theorem periodParent_eq (hb : Filed find b) :
    periodParent find checker b =
      some (boundary find checker b ((b.nHeight + 1) / checker.period.toNat)) := by
  obtain ⟨p, hp⟩ := hb
  have hmod : ((b.nHeight : Int) + 1).tmod checker.period =
      ((b.nHeight + 1) % checker.period.toNat : Nat) := by
    rw [Int.tmod_eq_emod_of_nonneg (by omega), Int.natCast_mod, Int.toNat_of_nonneg (by omega)]
    rfl
  have hdiv := Nat.div_add_mod' (b.nHeight + 1) checker.period.toNat
  rw [periodParent, if_neg (by omega), hmod]
  cases hk : (b.nHeight + 1) / checker.period.toNat with
  | zero =>
    rw [hk, Nat.zero_mul] at hdiv
    rw [getAncestor, if_pos (by omega)]
    rfl
  | succ k =>
    rw [hk] at hdiv
    have hpos : 0 < (k + 1) * checker.period.toNat := Nat.mul_pos (Nat.succ_pos k) (by omega)
    have hcast : (b.nHeight : Int) - ((b.nHeight + 1) % checker.period.toNat : Nat) =
        ((k + 1) * checker.period.toNat - 1 : Nat) := by omega
    obtain ⟨a, ha, -⟩ := exists_boundary htree ⟨p, hp⟩ (by omega)
      (show (k + 1) * checker.period.toNat ≤ b.nHeight + 1 by omega)
    rw [hcast, getAncestor_eq htree.linked (htree.linked p b hp) (by omega),
      show b.nHeight - ((k + 1) * checker.period.toNat - 1) =
        b.nHeight + 1 - (k + 1) * checker.period.toNat by omega, ha]
    rw [boundary] at ha
    rw [ha]
    rfl

end Cache

/-! ## Queries -/

section Queries

variable (find : BlockHeap) (checker : AbstractThresholdConditionChecker)

def chainStates (pindexPrev : Option CBlockIndex) : Nat → ThresholdState :=
  match pindexPrev with
  | none => deploymentState checker (fun _ => 0) (fun _ => false)
  | some b => deploymentState checker (mtpAt find b) (signalsAt find checker b)

def periodOf (pindexPrev : Option CBlockIndex) : Nat := blocks pindexPrev / checker.period.toNat

def bip9State (pindexPrev : Option CBlockIndex) : ThresholdState :=
  chainStates find checker pindexPrev (periodOf checker pindexPrev)

inductive Query where
  | getStateFor (pindexPrev : Option CBlockIndex)
  | getStateSinceHeightFor (pindexPrev : Option CBlockIndex)

inductive Answer where
  | state (state : ThresholdState)
  | height (height : Nat)
  deriving DecidableEq

def Query.block : Query → Option CBlockIndex
  | .getStateFor pindexPrev | .getStateSinceHeightFor pindexPrev => pindexPrev

def ask (cache : ThresholdConditionCache) : Query → Option (Answer × ThresholdConditionCache)
  | .getStateFor pindexPrev =>
    (getStateFor find checker pindexPrev cache).map fun found => (.state found.1, found.2)
  | .getStateSinceHeightFor pindexPrev =>
    (getStateSinceHeightFor find checker pindexPrev cache).map fun found =>
      (.height found.1, found.2)

def askAll : List Query → ThresholdConditionCache → Option (List Answer × ThresholdConditionCache)
  | [], cache => some ([], cache)
  | query :: queries, cache => do
    let found ← ask find checker cache query
    let rest ← askAll queries found.2
    some (found.1 :: rest.1, rest.2)

def Right : Query → Answer → Prop
  | .getStateFor pindexPrev, .state state => state = bip9State find checker pindexPrev
  | .getStateSinceHeightFor pindexPrev, .height height =>
    ∃ first, IsLeast (heldFrom (chainStates find checker pindexPrev)
      (periodOf checker pindexPrev)) first ∧ height = first * checker.period.toNat
  | _, _ => False

end Queries

section Answers

variable {find : BlockHeap} {checker : AbstractThresholdConditionChecker} {tip b : CBlockIndex}
  {cache : ThresholdConditionCache} {pindexPrev : Option CBlockIndex} {k : Nat}

section Dated

variable (halways : checker.beginTime ≠ BIP9Deployment.ALWAYS_ACTIVE)
  (hnever : checker.beginTime ≠ BIP9Deployment.NEVER_ACTIVE)
include halways hnever

theorem chainStates_some (b : CBlockIndex) :
    chainStates find checker (some b) = stateAt find checker b := by
  funext k
  rw [chainStates, deploymentState, if_neg halways, if_neg hnever]
  rfl

theorem bip9State_none : bip9State find checker none = .defined := by
  rw [bip9State, chainStates, deploymentState, if_neg halways, if_neg hnever, periodOf, blocks,
    Option.elim_none, Nat.zero_div]
  rfl

theorem bip9State_boundary (hperiod : 1 ≤ checker.period)
    (hk : (k + 1) * checker.period.toNat ≤ tip.nHeight + 1)
    (hb : boundary find checker tip (k + 1) = some b)
    (hheight : b.nHeight + 1 = (k + 1) * checker.period.toNat) :
    bip9State find checker (some b) = stateAt find checker tip (k + 1) := by
  have hpos : 0 < checker.period.toNat := by omega
  rw [bip9State, chainStates_some halways hnever, periodOf, stateAt_boundary hpos hk hb hheight,
    blocks, Option.elim_some, hheight, Nat.mul_div_cancel _ hpos]

end Dated

variable (htree : Tree find) (hperiod : 1 ≤ checker.period) {steps : Nat}
include htree hperiod

section
variable (hmedian : MedianTimesMonotone find) (hcache : Sound find checker cache)
include hmedian hcache

theorem exists_getStateFor (hprev : ∀ b, pindexPrev = some b → Filed find b) :
    ∃ cache', getStateFor find checker pindexPrev cache =
      some (bip9State find checker pindexPrev, cache') ∧ Sound find checker cache' := by
  by_cases halways : checker.beginTime = BIP9Deployment.ALWAYS_ACTIVE
  case pos =>
    refine ⟨cache, ?_, hcache⟩
    cases pindexPrev <;>
      rw [getStateFor, if_pos halways, bip9State, chainStates, deploymentState, if_pos halways]
  case neg =>
    by_cases hnever : checker.beginTime = BIP9Deployment.NEVER_ACTIVE
    case pos =>
      refine ⟨cache, ?_, hcache⟩
      cases pindexPrev <;>
        rw [getStateFor, if_neg halways, if_pos hnever, bip9State, chainStates, deploymentState,
          if_neg halways, if_pos hnever]
    case neg =>
      cases pindexPrev with
      | none =>
        rw [getStateFor, if_neg halways, if_neg hnever, bip9State_none halways hnever]
        exact exists_stateOfPeriod_none htree hperiod hcache
      | some b =>
        obtain ⟨cache', hstate, hsound⟩ := exists_stateOfPeriod htree hperiod hmedian hcache
          (hprev b rfl) (Nat.div_mul_le_self (b.nHeight + 1) checker.period.toNat)
        refine ⟨cache', ?_, hsound⟩
        rw [getStateFor, if_neg halways, if_neg hnever, periodParent_eq htree hperiod (hprev b rfl),
          some_bind, hstate, bip9State,
          chainStates_some halways hnever]
        rfl

theorem exists_sinceWalk (halways : checker.beginTime ≠ BIP9Deployment.ALWAYS_ACTIVE)
    (hnever : checker.beginTime ≠ BIP9Deployment.NEVER_ACTIVE) (htip : Filed find tip) {top : Nat}
    (htop : top * checker.period.toNat ≤ tip.nHeight + 1)
    (hdefined : stateAt find checker tip top ≠ .defined) (hk : k + 1 ≤ top)
    (hb : boundary find checker tip (k + 1) = some b)
    (hheld : ∀ j, k + 1 ≤ j → j ≤ top → stateAt find checker tip j = stateAt find checker tip top)
    {rounds : Nat} (hrounds : k < rounds) :
    ∃ first cache', sinceWalk find checker (stateAt find checker tip top) rounds b cache =
        some (first * checker.period.toNat, cache') ∧
      IsLeast (heldFrom (stateAt find checker tip) top) first ∧ Sound find checker cache' := by
  have hpos : 0 < checker.period.toNat := by omega
  have hle : ∀ {j}, j ≤ top → j * checker.period.toNat ≤ tip.nHeight + 1 := fun hj =>
    (Nat.mul_le_mul_right _ hj).trans htop
  induction k generalizing b cache rounds with
  | zero =>
    obtain _ | rounds := rounds
    · omega
    obtain ⟨b', hb', hheight, -⟩ := exists_boundary htree htip hpos (hle hk)
    obtain rfl := Option.some.inj (hb'.symm.trans hb)
    refine ⟨1, cache, ?_, isLeast_heldFrom hk hheld hdefined.symm, hcache⟩
    rw [sinceWalk, getAncestor_boundary htree htip hperiod (hle hk) hb]
    change some (b'.nHeight + 1, cache) = _
    rw [hheight]
  | succ k ih =>
    obtain _ | rounds := rounds
    · omega
    obtain ⟨b', hb', hheight, -⟩ := exists_boundary htree htip hpos (hle hk)
    obtain rfl := Option.some.inj (hb'.symm.trans hb)
    obtain ⟨parent, hparent, hparentHeight, hfiled, -⟩ :=
      exists_boundary htree htip hpos (hle (Nat.le_of_succ_le hk))
    obtain ⟨cache', hstate, hsound⟩ := @exists_getStateFor find checker cache (some parent)
      htree hperiod hmedian hcache fun b heq => Option.some.inj heq ▸ hfiled
    rw [bip9State_boundary halways hnever hperiod (hle (Nat.le_of_succ_le hk)) hparent
      hparentHeight] at hstate
    rw [sinceWalk, getAncestor_boundary htree htip hperiod (hle hk) hb, hparent,
      some_bind]
    dsimp only
    rw [hstate, some_bind]
    dsimp only
    split
    case isTrue hsame =>
      refine ih hsound (Nat.le_of_succ_le hk) hparent (fun j hj hjtop => ?_)
        (Nat.lt_of_succ_lt_succ hrounds)
      obtain rfl | hlt := hj.eq_or_lt
      · exact hsame
      · exact hheld j hlt hjtop
    case isFalse hdiffers =>
      refine ⟨k + 1 + 1, cache', ?_, isLeast_heldFrom hk hheld hdiffers, hsound⟩
      rw [hheight]

theorem exists_getStateSinceHeightFor (hprev : ∀ b, pindexPrev = some b → Filed find b) :
    ∃ first cache', getStateSinceHeightFor find checker pindexPrev cache =
        some (first * checker.period.toNat, cache') ∧
      IsLeast (heldFrom (chainStates find checker pindexPrev) (periodOf checker pindexPrev)) first ∧
      Sound find checker cache' := by
  by_cases hspecial : checker.beginTime = BIP9Deployment.ALWAYS_ACTIVE ∨
      checker.beginTime = BIP9Deployment.NEVER_ACTIVE
  case pos =>
    refine ⟨0, cache, ?_, isLeast_zero_heldFrom fun j hj => ?_, hcache⟩
    · rw [getStateSinceHeightFor, if_pos hspecial, Nat.zero_mul]
    · cases pindexPrev <;>
        obtain hspecial | hspecial := hspecial <;>
          simp only [chainStates, deploymentState, hspecial, if_true]
  case neg =>
    obtain ⟨halways, hnever⟩ := not_or.mp hspecial
    obtain ⟨cache', hstate, hsound⟩ := exists_getStateFor htree hperiod hmedian hcache hprev
    rw [getStateSinceHeightFor, if_neg hspecial, hstate, some_bind]
    dsimp only
    split
    case isTrue hdefined =>
      refine ⟨0, cache', by rw [Nat.zero_mul], isLeast_zero_heldFrom fun j hj => ?_, hsound⟩
      rw [bip9State] at hdefined
      rw [hdefined]
      cases pindexPrev <;>
        rw [chainStates, deploymentState, if_neg halways, if_neg hnever] at hdefined ⊢ <;>
          exact periodState_eq_defined_of_le hdefined hj
    case isFalse hdefined =>
      cases pindexPrev with
      | none => exact absurd (bip9State_none halways hnever) hdefined
      | some b =>
        have htip := hprev b rfl
        have htop : periodOf checker (some b) * checker.period.toNat ≤ b.nHeight + 1 :=
          Nat.div_mul_le_self _ _
        rw [bip9State, chainStates_some halways hnever] at hdefined ⊢
        cases hperiods : periodOf checker (some b) with
        | zero =>
          rw [hperiods] at hdefined
          exact absurd rfl hdefined
        | succ k =>
          rw [hperiods] at hdefined htop
          obtain ⟨parent, hparent, hheight, -⟩ := exists_boundary htree htip (by omega) htop
          have haligned : periodParent find checker b = some (some parent) := by
            rw [periodParent_eq htree hperiod htip, ← hparent, ← hperiods]
            rfl
          simp only [haligned, some_bind]
          refine exists_sinceWalk htree hperiod hmedian hsound halways hnever htip htop hdefined
            le_rfl hparent (fun j hj hjtop => by rw [Nat.le_antisymm hjtop hj]) ?_
          change k < parent.nHeight + 1
          rw [hheight]
          exact Nat.le_mul_of_pos_right _ (by omega)

theorem exists_ask {query : Query} (hquery : ∀ b, query.block = some b → Filed find b) :
    ∃ answer cache', ask find checker cache query = some (answer, cache') ∧
      Right find checker query answer ∧ Sound find checker cache' := by
  cases query with
  | getStateFor pindexPrev =>
    obtain ⟨cache', hstate, hsound⟩ :=
      @exists_getStateFor find checker cache pindexPrev htree hperiod hmedian hcache hquery
    refine ⟨.state _, cache', ?_, rfl, hsound⟩
    rw [ask, hstate]
    rfl
  | getStateSinceHeightFor pindexPrev =>
    obtain ⟨first, cache', hheight, hfirst, hsound⟩ :=
      @exists_getStateSinceHeightFor find checker cache pindexPrev htree hperiod hmedian hcache
        hquery
    refine ⟨.height _, cache', ?_, ⟨first, hfirst, rfl⟩, hsound⟩
    rw [ask, hheight]
    rfl

theorem exists_askAll {queries : List Query}
    (hqueries : ∀ query ∈ queries, ∀ b, query.block = some b → Filed find b) :
    ∃ answers cache', askAll find checker queries cache = some (answers, cache') ∧
      List.Forall₂ (Right find checker) queries answers := by
  induction queries generalizing cache with
  | nil => exact ⟨[], cache, rfl, .nil⟩
  | cons query queries ih =>
    obtain ⟨answer, cache', hask, hright, hsound⟩ := exists_ask htree hperiod hmedian hcache
      (hqueries query List.mem_cons_self)
    obtain ⟨answers, cache'', hrest, hrights⟩ := ih hsound (List.forall_mem_cons.mp hqueries).2
    refine ⟨answer :: answers, cache'', ?_, .cons hright hrights⟩
    simp only [askAll, hask, hrest, some_bind]

end

omit hperiod in
theorem le_height_of_backBy (htip : Filed find tip) (hback : backBy find steps tip = some b) :
    steps ≤ tip.nHeight := by
  by_contra hlt
  obtain ⟨root, hroot, hheight, ⟨p, hp⟩⟩ := htip.exists_backBy htree le_rfl
  rw [show steps = tip.nHeight + (steps - tip.nHeight - 1 + 1) by omega, backBy_add, hroot,
    some_bind, backBy, prev?,
    htree.root p root hp (by omega)] at hback
  cases hback

theorem bip9State_of_final (htip : Filed find tip) (hback : backBy find steps tip = some b)
    (hfinal : bip9State find checker (some b) = .active ∨
      bip9State find checker (some b) = .failed) :
    bip9State find checker (some tip) = bip9State find checker (some b) := by
  have hpos : 0 < checker.period.toNat := by omega
  have hsteps := le_height_of_backBy htree htip hback
  obtain ⟨b', hback', hheight, -⟩ := htip.exists_backBy htree hsteps
  obtain rfl := Option.some.inj (hback'.symm.trans hback)
  have hstate := @stateAt_of_ancestor find checker tip b' (periodOf checker (some b')) steps hpos
    hback hheight hsteps (Nat.div_mul_le_self _ _)
  obtain ⟨n, hn⟩ := Nat.exists_eq_add_of_le (Nat.div_le_div_right
    (show b'.nHeight + 1 ≤ tip.nHeight + 1 by omega) : _ / checker.period.toNat ≤ _)
  simp only [bip9State, chainStates, deploymentState] at hfinal ⊢
  split
  case isTrue => rfl
  case isFalse halways =>
    split
    case isTrue => rfl
    case isFalse hnever =>
      rw [if_neg halways, if_neg hnever] at hfinal
      have hsame : periodOf checker (some tip) = periodOf checker (some b') + n := hn
      rw [stateAt, stateAt] at hstate
      rw [hsame, periodState_add_of_final (by rw [hstate]; exact hfinal), hstate]

end Answers

/-- Whatever has been asked before, on whichever blocks of the tree, the answers are those of the
recursion from genesis, which does not leave its final states. -/
theorem askAll_right (find : BlockHeap) (htree : Tree find) (hmedian : MedianTimesMonotone find)
    (checker : AbstractThresholdConditionChecker) (hperiod : 1 ≤ checker.period)
    (queries : List Query)
    (hqueries : ∀ query ∈ queries, ∀ b, query.block = some b → Filed find b) :
    (∃ answers cache, askAll find checker queries ∅ = some (answers, cache) ∧
      List.Forall₂ (Right find checker) queries answers) ∧
    ∀ tip b steps, Filed find tip → backBy find steps tip = some b →
      (bip9State find checker (some b) = .active ∨ bip9State find checker (some b) = .failed) →
      bip9State find checker (some tip) = bip9State find checker (some b) :=
  ⟨exists_askAll htree hperiod hmedian sound_empty hqueries,
    fun _ _ _ htip hback hfinal => bip9State_of_final htree hperiod htip hback hfinal⟩

section Samples

private def sampleDeployment : BIP9Deployment where
  bit := 0
  nStartTime := 10
  nTimeout := 100
  period := 2
  threshold := 2

private def forkEntry (hash nHeight prev : Nat) (nVersion : Int32) : Uint256 × CBlockIndex :=
  (.ofHex hash,
    { phashBlock := some (.ofHex hash)
      pprev := if prev = 0 then none else some (.ofHex prev)
      nHeight := nHeight
      nVersion := nVersion
      nTime := .ofNat (10 * nHeight) })

private def forkEntries : List (Uint256 × CBlockIndex) :=
  [forkEntry 1 0 0 1, forkEntry 2 1 1 1, forkEntry 3 2 2 0x20000001, forkEntry 4 3 3 0x20000001,
    forkEntry 5 4 4 1, forkEntry 6 5 5 1, forkEntry 7 2 2 1, forkEntry 8 3 7 0x20000001]

private def forkHeap : BlockHeap := fun hash => forkEntries.lookup hash

private def forkQueries : List Query :=
  [.getStateFor (forkHeap (.ofHex 6)), .getStateFor (forkHeap (.ofHex 8)),
    .getStateSinceHeightFor (forkHeap (.ofHex 6))]

private theorem mem_forkEntries {p : Uint256} {b : CBlockIndex} (h : forkHeap p = some b) :
    (p, b) ∈ forkEntries := by
  obtain ⟨before, after, hsplit, -⟩ := List.lookup_eq_some_iff.mp h
  rw [hsplit]
  exact List.mem_append_right _ List.mem_cons_self

private theorem tree_forkHeap : Tree forkHeap := by
  have hhash : ∀ entry ∈ forkEntries, entry.2.phashBlock = some entry.1 := by decide
  have hprev : ∀ entry ∈ forkEntries, entry.2.nHeight ≠ 0 →
      (entry.2.prev? forkHeap).map (fun prev => prev.nHeight + 1) = some entry.2.nHeight := by
    decide
  have hskip : ∀ entry ∈ forkEntries, entry.2.pskip = none := by decide
  have hroot : ∀ entry ∈ forkEntries, entry.2.nHeight = 0 → entry.2.pprev = none := by
    decide
  refine ⟨fun p b hb => hhash _ (mem_forkEntries hb), fun p b hb => ⟨fun hheight => ?_, ?_⟩,
    fun p b hb => hroot _ (mem_forkEntries hb)⟩
  · obtain ⟨prev, hfound, heq⟩ := Option.map_eq_some_iff.mp (hprev _ (mem_forkEntries hb) hheight)
    exact ⟨prev, hfound, heq.symm⟩
  · rw [hskip _ (mem_forkEntries hb)]
    nofun

private theorem medianTimesMonotone_forkHeap : MedianTimesMonotone forkHeap := by
  have hall : ∀ entry ∈ forkEntries, (do
      let prev ← entry.2.prev? forkHeap
      let time ← entry.2.getMedianTimePast forkHeap
      let prevTime ← prev.getMedianTimePast forkHeap
      some (decide (prevTime ≤ time))) ≠ some false := by
    decide
  intro p b prev time prevTime hb hprev htime hprevTime
  have hentry := hall _ (mem_forkEntries hb)
  rw [hprev, some_bind, htime, some_bind,
    hprevTime] at hentry
  by_contra hlt
  exact hentry (by simp [hlt])

end Samples

theorem askAll_right_fork :
    1 ≤ (versionBitsConditionChecker sampleDeployment).period ∧
      (askAll forkHeap (versionBitsConditionChecker sampleDeployment) forkQueries ∅).map Prod.fst =
        some [.state .active, .state .started, .height 6] ∧
      ∃ answers cache,
        askAll forkHeap (versionBitsConditionChecker sampleDeployment) forkQueries ∅ =
          some (answers, cache) ∧
        List.Forall₂ (Right forkHeap (versionBitsConditionChecker sampleDeployment)) forkQueries
          answers := by
  have hperiod := one_le_period_iff sampleDeployment |>.mpr (by decide)
  refine ⟨hperiod, by decide,
    (askAll_right forkHeap tree_forkHeap medianTimesMonotone_forkHeap
      (versionBitsConditionChecker sampleDeployment) hperiod forkQueries ?_).1⟩
  intro query hquery b hb
  simp only [forkQueries, List.mem_cons, List.not_mem_nil, or_false] at hquery
  obtain rfl | rfl | rfl := hquery <;> exact ⟨_, hb⟩

end AbstractThresholdConditionChecker

end HcsCoin
