import HcsCoin.Pow

/-!
# When difficulty adjustment is exact

`CalculateNextWorkRequired` against the retarget rule over unbounded integers,
and the bounds `PermittedDifficultyTransition` puts on a header chain against
the difficulty the chain itself requires.
-/

namespace HcsCoin

open Foundation ArithUint256 CBlockIndex

variable {params : Params} {find : BlockHeap} {last : CBlockIndex} {bits nBits : UInt32}
  {height : Nat}

theorem calculateNextWorkRequired_spec (hsane : params.SaneTimespan)
    (hretarget : params.fPowNoRetargeting = false)
    (hbits : retargetBits find last params = some bits)
    (nFirstBlockTime : Int) :
    ∃ t : ArithUint256, calculateNextWorkRequired find last nFirstBlockTime params =
        some (t.getCompact false) ∧
      t.toNat = min params.powLimit.toNat ((setCompact bits).value.toNat *
        clampTimespan params.nPowTargetTimespan (last.getBlockTime - nFirstBlockTime) %
          2 ^ 256 / params.nPowTargetTimespan) := by
  obtain ⟨t, ht, hvalue⟩ := scaleTarget_spec hsane (setCompact bits).value
    (clampTimespan_bounds _ (last.getBlockTime - nFirstBlockTime)).2
  refine ⟨t, ?_, hvalue⟩
  simp [calculateNextWorkRequired, hretarget, hbits, limitTimespan_eq, ht]

theorem getCompact_ne_of_lt {x y : ArithUint256} (hgap : x.toNat + 2 ^ 216 ≤ y.toNat)
    (hy : y.toNat < 2 ^ 239) : x.getCompact false ≠ y.getCompact false := by
  intro heq
  have hscale : compactFormat.scale y.toNat ≤ 27 :=
    TruncFormat.scale_le_of_lt (hy.trans_le (by norm_num [compactFormat]))
  have hulp : compactFormat.base ^ compactFormat.scale y.toNat ≤ 2 ^ 216 :=
    (Nat.pow_le_pow_right (by decide) hscale).trans (by norm_num [compactFormat])
  have hlt := TruncFormat.truncate_lt_truncate (f := compactFormat)
    (x := x.toNat) (y := y.toNat) (by omega)
  rw [← (setCompact_getCompact x).2.2, ← (setCompact_getCompact y).2.2, heq] at hlt
  exact lt_irrefl _ hlt

theorem powLimit_lt (net : Network) : (consensusParams net).powLimit.toNat < 2 ^ 256 :=
  BaseBlob.toNat_lt _

variable {net : Network} {b : CBlockIndex} {p : Uint256} {next : UInt32}

theorem toNat_powLimit (h : net ≠ .regtest) (hs : net ≠ .signet) :
    (consensusParams net).powLimit.toNat = 2 ^ 236 - 1 := by
  cases net with
  | main | testnet | testnet4 => exact BaseBlob.toNat_ofHex (by norm_num)
  | signet => exact absurd rfl hs
  | regtest => exact absurd rfl h

theorem timespan_eq (h : net ≠ .regtest) :
    (consensusParams net).nPowTargetTimespan = 1209600 := by
  cases net <;> first | rfl | exact absurd rfl h

theorem signet_product_lt {base span : Nat}
    (hbase : base ≤ (consensusParams .signet).powLimit.toNat)
    (hspan : span ≤ (consensusParams .signet).nPowTargetTimespan * 4) :
    base * span < 2 ^ 256 := by
  have hlimit : (consensusParams .signet).powLimit.toNat = 0x377ae * 2 ^ 216 :=
    BaseBlob.toNat_ofHex (by norm_num)
  rw [timespan_eq (by decide)] at hspan
  calc base * span ≤ (0x377ae * 2 ^ 216) * (1209600 * 4) :=
        Nat.mul_le_mul (hlimit ▸ hbase) hspan
    _ < 2 ^ 256 := by norm_num

/-- A wrapped product falls short of the exact target by more than the compact
form can hide. -/
theorem wrapped_gap {product : Nat} (h : 2 ^ 256 ≤ product) :
    product % 2 ^ 256 / 1209600 + 2 ^ 216 ≤ min (2 ^ 236 - 1) (product / 1209600) := by
  omega

/-- `CalculateNextWorkRequired` returns the code of the exact target if and only
if the product fits 256 bits. -/
theorem calculateNextWorkRequired_exact_iff (net : Network) (hnet : net ≠ .regtest)
    (find : BlockHeap) (last : CBlockIndex) (nFirstBlockTime : Int) (bits : UInt32)
    (hlast : (deriveTarget last.nBits (consensusParams net).powLimit).isSome = true)
    (hbits : retargetBits find last (consensusParams net) = some bits) :
    calculateNextWorkRequired find last nFirstBlockTime (consensusParams net) =
        some ((ofNat (exactTarget (consensusParams net)
          (setCompact bits).value.toNat
          (last.getBlockTime - nFirstBlockTime))).getCompact false) ↔
      (setCompact bits).value.toNat *
        clampTimespan (consensusParams net).nPowTargetTimespan
          (last.getBlockTime - nFirstBlockTime) < 2 ^ 256 := by
  have hretarget : (consensusParams net).fPowNoRetargeting = false := by
    cases net <;> first | rfl | exact absurd rfl hnet
  obtain ⟨t, ht, hvalue⟩ :=
    calculateNextWorkRequired_spec (saneTimespan net) hretarget hbits nFirstBlockTime
  have hexact : (ofNat (exactTarget (consensusParams net)
      (setCompact bits).value.toNat (last.getBlockTime - nFirstBlockTime))).toNat =
      exactTarget (consensusParams net) (setCompact bits).value.toNat
        (last.getBlockTime - nFirstBlockTime) :=
    toNat_ofNat ((min_le_left _ _).trans_lt (powLimit_lt net))
  rw [ht, Option.some.injEq]
  constructor
  · intro hcode
    by_contra hwrap
    rw [Nat.not_lt] at hwrap
    by_cases hsignet : net = .signet
    · subst hsignet
      obtain rfl : last.nBits = bits := by simpa [retargetBits, consensusParams] using hbits
      obtain ⟨target, htarget⟩ := Option.isSome_iff_exists.mp hlast
      obtain ⟨-, -, rfl, -, hle⟩ := (deriveTarget_eq_some_iff _ _ _).mp htarget
      exact absurd (signet_product_lt hle (clampTimespan_bounds _ _).2) (Nat.not_lt.mpr hwrap)
    · rw [timespan_eq hnet] at hwrap
      have hgap := wrapped_gap hwrap
      refine getCompact_ne_of_lt ?_ ?_ hcode
      · rw [hvalue, hexact, exactTarget, toNat_powLimit hnet hsignet, timespan_eq hnet]
        exact (Nat.add_le_add_right (min_le_right _ _) _).trans hgap
      · rw [hexact, exactTarget, toNat_powLimit hnet hsignet]
        exact (min_le_left _ _).trans_lt (by norm_num)
  · intro hfits
    rw [Nat.mod_eq_of_lt hfits] at hvalue
    rw [BaseUint.toNat_injective (hvalue.trans hexact.symm)]

theorem calculateNextWorkRequired_exact_on_schedule :
    let last : CBlockIndex := { nBits := 0x1e00ffff, nTime := 1209600 }
    (deriveTarget last.nBits (consensusParams .main).powLimit).isSome = true ∧
      retargetBits (fun _ => none) last (consensusParams .main) = some 0x1e00ffff ∧
      calculateNextWorkRequired (fun _ => none) last 0 (consensusParams .main) =
        some ((ofNat (exactTarget (consensusParams .main)
          (setCompact 0x1e00ffff).value.toNat 1209600)).getCompact false) := by
  intro last
  have hlast : (deriveTarget last.nBits (consensusParams .main).powLimit).isSome = true := by
    decide
  have hbits : retargetBits (fun _ => none) last (consensusParams .main) = some 0x1e00ffff := rfl
  refine ⟨hlast, hbits, ?_⟩
  exact (calculateNextWorkRequired_exact_iff .main (by decide) (fun _ => none) last 0
    0x1e00ffff hlast hbits).mpr (by decide)

/-- The same at the main limit: the product wraps, and a period on schedule makes
blocks more than seven times harder. -/
theorem calculateNextWorkRequired_wraps_on_main :
    let last : CBlockIndex := { nBits := 0x1e0fffff, nTime := 1209600 }
    (deriveTarget last.nBits (consensusParams .main).powLimit).isSome = true ∧
      calculateNextWorkRequired (fun _ => none) last 0 (consensusParams .main) = some 0x1e022143 ∧
      calculateNextWorkRequired (fun _ => none) last 0 (consensusParams .main) ≠
        some ((ofNat (exactTarget (consensusParams .main)
          (setCompact last.nBits).value.toNat 1209600)).getCompact false) := by
  intro last
  obtain ⟨t, ht, hvalue⟩ := calculateNextWorkRequired_spec (saneTimespan .main) rfl
    (rfl : retargetBits (fun _ => none) last (consensusParams .main) = some 0x1e0fffff) 0
  have hwrapped : t = ofNat ((0xfffff * 2 ^ 216 * 1209600 - 2 ^ 256) / 1209600) := by
    apply BaseUint.toNat_injective
    rw [hvalue]
    decide
  have hcode : calculateNextWorkRequired (fun _ => none) last 0 (consensusParams .main) =
      some 0x1e022143 := by
    rw [ht, hwrapped]
    decide
  refine ⟨by decide, hcode, ?_⟩
  rw [hcode]
  decide

/-! ## Header chains and the permitted transitions -/

/-- Every entry is a root whose code is a positive target within the limit, or
stands on a parent from which its code is the required one. -/
structure WorkChain (params : Params) (find : BlockHeap) : Prop where
  root : ∀ p b, find p = some b → b.pprev = none →
    b.nHeight = 0 ∧ (deriveTarget b.nBits params.powLimit).isSome = true
  child : ∀ p b q, find p = some b → b.pprev = some q → ∃ prev, find q = some prev ∧
    b.nHeight = prev.nHeight + 1 ∧
    ∃ header : CBlockHeader, header.nTime = b.nTime ∧
      getNextWorkRequired find prev header params = some b.nBits

def targetOf (nBits : UInt32) : Nat := (setCompact nBits).value.toNat

theorem targetOf_def (nBits : UInt32) : targetOf nBits = (setCompact nBits).value.toNat := rfl

/-- The rules main and signet share: no special minimum difficulty, the last
block's target as base, and retargeting. -/
structure Params.Plain (params : Params) : Prop where
  noMinDifficulty : params.fPowAllowMinDifficultyBlocks = false
  noBIP94 : params.enforceBIP94 = false
  retargets : params.fPowNoRetargeting = false

theorem getNextWorkRequired_cases (hplain : params.Plain) {header : CBlockHeader}
    (h : getNextWorkRequired find last header params = some nBits) :
    ((last.nHeight + 1) % params.difficultyAdjustmentInterval ≠ 0 ∧ nBits = last.nBits) ∨
    ((last.nHeight + 1) % params.difficultyAdjustmentInterval = 0 ∧
      ∃ nFirstBlockTime,
        calculateNextWorkRequired find last nFirstBlockTime params = some nBits) := by
  unfold getNextWorkRequired at h
  simp only [hplain.noMinDifficulty] at h
  split at h
  next hne => exact .inl ⟨hne, by simpa using h.symm⟩
  next heq =>
    refine .inr ⟨not_not.mp heq, ?_⟩
    split at h
    next =>
      simp only [Option.bind_eq_bind, Option.bind_eq_some_iff] at h
      obtain ⟨_, -, first, -, hcalc⟩ := h
      exact ⟨_, hcalc⟩
    next => cases h

def scaledTarget (params : Params) (nBits : UInt32) (timespan : Nat) : Nat :=
  targetOf ((ofNat (min params.powLimit.toNat
    (targetOf nBits * timespan % 2 ^ 256 / params.nPowTargetTimespan))).getCompact false)

theorem scaledTarget_eq_truncate (params : Params) (nBits : UInt32) (timespan : Nat) :
    scaledTarget params nBits timespan =
      compactFormat.truncate (min params.powLimit.toNat
        (targetOf nBits * timespan % 2 ^ 256 / params.nPowTargetTimespan)) := by
  rw [scaledTarget, targetOf, (setCompact_getCompact _).2.2,
    toNat_ofNat ((min_le_left _ _).trans_lt (BaseBlob.toNat_lt _))]

theorem scaledTarget_mono (params : Params) {short long : Nat}
    (hle : short ≤ long) (hfits : targetOf nBits * long < 2 ^ 256) :
    scaledTarget params nBits short ≤ scaledTarget params nBits long := by
  have hshort : targetOf nBits * short ≤ targetOf nBits * long := Nat.mul_le_mul_left _ hle
  rw [scaledTarget_eq_truncate, scaledTarget_eq_truncate, Nat.mod_eq_of_lt hfits,
    Nat.mod_eq_of_lt (hshort.trans_lt hfits)]
  exact TruncFormat.truncate_mono (min_le_min_left _ (Nat.div_le_div_right hshort))

theorem targetOf_getCompact {timespan : Nat}
    {t : ArithUint256} (ht : t.toNat = min params.powLimit.toNat
      (targetOf nBits * timespan % 2 ^ 256 / params.nPowTargetTimespan)) :
    targetOf (t.getCompact false) = scaledTarget params nBits timespan := by
  rw [scaledTarget_eq_truncate, targetOf, (setCompact_getCompact t).2.2, ht]

theorem targetOf_calculateNextWorkRequired (hsane : params.SaneTimespan)
    (hplain : params.Plain) {nFirstBlockTime : Int}
    (h : calculateNextWorkRequired find last nFirstBlockTime params = some nBits) :
    targetOf nBits = scaledTarget params last.nBits
      (clampTimespan params.nPowTargetTimespan (last.getBlockTime - nFirstBlockTime)) := by
  have hbits : retargetBits find last params = some last.nBits := by
    simp [retargetBits, hplain.noBIP94]
  obtain ⟨t, ht, hvalue⟩ :=
    calculateNextWorkRequired_spec hsane hplain.retargets hbits nFirstBlockTime
  obtain rfl : t.getCompact false = nBits := Option.some.inj (ht.symm.trans h)
  exact targetOf_getCompact hvalue

/-- At a retarget height the permitted targets are those between the ones for the
shortest and the longest timespan. -/
theorem permittedDifficultyTransition_retarget (hsane : params.SaneTimespan) (hplain : params.Plain)
    (hheight : height % params.difficultyAdjustmentInterval = 0) (oldNbits newNbits : UInt32) :
    permittedDifficultyTransition params height oldNbits newNbits =
      some (decide (targetOf newNbits ≤
          scaledTarget params oldNbits (params.nPowTargetTimespan * 4)) &&
        decide (scaledTarget params oldNbits (params.nPowTargetTimespan / 4) ≤
          targetOf newNbits)) := by
  obtain ⟨largest, hlargest, hlargestValue⟩ := scaleTarget_spec hsane
    (setCompact oldNbits).value (le_refl (params.nPowTargetTimespan * 4))
  obtain ⟨smallest, hsmallest, hsmallestValue⟩ := scaleTarget_spec hsane
    (setCompact oldNbits).value
    (by omega : params.nPowTargetTimespan / 4 ≤ params.nPowTargetTimespan * 4)
  rw [← targetOf_getCompact hlargestValue, ← targetOf_getCompact hsmallestValue]
  simp only [permittedDifficultyTransition, hplain.noMinDifficulty, hheight, hlargest,
    hsmallest, BaseUint.compareTo_eq, some_bind, if_true,
    Nat.compare_eq_lt, Nat.compare_eq_gt, Bool.false_eq_true, if_false, ← targetOf_def]
  split
  next hlt => simp [Nat.not_le.mpr hlt]
  next hge =>
    split
    next hlt => simp [Nat.not_le.mpr hlt]
    next hle => simp [Nat.not_lt.mp hge, Nat.not_lt.mp hle]

theorem WorkChain.targetOf_le (hchain : WorkChain params find) (hsane : params.SaneTimespan)
    (hplain : params.Plain) (hb : find p = some b) : targetOf b.nBits ≤ params.powLimit.toNat := by
  induction hn : b.nHeight generalizing p b with
  | zero =>
    cases hprev : b.pprev with
    | none =>
      obtain ⟨t, ht⟩ := Option.isSome_iff_exists.mp (hchain.root p b hb hprev).2
      obtain ⟨-, -, rfl, -, hle⟩ := (deriveTarget_eq_some_iff _ _ _).mp ht
      exact hle
    | some q =>
      obtain ⟨prev, -, hheight, -⟩ := hchain.child p b q hb hprev
      omega
  | succ n ih =>
    cases hprev : b.pprev with
    | none =>
      have := (hchain.root p b hb hprev).1
      omega
    | some q =>
      obtain ⟨prev, hfind, hheight, header, -, hwork⟩ := hchain.child p b q hb hprev
      rcases getNextWorkRequired_cases hplain hwork with ⟨-, hsame⟩ | ⟨-, first, hcalc⟩
      · rw [hsame]
        exact ih hfind (by omega)
      · rw [targetOf_calculateNextWorkRequired hsane hplain hcalc, scaledTarget_eq_truncate]
        exact (TruncFormat.truncate_le _).trans (min_le_left _ _)

theorem plain_of_main_or_signet (h : net = .main ∨ net = .signet) :
    (consensusParams net).Plain := by
  rcases h with rfl | rfl <;> constructor <;> rfl

/-- On main and signet, `PermittedDifficultyTransition` accepts every step of a
header chain, provided that on main no retarget starts from a target whose
fourfold timespan product exceeds 256 bits. -/
theorem permittedDifficultyTransition_of_workChain (net : Network)
    (hnet : net = .main ∨ net = .signet) (find : BlockHeap)
    (hchain : WorkChain (consensusParams net) find)
    (hfits : net = .main → ∀ p b q prev, find p = some b → b.pprev = some q →
      find q = some prev → b.nHeight % (consensusParams net).difficultyAdjustmentInterval = 0 →
      targetOf prev.nBits * ((consensusParams net).nPowTargetTimespan * 4) < 2 ^ 256) :
    ∀ p b q prev, find p = some b → b.pprev = some q → find q = some prev →
      permittedDifficultyTransition (consensusParams net) b.nHeight prev.nBits b.nBits =
        some true := by
  intro p b q prev hb hq hprev
  have hplain := plain_of_main_or_signet hnet
  have hsane := saneTimespan net
  obtain ⟨prev', hprev', hheight, header, -, hwork⟩ := hchain.child p b q hb hq
  obtain rfl : prev' = prev := Option.some.inj (hprev'.symm.trans hprev)
  rcases getNextWorkRequired_cases hplain hwork with ⟨hne, hsame⟩ | ⟨heq, first, hcalc⟩
  · simp [permittedDifficultyTransition, hplain.noMinDifficulty, hheight, hne, hsame]
  · have hproduct : targetOf prev'.nBits *
        ((consensusParams net).nPowTargetTimespan * 4) < 2 ^ 256 := by
      rcases hnet with rfl | rfl
      · exact hfits rfl p b q prev' hb hq hprev (hheight ▸ heq)
      · exact signet_product_lt (hchain.targetOf_le hsane hplain hprev) le_rfl
    obtain ⟨hlow, hhigh⟩ := clampTimespan_bounds (consensusParams net).nPowTargetTimespan
      (prev'.getBlockTime - first)
    rw [permittedDifficultyTransition_retarget hsane hplain (hheight ▸ heq),
      targetOf_calculateNextWorkRequired hsane hplain hcalc]
    have hmax := scaledTarget_mono (consensusParams net) hhigh hproduct
    have hmin := scaledTarget_mono (consensusParams net) hlow
      ((Nat.mul_le_mul_left _ hhigh).trans_lt hproduct)
    simp [hmax, hmin]

/-! ### One period on schedule -/

/-- A main chain of one adjustment period with a block every ten minutes, all at
the target `bits`, followed by the first block of the next period at `next`. -/
def scheduleEntry (bits next : UInt32) (height : Nat) : CBlockIndex :=
  { phashBlock := some (.ofHex height)
    pprev := if height = 0 then none else some (.ofHex (height - 1))
    pskip := if height = 0 then none else some (.ofHex (getSkipHeight height))
    nHeight := height
    nTime := UInt32.ofNat (600 * height)
    nBits := if height < 2016 then bits else next }

def scheduleChain (bits next : UInt32) : BlockHeap := fun p =>
  if p.toNat ≤ 2016 then some (scheduleEntry bits next p.toNat) else none

section

variable (bits next : UInt32)

theorem scheduleChain_ofHex (h : height ≤ 2016) :
    scheduleChain bits next (.ofHex height) = some (scheduleEntry bits next height) := by
  rw [scheduleChain, BaseBlob.toNat_ofHex (h.trans_lt (by norm_num)), if_pos h]

theorem scheduleEntry_pprev (height : Nat) :
    (scheduleEntry bits next (height + 1)).pprev = some (.ofHex height) := by
  simp [scheduleEntry]

theorem scheduleEntry_prev (h : height < 2016) :
    (scheduleEntry bits next (height + 1)).prev? (scheduleChain bits next) =
      some (scheduleEntry bits next height) := by
  rw [prev?, scheduleEntry_pprev, some_bind,
    scheduleChain_ofHex bits next h.le]

theorem scheduleEntry_backBy {steps : Nat} (h : height ≤ 2016) (hsteps : steps ≤ height) :
    backBy (scheduleChain bits next) steps (scheduleEntry bits next height) =
      some (scheduleEntry bits next (height - steps)) := by
  induction steps generalizing height with
  | zero => rfl
  | succ steps ih =>
    obtain _ | height := height
    · omega
    rw [backBy, scheduleEntry_prev bits next (by omega), Nat.add_sub_add_right,
      some_bind, ih (by omega) (by omega)]

theorem scheduleChain_linked (p : Uint256) (e : CBlockIndex)
    (he : scheduleChain bits next p = some e) : e.Linked (scheduleChain bits next) := by
  unfold scheduleChain at he
  split at he
  next hle =>
    obtain rfl := Option.some.inj he
    generalize p.toNat = height at hle
    refine ⟨fun hne => ?_, fun hskip => ?_⟩
    · obtain ⟨height, rfl⟩ : ∃ k, height = k + 1 := ⟨height - 1, by
        have : height ≠ 0 := hne
        omega⟩
      exact ⟨_, scheduleEntry_prev bits next hle, rfl⟩
    · have hne : height ≠ 0 := by
        rintro rfl
        simp [scheduleEntry] at hskip
      have hpskip : (scheduleEntry bits next height).pskip =
          some (.ofHex (getSkipHeight height)) := by
        simp [scheduleEntry, hne]
      have hlt := getSkipHeight_lt (Nat.pos_of_ne_zero hne)
      change _ = backBy _ (height - getSkipHeight height) _
      rw [scheduleEntry_backBy bits next hle (by omega), skip?, hpskip,
        show height - (height - getSkipHeight height) = getSkipHeight height by omega,
        some_bind, scheduleChain_ofHex bits next (by omega)]
  next => cases he

theorem scheduleChain_first :
    (scheduleEntry bits next 2015).getAncestor (scheduleChain bits next) 0 =
      some (some (scheduleEntry bits next 0)) := by
  have hheap := scheduleChain_linked bits next
  have hentry := hheap _ _ (scheduleChain_ofHex bits next (by norm_num : 2015 ≤ 2016))
  have hancestor := getAncestor_eq hheap hentry (Nat.zero_le _)
  change _ = (backBy _ 2015 _).map some at hancestor
  rw [scheduleEntry_backBy bits next (by norm_num) le_rfl] at hancestor
  exact hancestor

end

theorem scheduleChain_workChain
    (hbits : (deriveTarget bits (consensusParams .main).powLimit).isSome = true)
    (hnext : calculateNextWorkRequired (scheduleChain bits next) (scheduleEntry bits next 2015) 0
      (consensusParams .main) = some next) :
    WorkChain (consensusParams .main) (scheduleChain bits next) := by
  have hentry : ∀ p b, scheduleChain bits next p = some b →
      ∃ height ≤ 2016, b = scheduleEntry bits next height := by
    intro p b hb
    unfold scheduleChain at hb
    split at hb
    next hle => exact ⟨p.toNat, hle, (Option.some.inj hb).symm⟩
    next => cases hb
  constructor
  · intro p b hb hroot
    obtain ⟨height, -, rfl⟩ := hentry p b hb
    obtain rfl : height = 0 := by
      by_contra hne
      simp [scheduleEntry, hne] at hroot
    exact ⟨rfl, hbits⟩
  · intro p b q hb hq
    obtain ⟨height, hle, rfl⟩ := hentry p b hb
    obtain ⟨height, rfl⟩ : ∃ k, height = k + 1 := by
      rcases height with - | k
      · simp [scheduleEntry] at hq
      · exact ⟨k, rfl⟩
    have hprev := scheduleEntry_prev bits next hle
    rw [prev?, hq] at hprev
    refine ⟨_, hprev, rfl, { nTime := (scheduleEntry bits next (height + 1)).nTime }, rfl, ?_⟩
    have hinterval : (consensusParams .main).difficultyAdjustmentInterval = 2016 := rfl
    have hheight : (scheduleEntry bits next height).nHeight = height := rfl
    simp only [getNextWorkRequired, hinterval, hheight]
    by_cases hlast : height = 2015
    · subst hlast
      rw [if_neg (by norm_num), if_pos (by norm_num)]
      norm_num only [Nat.cast_ofNat, sub_self]
      rw [scheduleChain_first]
      exact hnext
    · have hsame : (scheduleEntry bits next (height + 1)).nBits =
          (scheduleEntry bits next height).nBits := by
        simp [scheduleEntry, show height < 2016 by omega, show height + 1 < 2016 by omega]
      rw [if_pos (by omega), hsame]
      rfl

theorem scheduleChain_next (next code : UInt32)
    {t : Nat} (ht : t = min (consensusParams .main).powLimit.toNat
      ((setCompact bits).value.toNat * 1209000 % 2 ^ 256 / 1209600))
    (hcode : (ofNat t).getCompact false = code) :
    calculateNextWorkRequired (scheduleChain bits next) (scheduleEntry bits next 2015) 0
      (consensusParams .main) = some code := by
  obtain ⟨x, hx, hvalue⟩ := calculateNextWorkRequired_spec (saneTimespan .main) rfl
    (rfl : retargetBits (scheduleChain bits next) (scheduleEntry bits next 2015)
      (consensusParams .main) = some bits) 0
  have hspan : clampTimespan (consensusParams .main).nPowTargetTimespan
      ((scheduleEntry bits next 2015).getBlockTime - 0) = 1209000 := by
    have htime : (scheduleEntry bits next 2015).getBlockTime = 1209000 := rfl
    rw [htime]
    decide
  rw [hspan] at hvalue
  have hxt : x = ofNat t := by
    apply BaseUint.toNat_injective
    rw [hvalue, ht, toNat_ofNat ((min_le_left _ _).trans_lt (powLimit_lt .main))]
    rfl
  rw [hx, hxt, hcode]

theorem scheduleChain_nBits (hb : scheduleChain bits next p = some b) :
    b.nBits = bits ∨ b.nBits = next := by
  unfold scheduleChain at hb
  split at hb
  next =>
    obtain rfl := Option.some.inj hb
    simp only [scheduleEntry]
    split
    · exact .inl rfl
    · exact .inr rfl
  next => cases hb

theorem permittedDifficultyTransition_on_schedule :
    WorkChain (consensusParams .main) (scheduleChain 0x1d00ffff 0x1d00ffde) ∧
      permittedDifficultyTransition (consensusParams .main) 2016
        (scheduleEntry 0x1d00ffff 0x1d00ffde 2015).nBits
        (scheduleEntry 0x1d00ffff 0x1d00ffde 2016).nBits = some true := by
  have hchain : WorkChain (consensusParams .main) (scheduleChain 0x1d00ffff 0x1d00ffde) :=
    scheduleChain_workChain (by decide)
      (scheduleChain_next _ _ rfl (by decide))
  have hfits : ∀ p b, scheduleChain 0x1d00ffff 0x1d00ffde p = some b →
      targetOf b.nBits * ((consensusParams .main).nPowTargetTimespan * 4) < 2 ^ 256 := by
    intro p b hb
    rcases scheduleChain_nBits hb with h | h <;> rw [h] <;> decide
  refine ⟨hchain, ?_⟩
  exact permittedDifficultyTransition_of_workChain .main (.inl rfl) _ hchain
    (fun _ _ _ q prev _ _ hprev _ => hfits q prev hprev) (.ofHex 2016)
    (scheduleEntry 0x1d00ffff 0x1d00ffde 2016) (.ofHex 2015)
    (scheduleEntry 0x1d00ffff 0x1d00ffde 2015) (scheduleChain_ofHex _ _ le_rfl)
    (scheduleEntry_pprev _ _ 2015) (scheduleChain_ofHex _ _ (by norm_num))

/-- At the main limit the retarget of a period on schedule wraps to a target that
headers pre-synchronization refuses. -/
theorem permittedDifficultyTransition_refuses_required :
    WorkChain (consensusParams .main) (scheduleChain 0x1e0fffff 0x1e021f3b) ∧
      (scheduleEntry 0x1e0fffff 0x1e021f3b 2016).prev? (scheduleChain 0x1e0fffff 0x1e021f3b) =
        some (scheduleEntry 0x1e0fffff 0x1e021f3b 2015) ∧
      permittedDifficultyTransition (consensusParams .main) 2016
        (scheduleEntry 0x1e0fffff 0x1e021f3b 2015).nBits
        (scheduleEntry 0x1e0fffff 0x1e021f3b 2016).nBits = some false := by
  refine ⟨scheduleChain_workChain (by decide)
    (scheduleChain_next _ _ rfl (by decide)),
    scheduleEntry_prev _ _ (by norm_num), ?_⟩
  rw [permittedDifficultyTransition_retarget (saneTimespan .main)
    (plain_of_main_or_signet (.inl rfl)) rfl]
  decide

end HcsCoin
