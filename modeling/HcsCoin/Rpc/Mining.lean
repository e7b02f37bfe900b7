import HcsCoin.Malleability

/-!
# The mining loop of the generate calls

`GenerateBlock` counts up the nonce of a template until the identity of the
block meets the target.  Validation wants the work on the legacy part of the
header instead, and in a block with a parent a quantum proof, which the loop
never makes.
-/

namespace HcsCoin

open Foundation

/-- The shutdown flag.  It is set from another thread and stays set; the loop sees it
from its round `setFrom` on. -/
structure SignalInterrupt where
  setFrom : Option Nat := none

namespace SignalInterrupt

def isSet (interrupt : SignalInterrupt) (round : Nat) : Bool :=
  interrupt.setFrom.any (· ≤ round)

end SignalInterrupt

structure NonceSearch where
  block : CBlock
  maxTries : Nat
  round : Nat := 0

def NonceSearch.continues (params : Params) (interrupt : SignalInterrupt) (s : NonceSearch) : Bool :=
  decide (s.maxTries > 0) && decide (s.block.nNonce < 0xffffffff) &&
    !checkProofOfWork s.block.getHash s.block.nBits params && !interrupt.isSet s.round

def NonceSearch.step (s : NonceSearch) : NonceSearch :=
  ⟨{ s.block with nNonce := s.block.nNonce + 1 }, s.maxTries - 1, s.round + 1⟩

/-- The loop itself.  Each round uses up a try, so the tries at the start bound it. -/
def NonceSearch.run (params : Params) (interrupt : SignalInterrupt) :
    (fuel : Nat) → NonceSearch → NonceSearch
  | 0, s => s
  | fuel + 1, s => if s.continues params interrupt then s.step.run params interrupt fuel else s

structure GenerateResult where
  success : Bool
  blockOut : Option CBlock
  maxTries : Nat

def NonceSearch.result (interrupt : SignalInterrupt) (s : NonceSearch) : GenerateResult :=
  if s.maxTries = 0 || interrupt.isSet s.round then ⟨false, none, s.maxTries⟩
  else if s.block.nNonce = 0xffffffff then ⟨true, none, s.maxTries⟩
  else ⟨true, some s.block, s.maxTries⟩

/-- `GenerateBlock` up to the call of `ProcessNewBlock`, which gets `blockOut`. -/
def generateBlock (params : Params) (interrupt : SignalInterrupt) (block : CBlock)
    (maxTries : Nat) : GenerateResult :=
  let rooted := { block with hashMerkleRoot := (blockMerkleRoot block).1 }
  (NonceSearch.run params interrupt maxTries { block := rooted, maxTries }).result interrupt

/-! ## What the loop finds -/

/-- The template in a round of the search. -/
def candidate (template : CBlock) (round : Nat) : CBlock :=
  { template with
    hashMerkleRoot := (blockMerkleRoot template).1
    nNonce := .ofNat (template.nNonce.toNat + round) }

variable {params : Params} {interrupt : SignalInterrupt} {template block : CBlock}
  {maxTries round fuel : Nat} {s : NonceSearch}

theorem candidate_nNonce (h : template.nNonce.toNat + round < 2 ^ 32) :
    (candidate template round).nNonce.toNat = template.nNonce.toNat + round := by
  rw [candidate, UInt32.toNat_ofNat', Nat.mod_eq_of_lt h]

structure NonceSearch.Inv (template : CBlock) (maxTries : Nat) (s : NonceSearch) : Prop where
  block_eq : s.block = candidate template s.round
  tries : s.maxTries + s.round = maxTries
  nonce : template.nNonce.toNat + s.round < 2 ^ 32

namespace NonceSearch

theorem Inv.nNonce (h : s.Inv template maxTries) :
    s.block.nNonce.toNat = template.nNonce.toNat + s.round := by
  rw [h.block_eq, candidate_nNonce h.nonce]

theorem continues_iff :
    s.continues params interrupt = true ↔
      0 < s.maxTries ∧ s.block.nNonce < 0xffffffff ∧
        checkProofOfWork s.block.getHash s.block.nBits params = false ∧
        interrupt.isSet s.round = false := by
  simp [continues, and_assoc]

theorem Inv.step (h : s.Inv template maxTries) (hcontinues : s.continues params interrupt = true) :
    s.step.Inv template maxTries := by
  obtain ⟨htries, hnonce, -, -⟩ := continues_iff.mp hcontinues
  rw [UInt32.lt_iff_toNat_lt, h.nNonce] at hnonce
  have hlt : template.nNonce.toNat + s.round < 4294967295 := hnonce
  have hnext : (candidate template s.round).nNonce + 1 =
      (candidate template (s.round + 1)).nNonce :=
    UInt32.toNat_inj.mp (by simp [candidate, UInt32.toNat_add, Nat.add_assoc])
  refine ⟨?_, ?_, ?_⟩
  · rw [NonceSearch.step, h.block_eq, hnext]
    rfl
  · have := h.tries
    change s.maxTries - 1 + (s.round + 1) = maxTries
    omega
  · change template.nNonce.toNat + (s.round + 1) < 2 ^ 32
    omega

/-- The search keeps its invariant, and enough fuel brings it to its end. -/
theorem Inv.run (h : s.Inv template maxTries) (hfuel : s.maxTries ≤ fuel) :
    (s.run params interrupt fuel).Inv template maxTries ∧
      (s.run params interrupt fuel).continues params interrupt = false := by
  induction fuel generalizing s with
  | zero =>
    refine ⟨h, Bool.eq_false_iff.mpr fun hcontinues => ?_⟩
    exact absurd (continues_iff.mp hcontinues).1 (Nat.not_lt.mpr hfuel)
  | succ fuel ih =>
    rw [NonceSearch.run]
    split
    case isTrue hcontinues =>
      refine ih (h.step hcontinues) ?_
      change s.maxTries - 1 ≤ fuel
      omega
    case isFalse hstop => exact ⟨h, Bool.eq_false_iff.mpr hstop⟩

theorem result_eq_some (h : (s.result interrupt).blockOut = some block) :
    s.maxTries ≠ 0 ∧ interrupt.isSet s.round = false ∧ s.block.nNonce ≠ 0xffffffff ∧
      block = s.block := by
  rw [NonceSearch.result] at h
  split at h
  next => cases h
  next hrunning =>
    split at h
    next => cases h
    next hnonce =>
      cases h
      simp only [Bool.or_eq_true, decide_eq_true_eq, not_or, Bool.not_eq_true] at hrunning
      exact ⟨hrunning.1, hrunning.2, hnonce, rfl⟩

theorem Inv.found (h : s.Inv template maxTries) (hstop : s.continues params interrupt = false)
    (hout : (s.result interrupt).blockOut = some block) :
    ∃ round < maxTries, template.nNonce.toNat + round < 0xffffffff ∧
      block = candidate template round ∧
      checkProofOfWork block.getHash template.nBits params = true := by
  obtain ⟨htries, hrunning, hnonce, rfl⟩ := result_eq_some hout
  have hlt : template.nNonce.toNat + s.round < 4294967295 := by
    have hne : template.nNonce.toNat + s.round ≠ 4294967295 := by
      rw [← h.nNonce]
      exact fun heq => hnonce (UInt32.toNat_inj.mp heq)
    have := h.nonce
    omega
  refine ⟨s.round, by have := h.tries; omega, hlt, h.block_eq, ?_⟩
  -- the only reason left to stop
  by_contra hwork
  refine Bool.eq_false_iff.mp hstop (continues_iff.mpr ⟨by omega, ?_, ?_, hrunning⟩)
  · rwa [UInt32.lt_iff_toNat_lt, h.nNonce]
  · rw [h.block_eq] at hwork ⊢
    exact Bool.eq_false_iff.mpr hwork

end NonceSearch

/-- What `GenerateBlock` gives out is the template with a nonce of its range whose
identity meets the target. -/
theorem generateBlock_eq_some
    (h : (generateBlock params interrupt template maxTries).blockOut = some block) :
    ∃ round < maxTries, template.nNonce.toNat + round < 0xffffffff ∧
      block = candidate template round ∧
      checkProofOfWork block.getHash template.nBits params = true := by
  have hstart : NonceSearch.Inv template maxTries
      { block := { template with hashMerkleRoot := (blockMerkleRoot template).1 }, maxTries } := by
    refine ⟨?_, rfl, template.nNonce.toNat_lt⟩
    rw [candidate, Nat.add_zero, UInt32.ofNat_toNat]
  obtain ⟨hinv, hstop⟩ := hstart.run le_rfl
  exact hinv.found hstop h

/-! ## Mined blocks and validation -/

theorem checkBlockContents_candidate {i j : Nat}
    (h : checkBlockContents (candidate template i) = .ok ()) :
    checkBlockContents (candidate template j) = .ok () := by
  have hlength : ((candidate template j).serialize false).length =
      ((candidate template i).serialize false).length := by
    simp [candidate, CBlock.serialize, CBlockHeader.serialize, CBlockHeader.serializeLegacy,
      serUInt32]
  have hvtx : (candidate template i).vtx = (candidate template j).vtx := rfl
  refine checkBlockContents_of_strip_eq (congrArg (List.map CTransaction.strip) hvtx) ?_ h
  rw [oversize, hlength]
  exact (checkBlockSize_ok_iff.mp (checkBlockContents_ok_iff.mp h).1).2.2

/-- What `GenerateBlock` makes of a first block that is valid up to its work passes
`CheckBlock`, if on the nonces in reach an identity that meets the target comes with a
legacy hash that does.  With a parent, the loop makes no quantum proof. -/
theorem generated_blocks_pass {env : CheckEnv} {params : Params} {template block : CBlock}
    {interrupt : SignalInterrupt} {maxTries : Nat}
    (hvalid : PassesCheckBlock env (candidate template 0) params false)
    (hfirst : template.hashPrevBlock.isNull = true) (hsignet : params.signetBlocks = false)
    (hwork : ∀ round < maxTries, template.nNonce.toNat + round < 0xffffffff →
      checkProofOfWork (candidate template round).getHash template.nBits params = true →
      checkProofOfWork (candidate template round).getHashProof template.nBits params = true)
    (h : (generateBlock params interrupt template maxTries).blockOut = some block) :
    PassesCheckBlock env block params true := by
  obtain ⟨round, htries, hnonce, rfl, hidentity⟩ := generateBlock_eq_some h
  obtain ⟨-, hroot, hcontents⟩ := passesCheckBlock_iff.mp hvalid
  refine passesCheckBlock_iff.mpr ⟨?_, hroot, checkBlockContents_candidate hcontents⟩
  refine (checkBlockProofs_ok_iff hsignet).mpr ⟨?_, fun hparent => ?_⟩
  · exact (checkBlockHeader_ok_iff _ _).mpr (hwork round htries hnonce hidentity)
  · exact absurd (hfirst.symm.trans hparent) (by decide)

def regtestTemplate (hashPrevBlock : Uint256) (nNonce : UInt32) : CBlock where
  hashPrevBlock := hashPrevBlock
  nBits := 0x207fffff
  nNonce := nNonce
  vtx := [sampleCoinBase]

/-- The search from nonce 27 passes two nonces without work. -/
theorem generated_first_block_passes :
    (generateBlock (consensusParams .regtest) {} (regtestTemplate .null 27) 4).blockOut =
        some (candidate (regtestTemplate .null 27) 2) ∧
      PassesCheckBlock ⟨.ieee, fun _ _ => false⟩ (candidate (regtestTemplate .null 27) 2)
        (consensusParams .regtest) true := by
  have hfound : (generateBlock (consensusParams .regtest) {} (regtestTemplate .null 27) 4).blockOut =
      some (candidate (regtestTemplate .null 27) 2) := by decide +kernel
  have hvalid : PassesCheckBlock ⟨.ieee, fun _ _ => false⟩ (candidate (regtestTemplate .null 27) 0)
      (consensusParams .regtest) false :=
    ⟨{ mCheckedMerkleRoot := true }, by decide +kernel⟩
  exact ⟨hfound, generated_blocks_pass hvalid rfl rfl (by decide +kernel) hfound⟩

/-- A block with a parent comes out of the loop without a quantum proof. -/
theorem generated_block_without_proof :
    PassesCheckBlock ⟨.ieee, fun _ _ => false⟩ (candidate (regtestTemplate (.ofHex 1) 12) 0)
        (consensusParams .regtest) false ∧
      (generateBlock (consensusParams .regtest) {} (regtestTemplate (.ofHex 1) 12) 1).blockOut =
        some (candidate (regtestTemplate (.ofHex 1) 12) 0) ∧
      checkBlock ⟨.ieee, fun _ _ => false⟩ (candidate (regtestTemplate (.ofHex 1) 12) 0) {}
          (consensusParams .regtest) true true =
        some (.error ⟨.invalidHeader, "bad-quantum-fp", "quantum fingerprint mismatch"⟩, {}) :=
  ⟨⟨{ mCheckedMerkleRoot := true }, by decide +kernel⟩, by decide +kernel, by decide +kernel⟩

end HcsCoin
