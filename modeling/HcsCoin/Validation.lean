import HcsCoin.Consensus.Merkle
import HcsCoin.Consensus.Quantum
import HcsCoin.Consensus.TxCheck
import HcsCoin.Pow

/-!
# Context-free block checks

`CheckBlockHeader`, `CheckBlock` and the malleation checks of `validation.cpp`.
The cache flags of a block are passed in and handed back, since a check that
fails late has already set the flags of the checks before it.  An assertion that
fails, or a simulation that is undefined, is `none`.
-/

namespace HcsCoin

open Foundation

inductive BlockValidationResult where
  | consensus
  | invalidHeader
  | mutated
  deriving DecidableEq

structure BlockInvalid where
  result : BlockValidationResult
  rejectReason : String
  debugMessage : String
  deriving DecidableEq

abbrev BlockCheck := Except BlockInvalid Unit

structure BlockFlags where
  fChecked : Bool := false
  mCheckedWitnessCommitment : Bool := false
  mCheckedMerkleRoot : Bool := false
  deriving DecidableEq

/-- What the checks take from outside: the arithmetic of the simulation and the
signet block signature, which is a run of the script interpreter. -/
structure CheckEnv where
  fp : FloatOps
  checkSignetBlockSolution : CBlock → Params → Bool

def checkBlockHeader (block : CBlockHeader) (params : Params) (fCheckPOW : Bool) : BlockCheck :=
  if fCheckPOW && !checkProofOfWork block.getHashProof block.nBits params then
    .error ⟨.invalidHeader, "high-hash", "proof of work failed"⟩
  else .ok ()

def checkMerkleRoot (block : CBlock) (flags : BlockFlags) : BlockCheck × BlockFlags :=
  if flags.mCheckedMerkleRoot then (.ok (), flags)
  else
    let (merkleRoot, mutated) := blockMerkleRoot block
    if block.hashMerkleRoot ≠ merkleRoot then
      (.error ⟨.mutated, "bad-txnmrklroot", "hashMerkleRoot mismatch"⟩, flags)
    else if mutated then
      (.error ⟨.mutated, "bad-txns-duplicate", "duplicate transaction"⟩, flags)
    else (.ok (), { flags with mCheckedMerkleRoot := true })

/-! ## Witness commitment -/

def MINIMUM_WITNESS_COMMITMENT : Nat := 38

def isWitnessCommitment (scriptPubKey : Bytes) : Bool :=
  scriptPubKey.length ≥ MINIMUM_WITNESS_COMMITMENT &&
    scriptPubKey.take 6 == [OP_RETURN, 0x24, 0xaa, 0x21, 0xa9, 0xed]

def getWitnessCommitmentIndex (block : CBlock) : Option Nat := do
  let tx ← block.vtx.head?
  ((List.range tx.vout.length).filter fun o =>
    tx.vout[o]?.any fun txout => isWitnessCommitment txout.scriptPubKey).getLast?

def unexpectedWitness (block : CBlock) : BlockCheck :=
  if block.vtx.any CTransaction.hasWitness then
    .error ⟨.mutated, "unexpected-witness",
      "CheckWitnessMalleation : unexpected witness data found"⟩
  else .ok ()

/-- The comparison with the commitment at `commitpos`, given the reserved value. -/
def checkWitnessCommitment (block : CBlock) (commitment : Bytes) : List Bytes → BlockCheck
  | [reserved] =>
    if reserved.length ≠ 32 then
      .error ⟨.mutated, "bad-witness-nonce-size",
        "CheckWitnessMalleation : invalid witness reserved value size"⟩
    else if (hash256 ((blockWitnessMerkleRoot block).mData ++ reserved)).mData ≠ commitment then
      .error ⟨.mutated, "bad-witness-merkle-match",
        "CheckWitnessMalleation : witness merkle commitment mismatch"⟩
    else .ok ()
  | _ =>
    .error ⟨.mutated, "bad-witness-nonce-size",
      "CheckWitnessMalleation : invalid witness reserved value size"⟩

def checkWitnessMalleation (block : CBlock) (flags : BlockFlags) (expectWitnessCommitment : Bool) :
    Option (BlockCheck × BlockFlags) :=
  if expectWitnessCommitment then
    if flags.mCheckedWitnessCommitment then some (.ok (), flags)
    else
      match getWitnessCommitmentIndex block with
      | none => some (unexpectedWitness block, flags)
      | some commitpos => do
        let tx ← block.vtx.head?
        let txin ← tx.vin.head?
        let txout ← tx.vout[commitpos]?
        match checkWitnessCommitment block (slice txout.scriptPubKey 6 32) txin.scriptWitness with
        | .error e => some (.error e, flags)
        | .ok () => some (.ok (), { flags with mCheckedWitnessCommitment := true })
  else some (unexpectedWitness block, flags)

def isBlockMutated (block : CBlock) (flags : BlockFlags) (checkWitnessRoot : Bool) : Option Bool :=
  match checkMerkleRoot block flags with
  | (.error _, _) => some true
  | (.ok (), flags) =>
    if block.vtx.head?.any CTransaction.isCoinBase then do
      let (malleation, _) ← checkWitnessMalleation block flags checkWitnessRoot
      match malleation with
      | .error _ => some true
      | .ok () => some false
    else some (block.vtx.any fun tx => (serializeTransaction false tx).length = 64)

/-! ## CheckBlock -/

def checkQuantum (env : CheckEnv) (block : CBlock) (params : Params) : Option BlockCheck :=
  if sha256 block.vQuantumProof ≠ block.quantumFingerprint then
    some (.error ⟨.invalidHeader, "bad-quantum-fp", "quantum fingerprint mismatch"⟩)
  else if !checkQuantumDifficulty block.vQuantumProof params.quantumPowLimit then
    some (.error ⟨.invalidHeader, "high-quantum-hash", "quantum proof does not meet target"⟩)
  else do
    let valid ← validateQuantumProof env.fp block.vQuantumProof block.getHashProof
      block.nQuantumNonce params.nQuantumQubits
    if valid then some (.ok ())
    else some (.error ⟨.invalidHeader, "bad-quantum-proof", "quantum proof validation failed"⟩)

def checkBlockSize (block : CBlock) : BlockCheck :=
  if block.vtx.isEmpty || block.vtx.length * WITNESS_SCALE_FACTOR > MAX_BLOCK_WEIGHT ||
      oversize (block.serialize false) then
    .error ⟨.consensus, "bad-blk-length", "size limits failed"⟩
  else .ok ()

def checkCoinBasePlacement (block : CBlock) : BlockCheck :=
  if !block.vtx.head?.any CTransaction.isCoinBase then
    .error ⟨.consensus, "bad-cb-missing", "first tx is not coinbase"⟩
  else if (block.vtx.drop 1).any CTransaction.isCoinBase then
    .error ⟨.consensus, "bad-cb-multiple", "more than one coinbase"⟩
  else .ok ()

def checkBlockTransaction (tx : CTransaction) : BlockCheck :=
  match checkTransaction tx with
  | .error rejectReason =>
    .error ⟨.consensus, rejectReason,
      "Transaction check failed (tx hash " ++ tx.getHash.getHex ++ ") "⟩
  | .ok () => .ok ()

def checkSigOps (block : CBlock) : BlockCheck :=
  let nSigOps := (block.vtx.map getLegacySigOpCount).sum
  if (nSigOps * UInt32.ofNat WITNESS_SCALE_FACTOR).toNat > MAX_BLOCK_SIGOPS_COST then
    .error ⟨.consensus, "bad-blk-sigops", "out-of-bounds SigOpCount"⟩
  else .ok ()

def checkBlockContents (block : CBlock) : BlockCheck := do
  checkBlockSize block
  checkCoinBasePlacement block
  block.vtx.forM checkBlockTransaction
  checkSigOps block

/-- The checks before the Merkle root, which read no flag. -/
def checkBlockProofs (env : CheckEnv) (block : CBlock) (params : Params) (fCheckPOW : Bool) :
    Option BlockCheck :=
  match checkBlockHeader block.toCBlockHeader params fCheckPOW with
  | .error e => some (.error e)
  | .ok () =>
    if params.signetBlocks && fCheckPOW && !env.checkSignetBlockSolution block params then
      some (.error ⟨.consensus, "bad-signet-blksig", "signet block signature validation failure"⟩)
    else if fCheckPOW && !block.hashPrevBlock.isNull then checkQuantum env block params
    else some (.ok ())

def checkBlock (env : CheckEnv) (block : CBlock) (flags : BlockFlags) (params : Params)
    (fCheckPOW fCheckMerkleRoot : Bool) : Option (BlockCheck × BlockFlags) :=
  if flags.fChecked then some (.ok (), flags)
  else do
    match ← checkBlockProofs env block params fCheckPOW with
    | .error e => some (.error e, flags)
    | .ok () =>
      match if fCheckMerkleRoot then checkMerkleRoot block flags else (.ok (), flags) with
      | (.error e, flags) => some (.error e, flags)
      | (.ok (), flags) =>
        match checkBlockContents block with
        | .error e => some (.error e, flags)
        | .ok () =>
          some (.ok (),
            if fCheckPOW && fCheckMerkleRoot then { flags with fChecked := true } else flags)

def hasValidProofOfWork (headers : List CBlockHeader) (params : Params) : Bool :=
  headers.all fun header => checkProofOfWork header.getHash header.nBits params

def sampleCoinBase : CTransaction where
  vin := [⟨⟨.null, COutPoint.NULL_INDEX⟩, [0x51, 0x51], 0xffffffff, []⟩]
  vout := [⟨0, []⟩]
  version := 1
  nLockTime := 0

/-! ## What acceptance says -/

theorem checkBlockHeader_ok_iff (block : CBlockHeader) (params : Params) :
    checkBlockHeader block params true = .ok () ↔
      checkProofOfWork block.getHashProof block.nBits params = true := by
  cases hpow : checkProofOfWork block.getHashProof block.nBits params <;>
    simp [checkBlockHeader, hpow]

theorem checkQuantum_ok_iff (env : CheckEnv) (block : CBlock) (params : Params) :
    checkQuantum env block params = some (.ok ()) ↔
      sha256 block.vQuantumProof = block.quantumFingerprint ∧
        checkQuantumDifficulty block.vQuantumProof params.quantumPowLimit = true ∧
        validateQuantumProof env.fp block.vQuantumProof block.getHashProof block.nQuantumNonce
          params.nQuantumQubits = some true := by
  rw [checkQuantum]
  by_cases hfp : sha256 block.vQuantumProof = block.quantumFingerprint
  · rw [if_neg (not_not.mpr hfp)]
    cases hdiff : checkQuantumDifficulty block.vQuantumProof params.quantumPowLimit with
    | false => simp
    | true =>
      cases validateQuantumProof env.fp block.vQuantumProof block.getHashProof
          block.nQuantumNonce params.nQuantumQubits with
      | none => simp
      | some valid => cases valid <;> simp [hfp]
  · simp [hfp]

structure BlockAccepted (env : CheckEnv) (block : CBlock) (params : Params) (fCheckPOW : Bool) :
    Prop where
  header : checkBlockHeader block.toCBlockHeader params fCheckPOW = .ok ()
  quantum : fCheckPOW = true → block.hashPrevBlock.isNull = false →
    checkQuantum env block params = some (.ok ())
  contents : checkBlockContents block = .ok ()

variable {env : CheckEnv} {block : CBlock} {params : Params} {fCheckPOW : Bool}

theorem checkBlockProofs_ok (h : checkBlockProofs env block params fCheckPOW = some (.ok ())) :
    checkBlockHeader block.toCBlockHeader params fCheckPOW = .ok () ∧
      (fCheckPOW = true → block.hashPrevBlock.isNull = false →
        checkQuantum env block params = some (.ok ())) := by
  rw [checkBlockProofs] at h
  cases hheader : checkBlockHeader block.toCBlockHeader params fCheckPOW with
  | error e => simp [hheader] at h
  | ok =>
    refine ⟨rfl, fun hpow hprev => ?_⟩
    rw [hheader] at h
    dsimp only at h
    by_cases hsignet :
        (params.signetBlocks && fCheckPOW && !env.checkSignetBlockSolution block params) = true
    · rw [if_pos hsignet] at h
      exact absurd h nofun
    · rwa [if_neg hsignet, if_pos (by simp [hpow, hprev])] at h

/-- The checks before the Merkle root come down to the proof of work, the solution of a
signet block and, in a block with a parent, the quantum proof. -/
theorem checkBlockProofs_true_iff :
    checkBlockProofs env block params true = some (.ok ()) ↔
      checkBlockHeader block.toCBlockHeader params true = .ok () ∧
        (params.signetBlocks = true → env.checkSignetBlockSolution block params = true) ∧
        (block.hashPrevBlock.isNull = false → checkQuantum env block params = some (.ok ())) := by
  rw [checkBlockProofs]
  cases checkBlockHeader block.toCBlockHeader params true with
  | error e => simp
  | ok =>
    dsimp only
    rw [Bool.and_true, Bool.true_and]
    cases params.signetBlocks with
    | false => cases block.hashPrevBlock.isNull <;> simp
    | true =>
      cases env.checkSignetBlockSolution block params with
      | false => simp
      | true => cases block.hashPrevBlock.isNull <;> simp

theorem checkBlockProofs_ok_iff (hsignet : params.signetBlocks = false) :
    checkBlockProofs env block params true = some (.ok ()) ↔
      checkBlockHeader block.toCBlockHeader params true = .ok () ∧
        (block.hashPrevBlock.isNull = false → checkQuantum env block params = some (.ok ())) := by
  rw [checkBlockProofs_true_iff]
  simp [hsignet]

def MerkleRootMatches (block : CBlock) : Prop :=
  block.hashMerkleRoot = (blockMerkleRoot block).1 ∧ (blockMerkleRoot block).2 = false

theorem checkMerkleRoot_cases (block : CBlock) :
    (MerkleRootMatches block ∧ checkMerkleRoot block {} = (.ok (), { mCheckedMerkleRoot := true })) ∨
      (¬ MerkleRootMatches block ∧ ∃ e, e.result = .mutated ∧
        checkMerkleRoot block {} = (.error e, {})) := by
  rw [checkMerkleRoot, if_neg (by decide), MerkleRootMatches]
  obtain ⟨root, mutated⟩ := blockMerkleRoot block
  dsimp only
  by_cases hroot : block.hashMerkleRoot = root
  · rw [if_neg (not_not_intro hroot)]
    cases mutated with
    | false => exact .inl ⟨⟨hroot, rfl⟩, rfl⟩
    | true => exact .inr ⟨fun h => absurd h.2 (by decide), _, rfl, rfl⟩
  · rw [if_pos hroot]
    exact .inr ⟨fun h => hroot h.1, _, rfl, rfl⟩

variable {fCheckMerkleRoot : Bool} {flags : BlockFlags}

theorem checkBlock_ok
    (h : checkBlock env block {} params fCheckPOW fCheckMerkleRoot = some (.ok (), flags)) :
    BlockAccepted env block params fCheckPOW := by
  rw [checkBlock, if_neg (by decide)] at h
  obtain ⟨proofs, hproofs, h⟩ := Option.bind_eq_some_iff.mp h
  cases proofs with
  | error e => simp at h
  | ok =>
    simp only at h
    split at h
    · simp at h
    · split at h
      · simp at h
      · rename_i hcontents
        obtain ⟨hheader, hquantum⟩ := checkBlockProofs_ok hproofs
        exact ⟨hheader, hquantum, hcontents⟩

theorem fChecked_or_contents_of_checkBlock {flags' : BlockFlags}
    (h : checkBlock env block flags params fCheckPOW fCheckMerkleRoot = some (.ok (), flags')) :
    flags.fChecked = true ∨ checkBlockContents block = .ok () := by
  rw [checkBlock] at h
  split at h
  case isTrue hchecked => exact .inl hchecked
  case isFalse =>
    refine .inr ?_
    obtain ⟨proofs, -, hrun⟩ := Option.bind_eq_some_iff.mp h
    cases proofs with
    | error e => cases hrun
    | ok =>
      dsimp only at hrun
      split at hrun
      case h_1 => cases hrun
      case h_2 =>
        split at hrun
        case h_1 => cases hrun
        case h_2 hcontents => exact hcontents

theorem checkBlock_of_proofs_ok
    (hproofs : checkBlockProofs env block params fCheckPOW = some (.ok ())) :
    checkBlock env block {} params fCheckPOW true =
      match checkMerkleRoot block {} with
      | (.error e, flags) => some (.error e, flags)
      | (.ok (), flags) =>
        match checkBlockContents block with
        | .error e => some (.error e, flags)
        | .ok () => some (.ok (), if fCheckPOW then { flags with fChecked := true } else flags) := by
  rw [checkBlock, if_neg (by decide), hproofs, Bool.and_true]
  rfl

def PassesCheckBlock (env : CheckEnv) (block : CBlock) (params : Params) (fCheckPOW : Bool) : Prop :=
  ∃ flags, checkBlock env block {} params fCheckPOW true = some (.ok (), flags)

theorem passesCheckBlock_iff :
    PassesCheckBlock env block params fCheckPOW ↔
      checkBlockProofs env block params fCheckPOW = some (.ok ()) ∧ MerkleRootMatches block ∧
        checkBlockContents block = .ok () := by
  constructor
  · rintro ⟨flags, h⟩
    have hproofs : checkBlockProofs env block params fCheckPOW = some (.ok ()) := by
      rw [checkBlock, if_neg (by decide)] at h
      obtain ⟨proofs, hproofs, h⟩ := Option.bind_eq_some_iff.mp h
      cases proofs with
      | error e => simp at h
      | ok => exact hproofs
    rw [checkBlock_of_proofs_ok hproofs] at h
    rcases checkMerkleRoot_cases block with ⟨hroot, hmerkle⟩ | ⟨-, e, -, hmerkle⟩
    · refine ⟨hproofs, hroot, ?_⟩
      rw [hmerkle] at h
      dsimp only at h
      cases hcontents : checkBlockContents block with
      | error e => simp [hcontents] at h
      | ok => rfl
    · simp [hmerkle] at h
  · rintro ⟨hproofs, hroot, hcontents⟩
    rcases checkMerkleRoot_cases block with ⟨-, hmerkle⟩ | ⟨hnot, -⟩
    · rw [PassesCheckBlock, checkBlock_of_proofs_ok hproofs, hmerkle, hcontents]
      exact ⟨_, rfl⟩
    · exact absurd hroot hnot

private theorem check_seq_ok_iff (first rest : BlockCheck) :
    (first >>= fun _ => rest) = .ok () ↔ first = .ok () ∧ rest = .ok () := by
  cases first with
  | error e => simp [bind, Except.bind]
  | ok => simp [bind, Except.bind]

theorem checkBlockContents_ok_iff :
    checkBlockContents block = .ok () ↔
      checkBlockSize block = .ok () ∧ checkCoinBasePlacement block = .ok () ∧
        block.vtx.forM checkBlockTransaction = .ok () ∧ checkSigOps block = .ok () := by
  rw [checkBlockContents, check_seq_ok_iff, check_seq_ok_iff, check_seq_ok_iff]

theorem checkBlockSize_ok_iff :
    checkBlockSize block = .ok () ↔
      block.vtx ≠ [] ∧ block.vtx.length * WITNESS_SCALE_FACTOR ≤ MAX_BLOCK_WEIGHT ∧
        oversize (block.serialize false) = false := by
  rw [checkBlockSize]
  split
  case isTrue h =>
    simp only [Bool.or_eq_true, List.isEmpty_iff, decide_eq_true_eq] at h
    refine iff_of_false nofun fun hok => ?_
    rcases h with (hempty | hlong) | hover
    · exact hok.1 hempty
    · omega
    · exact absurd (hok.2.2.symm.trans hover) (by decide)
  case isFalse h =>
    simp only [Bool.or_eq_true, List.isEmpty_iff, decide_eq_true_eq, not_or, Nat.not_lt,
      Bool.not_eq_true] at h
    exact iff_of_true rfl ⟨h.1.1, h.1.2, h.2⟩

theorem checkCoinBasePlacement_ok (h : checkCoinBasePlacement block = .ok ()) :
    ∃ tx vtx, block.vtx = tx :: vtx ∧ tx.isCoinBase = true ∧ ∀ tx ∈ vtx, tx.isCoinBase = false := by
  rw [checkCoinBasePlacement] at h
  split at h
  case isTrue => cases h
  case isFalse hfirst =>
    split at h
    case isTrue => cases h
    case isFalse hrest =>
      cases hvtx : block.vtx with
      | nil =>
        rw [hvtx] at hfirst
        exact absurd rfl hfirst
      | cons tx vtx =>
        rw [hvtx] at hfirst hrest
        refine ⟨tx, vtx, rfl, by simpa using hfirst, fun tx' hmem => ?_⟩
        rw [List.drop_one, List.tail_cons, List.any_eq_true] at hrest
        rw [Bool.eq_false_iff]
        exact fun htx => hrest ⟨tx', hmem, htx⟩

theorem checkTransaction_of_checkBlockContents
    (h : checkBlockContents block = .ok ()) {tx : CTransaction} (hmem : tx ∈ block.vtx) :
    checkTransaction tx = .ok () := by
  have hforM : block.vtx.forM checkBlockTransaction = .ok () :=
    (checkBlockContents_ok_iff.mp h).2.2.1
  generalize block.vtx = vtx at hforM hmem
  induction vtx with
  | nil => exact absurd hmem List.not_mem_nil
  | cons first rest ih =>
    change (checkBlockTransaction first >>= fun _ => rest.forM checkBlockTransaction) = _ at hforM
    cases hfirst : checkTransaction first with
    | error e => simp [checkBlockTransaction, hfirst, bind, Except.bind] at hforM
    | ok =>
      rcases List.mem_cons.mp hmem with rfl | hrest
      · exact hfirst
      · refine ih ?_ hrest
        simpa [checkBlockTransaction, hfirst, bind, Except.bind] using hforM

/-! ## The headers gate -/

theorem checkProofOfWork_eq_false_of_deriveTarget (hash : Uint256) {nBits : UInt32}
    {params : Params} (h : deriveTarget nBits params.powLimit = none) :
    ¬ checkProofOfWork hash nBits params = true := by
  rw [checkProofOfWork_iff, h]
  rintro ⟨target, htarget, -⟩
  cases htarget

/-- The headers gate gives the answer of block validation where neither looks at a
hash: on the empty list and once some `nBits` encodes no target.  Elsewhere the gate
compares `getHash` with the targets and validation `getHashProof`. -/
theorem hasValidProofOfWork_iff_checkBlockHeader (headers : List CBlockHeader) (params : Params)
    (hfixed : headers = [] ∨ ∃ h ∈ headers, deriveTarget h.nBits params.powLimit = none) :
    hasValidProofOfWork headers params = true ↔
      ∀ h ∈ headers, checkBlockHeader h params true = .ok () := by
  simp only [hasValidProofOfWork, List.all_eq_true, checkBlockHeader_ok_iff]
  obtain rfl | ⟨h, hmem, hnone⟩ := hfixed
  · simp
  · exact iff_of_false
      (fun hall => checkProofOfWork_eq_false_of_deriveTarget _ hnone (hall h hmem))
      (fun hall => checkProofOfWork_eq_false_of_deriveTarget _ hnone (hall h hmem))

theorem hasValidProofOfWork_iff_checkBlockHeader_regtest :
    let headers : List CBlockHeader := [{ nBits := 0x207fffff, nNonce := 1 }, { nBits := 0 }]
    let params := consensusParams .regtest
    (∃ h ∈ headers, deriveTarget h.nBits params.powLimit = none) ∧
      (hasValidProofOfWork headers params = true ↔
        ∀ h ∈ headers, checkBlockHeader h params true = .ok ()) :=
  ⟨by decide +kernel, hasValidProofOfWork_iff_checkBlockHeader _ _ (.inr (by decide +kernel))⟩

/-- On regtest, a header block validation accepts and the gate refuses, and one the
gate lets through and block validation refuses. -/
theorem hasValidProofOfWork_differs_on_regtest :
    let accepted : CBlockHeader := { nBits := 0x207fffff, nNonce := 1 }
    let refused : CBlockHeader := { nBits := 0x207fffff, nNonce := 8 }
    let params := consensusParams .regtest
    ¬ (hasValidProofOfWork [accepted] params = true ↔
        ∀ h ∈ [accepted], checkBlockHeader h params true = .ok ()) ∧
      ¬ (hasValidProofOfWork [refused] params = true ↔
        ∀ h ∈ [refused], checkBlockHeader h params true = .ok ()) := by
  decide +kernel

end HcsCoin
