import HcsCoin.Validation

/-!
# Block files

`WriteBlock` puts a block into a file behind the network's magic bytes and its
size; `ReadBlock` reads it back and checks proof of work on the identity hash.
A file is the bytes that `AutoFile` shows, without the obfuscation on disk.
Positions stay below `MAX_BLOCKFILE_SIZE`, so adding to one never wraps.
-/

namespace HcsCoin

open Foundation Foundation.Decoder

abbrev MessageStartChars := BaseBlob 4

def STORAGE_HEADER_BYTES : Nat := 8

def overwrite (file : Bytes) (pos : Nat) (data : Bytes) : Bytes :=
  (file ++ List.replicate (pos - file.length) 0).take pos ++ (data ++ file.drop (pos + data.length))

def writeBlock (messageStart : MessageStartChars) (file : Bytes) (nPos : Nat) (block : CBlock) :
    Bytes × Nat :=
  let data := block.serialize true
  (overwrite file nPos (messageStart.mData ++ (serUInt32 (UInt32.ofNat data.length) ++ data)),
    nPos + STORAGE_HEADER_BYTES)

inductive ReadRawError where
  | io
  | badPartRange

def readStorageHeader : Reader (Bytes × UInt32) := do
  let blkStart ← readBytes 4
  let blkSize ← readUInt32
  pure (blkStart, blkSize)

def readData (rest : Bytes) (size : Nat) : Except ReadRawError Bytes :=
  if size ≤ rest.length then .ok (rest.take size) else .error .io

def readRawBlock (messageStart : MessageStartChars) (file : Bytes) (nPos : Nat)
    (blockPart : Option (Nat × Nat)) : Except ReadRawError Bytes :=
  if nPos < STORAGE_HEADER_BYTES then .error .io
  else
    match readStorageHeader.run (file.drop (nPos - STORAGE_HEADER_BYTES)) with
    | .error _ => .error .io
    | .ok ((blkStart, blkSize), rest) =>
      if blkStart ≠ messageStart.mData then .error .io
      else if blkSize.toNat > MAX_SIZE then .error .io
      else
        match blockPart with
        | none => readData rest blkSize.toNat
        | some (offset, size) =>
          if size = 0 ∨ offset + size > blkSize.toNat then .error .badPartRange
          else readData (rest.drop offset) size

def passesReadChecks (env : CheckEnv) (params : Params) (expectedHash : Option Uint256)
    (block : CBlock) : Bool :=
  checkProofOfWork block.getHash block.nBits params &&
    !(params.signetBlocks && !env.checkSignetBlockSolution block params) &&
    expectedHash.all (· == block.getHash)

def readBlock (env : CheckEnv) (params : Params) (messageStart : MessageStartChars) (file : Bytes)
    (nPos : Nat) (expectedHash : Option Uint256) : Option CBlock :=
  match readRawBlock messageStart file nPos none with
  | .error _ => none
  | .ok blockData =>
    match readBlockWithWitness.run blockData with
    | .error _ => none
    | .ok (block, _) => if passesReadChecks env params expectedHash block then some block else none

/-! ## What was written is what is read -/

theorem drop_overwrite (file : Bytes) (pos : Nat) (data : Bytes) :
    (overwrite file pos data).drop pos = data ++ file.drop (pos + data.length) := by
  rw [overwrite, List.drop_append_of_le_length, List.drop_eq_nil_of_le, List.nil_append]
  · simp
  · simp
    omega

theorem decodes_readStorageHeader (messageStart : MessageStartChars) (size : UInt32) :
    Decodes readStorageHeader (messageStart.mData ++ serUInt32 size) (messageStart.mData, size) :=
  (Decodes.take _ messageStart.size_eq).bind <| (decodes_readUInt32 size).last <| Decodes.pure _

/-- The size field holds the low 32 bits of the size; the data read back is as long as
that says, unless it says too much. -/
theorem readRawBlock_writeBlock (messageStart : MessageStartChars) (file : Bytes) (nPos : Nat)
    (block : CBlock) :
    readRawBlock messageStart (writeBlock messageStart file nPos block).1
        (writeBlock messageStart file nPos block).2 none =
      if (block.serialize true).length % 2 ^ 32 > MAX_SIZE then .error .io
      else .ok ((block.serialize true).take ((block.serialize true).length % 2 ^ 32)) := by
  set data := block.serialize true with hdata
  have hsize : (UInt32.ofNat data.length).toNat = data.length % 2 ^ 32 := by simp
  have hle : data.length % 2 ^ 32 ≤ data.length := Nat.mod_le _ _
  have hheader := decodes_readStorageHeader messageStart (UInt32.ofNat data.length)
  simp only [readRawBlock, writeBlock, ← hdata, Nat.not_lt.mpr (Nat.le_add_left _ _), if_false,
    Nat.add_sub_cancel, drop_overwrite]
  rw [← List.append_assoc, List.append_assoc, hheader]
  dsimp only
  rw [if_neg (not_not.mpr rfl), hsize]
  split
  · rfl
  · rw [readData, List.length_append, if_pos (hle.trans (Nat.le_add_right _ _)),
      List.take_append_of_le_length hle]

variable {block : CBlock} {params : Params}

theorem readBlock_eq_some {env : CheckEnv} {messageStart : MessageStartChars} {file : Bytes}
    {nPos : Nat} {expectedHash : Option Uint256}
    (h : readBlock env params messageStart file nPos expectedHash = some block) :
    ∃ blockData rest, readRawBlock messageStart file nPos none = .ok blockData ∧
      readBlockWithWitness.run blockData = .ok (block, rest) ∧
      passesReadChecks env params expectedHash block = true := by
  rw [readBlock] at h
  cases hraw : readRawBlock messageStart file nPos none with
  | error e => simp [hraw] at h
  | ok blockData =>
    rw [hraw] at h
    dsimp only at h
    cases hrun : readBlockWithWitness.run blockData with
    | error e => simp [hrun] at h
    | ok result =>
      rw [hrun] at h
      dsimp only at h
      split at h
      case isTrue hpass =>
        cases h
        exact ⟨blockData, result.2, rfl, hrun, hpass⟩
      case isFalse => exact absurd h nofun

theorem passesReadChecks_iff (env : CheckEnv) (hsignet : params.signetBlocks = false)
    (block : CBlock) :
    passesReadChecks env params (some block.getHash) block = true ↔
      checkProofOfWork block.getHash block.nBits params = true := by
  rw [passesReadChecks, hsignet, Bool.false_and, Bool.not_false, Bool.and_true, Option.all_some,
    beq_self_eq_true, Bool.and_true]

theorem serialize_take_of_run {n : Nat} {rest : Bytes} (hn : n ≤ (block.serialize true).length)
    (hrun : readBlockWithWitness.run ((block.serialize true).take n) = .ok (block, rest)) :
    n = (block.serialize true).length := by
  have hdecodes := decodes_readBlockWithWitness (yields_readBlockWithWitness _ _ _ hrun)
  by_contra hne
  refine hdecodes.not_run_truncated (List.take_append_drop n _).symm ?_ _ _ hrun
  intro hnil
  rw [List.drop_eq_nil_iff] at hnil
  omega

/-- A block that `CheckBlock` accepts is read back as it was written if and only if
its identity hash meets the target, too, and it serializes to at most `MAX_SIZE`
bytes. -/
theorem readBlock_writeBlock_iff {env : CheckEnv} {block : CBlock} {params : Params}
    {fCheckMerkleRoot : Bool} {flags : BlockFlags} (hsignet : params.signetBlocks = false)
    (haccepted : checkBlock env block {} params true fCheckMerkleRoot = some (.ok (), flags))
    (messageStart : MessageStartChars) (file : Bytes) (nPos : Nat) :
    readBlock env params messageStart (writeBlock messageStart file nPos block).1
        (writeBlock messageStart file nPos block).2 (some block.getHash) = some block ↔
      checkProofOfWork block.getHash block.nBits params = true ∧
        (block.serialize true).length ≤ MAX_SIZE := by
  have hraw := readRawBlock_writeBlock messageStart file nPos block
  have hmax : MAX_SIZE < 2 ^ 32 := by decide
  constructor
  · intro hread
    obtain ⟨blockData, rest, hdata, hrun, hpass⟩ := readBlock_eq_some hread
    rw [hraw] at hdata
    split at hdata
    case isTrue => exact absurd hdata nofun
    case isFalse hle =>
      cases hdata
      refine ⟨(passesReadChecks_iff env hsignet block).mp hpass, ?_⟩
      rw [← serialize_take_of_run (Nat.mod_le _ _) hrun]
      exact Nat.le_of_not_gt hle
  · rintro ⟨hpow, hsize⟩
    have hvin : ∀ tx ∈ block.vtx, tx.vin ≠ [] := fun tx hmem =>
      (checkTransaction_ok
        (checkTransaction_of_checkBlockContents (checkBlock_ok haccepted).contents hmem)).1
    have hdecodes :=
      decodes_readBlockWithWitness (CBlock.serializable_of_length hvin hsize) []
    rw [List.append_nil] at hdecodes
    rw [Nat.mod_eq_of_lt (hsize.trans_lt hmax), if_neg (Nat.not_lt.mpr hsize),
      List.take_length] at hraw
    rw [readBlock, hraw]
    dsimp only
    rw [hdecodes]
    dsimp only
    rw [if_pos ((passesReadChecks_iff env hsignet block).mpr hpow)]

def regtestBlock (nNonce : UInt32) : CBlock where
  hashMerkleRoot := .ofHex 0xf70455355684d1bcb267f5c333a97fbf6187331309007765022e69455490e0d4
  nBits := 0x207fffff
  nNonce := nNonce
  vtx := [sampleCoinBase]

def regtestMessageStart : MessageStartChars := .ofHex 0xc6d7e8f5

def regtestEnv : CheckEnv := ⟨.ieee, fun _ _ => false⟩

theorem readBlock_writeBlock_regtest :
    checkBlock regtestEnv (regtestBlock 3) {} (consensusParams .regtest) true true =
        some (.ok (), { fChecked := true, mCheckedMerkleRoot := true }) ∧
      readBlock regtestEnv (consensusParams .regtest) regtestMessageStart
          (writeBlock regtestMessageStart [] 0 (regtestBlock 3)).1
          (writeBlock regtestMessageStart [] 0 (regtestBlock 3)).2
          (some (regtestBlock 3).getHash) = some (regtestBlock 3) := by
  have haccepted : checkBlock regtestEnv (regtestBlock 3) {} (consensusParams .regtest) true true =
      some (.ok (), { fChecked := true, mCheckedMerkleRoot := true }) := by decide +kernel
  refine ⟨haccepted, (readBlock_writeBlock_iff rfl haccepted _ _ _).mpr ⟨?_, ?_⟩⟩
  · decide +kernel
  · decide +kernel

/-- Only the proof hash of this block meets the target: it is accepted, and not read
back. -/
theorem readBlock_refuses_accepted :
    checkBlock regtestEnv (regtestBlock 4) {} (consensusParams .regtest) true true =
        some (.ok (), { fChecked := true, mCheckedMerkleRoot := true }) ∧
      readBlock regtestEnv (consensusParams .regtest) regtestMessageStart
          (writeBlock regtestMessageStart [] 0 (regtestBlock 4)).1
          (writeBlock regtestMessageStart [] 0 (regtestBlock 4)).2
          (some (regtestBlock 4).getHash) = none := by
  decide +kernel

end HcsCoin
