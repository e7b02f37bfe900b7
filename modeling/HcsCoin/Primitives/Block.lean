import HcsCoin.Primitives.Transaction

/-!
# Block headers and blocks

The extended header of `primitives/block.h`.  `getHash`, the identity of a
block, covers all 116 bytes; `getHashProof` covers the 80 bytes of the legacy
header, without the two quantum fields.
-/

namespace HcsCoin

open Foundation Foundation.Decoder

structure CBlockHeader where
  nVersion : Int32 := 0
  hashPrevBlock : Uint256 := .null
  hashMerkleRoot : Uint256 := .null
  nTime : UInt32 := 0
  nBits : UInt32 := 0
  nNonce : UInt32 := 0
  nQuantumNonce : UInt32 := 0
  quantumFingerprint : Uint256 := .null
  deriving DecidableEq

/-- The memory-only cache flags of `CBlock` are not part of the block; `CheckBlock`
takes and returns them separately. -/
structure CBlock extends CBlockHeader where
  vtx : List CTransaction := []
  vQuantumProof : Bytes := []
  deriving DecidableEq

namespace CBlockHeader

def isNull (h : CBlockHeader) : Bool := h.nBits == 0

def getBlockTime (h : CBlockHeader) : Int := h.nTime.toNat

def serializeLegacy (h : CBlockHeader) : Bytes :=
  serInt32 h.nVersion ++ (h.hashPrevBlock.mData ++ (h.hashMerkleRoot.mData ++
    (serUInt32 h.nTime ++ (serUInt32 h.nBits ++ serUInt32 h.nNonce))))

def serialize (h : CBlockHeader) : Bytes :=
  h.serializeLegacy ++ (serUInt32 h.nQuantumNonce ++ h.quantumFingerprint.mData)

def getHash (h : CBlockHeader) : Uint256 := hash256 h.serialize

def getHashProof (h : CBlockHeader) : Uint256 := hash256 h.serializeLegacy

def QuantumNull (h : CBlockHeader) : Prop :=
  h.nQuantumNonce = 0 ∧ h.quantumFingerprint = .null

instance (h : CBlockHeader) : Decidable h.QuantumNull :=
  inferInstanceAs (Decidable (_ ∧ _))

def clearQuantum (h : CBlockHeader) : CBlockHeader :=
  { h with nQuantumNonce := 0, quantumFingerprint := .null }

theorem clearQuantum_eq_self_iff (h : CBlockHeader) : h.clearQuantum = h ↔ h.QuantumNull := by
  cases h
  simp only [clearQuantum, QuantumNull, CBlockHeader.mk.injEq, true_and]
  exact ⟨fun heq => ⟨heq.1.symm, heq.2.symm⟩, fun heq => ⟨heq.1.symm, heq.2.symm⟩⟩

end CBlockHeader

def readBlockHeader : Reader CBlockHeader := do
  let nVersion ← readInt32
  let hashPrevBlock ← readUint256
  let hashMerkleRoot ← readUint256
  let nTime ← readUInt32
  let nBits ← readUInt32
  let nNonce ← readUInt32
  let nQuantumNonce ← readUInt32
  let quantumFingerprint ← readUint256
  pure { nVersion, hashPrevBlock, hashMerkleRoot, nTime, nBits, nNonce, nQuantumNonce,
         quantumFingerprint }

def CBlock.serialize (fAllowWitness : Bool) (block : CBlock) : Bytes :=
  block.toCBlockHeader.serialize ++
    (serVector (serializeTransaction fAllowWitness) block.vtx ++ serByteVector block.vQuantumProof)

def readBlockWithWitness : Reader CBlock := do
  let header ← readBlockHeader
  let vtx ← readVector (unserializeTransaction true)
  let vQuantumProof ← readByteVector
  pure { toCBlockHeader := header, vtx, vQuantumProof }

structure CBlock.Serializable (block : CBlock) : Prop where
  vtx_size : block.vtx.length ≤ MAX_SIZE
  vtx_serializable : ∀ tx ∈ block.vtx, tx.Serializable
  vQuantumProof_size : block.vQuantumProof.length ≤ MAX_SIZE

theorem decodes_readBlockHeader (h : CBlockHeader) : Decodes readBlockHeader h.serialize h := by
  simp only [CBlockHeader.serialize, CBlockHeader.serializeLegacy, List.append_assoc]
  exact (decodes_readInt32 _).bind <| (decodes_readUint256 _).bind <|
    (decodes_readUint256 _).bind <| (decodes_readUInt32 _).bind <|
    (decodes_readUInt32 _).bind <| (decodes_readUInt32 _).bind <|
    (decodes_readUInt32 _).bind <| (decodes_readUint256 _).last <| Decodes.pure h

theorem CBlockHeader.serialize_injective : Function.Injective CBlockHeader.serialize := by
  intro h₁ h₂ heq
  exact (decodes_readBlockHeader h₁).unique (heq ▸ decodes_readBlockHeader h₂)

theorem CBlockHeader.serializeLegacy_eq_iff (h₁ h₂ : CBlockHeader) :
    h₁.serializeLegacy = h₂.serializeLegacy ↔ h₁.clearQuantum = h₂.clearQuantum := by
  constructor
  · intro heq
    refine CBlockHeader.serialize_injective ?_
    change h₁.serializeLegacy ++ _ = h₂.serializeLegacy ++ _
    rw [heq]
    rfl
  · intro heq
    have hlegacy : h₁.clearQuantum.serializeLegacy = h₂.clearQuantum.serializeLegacy := by rw [heq]
    exact hlegacy

theorem decodes_readBlockWithWitness {block : CBlock} (h : block.Serializable) :
    Decodes readBlockWithWitness (block.serialize true) block :=
  (decodes_readBlockHeader _).bind <|
    (decodes_readVector h.vtx_size fun tx hmem =>
      decodes_unserializeTransaction (h.vtx_serializable tx hmem)).bind <|
    (decodes_readByteVector h.vQuantumProof_size).last <| Decodes.pure block

theorem yields_readBlockWithWitness : Yields readBlockWithWitness CBlock.Serializable :=
  (Yields.trivial _).bind fun _ _ =>
    (yields_readVector yields_unserializeTransaction).bind fun _ hvtx =>
    yields_readByteVector.bind fun _ hproof => Yields.pure ⟨hvtx.1, hvtx.2, hproof⟩

/-- Whatever block was read is read again from its own bytes. -/
theorem readBlockWithWitness_iff (block : CBlock) :
    (∃ bytes rest, readBlockWithWitness.run bytes = .ok (block, rest)) ↔
      ∀ rest, readBlockWithWitness.run (block.serialize true ++ rest) = .ok (block, rest) := by
  constructor
  · rintro ⟨bytes, rest, hread⟩
    exact decodes_readBlockWithWitness (yields_readBlockWithWitness _ _ _ hread)
  · exact fun h => ⟨_, _, h []⟩

theorem CBlock.serializable_of_length {block : CBlock} (hvin : ∀ tx ∈ block.vtx, tx.vin ≠ [])
    (h : (block.serialize true).length ≤ MAX_SIZE) : block.Serializable := by
  rw [CBlock.serialize, List.length_append, List.length_append] at h
  have hvtx : (serVector (serializeTransaction true) block.vtx).length ≤ MAX_SIZE := by omega
  refine ⟨?_, fun tx hmem => ?_, ?_⟩
  · exact (length_le_length_serVector (serializeTransaction_length_pos true) _).trans hvtx
  · exact CTransaction.serializable_of_length (hvin tx hmem)
      ((length_ser_le_serVector (serializeTransaction true) hmem).trans hvtx)
  · have hproof := length_le_length_serByteVector block.vQuantumProof
    omega

end HcsCoin
