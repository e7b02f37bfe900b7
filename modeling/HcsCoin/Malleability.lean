import HcsCoin.QuantumPow

/-!
# What a header hash fixes

Two ways in which block validation depends on more than one hash.  The identity
of a block covers its whole header, its work only the legacy part.  And data
that the header does not fix by itself, such as the transaction list and the
quantum proof, can be replaced in a block on its way; a check that such a
replacement fails must not be held against the header.
-/

namespace HcsCoin

open Foundation CTransaction

abbrev NoCollision (a b : Bytes) : Prop := hash256 a = hash256 b → a = b

/-! ## Identity and work -/

/-- Two headers of different identity are backed by different work exactly if they do
not only differ in their quantum fields. -/
theorem getHashProof_ne_iff {h₁ h₂ : CBlockHeader}
    (hidentity : NoCollision h₁.serialize h₂.serialize)
    (hwork : NoCollision h₁.serializeLegacy h₂.serializeLegacy) :
    (h₁.getHash ≠ h₂.getHash → h₁.getHashProof ≠ h₂.getHashProof) ↔
      (h₁.clearQuantum = h₂.clearQuantum → h₁ = h₂) := by
  have hsame : h₁.getHash = h₂.getHash ↔ h₁ = h₂ :=
    ⟨fun h => CBlockHeader.serialize_injective (hidentity h), fun h => by rw [h]⟩
  have hproof : h₁.getHashProof = h₂.getHashProof ↔ h₁.clearQuantum = h₂.clearQuantum := by
    rw [← CBlockHeader.serializeLegacy_eq_iff]
    exact ⟨hwork, fun h => congrArg hash256 h⟩
  rw [ne_eq, ne_eq, hsame, hproof]
  exact not_imp_not

def minedHeader (nNonce nQuantumNonce : UInt32) : CBlockHeader where
  nBits := 0x207fffff
  nNonce := nNonce
  nQuantumNonce := nQuantumNonce

private theorem minedHeader_facts :
    (∀ h ∈ [minedHeader 1 0, minedHeader 2 0, minedHeader 1 1],
      checkBlockHeader h (consensusParams .regtest) true = .ok ()) ∧
    (minedHeader 1 0).getHash ∉ [(minedHeader 2 0).getHash, (minedHeader 1 1).getHash] ∧
    (minedHeader 1 0).getHashProof ≠ (minedHeader 2 0).getHashProof := by
  decide +kernel

theorem getHashProof_ne_for_other_nonce :
    checkBlockHeader (minedHeader 1 0) (consensusParams .regtest) true = .ok () ∧
      checkBlockHeader (minedHeader 2 0) (consensusParams .regtest) true = .ok () ∧
      (minedHeader 1 0).getHash ≠ (minedHeader 2 0).getHash ∧
      (minedHeader 1 0).getHashProof ≠ (minedHeader 2 0).getHashProof := by
  obtain ⟨hchecks, hnot, hne'⟩ := minedHeader_facts
  have hne := List.ne_of_not_mem_cons hnot
  refine ⟨hchecks _ (by simp), hchecks _ (by simp), hne, ?_⟩
  exact (getHashProof_ne_iff (fun h => absurd h hne) fun h => absurd h hne').mpr
    (fun h => absurd h (by decide)) hne

/-- One solution serves every quantum nonce. -/
theorem getHashProof_eq_for_other_quantum_nonce :
    checkBlockHeader (minedHeader 1 0) (consensusParams .regtest) true = .ok () ∧
      checkBlockHeader (minedHeader 1 1) (consensusParams .regtest) true = .ok () ∧
      (minedHeader 1 0).getHash ≠ (minedHeader 1 1).getHash ∧
      (minedHeader 1 0).getHashProof = (minedHeader 1 1).getHashProof := by
  obtain ⟨hchecks, hnot, -⟩ := minedHeader_facts
  exact ⟨hchecks _ (by simp), hchecks _ (by simp), fun h => hnot (by simp [h]), rfl⟩

/-! ## Sibling blocks -/

variable {env : CheckEnv} {block a b : CBlock} {params : Params} {e : BlockInvalid}

theorem checkBlockTransaction_strip (tx : CTransaction) :
    checkBlockTransaction tx.strip = checkBlockTransaction tx := by
  rw [checkBlockTransaction, checkBlockTransaction, checkTransaction_strip, getHash_strip]

private theorem any_isCoinBase_strip (vtx : List CTransaction) :
    (vtx.map strip).any isCoinBase = vtx.any isCoinBase := by
  rw [List.any_map]
  exact congrArg vtx.any (funext isCoinBase_strip)

/-- The checks on the transactions see no witness data, and the rest of the block only
through its size. -/
theorem checkBlockContents_of_strip_eq
    (hstrip : a.vtx.map strip = b.vtx.map strip)
    (hsize : oversize (b.serialize false) = false) (ha : checkBlockContents a = .ok ()) :
    checkBlockContents b = .ok () := by
  have hlength : a.vtx.length = b.vtx.length := by simpa using congrArg List.length hstrip
  have hplace : checkCoinBasePlacement b = checkCoinBasePlacement a := by
    have hhead : b.vtx.head?.any isCoinBase = a.vtx.head?.any isCoinBase := by
      have h := congrArg (fun vtx : List CTransaction => vtx.head?.any isCoinBase) hstrip
      simpa [Option.any_map, Function.comp_def, isCoinBase_strip] using h.symm
    have htail : (b.vtx.drop 1).any isCoinBase = (a.vtx.drop 1).any isCoinBase := by
      rw [← any_isCoinBase_strip (b.vtx.drop 1), ← any_isCoinBase_strip (a.vtx.drop 1),
        List.map_drop, List.map_drop, hstrip]
    rw [checkCoinBasePlacement, checkCoinBasePlacement, hhead, htail]
  have hloop : b.vtx.forM checkBlockTransaction = a.vtx.forM checkBlockTransaction := by
    have h := congrArg (fun vtx : List CTransaction => vtx.forM checkBlockTransaction) hstrip
    simpa [List.forM_map, checkBlockTransaction_strip] using h.symm
  have hsigops : checkSigOps b = checkSigOps a := by
    have h := congrArg (List.map getLegacySigOpCount) hstrip
    rw [List.map_map, List.map_map] at h
    have hmap : b.vtx.map getLegacySigOpCount = a.vtx.map getLegacySigOpCount := by
      simpa [Function.comp_def, getLegacySigOpCount_strip] using h.symm
    rw [checkSigOps, checkSigOps, hmap]
  obtain ⟨hasize, haplace, haloop, hasigops⟩ := checkBlockContents_ok_iff.mp ha
  obtain ⟨hne, hweight, -⟩ := checkBlockSize_ok_iff.mp hasize
  refine checkBlockContents_ok_iff.mpr ⟨checkBlockSize_ok_iff.mpr ⟨?_, ?_, hsize⟩, ?_, ?_, ?_⟩
  · rwa [← List.length_pos_iff, ← hlength, List.length_pos_iff]
  · rwa [← hlength]
  · rwa [hplace]
  · rwa [hloop]
  · rwa [hsigops]

variable {tx : CTransaction} {p : Uint256 × Uint256}

end HcsCoin
