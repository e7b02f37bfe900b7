import HcsCoin.PantaSim.Proof
import HcsCoin.Validation

/-!
# What the quantum checks enforce

The bytes of a proof that validation pins, and the order in which the
difficulty hash is compared with the target.
-/

namespace HcsCoin

open Foundation PantaSim

/-! ## The order of the difficulty check -/

def difficultyValue (proof : Bytes) : Nat := leNat (slice proof QUANTUM_OFF_DIFFHASH 32)

/-- The byte of the difficulty hash and of the target that decides `operator<`
and the one that decides the numeric order point the same way. -/
def OrdersAgree (proof : Bytes) (target : Uint256) : Prop :=
  SameOrderAtEnds UInt8.toNat target.mData (slice proof QUANTUM_OFF_DIFFHASH 32)

theorem BaseBlob.less_iff_toNat_lt_iff {width : Nat} (a b : BaseBlob width) :
    (a.less b = true ↔ a.toNat < b.toNat) ↔ SameOrderAtEnds UInt8.toNat a.mData b.mData := by
  rw [BaseBlob.less, beq_iff_eq, BaseBlob.compare]
  exact scanCompare_lt_iff_value_lt_iff UInt8.toNat_lt (fun _ _ h => UInt8.toNat_inj.mp h)
    (a.size_eq.trans b.size_eq.symm)

variable {proof : Bytes} {fp : FloatOps} {blockHash : Uint256} {qubits : UInt8}
  {nQuantumNonce : UInt32} {i : Nat} {nonce : UInt32} {nQubits : Nat} {raw : Bytes}

theorem getQuantumDifficultyHash_mData (h : proof.length = QUANTUM_PROOF_SIZE) :
    (getQuantumDifficultyHash proof).mData = slice proof QUANTUM_OFF_DIFFHASH 32 := by
  rw [getQuantumDifficultyHash, dif_pos h]

theorem checkQuantumDifficulty_le_iff (hsize : proof.length = QUANTUM_PROOF_SIZE)
    (hnull : (getQuantumDifficultyHash proof).isNull = false) (target : Uint256) :
    (checkQuantumDifficulty proof target = true ↔ difficultyValue proof ≤ target.toNat) ↔
      OrdersAgree proof target := by
  have hdata := getQuantumDifficultyHash_mData hsize
  have hvalue : (getQuantumDifficultyHash proof).toNat = difficultyValue proof := by
    rw [BaseBlob.toNat, hdata, difficultyValue]
  rw [OrdersAgree, ← hdata, ← BaseBlob.less_iff_toNat_lt_iff, hvalue, checkQuantumDifficulty,
    ← Nat.not_lt]
  simp only [hnull, Bool.not_false, Bool.true_and, Bool.not_eq_true', ← Bool.not_eq_true]
  exact not_iff_not

/-- The target check and the numeric comparison give the same answer exactly where
the two orders agree; a block with a parent that `CheckBlock` accepts keeps to the
numeric limit in just those cases. -/
theorem checkQuantumDifficulty_numeric_iff (params : Params) :
    (∀ (proof : Bytes) (target : Uint256), proof.length = QUANTUM_PROOF_SIZE →
      (getQuantumDifficultyHash proof).isNull = false →
      ((checkQuantumDifficulty proof target = true ↔ difficultyValue proof ≤ target.toNat) ↔
        OrdersAgree proof target)) ∧
    (∀ (env : CheckEnv) (block : CBlock) (fCheckMerkleRoot : Bool) (flags : BlockFlags),
      checkBlock env block {} params true fCheckMerkleRoot = some (.ok (), flags) →
      block.hashPrevBlock.isNull = false →
      (difficultyValue block.vQuantumProof ≤ params.quantumPowLimit.toNat ↔
        OrdersAgree block.vQuantumProof params.quantumPowLimit)) := by
  constructor
  · intro proof target hsize hnull
    exact checkQuantumDifficulty_le_iff hsize hnull target
  · intro env block fCheckMerkleRoot flags haccepted hprev
    have hquantum := (checkBlock_ok haccepted).quantum rfl hprev
    obtain ⟨-, hdifficulty, hvalid⟩ := (checkQuantum_ok_iff env block params).mp hquantum
    obtain ⟨_, _, -, hcarries⟩ := (validateQuantumProof_iff _ _ _ _ _).mp hvalid
    have hnull : (getQuantumDifficultyHash block.vQuantumProof).isNull = false := by
      simp only [checkQuantumDifficulty, Bool.and_eq_true, Bool.not_eq_true'] at hdifficulty
      exact hdifficulty.1
    have hiff := checkQuantumDifficulty_le_iff hcarries.1 hnull params.quantumPowLimit
    rw [hdifficulty] at hiff
    simpa using hiff

def twoQubitParams : Params := { consensusParams .regtest with nQuantumQubits := 2 }

def signsEnv : CheckEnv := ⟨.signs, fun _ _ => false⟩

def twoQubitBlock : CBlock where
  hashPrevBlock := .ofHex 1
  hashMerkleRoot := .ofHex 0xf70455355684d1bcb267f5c333a97fbf6187331309007765022e69455490e0d4
  nBits := 0x207fffff
  nQuantumNonce := 77
  quantumFingerprint := .ofHex 0xd3b3b321e04440ddfe908807492353201b40db6a205c2db466aee56b849c32f2
  vtx := [sampleCoinBase]
  vQuantumProof := writeFields (List.replicate QUANTUM_PROOF_SIZE 0) <| proofFields 2 1
    (.ofHex 0x3bf4e14f44dc170dd5934b543464d15dc039347398844895178184b7710825d0)
    (.ofHex 0x339b93c91fb003523caeffa0a320acd1e6aa01c8bf23542a36debce95152baa2)

theorem checkBlock_twoQubitBlock :
    checkBlock signsEnv twoQubitBlock {} twoQubitParams true true =
      some (.ok (), { fChecked := true, mCheckedMerkleRoot := true }) := by
  decide +kernel

private theorem ordersAgree_of_ends {target : Uint256}
    (hsize : (slice proof QUANTUM_OFF_DIFFHASH 32).length = 32)
    (hfirst : target.mData[0]? ≠ (slice proof QUANTUM_OFF_DIFFHASH 32)[0]?)
    (hlast : target.mData[31]? ≠ (slice proof QUANTUM_OFF_DIFFHASH 32)[31]?)
    (h : digitAt UInt8.toNat target.mData 0 <
        digitAt UInt8.toNat (slice proof QUANTUM_OFF_DIFFHASH 32) 0 ↔
      digitAt UInt8.toNat target.mData 31 <
        digitAt UInt8.toNat (slice proof QUANTUM_OFF_DIFFHASH 32) 31) :
    OrdersAgree proof target := by
  refine SameOrderAtEnds.of_diffs ⟨fun j hj => absurd hj (Nat.not_lt_zero j), hfirst⟩
    ⟨fun j hj => ?_, hlast⟩ h
  rw [List.getElem?_eq_none (target.size_eq.trans_le hj), List.getElem?_eq_none (hsize.trans_le hj)]

set_option maxRecDepth 4000 in
/-- The difficulty hash 1 against the regtest limit, and a block accepted under
that limit. -/
theorem checkQuantumDifficulty_numeric_regtest :
    (let proof := writeAt (List.replicate QUANTUM_PROOF_SIZE 0) QUANTUM_OFF_DIFFHASH [1]
     let target := (consensusParams .regtest).quantumPowLimit
     checkQuantumDifficulty proof target = true ↔ difficultyValue proof ≤ target.toNat) ∧
    difficultyValue twoQubitBlock.vQuantumProof ≤ twoQubitParams.quantumPowLimit.toNat := by
  constructor
  · refine ((checkQuantumDifficulty_numeric_iff twoQubitParams).1 _ _ (by decide)
      (by decide)).mpr ?_
    exact ordersAgree_of_ends (by decide) (by decide) (by decide)
      (by decide)
  · refine ((checkQuantumDifficulty_numeric_iff twoQubitParams).2 _ _ _ _ checkBlock_twoQubitBlock
      (by decide)).mpr ?_
    exact ordersAgree_of_ends (by decide) (by decide) (by decide)
      (by decide)

set_option maxRecDepth 4000 in
/-- A difficulty hash with only its most significant bit set passes the regtest
limit and is above it. -/
theorem checkQuantumDifficulty_accepts_above_limit :
    let proof := writeAt (List.replicate QUANTUM_PROOF_SIZE 0) (QUANTUM_OFF_DIFFHASH + 31) [0x80]
    let target := (consensusParams .regtest).quantumPowLimit
    proof.length = QUANTUM_PROOF_SIZE ∧ (getQuantumDifficultyHash proof).isNull = false ∧
      checkQuantumDifficulty proof target = true ∧ ¬ difficultyValue proof ≤ target.toNat := by
  decide

/-! ## The bytes validation pins -/

def EqUpToFlags (a b : Bytes) : Prop := ∀ i, i ≠ 7 → a[i]? = b[i]?

def AgreeOnReserved (a b : Bytes) : Prop := ∀ i, Reserved i → a[i]? = b[i]?

theorem CarriesProof.eqUpToFlags_iff {a b : Bytes} {measurement : UInt32}
    {fingerprint diffhash : Uint256}
    (ha : CarriesProof a (proofFields qubits measurement fingerprint diffhash))
    (hb : CarriesProof b (proofFields qubits measurement fingerprint diffhash)) :
    EqUpToFlags a b ↔ AgreeOnReserved a b := by
  constructor
  · intro h i hi
    refine h i ?_
    rintro rfl
    simp [Reserved] at hi
  · intro h i hflags
    by_cases hi : Reserved i
    · exact h i hi
    · exact ha.getElem?_eq hb hflags hi

theorem EqUpToFlags.eq {a b : Bytes} (h : EqUpToFlags a b) (hflags : a[7]? = b[7]?) : a = b := by
  apply List.ext_getElem?
  intro i
  by_cases hi : i = 7
  · rw [hi, hflags]
  · exact h i hi

/-- Two proofs accepted for one simulation are the same up to their flags, and so
have one fingerprint for each flags value, if and only if they agree on the
reserved bytes; in C++ and in Rust. -/
theorem acceptedProofs_eqUpToFlags_iff (fp : FloatOps) (blockHash : Uint256)
    (nQuantumNonce : UInt32) (a b : Bytes) :
    (∀ nQubits, validateQuantumProof fp a blockHash nQuantumNonce nQubits = some true →
      validateQuantumProof fp b blockHash nQuantumNonce nQubits = some true →
      (EqUpToFlags a b ↔ AgreeOnReserved a b) ∧
        (AgreeOnReserved a b → a[7]? = b[7]? → sha256 a = sha256 b)) ∧
    (∀ qubits, verifyProof fp blockHash nQuantumNonce a qubits = some true →
      verifyProof fp blockHash nQuantumNonce b qubits = some true →
      (EqUpToFlags a b ↔ AgreeOnReserved a b)) := by
  constructor
  · intro nQubits ha hb
    obtain ⟨m, f, hsim, ha⟩ := (validateQuantumProof_iff fp a _ _ _).mp ha
    obtain ⟨m', f', hsim', hb⟩ := (validateQuantumProof_iff fp b _ _ _).mp hb
    obtain ⟨rfl, rfl⟩ : m = m' ∧ f = f' := by simpa using hsim.symm.trans hsim'
    have hiff := ha.eqUpToFlags_iff hb
    exact ⟨hiff, fun hreserved hflags => by rw [(hiff.mpr hreserved).eq hflags]⟩
  · intro qubits ha hb
    obtain ⟨m, f, hsim, ha⟩ := (verifyProof_iff fp _ _ a _).mp ha
    obtain ⟨m', f', hsim', hb⟩ := (verifyProof_iff fp _ _ b _).mp hb
    obtain ⟨rfl, rfl⟩ : m = m' ∧ f = f' := by simpa using hsim.symm.trans hsim'
    exact ha.eqUpToFlags_iff hb

private theorem validateQuantumProof_writeByte
    (h : validateQuantumProof fp proof blockHash nQuantumNonce nQubits = some true)
    (hi : i = 6 ∨ i = 7) (x : UInt8) :
    validateQuantumProof fp (writeAt proof i [x]) blockHash nQuantumNonce nQubits = some true := by
  obtain ⟨m, f, hsim, hcarries⟩ := (validateQuantumProof_iff _ _ _ _ _).mp h
  exact (validateQuantumProof_iff _ _ _ _ _).mpr ⟨m, f, hsim, hcarries.writeByte hi x⟩

private theorem verifyProof_writeByte (h : verifyProof fp blockHash nonce raw qubits = some true)
    (hi : i = 6 ∨ i = 7) (x : UInt8) :
    verifyProof fp blockHash nonce (writeAt raw i [x]) qubits = some true := by
  obtain ⟨m, f, hsim, hcarries⟩ := (verifyProof_iff _ _ _ _ _).mp h
  exact (verifyProof_iff _ _ _ _ _).mpr ⟨m, f, hsim, hcarries.writeByte hi x⟩

private theorem validateQuantumProof_length
    (h : validateQuantumProof fp proof blockHash nQuantumNonce nQubits = some true) :
    proof.length = 256 := by
  obtain ⟨_, _, -, hcarries⟩ := (validateQuantumProof_iff _ _ _ _ _).mp h
  exact hcarries.1

private theorem verifyProof_length (h : verifyProof fp blockHash nonce raw qubits = some true) :
    raw.length = 256 := by
  obtain ⟨_, _, -, hcarries⟩ := (verifyProof_iff _ _ _ _ _).mp h
  exact hcarries.1

private theorem getElem?_writeByte (h : proof.length = 256) (hi : i < 256) (x : UInt8) (j : Nat) :
    (writeAt proof i [x])[j]? = if j = i then some x else proof[j]? := by
  rw [getElem?_writeAt (by rw [h]; exact hi)]
  by_cases hj : j = i
  · simp [hj]
  · rw [if_neg hj, if_neg]
    simp only [List.length_singleton]
    omega

private theorem agreeOnReserved_writeFlags (h : proof.length = 256) (x : UInt8) :
    AgreeOnReserved proof (writeAt proof 7 [x]) := by
  intro i hi
  rw [getElem?_writeByte h (by norm_num), if_neg]
  rintro rfl
  simp [Reserved] at hi

private theorem not_eqUpToFlags_writeReserved (h : proof.length = 256) :
    ¬ EqUpToFlags (writeAt proof 6 [0]) (writeAt proof 6 [1]) := by
  intro heq
  have h6 := heq 6 (by norm_num)
  rw [getElem?_writeByte h (by norm_num), getElem?_writeByte h (by norm_num)] at h6
  simp at h6

theorem acceptedProofs_eqUpToFlags_regtest :
    (∃ a, validateQuantumProof .ieee a .null 0 12 = some true ∧
      validateQuantumProof .ieee (writeAt a 7 [1]) .null 0 12 = some true ∧
      EqUpToFlags a (writeAt a 7 [1])) ∧
    (∃ a, verifyProof .ieee .null 0 a 12 = some true ∧
      verifyProof .ieee .null 0 (writeAt a 7 [1]) 12 = some true ∧
      EqUpToFlags a (writeAt a 7 [1])) := by
  obtain ⟨a, -, ha⟩ := generateQuantumProof_valid .ieee .null 0
    (by norm_num : (12 : Nat) ≠ 1) (by norm_num)
  obtain ⟨r, -, hr⟩ := generateProof_valid .ieee .null 0 false
    (by decide : (12 : UInt8).toNat ≠ 1) (by decide)
  have ha' := validateQuantumProof_writeByte ha (.inr rfl) 1
  have hr' := verifyProof_writeByte hr (.inr rfl) 1
  refine ⟨⟨a, ha, ha', ?_⟩, ⟨r, hr, hr', ?_⟩⟩
  · exact ((acceptedProofs_eqUpToFlags_iff .ieee .null 0 a (writeAt a 7 [1])).1 12 ha ha').1.mpr
      (agreeOnReserved_writeFlags (validateQuantumProof_length ha) 1)
  · exact ((acceptedProofs_eqUpToFlags_iff .ieee .null 0 r (writeAt r 7 [1])).2 12 hr hr').mpr
      (agreeOnReserved_writeFlags (verifyProof_length hr) 1)

/-- Byte 6 of an accepted proof can be changed at will. -/
theorem acceptedProofs_differ_at_reserved_byte :
    (∃ proof, generateQuantumProof .ieee .null 0 12 = some proof ∧
      validateQuantumProof .ieee (writeAt proof 6 [0]) .null 0 12 = some true ∧
      validateQuantumProof .ieee (writeAt proof 6 [1]) .null 0 12 = some true ∧
      ¬ EqUpToFlags (writeAt proof 6 [0]) (writeAt proof 6 [1])) ∧
    (∃ raw, generateProof .ieee .null 0 12 false = some raw ∧
      verifyProof .ieee .null 0 (writeAt raw 6 [0]) 12 = some true ∧
      verifyProof .ieee .null 0 (writeAt raw 6 [1]) 12 = some true ∧
      ¬ EqUpToFlags (writeAt raw 6 [0]) (writeAt raw 6 [1])) := by
  obtain ⟨a, hgen, ha⟩ := generateQuantumProof_valid .ieee .null 0
    (by norm_num : (12 : Nat) ≠ 1) (by norm_num)
  obtain ⟨r, hgenr, hr⟩ := generateProof_valid .ieee .null 0 false
    (by decide : (12 : UInt8).toNat ≠ 1) (by decide)
  exact ⟨⟨a, hgen, validateQuantumProof_writeByte ha (.inl rfl) 0,
      validateQuantumProof_writeByte ha (.inl rfl) 1,
      not_eqUpToFlags_writeReserved (validateQuantumProof_length ha)⟩,
    ⟨r, hgenr, verifyProof_writeByte hr (.inl rfl) 0, verifyProof_writeByte hr (.inl rfl) 1,
      not_eqUpToFlags_writeReserved (verifyProof_length hr)⟩⟩

end HcsCoin
