import HcsCoin.Consensus.QuantumSim

/-!
# Quantum proofs

The 256-byte proof of `consensus/quantum.cpp`: how it is written, what
`ValidateQuantumProof` compares, and the difficulty check.
-/

namespace HcsCoin

open Foundation

def QUANTUM_PROOF_SIZE : Nat := 256
def QUANTUM_PROOF_MAGIC : Bytes := [0x51, 0x53, 0x50, 0x31]
def QUANTUM_PROOF_VERSION : UInt8 := 1
def QUANTUM_OFF_FINGERPRINT : Nat := 8
def QUANTUM_OFF_MEASUREMENT : Nat := 40
def QUANTUM_OFF_DIFFHASH : Nat := 76

/-- SHA256("QDIFF" || fingerprint || LE32(measurement) || LE32(nonce)). -/
def quantumComputeDiffHash (fingerprint : Uint256) (measurement nQuantumNonce : UInt32) : Uint256 :=
  sha256 ([0x51, 0x44, 0x49, 0x46, 0x46] ++ (fingerprint.mData ++
    (leBytes 4 measurement.toNat ++ leBytes 4 nQuantumNonce.toNat)))

def getQuantumDifficultyHash (quantumProof : Bytes) : Uint256 :=
  if h : quantumProof.length = QUANTUM_PROOF_SIZE then
    ⟨slice quantumProof QUANTUM_OFF_DIFFHASH 32, slice_length (by rw [h]; decide)⟩
  else .null

def isQuantumProofWellFormed (quantumProof : Bytes) (nQubits : Nat) : Bool :=
  quantumProof.length == QUANTUM_PROOF_SIZE &&
    slice quantumProof 0 4 == QUANTUM_PROOF_MAGIC &&
    slice quantumProof 4 1 == [QUANTUM_PROOF_VERSION] &&
    slice quantumProof 5 1 == [UInt8.ofNat nQubits]

def generateQuantumProof (fp : FloatOps) (blockHash : Uint256) (nQuantumNonce : UInt32)
    (nQubits : Nat) : Option Bytes := do
  let (measurement, fingerprint) ← quantumSimulate fp blockHash nQuantumNonce nQubits
  let diffhash := quantumComputeDiffHash fingerprint measurement nQuantumNonce
  some (writeFields (List.replicate QUANTUM_PROOF_SIZE 0)
    [⟨0, QUANTUM_PROOF_MAGIC⟩,
     ⟨4, [QUANTUM_PROOF_VERSION]⟩,
     ⟨5, [UInt8.ofNat nQubits]⟩,
     ⟨7, [0]⟩,
     ⟨QUANTUM_OFF_FINGERPRINT, fingerprint.mData⟩,
     ⟨QUANTUM_OFF_MEASUREMENT, leBytes 4 measurement.toNat⟩,
     ⟨QUANTUM_OFF_DIFFHASH, diffhash.mData⟩])

def validateQuantumProof (fp : FloatOps) (quantumProof : Bytes) (blockHash : Uint256)
    (nQuantumNonce : UInt32) (nQubits : Nat) : Option Bool :=
  if isQuantumProofWellFormed quantumProof nQubits then do
    let (measurement, fingerprint) ← quantumSimulate fp blockHash nQuantumNonce nQubits
    let diffhash := quantumComputeDiffHash fingerprint measurement nQuantumNonce
    some (slice quantumProof QUANTUM_OFF_FINGERPRINT 32 == fingerprint.mData &&
      slice quantumProof QUANTUM_OFF_MEASUREMENT 4 == leBytes 4 measurement.toNat &&
      slice quantumProof QUANTUM_OFF_DIFFHASH 32 == diffhash.mData)
  else some false

def checkQuantumDifficulty (proof : Bytes) (target : Uint256) : Bool :=
  let diffhash := getQuantumDifficultyHash proof
  !diffhash.isNull && !target.less diffhash

/-! ## What validation compares -/

def proofFields (qubits : UInt8) (measurement : UInt32) (fingerprint diffhash : Uint256) :
    List Field :=
  [⟨0, QUANTUM_PROOF_MAGIC⟩,
   ⟨4, [QUANTUM_PROOF_VERSION]⟩,
   ⟨5, [qubits]⟩,
   ⟨QUANTUM_OFF_FINGERPRINT, fingerprint.mData⟩,
   ⟨QUANTUM_OFF_MEASUREMENT, leBytes 4 measurement.toNat⟩,
   ⟨QUANTUM_OFF_DIFFHASH, diffhash.mData⟩]

def CarriesProof (proof : Bytes) (fields : List Field) : Prop :=
  proof.length = QUANTUM_PROOF_SIZE ∧ ∀ f ∈ fields, f.Carried proof

/-- The positions the layout reserves: byte 6 and the two zero paddings. -/
def Reserved (i : Nat) : Prop := i = 6 ∨ (44 ≤ i ∧ i < 76) ∨ (108 ≤ i ∧ i < 256)

instance (i : Nat) : Decidable (Reserved i) := inferInstanceAs (Decidable (_ ∨ _))

theorem carriesProof_iff (proof : Bytes) (qubits : UInt8) (measurement : UInt32)
    (fingerprint diffhash : Uint256) :
    CarriesProof proof (proofFields qubits measurement fingerprint diffhash) ↔
      proof.length = QUANTUM_PROOF_SIZE ∧
        slice proof 0 4 = QUANTUM_PROOF_MAGIC ∧
        slice proof 4 1 = [QUANTUM_PROOF_VERSION] ∧
        slice proof 5 1 = [qubits] ∧
        slice proof QUANTUM_OFF_FINGERPRINT 32 = fingerprint.mData ∧
        slice proof QUANTUM_OFF_MEASUREMENT 4 = leBytes 4 measurement.toNat ∧
        slice proof QUANTUM_OFF_DIFFHASH 32 = diffhash.mData := by
  have hmagic : QUANTUM_PROOF_MAGIC.length = 4 := rfl
  simp [CarriesProof, proofFields, Field.Carried, BaseBlob.size_eq, hmagic]

theorem validateQuantumProof_iff (fp : FloatOps) (proof : Bytes) (blockHash : Uint256)
    (nQuantumNonce : UInt32) (nQubits : Nat) :
    validateQuantumProof fp proof blockHash nQuantumNonce nQubits = some true ↔
      ∃ measurement fingerprint,
        quantumSimulate fp blockHash nQuantumNonce nQubits = some (measurement, fingerprint) ∧
        CarriesProof proof (proofFields (UInt8.ofNat nQubits) measurement fingerprint
          (quantumComputeDiffHash fingerprint measurement nQuantumNonce)) := by
  simp only [carriesProof_iff]
  by_cases hwell : isQuantumProofWellFormed proof nQubits = true
  · rw [validateQuantumProof, if_pos hwell]
    simp only [isQuantumProofWellFormed, Bool.and_eq_true, beq_iff_eq] at hwell
    obtain ⟨⟨⟨hsize, hmagic⟩, hversion⟩, hqubits⟩ := hwell
    cases quantumSimulate fp blockHash nQuantumNonce nQubits with
    | none => simp
    | some result =>
      obtain ⟨measurement, fingerprint⟩ := result
      simp [hsize, hmagic, hversion, hqubits, and_assoc]
  · rw [validateQuantumProof, if_neg hwell]
    constructor
    · intro h
      simp at h
    · rintro ⟨measurement, fingerprint, -, hsize, hmagic, hversion, hqubits, -⟩
      refine absurd ?_ hwell
      simp [isQuantumProofWellFormed, hsize, hmagic, hversion, hqubits]

variable {measurement : UInt32} {qubits : UInt8} {diffhash fingerprint : Uint256} {i : Nat}

theorem CarriesProof.getElem?_eq {a b : Bytes}
    (ha : CarriesProof a (proofFields qubits measurement fingerprint diffhash))
    (hb : CarriesProof b (proofFields qubits measurement fingerprint diffhash)) (hflags : i ≠ 7)
    (hreserved : ¬ Reserved i) : a[i]? = b[i]? := by
  have hfield : ∀ f ∈ proofFields qubits measurement fingerprint diffhash,
      f.offset ≤ i → i < f.offset + f.data.length → a[i]? = b[i]? :=
    fun f hf => (ha.2 f hf).getElem?_eq (hb.2 f hf)
  simp only [proofFields, List.forall_mem_cons, leBytes_length, BaseBlob.size_eq] at hfield
  obtain ⟨hmagic, hversion, hqubits, hfp, hmeas, hdiff, -⟩ := hfield
  simp only [Reserved, not_or, not_and, Nat.not_lt] at hreserved
  obtain ⟨h6, hfirst, hsecond⟩ := hreserved
  -- The fields in the order of their positions, with the gaps between them.
  rcases Nat.lt_or_ge i 4 with h4 | h4
  · exact hmagic (Nat.zero_le _) h4
  rcases Nat.lt_or_ge i 5 with h5 | h5
  · exact hversion h4 h5
  rcases Nat.lt_or_ge i 6 with hlt6 | hge6
  · exact hqubits h5 hlt6
  have h8 : 8 ≤ i := by omega
  rcases Nat.lt_or_ge i 40 with h40 | h40
  · exact hfp h8 h40
  rcases Nat.lt_or_ge i 44 with h44 | h44
  · exact hmeas h40 h44
  have h76 : 76 ≤ i := hfirst h44
  rcases Nat.lt_or_ge i 108 with h108 | h108
  · exact hdiff h76 h108
  have hend : QUANTUM_PROOF_SIZE ≤ i := hsecond h108
  rw [List.getElem?_eq_none (ha.1 ▸ hend), List.getElem?_eq_none (hb.1 ▸ hend)]

theorem CarriesProof.writeByte {proof : Bytes}
    (h : CarriesProof proof (proofFields qubits measurement fingerprint diffhash))
    (hi : i = 6 ∨ i = 7) (x : UInt8) :
    CarriesProof (writeAt proof i [x]) (proofFields qubits measurement fingerprint diffhash) := by
  have hfit : ∀ f ∈ [(⟨i, [x]⟩ : Field)], f.Fits proof.length := by
    simp only [List.mem_singleton, forall_eq, Field.Fits, h.1, QUANTUM_PROOF_SIZE,
      List.length_singleton]
    omega
  refine ⟨(writeFields_length hfit).trans h.1, fun f hf => ?_⟩
  refine (h.2 f hf).writeFields hfit ?_
  simp only [List.mem_singleton, forall_eq, Field.Apart, List.length_singleton]
  simp only [proofFields, List.mem_cons, List.not_mem_nil, or_false] at hf
  rcases hf with rfl | rfl | rfl | rfl | rfl | rfl <;>
    simp only [QUANTUM_PROOF_MAGIC, QUANTUM_OFF_FINGERPRINT, QUANTUM_OFF_MEASUREMENT,
      QUANTUM_OFF_DIFFHASH, List.length_cons, List.length_nil] <;> omega

theorem carriesProof_writeFields (qubits flags : UInt8) (measurement : UInt32)
    (fingerprint diffhash : Uint256) :
    CarriesProof (writeFields (List.replicate QUANTUM_PROOF_SIZE 0)
      [⟨0, QUANTUM_PROOF_MAGIC⟩, ⟨4, [QUANTUM_PROOF_VERSION]⟩, ⟨5, [qubits]⟩, ⟨7, [flags]⟩,
       ⟨QUANTUM_OFF_FINGERPRINT, fingerprint.mData⟩,
       ⟨QUANTUM_OFF_MEASUREMENT, leBytes 4 measurement.toNat⟩,
       ⟨QUANTUM_OFF_DIFFHASH, diffhash.mData⟩])
      (proofFields qubits measurement fingerprint diffhash) := by
  have hfit : ∀ f ∈ [(⟨0, QUANTUM_PROOF_MAGIC⟩ : Field), ⟨4, [QUANTUM_PROOF_VERSION]⟩,
      ⟨5, [qubits]⟩, ⟨7, [flags]⟩, ⟨QUANTUM_OFF_FINGERPRINT, fingerprint.mData⟩,
      ⟨QUANTUM_OFF_MEASUREMENT, leBytes 4 measurement.toNat⟩,
      ⟨QUANTUM_OFF_DIFFHASH, diffhash.mData⟩],
      f.Fits (List.replicate QUANTUM_PROOF_SIZE (0 : UInt8)).length := by
    rw [List.length_replicate]
    simp [Field.Fits, QUANTUM_PROOF_MAGIC, QUANTUM_OFF_FINGERPRINT, QUANTUM_OFF_MEASUREMENT,
      QUANTUM_OFF_DIFFHASH, QUANTUM_PROOF_SIZE, BaseBlob.size_eq]
  refine ⟨by rw [writeFields_length hfit, List.length_replicate], ?_⟩
  have hcarried := carried_writeFields hfit (by
    simp [Field.Apart, QUANTUM_PROOF_MAGIC, QUANTUM_OFF_FINGERPRINT, QUANTUM_OFF_MEASUREMENT,
      QUANTUM_OFF_DIFFHASH, BaseBlob.size_eq])
  intro f hf
  refine hcarried f ?_
  simp only [proofFields, List.mem_cons] at hf ⊢
  tauto

variable {nQubits : Nat}

theorem quantumSimulate_isSome (fp : FloatOps) (blockHash : Uint256) (nQuantumNonce : UInt32)
    (hone : nQubits ≠ 1) (hlarge : nQubits < 64) :
    ∃ result, quantumSimulate fp blockHash nQuantumNonce nQubits = some result := by
  rw [quantumSimulate, if_neg (by omega)]
  exact ⟨_, rfl⟩

theorem validateQuantumProof_isSome (fp : FloatOps) (proof : Bytes) (blockHash : Uint256)
    (nQuantumNonce : UInt32) (hone : nQubits ≠ 1) (hlarge : nQubits < 64) :
    (validateQuantumProof fp proof blockHash nQuantumNonce nQubits).isSome := by
  obtain ⟨result, hsim⟩ := quantumSimulate_isSome fp blockHash nQuantumNonce hone hlarge
  rw [validateQuantumProof, hsim]
  split_ifs <;> rfl

theorem generateQuantumProof_valid (fp : FloatOps) (blockHash : Uint256) (nQuantumNonce : UInt32)
    (hone : nQubits ≠ 1) (hlarge : nQubits < 64) :
    ∃ proof, generateQuantumProof fp blockHash nQuantumNonce nQubits = some proof ∧
      validateQuantumProof fp proof blockHash nQuantumNonce nQubits = some true := by
  obtain ⟨⟨measurement, fingerprint⟩, hsim⟩ :=
    quantumSimulate_isSome fp blockHash nQuantumNonce hone hlarge
  refine ⟨_, by rw [generateQuantumProof, hsim]; rfl, ?_⟩
  exact (validateQuantumProof_iff _ _ _ _ _).mpr
    ⟨measurement, fingerprint, hsim, carriesProof_writeFields _ _ _ _ _⟩

end HcsCoin
