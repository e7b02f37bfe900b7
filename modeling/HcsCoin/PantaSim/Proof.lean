import HcsCoin.Consensus.Quantum
import HcsCoin.PantaSim.Circuit

/-!
# Quantum proofs in panta-sim

`panta-sim/src/proof.rs`: the parsed proof, its bytes, generation and
verification.  The layout and its constants are those of the C++ side.
-/

namespace HcsCoin.PantaSim

open Foundation

def PROOF_SIZE : Nat := 256
def PROOF_MAGIC : Bytes := [0x51, 0x53, 0x50, 0x31]
def PROOF_VERSION : UInt8 := 1
def FLAG_GPU : UInt8 := 1
def FINGERPRINT_SAMPLES : Nat := 1024
def OFF_FINGERPRINT : Nat := 8
def OFF_MEASUREMENT : Nat := 40
def OFF_DIFFHASH : Nat := 76

structure QuantumProof where
  qubits : UInt8
  flags : UInt8
  fingerprint : Uint256
  measurement : UInt32
  diffHash : Uint256

namespace QuantumProof

def toBytes (p : QuantumProof) : Bytes :=
  writeFields (List.replicate PROOF_SIZE 0)
    [⟨0, PROOF_MAGIC⟩,
     ⟨4, [PROOF_VERSION]⟩,
     ⟨5, [p.qubits]⟩,
     ⟨7, [p.flags]⟩,
     ⟨OFF_FINGERPRINT, p.fingerprint.mData⟩,
     ⟨OFF_MEASUREMENT, leBytes 4 p.measurement.toNat⟩,
     ⟨OFF_DIFFHASH, p.diffHash.mData⟩]

def parse (raw : Bytes) : Option QuantumProof :=
  if h : raw.length = PROOF_SIZE then
    if slice raw 0 4 ≠ PROOF_MAGIC then none
    else if raw.getD 4 0 ≠ PROOF_VERSION then none
    else some
      { qubits := raw.getD 5 0
        flags := raw.getD 7 0
        fingerprint := ⟨slice raw OFF_FINGERPRINT 32, slice_length (by rw [h]; decide)⟩
        measurement := UInt32.ofNat (leNat (slice raw OFF_MEASUREMENT 4))
        diffHash := ⟨slice raw OFF_DIFFHASH 32, slice_length (by rw [h]; decide)⟩ }
  else none

end QuantumProof

def computeDiffHash (fingerprint : Uint256) (measurement nonce : UInt32) : Uint256 :=
  ((((Sha256.new.update [0x51, 0x44, 0x49, 0x46, 0x46]).update fingerprint.mData).update
    (leBytes 4 measurement.toNat)).update (leBytes 4 nonce.toNat)).finish

def generateProof (fp : FloatOps) (blockHash : Uint256) (nonce : UInt32) (qubits : UInt8)
    (gpuFlag : Bool) : Option Bytes := do
  let (measurement, sv) ← simulate fp blockHash nonce qubits
  let fingerprint := sha256 (Statevector.sampledBytes sv FINGERPRINT_SAMPLES)
  let measurement32 := UInt32.ofNat measurement
  let diffHash := computeDiffHash fingerprint measurement32 nonce
  some (QuantumProof.toBytes
    { qubits := qubits
      flags := if gpuFlag then FLAG_GPU else 0
      fingerprint := fingerprint
      measurement := measurement32
      diffHash := diffHash })

def verifyProof (fp : FloatOps) (blockHash : Uint256) (nonce : UInt32) (raw : Bytes)
    (qubits : UInt8) : Option Bool :=
  match QuantumProof.parse raw with
  | none => some false
  | some parsed =>
    if parsed.qubits ≠ qubits then some false
    else do
      let (measurement, sv) ← simulate fp blockHash nonce qubits
      let fingerprint := sha256 (Statevector.sampledBytes sv FINGERPRINT_SAMPLES)
      if fingerprint ≠ parsed.fingerprint then some false
      else if UInt32.ofNat measurement ≠ parsed.measurement then some false
      else some (computeDiffHash fingerprint (UInt32.ofNat measurement) nonce == parsed.diffHash)

/-! ## What verification compares -/

variable {bs : Bytes}

theorem slice_one {i : Nat} (h : i < bs.length) : slice bs i 1 = [bs.getD i 0] := by
  apply List.ext_getElem?
  intro j
  rcases j with - | j
  · rw [getElem?_slice bs (by norm_num), Nat.add_zero]
    simp [List.getD_eq_getElem?_getD, List.getElem?_eq_getElem h]
  · simp [slice]

def simulatedFields (fp : FloatOps) (blockHash : Uint256) (nonce : UInt32) (qubits : UInt8) :
    Option (UInt32 × Uint256) :=
  (simulate fp blockHash nonce qubits).map fun (measurement, sv) =>
    (UInt32.ofNat measurement, sha256 (Statevector.sampledBytes sv FINGERPRINT_SAMPLES))

private theorem ofNat_leNat_eq_iff (h : bs.length = 4) (x : UInt32) :
    x = UInt32.ofNat (leNat bs) ↔ bs = leBytes 4 x.toNat := by
  have hlt : leNat bs < 2 ^ 32 := by simpa [h] using leNat_lt bs
  constructor
  · rintro rfl
    rw [UInt32.toNat_ofNat_of_lt' hlt, leBytes_leNat h]
  · intro hbs
    rw [hbs, leNat_leBytes_of_lt x.toNat_lt]
    simp

variable {raw : Bytes}

theorem parse_eq_some (hsize : raw.length = PROOF_SIZE) (hmagic : slice raw 0 4 = PROOF_MAGIC)
    (hversion : raw.getD 4 0 = PROOF_VERSION) : QuantumProof.parse raw = some
      { qubits := raw.getD 5 0
        flags := raw.getD 7 0
        fingerprint := ⟨slice raw OFF_FINGERPRINT 32, slice_length (by rw [hsize]; decide)⟩
        measurement := UInt32.ofNat (leNat (slice raw OFF_MEASUREMENT 4))
        diffHash := ⟨slice raw OFF_DIFFHASH 32, slice_length (by rw [hsize]; decide)⟩ } := by
  rw [QuantumProof.parse, dif_pos hsize, if_neg (not_not.mpr hmagic), if_neg (not_not.mpr hversion)]

theorem parse_eq_none (h : ¬ (raw.length = PROOF_SIZE ∧
    slice raw 0 4 = PROOF_MAGIC ∧ raw.getD 4 0 = PROOF_VERSION)) :
    QuantumProof.parse raw = none := by
  unfold QuantumProof.parse
  split
  next hsize =>
    split
    · rfl
    next hmagic =>
      split
      · rfl
      next hversion => exact absurd ⟨hsize, not_not.mp hmagic, not_not.mp hversion⟩ h
  next => rfl

variable (fp : FloatOps) (blockHash : Uint256) (nonce : UInt32) (raw : Bytes)

theorem verifyProof_iff (qubits : UInt8) : verifyProof fp blockHash nonce raw qubits = some true ↔
      ∃ measurement fingerprint,
        simulatedFields fp blockHash nonce qubits = some (measurement, fingerprint) ∧
        CarriesProof raw (proofFields qubits measurement fingerprint
          (computeDiffHash fingerprint measurement nonce)) := by
  simp only [carriesProof_iff]
  by_cases hwell : raw.length = PROOF_SIZE ∧ slice raw 0 4 = PROOF_MAGIC ∧
      raw.getD 4 0 = PROOF_VERSION
  · obtain ⟨hsize, hmagic, hversion⟩ := hwell
    have hlong : ∀ i < 256, i < raw.length := fun i hi => by rwa [hsize]
    have hmeasure : (slice raw OFF_MEASUREMENT 4).length = 4 := slice_length (by
      rw [hsize]
      decide)
    simp only [verifyProof, parse_eq_some hsize hmagic hversion, simulatedFields]
    have hsize' : raw.length = QUANTUM_PROOF_SIZE := hsize
    have hmagic' : slice raw 0 4 = QUANTUM_PROOF_MAGIC := hmagic
    have hversion' : slice raw 4 1 = [QUANTUM_PROOF_VERSION] := by
      rw [slice_one (hlong 4 (by norm_num)), hversion]
      rfl
    rw [slice_one (hlong 5 (by norm_num))]
    cases simulate fp blockHash nonce qubits with
    | none => simp
    | some result =>
      obtain ⟨measurement, sv⟩ := result
      simp only [some_bind, Option.map_some, Option.some.injEq,
        Prod.mk.injEq, ofNat_leNat_eq_iff hmeasure, ne_eq]
      constructor
      · intro h
        split at h
        · cases h
        next hqubits =>
          split at h
          · cases h
          next hfp =>
            split at h
            · cases h
            next hmeas =>
              simp only [Option.some.injEq, beq_iff_eq] at h
              refine ⟨_, _, ⟨rfl, rfl⟩, hsize', hmagic', hversion', ?_, ?_, ?_, ?_⟩
              · rw [not_not.mp hqubits]
              · rw [not_not.mp hfp]
                rfl
              · exact not_not.mp hmeas
              · rw [h]
                rfl
      · rintro ⟨_, _, ⟨rfl, rfl⟩, -, -, -, hqubits, hfp, hmeas, hdiff⟩
        change slice raw OFF_MEASUREMENT 4 = _ at hmeas
        rw [if_neg (not_not.mpr (List.singleton_inj.mp hqubits)),
          if_neg (not_not.mpr (BaseBlob.ext hfp.symm)), if_neg (not_not.mpr hmeas)]
        simp only [Option.some.injEq, beq_iff_eq]
        exact BaseBlob.ext hdiff.symm
  · rw [verifyProof, parse_eq_none hwell]
    constructor
    · intro h
      simp at h
    · rintro ⟨_, _, -, hsize, hmagic, hversion, -⟩
      refine absurd ⟨hsize, hmagic, ?_⟩ hwell
      rw [slice_one (by rw [hsize]; decide)] at hversion
      exact List.singleton_inj.mp hversion

variable {qubits : UInt8}

theorem generateProof_valid (gpuFlag : Bool) (hone : qubits.toNat ≠ 1)
    (hmax : qubits.toNat ≤ MAX_QUBITS) :
    ∃ raw, generateProof fp blockHash nonce qubits gpuFlag = some raw ∧
      verifyProof fp blockHash nonce raw qubits = some true := by
  have hsim := simulate_eq fp blockHash nonce hone hmax
  refine ⟨_, by rw [generateProof, hsim]; rfl, ?_⟩
  exact (verifyProof_iff _ _ _ _ _).mpr
    ⟨_, _, by rw [simulatedFields, hsim]; rfl, carriesProof_writeFields _ _ _ _ _⟩

/-! ## Agreement with the node -/

theorem computeDiffHash_eq (fingerprint : Uint256) (measurement nonce : UInt32) :
    computeDiffHash fingerprint measurement nonce =
      quantumComputeDiffHash fingerprint measurement nonce := by
  have htag := Sha256.holds_new.update [0x51, 0x44, 0x49, 0x46, 0x46]
  have hfields := ((htag.update fingerprint.mData).update (leBytes 4 measurement.toNat)).update
    (leBytes 4 nonce.toNat)
  rw [computeDiffHash, hfields.finish, quantumComputeDiffHash]
  simp only [List.nil_append, List.append_assoc]

section
variable (hone : qubits.toNat ≠ 1)
include hone

section
variable (hmax : qubits.toNat ≤ MAX_QUBITS)
include hmax

theorem simulatedFields_eq (hhost : fp.bigEndian = false) :
    simulatedFields fp blockHash nonce qubits =
      quantumSimulate fp blockHash nonce qubits.toNat := by
  have hlarge : ¬ (qubits.toNat = 1 ∨ 64 ≤ qubits.toNat) := by
    simp only [MAX_QUBITS] at hmax
    omega
  rw [simulatedFields, simulate_eq fp blockHash nonce hone hmax, quantumSimulate, if_neg hlarge,
    Option.map_some]
  dsimp only
  rw [Statevector.sampledBytes_eq hhost, sha256_eq]
  rfl

theorem generateProof_eq (hhost : fp.bigEndian = false) :
    generateProof fp blockHash nonce qubits false =
      generateQuantumProof fp blockHash nonce qubits.toNat := by
  have hsim := simulatedFields_eq fp blockHash nonce hone hmax hhost
  rw [simulatedFields, simulate_eq fp blockHash nonce hone hmax, Option.map_some] at hsim
  rw [generateProof, generateQuantumProof, simulate_eq fp blockHash nonce hone hmax, ← hsim]
  simp only [some_bind, computeDiffHash_eq]
  simp only [QuantumProof.toBytes, UInt8.ofNat_toNat]
  rfl

theorem verifyProof_isSome : (verifyProof fp blockHash nonce raw qubits).isSome := by
  rw [verifyProof, simulate_eq fp blockHash nonce hone hmax]
  cases QuantumProof.parse raw with
  | none => rfl
  | some parsed =>
    simp only [some_bind]
    split_ifs <;> rfl

theorem verifyProof_eq (hhost : fp.bigEndian = false) :
    verifyProof fp blockHash nonce raw qubits =
      validateQuantumProof fp raw blockHash nonce qubits.toNat := by
  obtain ⟨verified, hverified⟩ :=
    Option.isSome_iff_exists.mp (verifyProof_isSome fp blockHash nonce raw hone hmax)
  obtain ⟨validated, hvalidated⟩ :=
    Option.isSome_iff_exists.mp (validateQuantumProof_isSome fp raw blockHash nonce hone
      (show qubits.toNat < 64 by simp only [MAX_QUBITS] at hmax; omega))
  have hiff : verifyProof fp blockHash nonce raw qubits = some true ↔
      validateQuantumProof fp raw blockHash nonce qubits.toNat = some true := by
    rw [verifyProof_iff, validateQuantumProof_iff, simulatedFields_eq fp blockHash nonce hone hmax hhost]
    simp only [computeDiffHash_eq, UInt8.ofNat_toNat]
  rw [hverified, hvalidated, Option.some.injEq, Option.some.injEq] at hiff
  rw [hverified, hvalidated, Bool.eq_iff_iff.mpr hiff]

end

end

/-- On a little-endian host the port and the node write the same proofs and accept the
same byte strings. -/
theorem quantum_proof_port_agrees (fp : FloatOps) (blockHash : Uint256) (nonce : UInt32) (n : Nat)
    (hhost : fp.bigEndian = false) (hlow : 2 ≤ n) (hhigh : n ≤ 30) :
    (∃ proof, proof.length = 256 ∧
      generateQuantumProof fp blockHash nonce n = some proof ∧
      generateProof fp blockHash nonce (UInt8.ofNat n) false = some proof) ∧
    ∀ raw, ∃ accepted,
      validateQuantumProof fp raw blockHash nonce n = some accepted ∧
      verifyProof fp blockHash nonce raw (UInt8.ofNat n) = some accepted := by
  have hqubits : (UInt8.ofNat n).toNat = n := UInt8.toNat_ofNat_of_lt' (by norm_num; omega)
  have hone : (UInt8.ofNat n).toNat ≠ 1 := by omega
  have hmax : (UInt8.ofNat n).toNat ≤ MAX_QUBITS := by rw [hqubits]; exact hhigh
  constructor
  · obtain ⟨proof, hgenerated, hvalid⟩ :=
      generateQuantumProof_valid fp blockHash nonce (show n ≠ 1 by omega) (by omega)
    obtain ⟨_, _, _, hcarries⟩ := (validateQuantumProof_iff _ _ _ _ _).mp hvalid
    refine ⟨proof, hcarries.1, hgenerated, ?_⟩
    rw [generateProof_eq fp blockHash nonce hone hmax hhost, hqubits, hgenerated]
  · intro raw
    obtain ⟨accepted, haccepted⟩ :=
      Option.isSome_iff_exists.mp (verifyProof_isSome fp blockHash nonce raw hone hmax)
    refine ⟨accepted, ?_, haccepted⟩
    rw [← haccepted, verifyProof_eq fp blockHash nonce raw hone hmax hhost, hqubits]

theorem quantum_proof_port_agrees_main :
    (∃ proof, proof.length = 256 ∧
      generateQuantumProof .ieee .null 0 27 = some proof ∧
      generateProof .ieee .null 0 (UInt8.ofNat 27) false = some proof) ∧
    ∀ raw, ∃ accepted,
      validateQuantumProof .ieee raw .null 0 27 = some accepted ∧
      verifyProof .ieee .null 0 raw (UInt8.ofNat 27) = some accepted :=
  quantum_proof_port_agrees .ieee .null 0 27 rfl (by norm_num) (by norm_num)

/-- With the other byte order the node refuses what the port writes, in a circuit without
the gates H and T. -/
theorem quantum_proof_port_differs_on_bigEndian :
    let fp : FloatOps := { FloatOps.signs with bigEndian := true }
    let written := generateProof fp .null 12 2 false
    written ≠ generateQuantumProof fp .null 12 2 ∧
      (written.bind fun raw => verifyProof fp .null 12 raw 2) = some true ∧
      (written.bind fun raw => validateQuantumProof fp raw .null 12 2) = some false := by
  decide +kernel

end HcsCoin.PantaSim
