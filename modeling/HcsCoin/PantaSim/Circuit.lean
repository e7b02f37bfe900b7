import HcsCoin.Consensus.QuantumSim
import HcsCoin.PantaSim.Sha256

/-!
# Statevector and circuit in panta-sim

`panta-sim/src/statevector.rs` and `circuit.rs`, over the same abstract
floating-point operations as the C++ simulation.  A panic is `none`.
-/

namespace HcsCoin.PantaSim

open Foundation

def MAX_QUBITS : Nat := 30
def LAYERS_PER_QUBIT : Nat := 3

namespace C32

variable {fp : FloatOps}

def add (x o : C32 fp) : C32 fp := ⟨fp.add x.re o.re, fp.add x.im o.im⟩
def sub (x o : C32 fp) : C32 fp := ⟨fp.sub x.re o.re, fp.sub x.im o.im⟩
def neg (x : C32 fp) : C32 fp := ⟨fp.neg x.re, fp.neg x.im⟩
def mulI (x : C32 fp) : C32 fp := ⟨fp.neg x.im, x.re⟩
def scale (x : C32 fp) (k : fp.F32) : C32 fp := ⟨fp.mul x.re k, fp.mul x.im k⟩

def norm2 (x : C32 fp) : fp.F64 :=
  fp.add64 (fp.mul64 (fp.toF64 x.re) (fp.toF64 x.re)) (fp.mul64 (fp.toF64 x.im) (fp.toF64 x.im))

end C32

namespace Statevector

variable (fp : FloatOps)

def new (nqubits : Nat) : Option (List (C32 fp)) :=
  if nqubits > MAX_QUBITS then none
  else some ((List.replicate (2 ^ nqubits) ⟨fp.zero, fp.zero⟩).set 0 ⟨fp.one, fp.zero⟩)

variable {fp}

def ampAt (amps : List (C32 fp)) (i : Nat) : C32 fp := amps.getD i ⟨fp.zero, fp.zero⟩

/-- The inner loop of `for_pairs` over one block of amplitudes. -/
def pairsInBlock (half base : Nat) (f : C32 fp → C32 fp → C32 fp × C32 fp)
    (amps : List (C32 fp)) : List (C32 fp) :=
  (List.range half).foldl (fun amps off =>
    let i0 := base + off
    let i1 := i0 + half
    let (a, b) := f (ampAt amps i0) (ampAt amps i1)
    (amps.set i0 a).set i1 b) amps

def forPairs (q : Nat) (f : C32 fp → C32 fp → C32 fp × C32 fp) (amps : List (C32 fp)) :
    List (C32 fp) :=
  let step := 2 ^ (q + 1)
  let half := 2 ^ q
  (List.range ((amps.length + step - 1) / step)).foldl
    (fun amps block => pairsInBlock half (block * step) f amps) amps

def h (q : Nat) : List (C32 fp) → List (C32 fp) :=
  forPairs q fun a b =>
    let s := C32.add a b
    let d := C32.sub a b
    (C32.scale s fp.fracOneSqrt2, C32.scale d fp.fracOneSqrt2)

def x (q : Nat) : List (C32 fp) → List (C32 fp) := forPairs q fun a b => (b, a)

def z (q : Nat) : List (C32 fp) → List (C32 fp) := forPairs q fun a b => (a, C32.neg b)

def s (q : Nat) : List (C32 fp) → List (C32 fp) := forPairs q fun a b => (a, C32.mulI b)

def t (q : Nat) : List (C32 fp) → List (C32 fp) :=
  forPairs q fun a b =>
    (a, ⟨fp.mul (fp.sub b.re b.im) fp.fracOneSqrt2, fp.mul (fp.add b.re b.im) fp.fracOneSqrt2⟩)

def cnot (c t : Nat) (amps : List (C32 fp)) : List (C32 fp) :=
  let cmask := 2 ^ c
  let tmask := 2 ^ t
  (List.range amps.length).foldl (fun amps i =>
    if i &&& cmask ≠ 0 ∧ i &&& tmask = 0 then
      let j := i ||| tmask
      (amps.set i (ampAt amps j)).set j (ampAt amps i)
    else amps) amps

def argmaxMeasurement (amps : List (C32 fp)) : Nat :=
  (amps.zipIdx.foldl (fun (best, bestp) (a, i) =>
    let p := C32.norm2 a
    if fp.gt64 p bestp then (i, p) else (best, bestp)) (0, fp.minusOne64)).1

def sampledBytes (amps : List (C32 fp)) (count : Nat) : Bytes :=
  let count := min count amps.length
  let stride := amps.length / count
  (List.range count).flatMap fun k =>
    leBytes 4 (fp.bits (ampAt amps (k * stride)).re).toNat ++
      leBytes 4 (fp.bits (ampAt amps (k * stride)).im).toNat

end Statevector

/-- The bytes of "HCScoin-QuantumPoW-v1". -/
def CIRCUIT_DOMAIN : Bytes :=
  [0x48, 0x43, 0x53, 0x63, 0x6f, 0x69, 0x6e, 0x2d, 0x51, 0x75, 0x61, 0x6e, 0x74, 0x75, 0x6d,
   0x50, 0x6f, 0x57, 0x2d, 0x76, 0x31]

def circuitStream (blockHash : Uint256) (nonce : UInt32) (qubits : UInt8) : Bytes :=
  let layers := qubits.toNat * LAYERS_PER_QUBIT
  let seed := blockHash.mData ++ (leBytes 4 nonce.toNat ++ CIRCUIT_DOMAIN)
  expandSeed seed (4 * layers)

/-- One layer of the circuit; the remainder by `n - 1` panics for one qubit. -/
def layer {fp : FloatOps} (n : Nat) (stream : Bytes) (l : Nat) (sv : List (C32 fp)) :
    Option (List (C32 fp)) :=
  let b0 := (stream.getD (4 * l) 0).toNat
  let b1 := (stream.getD (4 * l + 1) 0).toNat
  let b2 := (stream.getD (4 * l + 2) 0).toNat
  let b3 := (stream.getD (4 * l + 3) 0).toNat
  let w := b1 % n
  let sv :=
    match b0 % 5 with
    | 0 => Statevector.h w sv
    | 1 => Statevector.x w sv
    | 2 => Statevector.z w sv
    | 3 => Statevector.s w sv
    | _ => Statevector.t w sv
  if n = 1 then none
  else
    let c := b2 % n
    let t := (b2 % n + 1 + b3 % (n - 1)) % n
    some (Statevector.cnot c t sv)

def simulate (fp : FloatOps) (blockHash : Uint256) (nonce : UInt32) (qubits : UInt8) :
    Option (Nat × List (C32 fp)) := do
  let stream := circuitStream blockHash nonce qubits
  let n := qubits.toNat
  let sv ← Statevector.new fp n
  let sv ← (List.range (n * LAYERS_PER_QUBIT)).foldlM (fun sv l => layer n stream l sv) sv
  some (Statevector.argmaxMeasurement sv, sv)

/-! ## The port is faithful -/

namespace Statevector

variable {fp : FloatOps}

theorem new_eq {n : Nat} (h : n ≤ MAX_QUBITS) : new fp n = some (QSim.init fp n) := by
  rw [new, if_neg (Nat.not_lt.mpr h), QSim.init]
  obtain ⟨m, hm⟩ := Nat.exists_eq_succ_of_ne_zero (Nat.two_pow_pos n).ne'
  rw [hm, List.replicate_succ, List.set_cons_zero]
  rfl

theorem forPairs_eq (q : Nat) (f : C32 fp → C32 fp → C32 fp × C32 fp) :
    forPairs q f = QSim.forPairs q f := by
  funext amps
  rw [forPairs, QSim.forPairs, QSim.pairs, List.foldl_flatMap]
  simp only [List.foldl_map]
  rfl

variable (q : Nat) (amps : List (C32 fp))

theorem h_eq : h q amps = QSim.gateH q amps := congrFun (forPairs_eq q _) amps

theorem x_eq : x q amps = QSim.gateX q amps := congrFun (forPairs_eq q _) amps

theorem z_eq : z q amps = QSim.gateZ q amps := congrFun (forPairs_eq q _) amps

theorem s_eq : s q amps = QSim.gateS q amps := congrFun (forPairs_eq q _) amps

theorem t_eq : t q amps = QSim.gateT q amps := congrFun (forPairs_eq q _) amps

theorem cnot_eq (c t : Nat) (amps : List (C32 fp)) : cnot c t amps = QSim.gateCNOT c t amps := rfl

theorem argmaxMeasurement_eq : argmaxMeasurement amps = QSim.argmaxMeasurement amps := by
  have hzip : amps.zipIdx = (List.range amps.length).map fun i => (QSim.amp amps i, i) := by
    apply List.ext_getElem
    · simp
    · intro i hi hi'
      simp only [List.length_zipIdx] at hi
      simp [QSim.amp, List.getElem?_eq_getElem hi]
  rw [argmaxMeasurement, hzip, List.foldl_map]
  rfl

theorem sampledBytes_eq (hhost : fp.bigEndian = false) (amps : List (C32 fp)) (count : Nat) :
    sampledBytes amps count = QSim.sampledBytes amps count := by
  have hcount : (if count > amps.length then amps.length else count) = min count amps.length := by
    split <;> omega
  have hbytes : ∀ x : fp.F32, QSim.hostBytes x = leBytes 4 (fp.bits x).toNat :=
    fun x => if_neg (Bool.eq_false_iff.mp hhost)
  simp only [QSim.sampledBytes, hcount, hbytes]
  rfl

end Statevector

theorem expandSeed_eq (seed : Bytes) (n : Nat) : expandSeed seed n = quantumExpandSeed seed n := by
  have hblock : ∀ i, ((Sha256.new.update seed).update (leBytes 4 i)).finish =
      HcsCoin.sha256 (seed ++ leBytes 4 i) :=
    fun i => ((Sha256.holds_new.update seed).update (leBytes 4 i)).finish
  simp only [expandSeed, quantumExpandSeed, hblock]

theorem layer_eq {fp : FloatOps} {n : Nat} (h : n ≠ 1) (stream : Bytes) (l : Nat)
    (sv : List (C32 fp)) : layer n stream l sv = some (quantumLayer n stream l sv) := by
  simp only [layer, quantumLayer, if_neg h, Statevector.h_eq, Statevector.x_eq, Statevector.z_eq,
    Statevector.s_eq, Statevector.t_eq, Statevector.cnot_eq]
  rfl

def finalState (fp : FloatOps) (blockHash : Uint256) (nonce : UInt32) (n : Nat) : List (C32 fp) :=
  (List.range (n * QUANTUM_LAYERS_PER_QUBIT)).foldl
    (fun sv l => quantumLayer n (quantumStream blockHash nonce n) l sv) (QSim.init fp n)

theorem simulate_eq (fp : FloatOps) (blockHash : Uint256) (nonce : UInt32) {qubits : UInt8}
    (hone : qubits.toNat ≠ 1) (hmax : qubits.toNat ≤ MAX_QUBITS) :
    simulate fp blockHash nonce qubits =
      some (QSim.argmaxMeasurement (finalState fp blockHash nonce qubits.toNat),
        finalState fp blockHash nonce qubits.toNat) := by
  have hstream : circuitStream blockHash nonce qubits =
      quantumStream blockHash nonce qubits.toNat := expandSeed_eq _ _
  have hlayers : (fun (sv : List (C32 fp)) l =>
        layer qubits.toNat (quantumStream blockHash nonce qubits.toNat) l sv) =
      fun sv l => some (quantumLayer qubits.toNat
        (quantumStream blockHash nonce qubits.toNat) l sv) := by
    funext sv l
    exact layer_eq hone _ l sv
  simp only [simulate, hstream, hlayers, Statevector.new_eq hmax, Statevector.argmaxMeasurement_eq]
  rw [some_bind]
  have hfold : (List.range (qubits.toNat * LAYERS_PER_QUBIT)).foldlM
      (fun sv l => some (quantumLayer qubits.toNat
        (quantumStream blockHash nonce qubits.toNat) l sv)) (QSim.init fp qubits.toNat) =
      some (finalState fp blockHash nonce qubits.toNat) := List.foldlM_pure
  rw [hfold]
  rfl

end HcsCoin.PantaSim
