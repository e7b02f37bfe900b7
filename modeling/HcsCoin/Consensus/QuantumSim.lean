import HcsCoin.Crypto.Sha256

/-!
# The quantum circuit simulation

`QuantumSimulate` of `consensus/quantum.cpp`: a statevector of `2 ^ n`
single-precision amplitudes, a circuit read off a SHA-256 stream, the index of
the largest amplitude and a fingerprint of sampled amplitudes.  The
floating-point operations and the byte order of the host are a parameter, so
that what is proved holds for every interpretation of them.
-/

namespace HcsCoin

open Foundation

structure FloatOps where
  F32 : Type
  F64 : Type
  zero : F32
  one : F32
  fracOneSqrt2 : F32
  add : F32 → F32 → F32
  sub : F32 → F32 → F32
  mul : F32 → F32 → F32
  neg : F32 → F32
  bits : F32 → UInt32
  toF64 : F32 → F64
  add64 : F64 → F64 → F64
  mul64 : F64 → F64 → F64
  minusOne64 : F64
  gt64 : F64 → F64 → Bool
  /-- The host keeps a number with its most significant byte first. -/
  bigEndian : Bool := false

def FloatOps.ieee : FloatOps where
  F32 := Float32
  F64 := Float
  zero := Float32.ofBits 0
  one := Float32.ofBits 0x3f800000
  fracOneSqrt2 := Float32.ofBits 0x3f3504f3
  add := Float32.add
  sub := Float32.sub
  mul := Float32.mul
  neg := Float32.neg
  bits := Float32.toBits
  toF64 := Float32.toFloat
  add64 := Float.add
  mul64 := Float.mul
  minusOne64 := Float.ofBits 0xbff0000000000000
  gt64 x y := decide (y < x)

/-- The operations on the amplitudes 0, 1 and -1, by their bit patterns.  Sums and
products of amplitudes belong to the gates H and T only. -/
def FloatOps.signs : FloatOps where
  F32 := UInt32
  F64 := Int
  zero := 0
  one := 0x3f800000
  fracOneSqrt2 := 0x3f3504f3
  add x _ := x
  sub x _ := x
  mul x _ := x
  neg x := x ^^^ 0x80000000
  bits := id
  toF64 x := if x = 0x3f800000 then 1 else if x = 0xbf800000 then -1 else 0
  add64 := (· + ·)
  mul64 := (· * ·)
  minusOne64 := -1
  gt64 x y := decide (y < x)

structure C32 (fp : FloatOps) where
  re : fp.F32
  im : fp.F32

namespace QSim

variable (fp : FloatOps)

def init (n : Nat) : List (C32 fp) := ⟨fp.one, fp.zero⟩ :: List.replicate (2 ^ n - 1) ⟨fp.zero, fp.zero⟩

variable {fp}

def amp (amps : List (C32 fp)) (i : Nat) : C32 fp := amps.getD i ⟨fp.zero, fp.zero⟩

def pairs (size q : Nat) : List (Nat × Nat) :=
  let step := 2 ^ (q + 1)
  let half := 2 ^ q
  (List.range ((size + step - 1) / step)).flatMap fun block =>
    (List.range half).map fun off => (block * step + off, block * step + off + half)

def forPairs (q : Nat) (f : C32 fp → C32 fp → C32 fp × C32 fp) (amps : List (C32 fp)) :
    List (C32 fp) :=
  (pairs amps.length q).foldl (fun amps (i0, i1) =>
    let (a, b) := f (amp amps i0) (amp amps i1)
    (amps.set i0 a).set i1 b) amps

def gateH (q : Nat) : List (C32 fp) → List (C32 fp) :=
  let k := fp.fracOneSqrt2
  forPairs q fun a b =>
    let s : C32 fp := ⟨fp.add a.re b.re, fp.add a.im b.im⟩
    let d : C32 fp := ⟨fp.sub a.re b.re, fp.sub a.im b.im⟩
    (⟨fp.mul s.re k, fp.mul s.im k⟩, ⟨fp.mul d.re k, fp.mul d.im k⟩)

def gateX (q : Nat) : List (C32 fp) → List (C32 fp) := forPairs q fun a b => (b, a)

def gateZ (q : Nat) : List (C32 fp) → List (C32 fp) :=
  forPairs q fun a b => (a, ⟨fp.neg b.re, fp.neg b.im⟩)

def gateS (q : Nat) : List (C32 fp) → List (C32 fp) :=
  forPairs q fun a b => (a, ⟨fp.neg b.im, b.re⟩)

def gateT (q : Nat) : List (C32 fp) → List (C32 fp) :=
  let k := fp.fracOneSqrt2
  forPairs q fun a b =>
    (a, ⟨fp.mul (fp.sub b.re b.im) k, fp.mul (fp.add b.re b.im) k⟩)

def gateCNOT (c t : Nat) (amps : List (C32 fp)) : List (C32 fp) :=
  (List.range amps.length).foldl (fun amps i =>
    if i &&& 2 ^ c ≠ 0 ∧ i &&& 2 ^ t = 0 then
      (amps.set i (amp amps (i ||| 2 ^ t))).set (i ||| 2 ^ t) (amp amps i)
    else amps) amps

def argmaxMeasurement (amps : List (C32 fp)) : Nat :=
  ((List.range amps.length).foldl (fun (best, bestp) i =>
    let re := fp.toF64 (amp amps i).re
    let im := fp.toF64 (amp amps i).im
    let p := fp.add64 (fp.mul64 re re) (fp.mul64 im im)
    if fp.gt64 p bestp then (i, p) else (best, bestp)) (0, fp.minusOne64)).1

/-- `memcpy` of a float: its bytes as they lie in memory. -/
def hostBytes (x : fp.F32) : Bytes :=
  let bytes := leBytes 4 (fp.bits x).toNat
  if fp.bigEndian then bytes.reverse else bytes

def sampledBytes (amps : List (C32 fp)) (count : Nat) : Bytes :=
  let count := if count > amps.length then amps.length else count
  let stride := amps.length / count
  (List.range count).flatMap fun k =>
    hostBytes (amp amps (k * stride)).re ++ hostBytes (amp amps (k * stride)).im

end QSim

/-! ## The circuit -/

def QUANTUM_LAYERS_PER_QUBIT : Nat := 3
def QUANTUM_FINGERPRINT_SAMPLES : Nat := 1024

/-- The characters of "HCScoin-QuantumPoW-v1". -/
def QUANTUM_CIRCUIT_DOMAIN : Bytes :=
  [0x48, 0x43, 0x53, 0x63, 0x6f, 0x69, 0x6e, 0x2d, 0x51, 0x75, 0x61, 0x6e, 0x74, 0x75, 0x6d,
   0x50, 0x6f, 0x57, 0x2d, 0x76, 0x31]

def quantumExpandSeed (seed : Bytes) (n : Nat) : Bytes :=
  ((List.range ((n + 31) / 32)).flatMap fun i => (sha256 (seed ++ leBytes 4 i)).mData).take n

/-- One layer: a one-qubit gate and a CNOT, chosen by four bytes of the stream.
The target wire needs a remainder by `nQubits - 1`. -/
def quantumLayer {fp : FloatOps} (nQubits : Nat) (stream : Bytes) (l : Nat)
    (sv : List (C32 fp)) : List (C32 fp) :=
  let b0 := (stream.getD (4 * l + 0) 0).toNat
  let b1 := (stream.getD (4 * l + 1) 0).toNat
  let b2 := (stream.getD (4 * l + 2) 0).toNat
  let b3 := (stream.getD (4 * l + 3) 0).toNat
  let w := b1 % nQubits
  let sv :=
    match b0 % 5 with
    | 0 => QSim.gateH w sv
    | 1 => QSim.gateX w sv
    | 2 => QSim.gateZ w sv
    | 3 => QSim.gateS w sv
    | _ => QSim.gateT w sv
  let c := b2 % nQubits
  let t := (b2 % nQubits + 1 + b3 % (nQubits - 1)) % nQubits
  QSim.gateCNOT c t sv

def quantumStream (blockHash : Uint256) (nQuantumNonce : UInt32) (nQubits : Nat) : Bytes :=
  let layers := nQubits * QUANTUM_LAYERS_PER_QUBIT
  let seed := blockHash.mData ++ (leBytes 4 nQuantumNonce.toNat ++ QUANTUM_CIRCUIT_DOMAIN)
  quantumExpandSeed seed (4 * layers)

/-- The measurement and the fingerprint.  `none` is undefined behaviour: with one
qubit the CNOT target takes a remainder by zero, and `size_t{1} << n` needs `n`
below 64. -/
def quantumSimulate (fp : FloatOps) (blockHash : Uint256) (nQuantumNonce : UInt32)
    (nQubits : Nat) : Option (UInt32 × Uint256) :=
  if nQubits = 1 ∨ 64 ≤ nQubits then none
  else
    let stream := quantumStream blockHash nQuantumNonce nQubits
    let sv := (List.range (nQubits * QUANTUM_LAYERS_PER_QUBIT)).foldl
      (fun sv l => quantumLayer nQubits stream l sv) (QSim.init fp nQubits)
    some (UInt32.ofNat (QSim.argmaxMeasurement sv),
      sha256 (QSim.sampledBytes sv QUANTUM_FINGERPRINT_SAMPLES))

end HcsCoin
