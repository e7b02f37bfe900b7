import HcsCoin.Uint256

/-!
# SHA-256

The portable `sha256::Transform` of `crypto/sha256.cpp` and the padding of
`CSHA256::Finalize`.  The source unrolls the 64 rounds and renames the eight
working variables; here a round rotates them, and the message schedule is the
sliding window of its last 16 words.
-/

namespace HcsCoin.Sha256

open Foundation

def ch (x y z : UInt32) : UInt32 := z ^^^ (x &&& (y ^^^ z))
def maj (x y z : UInt32) : UInt32 := (x &&& y) ||| (z &&& (x ||| y))

def bigSigma0 (x : UInt32) : UInt32 :=
  (x >>> 2 ||| x <<< 30) ^^^ (x >>> 13 ||| x <<< 19) ^^^ (x >>> 22 ||| x <<< 10)
def bigSigma1 (x : UInt32) : UInt32 :=
  (x >>> 6 ||| x <<< 26) ^^^ (x >>> 11 ||| x <<< 21) ^^^ (x >>> 25 ||| x <<< 7)
def smallSigma0 (x : UInt32) : UInt32 :=
  (x >>> 7 ||| x <<< 25) ^^^ (x >>> 18 ||| x <<< 14) ^^^ (x >>> 3)
def smallSigma1 (x : UInt32) : UInt32 :=
  (x >>> 17 ||| x <<< 15) ^^^ (x >>> 19 ||| x <<< 13) ^^^ (x >>> 10)

def roundConstants : List UInt32 :=
  [0x428a2f98, 0x71374491, 0xb5c0fbcf, 0xe9b5dba5, 0x3956c25b, 0x59f111f1, 0x923f82a4,
   0xab1c5ed5, 0xd807aa98, 0x12835b01, 0x243185be, 0x550c7dc3, 0x72be5d74, 0x80deb1fe,
   0x9bdc06a7, 0xc19bf174, 0xe49b69c1, 0xefbe4786, 0x0fc19dc6, 0x240ca1cc, 0x2de92c6f,
   0x4a7484aa, 0x5cb0a9dc, 0x76f988da, 0x983e5152, 0xa831c66d, 0xb00327c8, 0xbf597fc7,
   0xc6e00bf3, 0xd5a79147, 0x06ca6351, 0x14292967, 0x27b70a85, 0x2e1b2138, 0x4d2c6dfc,
   0x53380d13, 0x650a7354, 0x766a0abb, 0x81c2c92e, 0x92722c85, 0xa2bfe8a1, 0xa81a664b,
   0xc24b8b70, 0xc76c51a3, 0xd192e819, 0xd6990624, 0xf40e3585, 0x106aa070, 0x19a4c116,
   0x1e376c08, 0x2748774c, 0x34b0bcb5, 0x391c0cb3, 0x4ed8aa4a, 0x5b9cca4f, 0x682e6ff3,
   0x748f82ee, 0x78a5636f, 0x84c87814, 0x8cc70208, 0x90befffa, 0xa4506ceb, 0xbef9a3f7,
   0xc67178f2]

structure State where
  a : UInt32
  b : UInt32
  c : UInt32
  d : UInt32
  e : UInt32
  f : UInt32
  g : UInt32
  h : UInt32
  deriving DecidableEq

def initialize256 : State :=
  ⟨0x6a09e667, 0xbb67ae85, 0x3c6ef372, 0xa54ff53a, 0x510e527f, 0x9b05688c, 0x1f83d9ab, 0x5be0cd19⟩

def round (s : State) (k : UInt32) : State :=
  let t1 := s.h + bigSigma1 s.e + ch s.e s.f s.g + k
  let t2 := bigSigma0 s.a + maj s.a s.b s.c
  ⟨t1 + t2, s.a, s.b, s.c, s.d + t1, s.e, s.f, s.g⟩

/-- `w0 += sigma1(w14) + w9 + sigma0(w1)`, for the window starting at `w0`. -/
def nextWord : List UInt32 → UInt32
  | [w0, w1, _, _, _, _, _, _, _, w9, _, _, _, _, w14, _] =>
    w0 + (smallSigma1 w14 + w9 + smallSigma0 w1)
  | _ => 0

def rounds : List UInt32 → List UInt32 → State → State
  | [], _, s => s
  | k :: ks, window, s =>
    rounds ks (window.tail ++ [nextWord window]) (round s (k + window.headD 0))

def readBE32 : Bytes → List UInt32
  | a :: b :: c :: d :: rest =>
    (a.toUInt32 <<< 24 ||| b.toUInt32 <<< 16 ||| c.toUInt32 <<< 8 ||| d.toUInt32) :: readBE32 rest
  | _ => []

def transform (s : State) (chunk : Bytes) : State :=
  let t := rounds roundConstants (readBE32 chunk) s
  ⟨s.a + t.a, s.b + t.b, s.c + t.c, s.d + t.d, s.e + t.e, s.f + t.f, s.g + t.g, s.h + t.h⟩

def transformBlocks : Nat → State → Bytes → State
  | 0, s, _ => s
  | blocks + 1, s, data => transformBlocks blocks (transform s (data.take 64)) (data.drop 64)

def writeBE32 (x : UInt32) : Bytes :=
  [(x >>> 24).toUInt8, (x >>> 16).toUInt8, (x >>> 8).toUInt8, x.toUInt8]

def padding (len : Nat) : Bytes :=
  0x80 :: List.replicate ((119 - len % 64) % 64) 0 ++ (leBytes 8 (len * 8)).reverse

def output (s : State) : Bytes :=
  writeBE32 s.a ++ writeBE32 s.b ++ writeBE32 s.c ++ writeBE32 s.d ++
    writeBE32 s.e ++ writeBE32 s.f ++ writeBE32 s.g ++ writeBE32 s.h

end HcsCoin.Sha256

namespace HcsCoin

open Foundation

def sha256 (data : Bytes) : Uint256 :=
  let padded := data ++ Sha256.padding data.length
  ⟨Sha256.output
    (Sha256.transformBlocks (padded.length / 64) Sha256.initialize256 padded), rfl⟩

/-- `HashWriter::GetHash` and `CHash256`: SHA-256 applied twice. -/
def hash256 (data : Bytes) : Uint256 := sha256 (sha256 data).mData

end HcsCoin
