import HcsCoin.Uint256

/-!
# SipHash-2-4 of a `uint256`

`SipHashState` and `PresaltedSipHasher` of `crypto/siphash.h`.  The four words of
the value and the length word `4 << 59` are absorbed one after the other, each
with two rounds, and four rounds finish the hash.
-/

namespace HcsCoin

structure SipHashState where
  v0 : UInt64
  v1 : UInt64
  v2 : UInt64
  v3 : UInt64
  deriving DecidableEq

namespace SipHashState

def ofKeys (k0 k1 : UInt64) : SipHashState :=
  ⟨0x736f6d6570736575 ^^^ k0, 0x646f72616e646f6d ^^^ k1,
   0x6c7967656e657261 ^^^ k0, 0x7465646279746573 ^^^ k1⟩

def rotl (x n : UInt64) : UInt64 := x <<< n ||| x >>> (64 - n)

def round (s : SipHashState) : SipHashState :=
  let v0 := s.v0 + s.v1
  let v1 := rotl s.v1 13 ^^^ v0
  let v0 := rotl v0 32
  let v2 := s.v2 + s.v3
  let v3 := rotl s.v3 16 ^^^ v2
  let v0 := v0 + v3
  let v3 := rotl v3 21 ^^^ v0
  let v2 := v2 + v1
  let v1 := rotl v1 17 ^^^ v2
  let v2 := rotl v2 32
  ⟨v0, v1, v2, v3⟩

def absorb (s : SipHashState) (d : UInt64) : SipHashState :=
  let s := round (round { s with v3 := s.v3 ^^^ d })
  { s with v0 := s.v0 ^^^ d }

def finish (s : SipHashState) : UInt64 :=
  let s := round (round (round (round { s with v2 := s.v2 ^^^ 0xff })))
  s.v0 ^^^ s.v1 ^^^ s.v2 ^^^ s.v3

end SipHashState

structure PresaltedSipHasher where
  mState : SipHashState
  deriving DecidableEq

namespace PresaltedSipHasher

def ofKeys (k0 k1 : UInt64) : PresaltedSipHasher := ⟨.ofKeys k0 k1⟩

def hash (hasher : PresaltedSipHasher) (val : Uint256) : UInt64 :=
  (((((hasher.mState.absorb (val.getUint64 0)).absorb (val.getUint64 1)).absorb
    (val.getUint64 2)).absorb (val.getUint64 3)).absorb ((4 : UInt64) <<< 59)).finish

end PresaltedSipHasher

end HcsCoin
