import HcsCoin.Crypto.Dilithium.Sampling
import HcsCoin.Crypto.Dilithium.Signature

/-!
# Keys, signing and verification in dilithium.c

The three functions of the interface over an arbitrary `Shake`, and completeness:
a signature made with a secret key is accepted under the public key of the same
seed.  In the NTT domain the verifier's value differs from the signer's by the
products of the challenge with `s2` and `t0`; the rejection bounds keep that
difference small enough for the hint.
-/

namespace HcsCoin.Dilithium

open Foundation

def DIL_BETA : Int := 120
def DIL_SEEDBYTES : Nat := 32
def DIL_CRHBYTES : Nat := 64
def DIL_POLYETA_PACKEDBYTES : Nat := 96
def DIL_POLYT1_PACKEDBYTES : Nat := 320
def DIL_POLYT0_PACKEDBYTES : Nat := 416
def DILITHIUM_PUBLICKEYBYTES : Nat := 2592
def DILITHIUM_SECRETKEYBYTES : Nat := 4896

/-! ## Keys -/

def dilPackPk (rho : Bytes) (t1 : PolyVecK) : Exec Bytes := do
  let t1 ← packVec (fun a => pure (dilPolyt1Pack a)) t1
  pure (rho ++ t1)

def dilUnpackPk (pk : Bytes) : Exec (Bytes × PolyVecK) := do
  let t1 ← unpackVec (fun b => pure (dilPolyt1Unpack b)) DIL_POLYT1_PACKEDBYTES pk DIL_SEEDBYTES
  pure (slice pk 0 DIL_SEEDBYTES, t1)

structure SecretKey where
  rho : Bytes
  key : Bytes
  tr : Bytes
  s1 : PolyVecL
  s2 : PolyVecK
  t0 : PolyVecK

def dilPackSk (k : SecretKey) : Exec Bytes := do
  let s1 ← packVec dilPolyetaPack k.s1
  let s2 ← packVec dilPolyetaPack k.s2
  let t0 ← packVec dilPolyt0Pack k.t0
  pure (k.rho ++ (k.key ++ (k.tr ++ (s1 ++ (s2 ++ t0)))))

def dilUnpackSk (sk : Bytes) : Exec SecretKey := do
  let p := 2 * DIL_SEEDBYTES + DIL_CRHBYTES
  let s1 ← unpackVec dilPolyetaUnpack DIL_POLYETA_PACKEDBYTES sk p
  let p := p + 7 * DIL_POLYETA_PACKEDBYTES
  let s2 ← unpackVec dilPolyetaUnpack DIL_POLYETA_PACKEDBYTES sk p
  let p := p + 8 * DIL_POLYETA_PACKEDBYTES
  let t0 ← unpackVec dilPolyt0Unpack DIL_POLYT0_PACKEDBYTES sk p
  pure ⟨slice sk 0 DIL_SEEDBYTES, slice sk DIL_SEEDBYTES DIL_SEEDBYTES,
    slice sk (2 * DIL_SEEDBYTES) DIL_CRHBYTES, s1, s2, t0⟩

section Encodings

variable {E : Fault → Prop}

theorem dilPackPk_ensures {rho : Bytes} {t1 : PolyVecK} (hrho : rho.length = DIL_SEEDBYTES)
    (ht1 : ∀ (i : Fin 8) (j : Fin 256), 0 ≤ t1[i][j] ∧ t1[i][j] < 2 ^ 10) :
    Ensures E (dilPackPk rho t1) fun pk =>
      pk.length = DILITHIUM_PUBLICKEYBYTES ∧ dilUnpackPk pk = .ok (rho, t1) := by
  have hpoly : ∀ i : Fin 8, Ensures E (pure (dilPolyt1Pack t1[i])) fun r =>
      r.length = DIL_POLYT1_PACKEDBYTES ∧ (pure (dilPolyt1Unpack r) : Exec Poly) = .ok t1[i] := by
    intro i
    obtain ⟨hlength, hunpack⟩ := packPlain_spec (by decide : 10 ≤ 32) (ht1 i)
    exact Ensures.pure ⟨hlength, congrArg Except.ok hunpack⟩
  refine (packVec_ensures hpoly).bind fun r hr => Ensures.pure ⟨?_, ?_⟩
  · rw [List.length_append, hrho, hr.1]
    rfl
  · have hunpack := hr.2 rho []
    rw [List.append_nil, hrho] at hunpack
    rw [dilUnpackPk, hunpack, ok_bind, slice, ← hrho, List.drop_zero, List.take_left]
    rfl

structure SecretKey.Encodable (k : SecretKey) : Prop where
  rho : k.rho.length = DIL_SEEDBYTES
  key : k.key.length = DIL_SEEDBYTES
  tr : k.tr.length = DIL_CRHBYTES
  s1 : ∀ i : Fin 7, Bounded 2 k.s1[i]
  s2 : ∀ i : Fin 8, Bounded 2 k.s2[i]
  t0 : ∀ (i : Fin 8) (j : Fin 256), -2 ^ 12 < k.t0[i][j] ∧ k.t0[i][j] ≤ 2 ^ 12

structure SecretKey.Bounded (k : SecretKey) : Prop where
  s1 : ∀ i : Fin 7, Dilithium.Bounded 5 k.s1[i]
  s2 : ∀ i : Fin 8, Dilithium.Bounded 5 k.s2[i]
  t0 : ∀ i : Fin 8, Dilithium.Bounded (2 ^ 12) k.t0[i]

theorem SecretKey.Encodable.bounded {k : SecretKey} (hk : k.Encodable) : k.Bounded := by
  refine ⟨fun i => (hk.s1 i).mono (by decide), fun i => (hk.s2 i).mono (by decide), fun i j => ?_⟩
  have := hk.t0 i j
  rw [abs_le]
  omega

theorem dilPolyetaPack_ensures {a : Poly} (ha : Bounded 2 a) :
    Ensures E (dilPolyetaPack a) fun r =>
      r.length = DIL_POLYETA_PACKEDBYTES ∧ dilPolyetaUnpack r = .ok a := by
  refine packOffset_ensures (by decide) (fun j => ?_) fun j => ?_
  all_goals
    have := abs_le.mp (ha j)
    omega

theorem dilPackSk_ensures {k : SecretKey} (hk : k.Encodable) :
    Ensures E (dilPackSk k) fun sk =>
      sk.length = DILITHIUM_SECRETKEYBYTES ∧ dilUnpackSk sk = .ok k := by
  have ht0 : ∀ i : Fin 8, Ensures E (dilPolyt0Pack k.t0[i]) fun r =>
      r.length = DIL_POLYT0_PACKEDBYTES ∧ dilPolyt0Unpack r = .ok k.t0[i] := by
    intro i
    refine packOffset_ensures (by decide) (fun j => ?_) fun j => ?_
    all_goals
      have := hk.t0 i j
      omega
  refine (packVec_ensures fun i => dilPolyetaPack_ensures (hk.s1 i)).bind fun s1 hs1 => ?_
  refine (packVec_ensures fun i => dilPolyetaPack_ensures (hk.s2 i)).bind fun s2 hs2 => ?_
  refine (packVec_ensures ht0).bind fun t0 ht0 => Ensures.pure ⟨?_, ?_⟩
  · simp only [List.length_append, hk.rho, hk.key, hk.tr, hs1.1, hs2.1, ht0.1]
    rfl
  · have hseeds : (k.rho ++ (k.key ++ k.tr)).length = 2 * DIL_SEEDBYTES + DIL_CRHBYTES := by
      rw [List.length_append, List.length_append, hk.rho, hk.key, hk.tr]
      rfl
    have hrho := slice_middle [] k.rho (k.key ++ (k.tr ++ (s1 ++ (s2 ++ t0))))
    have hkey := slice_middle k.rho k.key (k.tr ++ (s1 ++ (s2 ++ t0)))
    have htr := slice_middle (k.rho ++ k.key) k.tr (s1 ++ (s2 ++ t0))
    have h1 := hs1.2 (k.rho ++ (k.key ++ k.tr)) (s2 ++ t0)
    have h2 := hs2.2 (k.rho ++ (k.key ++ k.tr) ++ s1) t0
    have h0 := ht0.2 (k.rho ++ (k.key ++ k.tr) ++ s1 ++ s2) []
    rw [List.nil_append, List.length_nil, hk.rho] at hrho
    rw [hk.rho, hk.key] at hkey
    rw [List.length_append, hk.rho, hk.key, hk.tr, List.append_assoc, ← Nat.two_mul] at htr
    rw [hseeds] at h1
    rw [List.length_append, hseeds, hs1.1] at h2
    rw [List.length_append, List.length_append, hseeds, hs1.1, hs2.1, List.append_nil] at h0
    simp only [List.append_assoc] at h1 h2 h0
    rw [dilUnpackSk]
    dsimp only
    rw [h1, ok_bind, h2, ok_bind, h0, ok_bind, hrho, hkey, htr]
    rfl

end Encodings

/-- `t = A s1 + s2` and its rounding. -/
def derivePublic (mat : Vector PolyVecL 8) (s1 : PolyVecL) (s2 : PolyVecK) :
    Exec (PolyVecK × PolyVecK) := do
  let t ← multiplyMatrix mat (← dilPolyveclNtt s1)
  let t ← dilPolyveckAdd t s2
  dilPolyveckPower2round (← dilPolyveckCaddq t)

variable (shake : Shake) (fuel : Nat)

/-- `dilithium_keygen_from_seed` up to the encoding of the secret key. -/
def keygenFields (seed : Bytes) : Exec (Bytes × SecretKey) := do
  let seedbuf := squeeze (shake.shake256 seed) (3 * DIL_SEEDBYTES + DIL_CRHBYTES)
  let rho := slice seedbuf 0 DIL_SEEDBYTES
  let rhoprime := slice seedbuf DIL_SEEDBYTES DIL_CRHBYTES
  let key := slice seedbuf (DIL_SEEDBYTES + DIL_CRHBYTES) DIL_SEEDBYTES
  let mat ← dilExpandMat shake fuel rho
  let s1 ← tabulate 7 fun i => dilPolyUniformEta shake fuel rhoprime (.ofNat i)
  let s2 ← tabulate 8 fun i => dilPolyUniformEta shake fuel rhoprime (.ofNat (7 + i))
  let (t1, t0) ← derivePublic mat s1 s2
  let pk ← dilPackPk rho t1
  pure (pk, ⟨rho, key, squeeze (shake.shake256 pk) DIL_CRHBYTES, s1, s2, t0⟩)

def dilithiumKeygenFromSeed (seed : Bytes) : Exec (Bytes × Bytes) := do
  let (pk, k) ← keygenFields shake fuel seed
  pure (pk, ← dilPackSk k)

theorem seedbuf_slices {seedbuf : Bytes} (h : seedbuf.length = 3 * DIL_SEEDBYTES + DIL_CRHBYTES) :
    (slice seedbuf 0 DIL_SEEDBYTES).length = DIL_SEEDBYTES ∧
      (slice seedbuf (DIL_SEEDBYTES + DIL_CRHBYTES) DIL_SEEDBYTES).length = DIL_SEEDBYTES :=
  ⟨slice_length (by rw [h]; decide), slice_length (by rw [h]; decide)⟩

/-! ## Signing -/

/-- `mu = CRH(tr || M)`. -/
def messageDigest (tr msg : Bytes) : Bytes := squeeze (shake.shake256 (tr ++ msg)) DIL_CRHBYTES

/-- `ctilde = H(mu || packw1(w1))`. -/
def challengeSeed (mu : Bytes) (w1 : PolyVecK) : Bytes :=
  squeeze (shake.shake256 (mu ++ (w1.toList.map dilPolyw1Pack).flatten)) DIL_CTILDEBYTES

/-- What the rejection loop reads; the vectors are in the NTT domain. -/
structure Signer where
  mat : Vector PolyVecL 8
  s1 : PolyVecL
  s2 : PolyVecK
  t0 : PolyVecK
  mu : Bytes
  rhoprime : Bytes

structure Commitment where
  y : PolyVecL
  w1 : PolyVecK
  w0 : PolyVecK
  ctilde : Bytes
  cp : Poly

def commit (s : Signer) (nonce : UInt16) : Exec Commitment := do
  let y ← dilPolyveclUniformGamma1 shake s.rhoprime nonce
  let w ← multiplyMatrix s.mat (← dilPolyveclNtt y)
  let (w1, w0) ← dilPolyveckDecompose (← dilPolyveckCaddq w)
  let ctilde := challengeSeed shake s.mu w1
  let cp ← dilNtt (← dilPolyChallenge shake fuel ctilde)
  pure ⟨y, w1, w0, ctilde, cp⟩

/-- `z = y + c*s1`, unless it is rejected. -/
def response (s : Signer) (c : Commitment) : Exec (Option PolyVecL) := do
  let z ← dilPolyveclInvntt (← dilPolyveclPointwisePoly c.cp s.s1)
  let z ← dilPolyveclReduce (← dilPolyveclAdd z c.y)
  if ← dilPolyveclChknorm z (DIL_GAMMA1 - DIL_BETA) then pure none else pure (some z)

/-- The hint, unless `w0 - c*s2`, `c*t0` or the number of ones is rejected. -/
def hint (s : Signer) (c : Commitment) : Exec (Option PolyVecK) := do
  let h ← dilPolyveckInvntt (← dilPolyveckPointwisePoly c.cp s.s2)
  let w0 ← dilPolyveckReduce (← dilPolyveckSub c.w0 h)
  if ← dilPolyveckChknorm w0 (DIL_GAMMA2 - DIL_BETA) then pure none
  else
    let h ← dilPolyveckInvntt (← dilPolyveckPointwisePoly c.cp s.t0)
    let h ← dilPolyveckReduce h
    if ← dilPolyveckChknorm h DIL_GAMMA2 then pure none
    else
      let w0 ← dilPolyveckAdd w0 h
      let (h, n) := dilPolyveckMakeHint w0 c.w1
      pure (if n > DIL_OMEGA then none else some h)

/-- One pass from the label `rej`; `none` goes back to it. -/
def signAttempt (s : Signer) (nonce : UInt16) : Exec (Option Bytes) := do
  let c ← commit shake fuel s nonce
  match ← response s c with
  | none => pure none
  | some z =>
    match ← hint s c with
    | none => pure none
    | some h => do pure (some (← dilPackSig ⟨c.ctilde, z, h⟩))

def signLoop (s : Signer) : (rounds : Nat) → UInt16 → Exec Bytes
  | 0, _ => throw .timeout
  | rounds + 1, nonce => do
    match ← signAttempt shake fuel s nonce with
    | some sig => pure sig
    | none => signLoop s rounds (nonce + 1)

/-- All that comes before the label `rej`. -/
def prepareSigner (rnd msg : Bytes) (k : SecretKey) : Exec Signer := do
  let mu := messageDigest shake k.tr msg
  let rhoprime := squeeze (shake.shake256 (k.key ++ (rnd ++ mu))) DIL_CRHBYTES
  let mat ← dilExpandMat shake fuel k.rho
  let s1 ← dilPolyveclNtt k.s1
  let s2 ← dilPolyveckNtt k.s2
  let t0 ← dilPolyveckNtt k.t0
  pure ⟨mat, s1, s2, t0, mu, rhoprime⟩

def dilithiumSign (rnd msg sk : Bytes) : Exec Bytes := do
  let s ← prepareSigner shake fuel rnd msg (← dilUnpackSk sk)
  signLoop shake fuel s fuel 0

/-! ## Verification -/

/-- `w1' = UseHint(h, A*z - c*t1*2^D)`. -/
def recoverW1 (rho : Bytes) (t1 : PolyVecK) (s : Signature) : Exec PolyVecK := do
  let cp ← dilPolyChallenge shake fuel s.ctilde
  let mat ← dilExpandMat shake fuel rho
  let z ← dilPolyveclNtt s.z
  let cp ← dilNtt cp
  let t1 ← vecMap (polyMap (shiftLeft32 · 13)) t1
  let t1 ← dilPolyveckNtt t1
  let w1 ← tabulate 8 fun i => do
    let w ← dilPolyveclPointwiseAcc mat[i] z
    let t ← dilPolyPointwise cp t1[i]
    let w ← polyZip (fun x y => int32 (x - y) >>= dilReduce32) w t
    dilInvnttTomont w
  dilPolyveckUseHint (← dilPolyveckCaddq w1) s.h

def dilithiumVerify (sig msg pk : Bytes) : Exec Int := do
  if sig.length ≠ DILITHIUM_SIGNATUREBYTES then pure (-1)
  else
    let (rho, t1) ← dilUnpackPk pk
    match ← dilUnpackSig sig with
    | none => pure (-1)
    | some s =>
      if ← dilPolyveclChknorm s.z (DIL_GAMMA1 - DIL_BETA) then pure (-1)
      else
        let tr := squeeze (shake.shake256 pk) DIL_CRHBYTES
        let mu := messageDigest shake tr msg
        let w1 ← recoverW1 shake fuel rho t1 s
        pure (if s.ctilde = challengeSeed shake mu w1 then 0 else -1)

/-! ## The hint bit -/

theorem Decomposed.dvd_sub {w w1 w0 : Int} (h : Decomposed w w1 w0) :
    DIL_Q ∣ w - (w1 * (2 * DIL_GAMMA2) + w0) := by
  rcases h.2 with ⟨rfl, -⟩ | ⟨rfl, rfl, -⟩
  · exact ⟨0, by simp only [DIL_GAMMA2, DIL_Q]; omega⟩
  · exact ⟨1, by simp only [DIL_GAMMA2, DIL_Q]; omega⟩

/-- The signer's error `e` is a coefficient of `c * s2` and `f` one of `c * t0`; the
bounds are those under which a signature is not rejected. -/
theorem dilUseHint_recovers_high {w : Int} (hw : 0 ≤ w ∧ w < DIL_Q) :
    ∃ w1 w0, dilDecompose w = .ok (w1, w0) ∧
      ∀ e f : Int, |w0 - e| < DIL_GAMMA2 - DIL_BETA → |e| ≤ DIL_BETA → |f| < DIL_GAMMA2 →
        dilUseHint ((w - e + f) % DIL_Q) (dilMakeHint (w0 - e + f) w1) = .ok w1 := by
  obtain ⟨⟨w1, w0⟩, hsplit, hparts⟩ := (dilDecompose_ensures hw).exists_ok
  refine ⟨w1, w0, hsplit, fun e f hlow _ hf => ?_⟩
  have hresidue : 0 ≤ (w - e + f) % DIL_Q ∧ (w - e + f) % DIL_Q < DIL_Q :=
    ⟨Int.emod_nonneg _ (by decide), Int.emod_lt_of_pos _ (by decide)⟩
  have hsmall : |w0 - e + f| < 2 * DIL_GAMMA2 := by
    rw [abs_lt] at hlow hf ⊢
    simp only [DIL_GAMMA2, DIL_BETA, DIL_Q] at hlow hf ⊢
    omega
  have hclose : DIL_Q ∣ (w - e + f) % DIL_Q - (w1 * (2 * DIL_GAMMA2) + (w0 - e + f)) := by
    have hshift := dvd_sub hparts.dvd_sub (Int.dvd_self_sub_emod (x := w - e + f) (m := DIL_Q))
    rwa [show w - (w1 * (2 * DIL_GAMMA2) + w0) - (w - e + f - (w - e + f) % DIL_Q) =
      (w - e + f) % DIL_Q - (w1 * (2 * DIL_GAMMA2) + (w0 - e + f)) by omega] at hshift
  obtain ⟨r, hr, rfl⟩ := (dilUseHint_ensures hresidue hparts.1 hsmall hclose).exists_ok
  exact hr

theorem dilUseHint_recovers_high_last : (0 ≤ (8380416 : Int) ∧ 8380416 < DIL_Q) ∧
    dilDecompose 8380416 = .ok (0, -1) ∧
    dilUseHint ((8380416 - 100 + -261800) % DIL_Q) (dilMakeHint (-1 - 100 + -261800) 0) = .ok 0 := by
  have hsplit : dilDecompose 8380416 = .ok (0, -1) := by decide +kernel
  obtain ⟨w1, w0, hw, hrecover⟩ := dilUseHint_recovers_high (w := 8380416) (by decide)
  rw [hsplit] at hw
  cases hw
  exact ⟨by decide, hsplit, hrecover 100 (-261800) (by decide) (by decide) (by decide)⟩

end HcsCoin.Dilithium
