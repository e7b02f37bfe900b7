import HcsCoin.Crypto.Dilithium.Sign

/-!
# Signatures are accepted

What key generation, one pass of the signing loop and verification compute, as
statements about residues and bounds, and how they fit together.
-/

namespace HcsCoin.Dilithium

open Foundation

/-! ## The verifier's value -/

section Residues

variable (x y z : Fin 256 → Zq)

theorem product_add : product x (y + z) = product x y + product x z := by
  rw [product, product, product, mul_add, smul_add]

theorem product_sub : product x (y - z) = product x y - product x z := by
  rw [product, product, product, mul_sub, smul_sub]

theorem ntt_invntt_product : ntt (invntt (product x y)) = x * y := by
  have hone : (2 ^ 32 : Zq) * montInv = 1 := montInv_mul
  rw [ntt_invntt, product, smul_smul, hone, one_smul]

theorem ntt_invntt_rowProduct (u v : Fin 7 → Fin 256 → Zq) :
    ntt (invntt (rowProduct u v)) = ∑ j, u j * v j := by
  rw [rowProduct, map_sum, map_sum]
  exact Finset.sum_congr rfl fun j _ => ntt_invntt_product (u j) (v j)

variable {A s1 y z : Fin 7 → Fin 256 → Zq} {c s2 t0 t1 : Fin 256 → Zq}

/-- The terms with `s1` cancel: the verifier's value is the signer's, less `c*s2` and
with `c*t0`. -/
theorem recovered_residues
    (ht : (2 ^ 13 : Zq) • t1 + t0 = invntt (rowProduct A fun j => ntt (s1 j)) + s2)
    (hz : ∀ j, z j = invntt (product c (ntt (s1 j))) + y j) :
    invntt (rowProduct A (fun j => ntt (z j)) - product c (ntt ((2 ^ 13 : Zq) • t1))) =
      invntt (rowProduct A fun j => ntt (y j)) - invntt (product c (ntt s2)) +
        invntt (product c (ntt t0)) := by
  have hzj : ∀ j, ntt (z j) = c * ntt (s1 j) + ntt (y j) := by
    intro j
    rw [hz, map_add, ntt_invntt_product]
  have ht1 : ntt ((2 ^ 13 : Zq) • t1) = ∑ j, A j * ntt (s1 j) + ntt s2 - ntt t0 := by
    rw [eq_sub_of_add_eq ht, map_sub, map_add, ntt_invntt_rowProduct]
  have hrow : rowProduct A (fun j => ntt (z j)) =
      product c (∑ j, A j * ntt (s1 j)) + rowProduct A fun j => ntt (y j) := by
    rw [rowProduct, rowProduct, product, Finset.mul_sum, Finset.smul_sum, ← Finset.sum_add_distrib]
    refine Finset.sum_congr rfl fun j _ => ?_
    rw [hzj, product_add, product, mul_left_comm]
  rw [hrow, ht1, product_sub, product_add, ← map_sub, ← map_add]
  refine congrArg invntt ?_
  abel

end Residues

/-! ## Keys -/

/-- The secret vectors `s1` and `s2` with the two parts of `t = A s1 + s2`. -/
structure PublicOf (mat : Vector PolyVecL 8) (s1 : PolyVecL) (s2 t1 t0 : PolyVecK) : Prop where
  residues_eq : ∀ i : Fin 8, (2 ^ 13 : Zq) • residues t1[i] + residues t0[i] =
    invntt (rowProduct (vecResidues mat[i]) fun j => ntt (residues s1[j])) + residues s2[i]
  range : ∀ (i : Fin 8) (j : Fin 256),
    0 ≤ t1[i][j] * 2 ^ 13 + t0[i][j] ∧ t1[i][j] * 2 ^ 13 + t0[i][j] < DIL_Q
  t1_range : ∀ (i : Fin 8) (j : Fin 256), 0 ≤ t1[i][j] ∧ t1[i][j] < 2 ^ 10
  t0_range : ∀ (i : Fin 8) (j : Fin 256), -2 ^ 12 < t0[i][j] ∧ t0[i][j] ≤ 2 ^ 12

section Judgements

variable {E : Fault → Prop}

theorem derivePublic_ensures {mat : Vector PolyVecL 8} {s1 : PolyVecL} {s2 : PolyVecK}
    (hmat : ∀ (i : Fin 8) (j : Fin 7), Bounded DIL_Q mat[i][j])
    (hs1 : ∀ i : Fin 7, Bounded 5 s1[i]) (hs2 : ∀ i : Fin 8, Bounded 5 s2[i]) :
    Ensures E (derivePublic mat s1 s2) fun r => PublicOf mat s1 s2 r.1 r.2 := by
  refine (vecNtt_ensures fun i => (hs1 i).mono (by decide)).bind fun s1hat hs1hat => ?_
  refine (multiplyMatrix_ensures hmat fun i => (hs1hat i).2).bind fun t ht => ?_
  refine (vecAdd_ensures (fun i => (ht i).2) hs2 (by decide)).bind fun t' ht' => ?_
  refine (vecCaddq_ensures (fun i => (ht' i).2) (by decide)).bind fun t'' ht'' => ?_
  refine (vecSplit_ensures (P := Power2Rounded) fun i j =>
    dilPower2round_ensures ((ht'' i).2 j)).mono fun r hr => ?_
  refine ⟨fun i => ?_, fun i j => ?_, fun i j => (hr i j).2.1, fun i j => (hr i j).2.2⟩
  · have hhat : vecResidues s1hat = fun j => ntt (residues s1[j]) := funext fun j => (hs1hat j).1
    rw [← hhat, ← (ht i).1, ← (ht' i).1, ← (ht'' i).1]
    funext j
    have hj : (t''[i][j] : Zq) = (r.1[i][j] * 2 ^ 13 + r.2[i][j] : Int) :=
      congrArg Int.cast (hr i j).1
    rw [Pi.add_apply, Pi.smul_apply, smul_eq_mul, residues, residues, residues, hj]
    push_cast
    ring
  · rw [← (hr i j).1]
    exact (ht'' i).2 j

variable {shake : Shake} {fuel : Nat} (hsamples : Samples E shake fuel)

structure KeyPair (shake : Shake) (fuel : Nat) (pk sk : Bytes) (k : SecretKey) (t1 : PolyVecK)
    (mat : Vector PolyVecL 8) : Prop where
  unpackPk : dilUnpackPk pk = .ok (k.rho, t1)
  unpackSk : dilUnpackSk sk = .ok k
  expandMat : dilExpandMat shake fuel k.rho = .ok mat
  tr : k.tr = squeeze (shake.shake256 pk) DIL_CRHBYTES
  s1 : ∀ i : Fin 7, ∃ seed nonce, dilPolyUniformEta shake fuel seed nonce = .ok k.s1[i]
  s2 : ∀ i : Fin 8, ∃ seed nonce, dilPolyUniformEta shake fuel seed nonce = .ok k.s2[i]
  encodable : k.Encodable
  publicOf : PublicOf mat k.s1 k.s2 t1 k.t0

include hsamples

theorem keygenFields_ensures (seed : Bytes) :
    Ensures E (keygenFields shake fuel seed) fun r => r.2.Encodable ∧
      ∃ mat t, derivePublic mat r.2.s1 r.2.s2 = .ok t ∧ dilPackPk r.2.rho t.1 = .ok r.1 ∧
        ∀ sk, dilUnpackSk sk = .ok r.2 → KeyPair shake fuel r.1 sk r.2 t.1 mat := by
  rw [keygenFields]
  obtain ⟨hrho, hkey⟩ := seedbuf_slices (length_squeeze (shake.shake256 seed) _)
  generalize squeeze (shake.shake256 seed) (3 * DIL_SEEDBYTES + DIL_CRHBYTES) = seedbuf
    at hrho hkey ⊢
  have heta : ∀ nonce, Ensures E
      (dilPolyUniformEta shake fuel (slice seedbuf DIL_SEEDBYTES DIL_CRHBYTES) nonce) fun r =>
        Bounded 2 r ∧ ∃ seed nonce, dilPolyUniformEta shake fuel seed nonce = .ok r :=
    fun nonce => (hsamples.eta _ nonce).and_eq_ok.mono fun r hr => ⟨hr.1, _, nonce, hr.2⟩
  dsimp only
  refine (hsamples.expandMat _).and_eq_ok.bind fun mat hmat => ?_
  refine (Ensures.tabulate fun i : Fin 7 => heta (.ofNat i)).bind fun s1 hs1 => ?_
  refine (Ensures.tabulate fun i : Fin 8 => heta (.ofNat (7 + i))).bind fun s2 hs2 => ?_
  refine (derivePublic_ensures hmat.1 (fun i => (hs1 i).1.mono (by decide))
    fun i => (hs2 i).1.mono (by decide)).and_eq_ok.bind fun t ht => ?_
  refine (dilPackPk_ensures hrho ht.1.t1_range).and_eq_ok.bind fun pk hpk => Ensures.pure ?_
  have hencodable : SecretKey.Encodable ⟨slice seedbuf 0 DIL_SEEDBYTES,
      slice seedbuf (DIL_SEEDBYTES + DIL_CRHBYTES) DIL_SEEDBYTES,
      squeeze (shake.shake256 pk) DIL_CRHBYTES, s1, s2, t.2⟩ :=
    ⟨hrho, hkey, length_squeeze _ _, fun i => (hs1 i).1, fun i => (hs2 i).1, ht.1.t0_range⟩
  exact ⟨hencodable, mat, t, ht.2, hpk.2, fun sk hsk => ⟨hpk.1.2, hsk, hmat.2, rfl,
    fun i => (hs1 i).2, fun i => (hs2 i).2, hencodable, ht.1⟩⟩

theorem dilithiumKeygenFromSeed_ensures (seed : Bytes) :
    Ensures E (dilithiumKeygenFromSeed shake fuel seed) fun r =>
      ∃ k t1 mat, KeyPair shake fuel r.1 r.2 k t1 mat := by
  refine (keygenFields_ensures hsamples seed).bind fun (pk, k) ⟨hk, mat, t, _, _, hpair⟩ => ?_
  refine (dilPackSk_ensures hk).bind fun sk hsk => Ensures.pure ?_
  exact ⟨k, t.1, mat, hpair sk hsk.2⟩

/-! ## One pass of the signing loop -/

structure Signer.Bounded (s : Signer) : Prop where
  mat : ∀ (i : Fin 8) (j : Fin 7), Dilithium.Bounded DIL_Q s.mat[i][j]
  s1 : ∀ i : Fin 7, Dilithium.Bounded (10 * DIL_Q) s.s1[i]
  s2 : ∀ i : Fin 8, Dilithium.Bounded (10 * DIL_Q) s.s2[i]
  t0 : ∀ i : Fin 8, Dilithium.Bounded (10 * DIL_Q) s.t0[i]

/-- The signer that `dilithium_sign` sets up from a secret key. -/
structure SignerOf (shake : Shake) (fuel : Nat) (k : SecretKey) (msg : Bytes) (s : Signer) :
    Prop where
  bounded : s.Bounded
  expandMat : dilExpandMat shake fuel k.rho = .ok s.mat
  mu : s.mu = messageDigest shake k.tr msg
  s1 : ∀ i : Fin 7, residues s.s1[i] = ntt (residues k.s1[i])
  s2 : ∀ i : Fin 8, residues s.s2[i] = ntt (residues k.s2[i])
  t0 : ∀ i : Fin 8, residues s.t0[i] = ntt (residues k.t0[i])

theorem prepareSigner_ensures {k : SecretKey} (hk : k.Bounded) (rnd msg : Bytes) :
    Ensures E (prepareSigner shake fuel rnd msg k) (SignerOf shake fuel k msg) := by
  refine (hsamples.expandMat _).and_eq_ok.bind fun mat hmat => ?_
  refine (vecNtt_ensures fun i => (hk.s1 i).mono (by decide)).bind fun s1 hs1 => ?_
  refine (vecNtt_ensures fun i => (hk.s2 i).mono (by decide)).bind fun s2 hs2 => ?_
  refine (vecNtt_ensures fun i => (hk.t0 i).mono (by decide)).bind fun t0 ht0 => Ensures.pure ?_
  exact ⟨⟨hmat.1, fun i => (hs1 i).2, fun i => (hs2 i).2, fun i => (ht0 i).2⟩, hmat.2, rfl,
    fun i => (hs1 i).1, fun i => (hs2 i).1, fun i => (ht0 i).1⟩

/-- What `c` commits to: `w = A y`, split into its high and low parts. -/
structure Committed (shake : Shake) (fuel : Nat) (s : Signer) (nonce : UInt16) (c : Commitment) :
    Prop where
  sample : dilPolyveclUniformGamma1 shake s.rhoprime nonce = .ok c.y
  y : ∀ i : Fin 7, Bounded (2 ^ 19) c.y[i]
  w1 : ∀ (i : Fin 8) (j : Fin 256), 0 ≤ c.w1[i][j] ∧ c.w1[i][j] ≤ 15
  w0 : ∀ i : Fin 8, Bounded 261888 c.w0[i]
  w : ∀ i : Fin 8, (2 * DIL_GAMMA2 : Zq) • residues c.w1[i] + residues c.w0[i] =
    invntt (rowProduct (vecResidues s.mat[i]) fun j => ntt (residues c.y[j]))
  ctilde : c.ctilde = challengeSeed shake s.mu c.w1
  cp : ∃ a, dilPolyChallenge shake fuel c.ctilde = .ok a ∧ dilNtt a = .ok c.cp
  cp_bounded : Bounded (10 * DIL_Q) c.cp

theorem commit_ensures {s : Signer} (hs : s.Bounded) (nonce : UInt16) :
    Ensures E (commit shake fuel s nonce) (Committed shake fuel s nonce) := by
  refine (dilPolyveclUniformGamma1_ensures _ _ _).and_eq_ok.bind fun y hy => ?_
  refine (vecNtt_ensures fun i => (hy.1 i).mono (by decide)).bind fun z hz => ?_
  refine (multiplyMatrix_ensures hs.mat fun i => (hz i).2).bind fun w hw => ?_
  refine (vecCaddq_ensures (fun i => (hw i).2) (by decide)).bind fun w' hw' => ?_
  refine (vecSplit_ensures (P := Decomposed) fun i j =>
    dilDecompose_ensures ((hw' i).2 j)).bind fun r hr => ?_
  refine (hsamples.challenge _).and_eq_ok.bind fun a ha => ?_
  refine (dilNtt_ensures ha.1 (by decide)).and_eq_ok.bind fun cp hcp => Ensures.pure ?_
  refine ⟨hy.2, hy.1, fun i j => (hr i j).1, fun i j => ?_, fun i => ?_, rfl, ⟨a, ha.2, hcp.2⟩,
    hcp.1.2.mono (by decide)⟩
  · have := (hr i j).2
    dsimp only
    rw [abs_le]
    omega
  · have hhat : vecResidues z = fun j => ntt (residues y[j]) := funext fun j => (hz j).1
    rw [← hhat, ← (hw i).1, ← (hw' i).1]
    exact funext fun j => (hr i j).cast.symm

omit hsamples

def Accepted {n : Nat} (v : Vector Poly n) (bound : Int) : Prop :=
  ∀ (i : Fin n) (j : Fin 256), |v[i][j]| < bound

structure Response (s : Signer) (c : Commitment) (z : PolyVecL) : Prop where
  residues_eq : ∀ i : Fin 7, residues z[i] =
    invntt (product (residues c.cp) (residues s.s1[i])) + residues c.y[i]
  bounded : ∀ i : Fin 7, Bounded 6283008 z[i]

variable {s : Signer} {nonce : UInt16} {c : Commitment}

theorem response_ensures (hs : s.Bounded) (hc : Committed shake fuel s nonce c) :
    Ensures E (response s c) fun r => ∃ z, Response s c z ∧
      (Accepted z (DIL_GAMMA1 - DIL_BETA) ∧ r = some z ∨
        ¬ Accepted z (DIL_GAMMA1 - DIL_BETA) ∧ r = none) := by
  refine (challengeProduct_ensures hc.cp_bounded hs.s1).bind_assoc fun z hz => ?_
  refine (vecAdd_ensures (fun i => (hz i).2) hc.y (by decide)).bind fun z' hz' => ?_
  refine (vecReduce_ensures (fun i => (hz' i).2) (by decide)).bind fun z'' hz'' => ?_
  have hresponse : Response s c z'' := by
    refine ⟨fun i => ?_, fun i => (hz'' i).2⟩
    rw [(hz'' i).1, (hz' i).1, (hz i).1]
  refine (vecChknorm_ensures (fun i => (hz'' i).2) (by decide)).bind fun b hb => ?_
  cases b with
  | true => exact Ensures.pure ⟨z'', hresponse, .inr ⟨fun h => (by cases hb.mpr h), rfl⟩⟩
  | false => exact Ensures.pure ⟨z'', hresponse, .inl ⟨hb.mp rfl, rfl⟩⟩

def LowPart (s : Signer) (c : Commitment) (w0 : PolyVecK) : Prop :=
  ∀ i : Fin 8, residues w0[i] =
    residues c.w0[i] - invntt (product (residues c.cp) (residues s.s2[i])) ∧ Bounded 6283008 w0[i]

def T0Part (s : Signer) (c : Commitment) (h : PolyVecK) : Prop :=
  ∀ i : Fin 8, residues h[i] = invntt (product (residues c.cp) (residues s.t0[i])) ∧
    Bounded 6283008 h[i]

/-- The value `u = w0 - c*s2 + c*t0` that the hint belongs to. -/
structure HintSum (s : Signer) (c : Commitment) (u : PolyVecK) : Prop where
  residues_eq : ∀ i : Fin 8, residues u[i] =
    residues c.w0[i] - invntt (product (residues c.cp) (residues s.s2[i])) +
      invntt (product (residues c.cp) (residues s.t0[i]))
  lt : Accepted u (2 * DIL_GAMMA2)

inductive HintOutcome (s : Signer) (c : Commitment) : Option PolyVecK → Prop
  | rejectLow {w0 : PolyVecK} (hw0 : LowPart s c w0)
      (hnot : ¬ Accepted w0 (DIL_GAMMA2 - DIL_BETA)) : HintOutcome s c none
  | rejectT0 {h : PolyVecK} (hh : T0Part s c h) (hnot : ¬ Accepted h DIL_GAMMA2) :
      HintOutcome s c none
  | rejectWeight {u : PolyVecK} (hu : HintSum s c u)
      (hnot : DIL_OMEGA < (dilPolyveckMakeHint u c.w1).2) : HintOutcome s c none
  | accept {u : PolyVecK} (hu : HintSum s c u)
      (hweight : (dilPolyveckMakeHint u c.w1).2 ≤ DIL_OMEGA) :
      HintOutcome s c (some (dilPolyveckMakeHint u c.w1).1)

theorem hint_ensures (hs : s.Bounded) (hc : Committed shake fuel s nonce c) :
    Ensures E (hint s c) (HintOutcome s c) := by
  refine (challengeProduct_ensures hc.cp_bounded hs.s2).bind_assoc fun cs2 hcs2 => ?_
  refine (vecSub_ensures hc.w0 (fun i => (hcs2 i).2) (by decide)).bind fun w hw => ?_
  refine (vecReduce_ensures (fun i => (hw i).2) (by decide)).bind fun w0 hw0 => ?_
  have hlow : LowPart s c w0 := by
    intro i
    rw [(hw0 i).1, (hw i).1, (hcs2 i).1]
    exact ⟨rfl, (hw0 i).2⟩
  refine (vecChknorm_ensures (fun i => (hw0 i).2) (by decide)).bind fun b hb => ?_
  cases b with
  | true => exact Ensures.pure (.rejectLow hlow fun h => (by cases hb.mpr h))
  | false =>
    have hw0_lt := hb.mp rfl
    refine (challengeProduct_ensures hc.cp_bounded hs.t0).bind_assoc fun ct0 hct0 => ?_
    refine (vecReduce_ensures (fun i => (hct0 i).2) (by decide)).bind fun h hh => ?_
    have ht0 : T0Part s c h := by
      intro i
      rw [(hh i).1, (hct0 i).1]
      exact ⟨rfl, (hh i).2⟩
    refine (vecChknorm_ensures (fun i => (hh i).2) (by decide)).bind fun b hb => ?_
    cases b with
    | true => exact Ensures.pure (.rejectT0 ht0 fun h => (by cases hb.mpr h))
    | false =>
      have hh_lt := hb.mp rfl
      have hw0_le : ∀ i : Fin 8, Bounded (DIL_GAMMA2 - DIL_BETA - 1) w0[i] :=
        fun i j => Int.le_sub_one_of_lt (hw0_lt i j)
      have hh_le : ∀ i : Fin 8, Bounded (DIL_GAMMA2 - 1) h[i] :=
        fun i j => Int.le_sub_one_of_lt (hh_lt i j)
      refine (vecAdd_ensures hw0_le hh_le (by decide)).bind fun u hu => Ensures.pure ?_
      have hsum : HintSum s c u := by
        refine ⟨fun i => ?_, fun i j => ((hu i).2 j).trans_lt (by decide)⟩
        rw [(hu i).1, (hlow i).1, (ht0 i).1]
      split
      · exact .rejectWeight hsum ‹_›
      · exact .accept hsum (not_lt.mp ‹_›)

structure Signed (shake : Shake) (fuel : Nat) (s : Signer) (sig : Bytes) (c : Commitment)
    (z : PolyVecL) (u : PolyVecK) : Prop where
  committed : ∃ nonce, Committed shake fuel s nonce c
  response : Response s c z
  accepted : Accepted z (DIL_GAMMA1 - DIL_BETA)
  hintSum : HintSum s c u
  length : sig.length = DILITHIUM_SIGNATUREBYTES
  unpackSig : dilUnpackSig sig = .ok (some ⟨c.ctilde, z, (dilPolyveckMakeHint u c.w1).1⟩)

theorem isHint_makeHint (v0 v1 : PolyVecK) : IsHint (dilPolyveckMakeHint v0 v1).1 := by
  intro i j
  simp only [dilPolyveckMakeHint, vector_getElem_fin, Vector.getElem_ofFn, dilMakeHint]
  split
  · exact .inr rfl
  · exact .inl rfl

include hsamples

theorem signAttempt_ensures (hs : s.Bounded) (nonce : UInt16) :
    Ensures E (signAttempt shake fuel s nonce) fun r => ∃ c, Committed shake fuel s nonce c ∧
      ∃ z, Response s c z ∧
        ((∃ sig u, Signed shake fuel s sig c z u ∧ r = some sig) ∨
          (¬ Accepted z (DIL_GAMMA1 - DIL_BETA) ∨ HintOutcome s c none) ∧ r = none) := by
  refine (commit_ensures hsamples hs nonce).bind fun c hc => ?_
  refine (response_ensures hs hc).bind ?_
  rintro r ⟨z, hz, ⟨haccepted, rfl⟩ | ⟨hnot, rfl⟩⟩
  · refine (hint_ensures hs hc).bind fun r hr => ?_
    cases r with
    | none => exact Ensures.pure ⟨c, hc, z, hz, .inr ⟨.inr hr, rfl⟩⟩
    | some h =>
      cases hr with
      | @accept u hu hweight =>
        have hctilde : c.ctilde.length = DIL_CTILDEBYTES := by
          rw [hc.ctilde, challengeSeed, length_squeeze]
        have hrange : ZInRange z := by
          intro i j
          have := abs_lt.mp (haccepted i j)
          rw [DIL_GAMMA1, DIL_BETA] at this
          omega
        have hpack : Ensures E (dilPackSig ⟨c.ctilde, z, (dilPolyveckMakeHint u c.w1).1⟩)
            fun sig => sig.length = DILITHIUM_SIGNATUREBYTES ∧
              dilUnpackSig sig = .ok (some ⟨c.ctilde, z, (dilPolyveckMakeHint u c.w1).1⟩) :=
          dilPackSig_ensures hctilde hrange (isHint_makeHint u c.w1) hweight
        refine hpack.bind fun sig hsig => Ensures.pure ⟨c, hc, z, hz, .inl ⟨sig, u, ?_, rfl⟩⟩
        exact ⟨⟨nonce, hc⟩, hz, haccepted, hu, hsig.1, hsig.2⟩
  · exact Ensures.pure ⟨c, hc, z, hz, .inr ⟨.inl hnot, rfl⟩⟩

theorem signLoop_ensures (hE : E .timeout) (hs : s.Bounded) (rounds : Nat) (nonce : UInt16) :
    Ensures E (signLoop shake fuel s rounds nonce) fun sig =>
      ∃ c z u, Signed shake fuel s sig c z u := by
  induction rounds generalizing nonce with
  | zero => exact ⟨fun x hx => (by cases hx), fun e he => (by cases he; exact hE)⟩
  | succ rounds ih =>
    refine (signAttempt_ensures hsamples hs nonce).bind ?_
    rintro r ⟨c, -, z, -, ⟨sig, u, hsigned, rfl⟩ | ⟨-, rfl⟩⟩
    · exact Ensures.pure ⟨c, z, u, hsigned⟩
    · exact ih (nonce + 1)

theorem dilithiumSign_ensures (hE : E .timeout) {sk : Bytes} {k : SecretKey}
    (hsk : dilUnpackSk sk = .ok k) (hk : k.Bounded) (rnd msg : Bytes) :
    Ensures E (dilithiumSign shake fuel rnd msg sk) fun sig =>
      ∃ s c z u, SignerOf shake fuel k msg s ∧ Signed shake fuel s sig c z u := by
  rw [dilithiumSign, hsk, ok_bind]
  refine (prepareSigner_ensures hsamples hk rnd msg).bind fun s hs => ?_
  refine (signLoop_ensures hsamples hE hs.bounded fuel 0).mono ?_
  rintro sig ⟨c, z, u, hsigned⟩
  exact ⟨s, c, z, u, hs, hsigned⟩

omit hsamples

/-! ## Verification -/

theorem shiftT1_ensures {t1 : PolyVecK}
    (ht1 : ∀ (i : Fin 8) (j : Fin 256), 0 ≤ t1[i][j] ∧ t1[i][j] < 2 ^ 10) :
    Ensures E (vecMap (polyMap (shiftLeft32 · 13)) t1) fun r => ∀ i : Fin 8,
      residues r[i] = (2 ^ 13 : Zq) • residues t1[i] ∧ Bounded (2 * DIL_Q) r[i] := by
  have hpoly : ∀ i : Fin 8, Ensures E (polyMap (shiftLeft32 · 13) t1[i]) fun r =>
      residues r = (2 ^ 13 : Zq) • residues t1[i] ∧ Bounded (2 * DIL_Q) r := by
    intro i
    have hentry : ∀ j : Fin 256, Ensures E (shiftLeft32 t1[i][j] 13) fun t =>
        t = t1[i][j] * 2 ^ 13 := by
      intro j
      have := ht1 i j
      exact Ensures.of_eq_ok (shiftLeft32_eq this.1 (by omega)) rfl
    refine (Ensures.tabulate hentry).mono fun r hr => ⟨funext fun j => ?_, fun j => ?_⟩
    · rw [Pi.smul_apply, smul_eq_mul, residues, residues, hr j]
      push_cast
      ring
    · have := ht1 i j
      rw [hr j, abs_le, DIL_Q]
      omega
  exact Ensures.tabulate hpoly

theorem recoverRow_ensures {u v : PolyVecL} {cp t : Poly} (hu : ∀ i : Fin 7, Bounded DIL_Q u[i])
    (hv : ∀ i : Fin 7, Bounded (10 * DIL_Q) v[i]) (hcp : Bounded (10 * DIL_Q) cp)
    (ht : Bounded (10 * DIL_Q) t) :
    Ensures E (do
      let w ← dilPolyveclPointwiseAcc u v
      let t ← dilPolyPointwise cp t
      let w ← polyZip (fun x y => int32 (x - y) >>= dilReduce32) w t
      dilInvnttTomont w) fun w =>
        residues w = invntt (rowProduct (vecResidues u) (vecResidues v) -
          product (residues cp) (residues t)) ∧ Bounded 4211197 w := by
  refine (dilPolyveclPointwiseAcc_ensures hu hv).bind fun w hw => ?_
  refine (dilPolyPointwise_ensures hcp ht (by decide)).bind fun t' ht' => ?_
  have hreduce : ∀ x y : Int, |x| ≤ 7 * DIL_Q → |y| ≤ DIL_Q →
      Ensures E (int32 (x - y) >>= dilReduce32) fun t =>
        (t : Zq) = (x : Zq) - (y : Zq) ∧ |t| ≤ 6283008 := by
    intro x y hx hy
    have hdiff := (abs_sub x y).trans (add_le_add hx hy)
    have hbounds := abs_le.mp hdiff
    rw [DIL_Q] at hbounds
    rw [int32_eq (by omega), ok_bind, ← Int.cast_sub]
    exact dilReduce32_ensures (hdiff.trans_lt (by decide))
  refine (polyZip_ensures (r := (· - ·)) hreduce hw.2 ht'.2).bind fun w' hw' => ?_
  have hresidues : residues w' = rowProduct (vecResidues u) (vecResidues v) -
      product (residues cp) (residues t) := by
    rw [hw'.1, hw.1, ht'.1]
    rfl
  rw [← hresidues]
  exact dilInvnttTomont_ensures hw'.2 (by decide) (by decide)

end Judgements

theorem dilExpandMat_unique {shake : Shake} {fuel fuel' : Nat} {rho : Bytes}
    {mat mat' : Vector PolyVecL 8} (h : dilExpandMat shake fuel rho = .ok mat)
    (h' : dilExpandMat shake fuel' rho = .ok mat') : mat = mat' := by
  have hmax := dilExpandMat_extends (le_max_left fuel fuel') shake rho mat h
  have hmax' := dilExpandMat_extends (le_max_right fuel fuel') shake rho mat' h'
  exact Except.ok.inj (hmax.symm.trans hmax')

section Verification

variable {E : Fault → Prop} {shake : Shake} {fuel fuel' : Nat} {pk sk msg sig : Bytes}
  {k : SecretKey} {t1 : PolyVecK} {mat : Vector PolyVecL 8} {s : Signer} {c : Commitment}
  {z : PolyVecL} {u : PolyVecK}

section
variable (hkeys : KeyPair shake fuel pk sk k t1 s.mat)
variable (hs : SignerOf shake fuel' k msg s) (hsigned : Signed shake fuel' s sig c z u)
include hkeys hs hsigned

/-- The residues from which the verifier recovers `w1` are those of the signer's
`w1 * 2 * GAMMA2 + u`. -/
theorem verifier_residues (i : Fin 8) :
    invntt (rowProduct (vecResidues s.mat[i]) (fun j => ntt (residues z[j])) -
        product (residues c.cp) (ntt ((2 ^ 13 : Zq) • residues t1[i]))) =
      (2 * DIL_GAMMA2 : Zq) • residues c.w1[i] + residues u[i] := by
  have hz : ∀ j : Fin 7, residues z[j] =
      invntt (product (residues c.cp) (ntt (residues k.s1[j]))) + residues c.y[j] := by
    intro j
    rw [hsigned.response.residues_eq, hs.s1]
  have ht : (2 ^ 13 : Zq) • residues t1[i] + residues k.t0[i] =
      invntt (rowProduct (vecResidues s.mat[i]) fun j => ntt (residues k.s1[j])) +
        residues k.s2[i] := hkeys.publicOf.residues_eq i
  have hrecovered := recovered_residues ht hz
  obtain ⟨nonce, hc⟩ := hsigned.committed
  rw [hrecovered, ← hc.w i, hsigned.hintSum.residues_eq i, hs.s2, hs.t0]
  abel

theorem recoverW1_ensures {fuel'' : Nat} (hfuel : fuel' ≤ fuel'') :
    Ensures E (recoverW1 shake fuel'' k.rho t1 ⟨c.ctilde, z, (dilPolyveckMakeHint u c.w1).1⟩)
      (· = c.w1) := by
  obtain ⟨nonce, hc⟩ := hsigned.committed
  obtain ⟨a, ha, hcp⟩ := hc.cp
  have hchallenge := dilPolyChallenge_extends hfuel shake c.ctilde a ha
  have hexpand := dilExpandMat_extends hfuel shake k.rho s.mat hs.expandMat
  have hz : ∀ i : Fin 7, Bounded (2 * DIL_Q) z[i] := by
    intro i j
    exact (hsigned.accepted i j).le.trans (by decide)
  rw [recoverW1, hchallenge, ok_bind, hexpand, ok_bind]
  refine (vecNtt_ensures hz).bind fun zhat hzhat => ?_
  rw [hcp, ok_bind]
  refine (shiftT1_ensures hkeys.publicOf.t1_range).bind fun t1s ht1s => ?_
  refine (vecNtt_ensures fun i => (ht1s i).2).bind fun t1hat ht1hat => ?_
  have hrows : ∀ i : Fin 8, Ensures E (do
      let w ← dilPolyveclPointwiseAcc s.mat[i] zhat
      let t ← dilPolyPointwise c.cp t1hat[i]
      let w ← polyZip (fun x y => int32 (x - y) >>= dilReduce32) w t
      dilInvnttTomont w) fun w =>
        residues w = invntt (rowProduct (vecResidues s.mat[i]) (vecResidues zhat) -
          product (residues c.cp) (residues t1hat[i])) ∧ Bounded 4211197 w :=
    fun i => recoverRow_ensures (hs.bounded.mat i) (fun j => (hzhat j).2)
      hc.cp_bounded (ht1hat i).2
  refine (Ensures.tabulate hrows).bind fun w hw => ?_
  refine (vecCaddq_ensures (fun i => (hw i).2) (by decide)).bind fun w' hw' => ?_
  have hhat : vecResidues zhat = fun j => ntt (residues z[j]) := funext fun j => (hzhat j).1
  have hresidues : ∀ i : Fin 8, residues w'[i] =
      (2 * DIL_GAMMA2 : Zq) • residues c.w1[i] + residues u[i] := by
    intro i
    rw [(hw' i).1, (hw i).1, (ht1hat i).1, (ht1s i).1, hhat, verifier_residues hkeys hs hsigned]
  have huse : ∀ (i : Fin 8) (j : Fin 256),
      Ensures E (dilUseHint w'[i][j] (dilPolyveckMakeHint u c.w1).1[i][j]) (· = c.w1[i][j]) := by
    intro i j
    have hhint : (dilPolyveckMakeHint u c.w1).1[i][j] = dilMakeHint u[i][j] c.w1[i][j] := by
      simp only [dilPolyveckMakeHint, vector_getElem_fin, Vector.getElem_ofFn]
    have hcast : ((c.w1[i][j] * (2 * DIL_GAMMA2) + u[i][j] : Int) : Zq) = (w'[i][j] : Int) := by
      have hj := congrFun (hresidues i) j
      rw [Pi.add_apply, Pi.smul_apply, smul_eq_mul, residues, residues, residues] at hj
      rw [hj]
      push_cast
      ring
    rw [hhint]
    exact dilUseHint_ensures ((hw' i).2 j) (hc.w1 i j) (hsigned.hintSum.lt i j)
      ((ZMod.intCast_eq_intCast_iff_dvd_sub _ _ _).mp hcast)
  have hrow : ∀ i : Fin 8, Ensures E
      (tabulate 256 fun j => dilUseHint w'[i][j] (dilPolyveckMakeHint u c.w1).1[i][j])
      (· = c.w1[i]) := by
    intro i
    refine (Ensures.tabulate (huse i)).mono fun r hr => Vector.ext fun j hj => hr ⟨j, hj⟩
  exact (Ensures.tabulate hrow).mono fun r hr => Vector.ext fun i hi => hr ⟨i, hi⟩

theorem dilithiumVerify_ensures {fuel'' : Nat} (hfuel : fuel' ≤ fuel'') :
    Ensures E (dilithiumVerify shake fuel'' sig msg pk) (· = 0) := by
  have hz : ∀ i : Fin 7, Bounded (2 ^ 19) z[i] := by
    intro i j
    exact (hsigned.accepted i j).le.trans (by decide)
  rw [dilithiumVerify, if_neg (not_not.mpr hsigned.length), hkeys.unpackPk, ok_bind]
  dsimp only
  rw [hsigned.unpackSig, ok_bind]
  dsimp only
  refine (vecChknorm_ensures hz (by decide)).bind fun b hb => ?_
  rw [hb.mpr hsigned.accepted]
  refine (recoverW1_ensures hkeys hs hsigned hfuel).bind fun w1 hw1 => Ensures.pure ?_
  obtain ⟨nonce, hc⟩ := hsigned.committed
  have hctilde := hc.ctilde
  rw [hs.mu, hkeys.tr] at hctilde
  rw [hw1, if_pos hctilde]

end

end Verification

/-- A signature made with the secret key of a seed is accepted under its public key. -/
theorem dilithiumVerify_dilithiumSign (shake : Shake) (seed msg rnd pk sk sig : Bytes)
    (fuel fuel' fuel'' : Nat) (hkeys : dilithiumKeygenFromSeed shake fuel seed = .ok (pk, sk))
    (hsig : dilithiumSign shake fuel' rnd msg sk = .ok sig) (hfuel : fuel' ≤ fuel'') :
    dilithiumVerify shake fuel'' sig msg pk = .ok 0 := by
  obtain ⟨k, t1, mat, hpair⟩ :=
    (dilithiumKeygenFromSeed_ensures (Samples.of_timeout (E := fun _ => True) trivial shake fuel)
      seed).apply hkeys
  obtain ⟨s, c, z, u, hs, hsigned⟩ :=
    (dilithiumSign_ensures (Samples.of_timeout (E := fun _ => True) trivial shake fuel') trivial
      hpair.unpackSk hpair.encodable.bounded rnd msg).apply hsig
  obtain rfl := dilExpandMat_unique hpair.expandMat hs.expandMat
  obtain ⟨r, hr, rfl⟩ := (dilithiumVerify_ensures hpair hs hsigned hfuel).exists_ok
  exact hr

/-! ## A signature from the first pass -/

def zeroPoly : Poly := .replicate 256 0

theorem sample_zeros {step : SampleStep} {rate rounds fuel : Nat} {b : UInt8}
    {positions : List Nat} (hstep : Accepts step)
    (hzero : ∀ coeffs pos, Drawn (· = 0) coeffs → Drawn (· = 0) (step (fun _ => b) coeffs pos))
    (h : 256 ≤ accepted step positions rate (fun _ => b) rounds 0) (hfuel : rounds < fuel) :
    samplePoly step positions rate (fun _ => b) fuel = .ok zeroPoly := by
  obtain ⟨a, ha⟩ := samplePoly_ok hstep h hfuel
  have hall := (samplePoly_ensures (E := fun _ => True) (P := (· = 0)) trivial
    fun _ => hzero).apply ha
  rw [ha]
  refine congrArg _ (Vector.ext fun i hi => (hall ⟨i, hi⟩).trans ?_)
  rw [zeroPoly, Vector.getElem_replicate]

theorem constantShake_uniform (rho : Bytes) (nonce : UInt16) :
    dilPolyUniform constantShake 6 rho nonce = .ok zeroPoly := by
  have hzero : ∀ coeffs pos, Drawn (· = 0) coeffs →
      Drawn (· = 0) (uniformStep (fun _ => 0) coeffs pos) := by
    intro coeffs pos h
    rw [uniformStep]
    split
    · exact h.append ‹_› rfl
    · exact h
  exact sample_zeros uniformStep_accepts hzero
    (show 256 ≤ accepted _ _ _ _ 5 0 by decide +kernel) (by decide)

theorem constantShake_eta (rhoprime : Bytes) (nonce : UInt16) :
    dilPolyUniformEta constantShake 6 rhoprime nonce = .ok zeroPoly := by
  have hzero : ∀ coeffs pos, Drawn (· = 0) coeffs →
      Drawn (· = 0) (etaStep (fun _ => 0x22) coeffs pos) := by
    intro coeffs pos h
    rw [etaStep]
    split
    · have hfirst : Drawn (· = 0) (etaNibble coeffs 2) := h.append ‹_› rfl
      dsimp only
      split
      · exact hfirst.append ‹_› rfl
      · exact hfirst
    · exact h
  exact sample_zeros etaStep_accepts hzero
    (show 256 ≤ accepted _ _ _ _ 1 0 by decide +kernel) (by decide)

theorem constantShake_expandMat (rho : Bytes) :
    dilExpandMat constantShake 6 rho = .ok (.replicate 8 (.replicate 7 zeroPoly)) := by
  refine tabulate_eq_ok_iff.mpr fun i => tabulate_eq_ok_iff.mpr fun j => ?_
  rw [constantShake_uniform]
  simp

theorem constantShake_gamma1 (rhoprime : Bytes) (nonce : UInt16) :
    dilPolyveclUniformGamma1 constantShake rhoprime nonce =
      .ok (.replicate 7 (.replicate 256 384478)) := by
  have hpair : ∀ i, gamma1Pair (fun _ => 0x22) i = (139810, 139810) := by
    have hfirst : gamma1Pair (fun _ => 0x22) 0 = (139810, 139810) := by decide
    exact fun i => hfirst
  refine tabulate_eq_ok_iff.mpr fun i => tabulate_eq_ok_iff.mpr fun j => ?_
  simp only [constantShake, hpair, ite_self, vector_getElem_fin, Vector.getElem_replicate]
  rfl

theorem constantShake_challenge (seed : Bytes) :
    ∃ c, dilPolyChallenge constantShake 6 seed = .ok c :=
  dilPolyChallenge_ok constantShake 6 (strictMono_id.const_add 8) le_rfl fun k _ pos hpos =>
    ⟨pos, le_rfl, hpos, by omega, show 34 ≤ 196 + k by omega⟩

theorem constantShake_samples : Samples (fun _ => False) constantShake 6 := by
  have hzero : Bounded 0 zeroPoly := fun j => by simp [zeroPoly]
  refine ⟨fun rho => ?_, fun rhoprime nonce => ?_, fun seed => ?_⟩
  · refine Ensures.of_eq_ok (constantShake_expandMat rho) fun i j => ?_
    simpa using hzero.mono (by decide)
  · exact Ensures.of_eq_ok (constantShake_eta rhoprime nonce) (hzero.mono (by decide))
  · obtain ⟨c, hc⟩ := constantShake_challenge seed
    exact Ensures.of_eq_ok hc
      ((dilPolyChallenge_ensures (E := fun _ => True) trivial _ _ _).apply hc)

section FirstPass

variable {pk sk msg : Bytes} {k : SecretKey} {t1 : PolyVecK} {mat : Vector PolyVecL 8} {s : Signer}
  {nonce : UInt16} {c : Commitment} {z : PolyVecL}

theorem eq_zero_of_cast {x : Int} (hx : (x : Zq) = 0) (hlt : |x| < DIL_Q) : x = 0 :=
  Int.eq_zero_of_abs_lt_dvd ((ZMod.intCast_zmod_eq_zero_iff_dvd x 8380417).mp hx) hlt

theorem accepted_of_residues_zero {n : Nat} {v : Vector Poly n} {A : Int} (bound : Int)
    (hv : ∀ i : Fin n, residues v[i] = 0 ∧ Bounded A v[i]) (hA : A < DIL_Q) (hbound : 0 < bound) :
    (∀ (i : Fin n) (j : Fin 256), v[i][j] = 0) ∧ Accepted v bound := by
  have hzero : ∀ (i : Fin n) (j : Fin 256), v[i][j] = 0 :=
    fun i j => eq_zero_of_cast (congrFun (hv i).1 j) (((hv i).2 j).trans_lt hA)
  refine ⟨hzero, fun i j => ?_⟩
  rwa [hzero i j, abs_zero]

theorem residues_zeroPoly : residues zeroPoly = 0 := by
  funext j
  simp [residues, zeroPoly]

theorem product_zero (x : Fin 256 → Zq) : product x 0 = 0 := by rw [product, mul_zero, smul_zero]

theorem rowProduct_zeroMat (i : Fin 8) (v : Fin 7 → Fin 256 → Zq) :
    rowProduct (vecResidues
      (Vector.replicate 8 (Vector.replicate 7 zeroPoly) : Vector PolyVecL 8)[i]) v = 0 := by
  refine Finset.sum_eq_zero fun j _ => ?_
  have hentry : (Vector.replicate 8 (Vector.replicate 7 zeroPoly) : Vector PolyVecL 8)[i][j] =
      zeroPoly := by simp
  rw [vecResidues, hentry, residues_zeroPoly, product, zero_mul, smul_zero]

theorem constantShake_secrets (hpair : KeyPair constantShake 6 pk sk k t1 mat)
    (hs : SignerOf constantShake 6 k msg s) :
    (∀ i : Fin 7, residues s.s1[i] = 0) ∧ (∀ i : Fin 8, residues s.s2[i] = 0) ∧
      ∀ i : Fin 8, residues s.t0[i] = 0 := by
  have hs2 : ∀ i : Fin 8, residues k.s2[i] = 0 := by
    intro i
    obtain ⟨seed, nonce, hdrawn⟩ := hpair.s2 i
    rw [← Except.ok.inj ((constantShake_eta seed nonce).symm.trans hdrawn), residues_zeroPoly]
  refine ⟨fun i => ?_, fun i => by rw [hs.s2, hs2, map_zero], fun i => ?_⟩
  · obtain ⟨seed, nonce, hdrawn⟩ := hpair.s1 i
    rw [hs.s1, ← Except.ok.inj ((constantShake_eta seed nonce).symm.trans hdrawn),
      residues_zeroPoly, map_zero]
  · have hmat := Except.ok.inj ((constantShake_expandMat k.rho).symm.trans hpair.expandMat)
    have ht := hpair.publicOf.residues_eq i
    rw [← hmat, rowProduct_zeroMat, map_zero, hs2, add_zero] at ht
    have ht0 : residues k.t0[i] = 0 := by
      funext j
      have hj := congrFun ht j
      have hcast : ((t1[i][j] * 2 ^ 13 + k.t0[i][j] : Int) : Zq) = 0 := by
        rw [Pi.add_apply, Pi.smul_apply, smul_eq_mul, residues, residues] at hj
        push_cast
        rw [mul_comm]
        exact hj
      have hrange := hpair.publicOf.range i j
      have hzero := eq_zero_of_cast hcast (by rw [abs_of_nonneg hrange.1]; exact hrange.2)
      have ht0 : k.t0[i][j] = 0 := by
        have := hpair.publicOf.t0_range i j
        omega
      rw [residues, ht0]
      rfl
    rw [hs.t0, ht0, map_zero]

theorem constantShake_response (hsecrets : ∀ i : Fin 7, residues s.s1[i] = 0)
    (hc : Committed constantShake 6 s nonce c) (hz : Response s c z) :
    Accepted z (DIL_GAMMA1 - DIL_BETA) := by
  intro i j
  have hy : c.y[i][j] = 384478 := by
    rw [← Except.ok.inj ((constantShake_gamma1 s.rhoprime nonce).symm.trans hc.sample)]
    simp
  have hres := congrFun (hz.residues_eq i) j
  rw [hsecrets, product_zero, map_zero, zero_add, residues, residues, hy] at hres
  obtain ⟨m, hm⟩ := (ZMod.intCast_eq_intCast_iff_dvd_sub _ _ _).mp hres
  have hbound := abs_le.mp (hz.bounded i j)
  rw [abs_lt, DIL_GAMMA1, DIL_BETA]
  omega

theorem constantShake_hint (hs2 : ∀ i : Fin 8, residues s.s2[i] = 0)
    (ht0 : ∀ i : Fin 8, residues s.t0[i] = 0)
    (hmat : s.mat = .replicate 8 (.replicate 7 zeroPoly))
    (hc : Committed constantShake 6 s nonce c) : ¬ HintOutcome s c none := by
  have hw : ∀ (i : Fin 8) (j : Fin 256), c.w1[i][j] = 0 ∧ c.w0[i][j] = 0 := by
    intro i j
    have hj := congrFun (hc.w i) j
    rw [hmat, rowProduct_zeroMat, map_zero, Pi.add_apply, Pi.smul_apply, smul_eq_mul, residues,
      residues] at hj
    have hcast : ((2 * DIL_GAMMA2 * c.w1[i][j] + c.w0[i][j] : Int) : Zq) = 0 := by
      push_cast
      exact hj
    have hw1 := hc.w1 i j
    have hw0 := abs_le.mp (hc.w0 i j)
    have hgamma : DIL_GAMMA2 = 261888 := rfl
    rw [hgamma] at hcast
    have hzero := eq_zero_of_cast hcast (by rw [abs_lt, DIL_Q]; omega)
    omega
  have hw0 : ∀ i : Fin 8, residues c.w0[i] = 0 := by
    intro i
    funext j
    rw [residues, (hw i j).2]
    rfl
  intro h
  cases h with
  | rejectLow hlow hnot =>
    refine hnot (accepted_of_residues_zero (A := 6283008) _ (fun i => ⟨?_, (hlow i).2⟩)
      (by decide) (by decide)).2
    rw [(hlow i).1, hw0, hs2, product_zero, map_zero, sub_zero]
  | rejectT0 hh hnot =>
    refine hnot (accepted_of_residues_zero (A := 6283008) _ (fun i => ⟨?_, (hh i).2⟩)
      (by decide) (by decide)).2
    rw [(hh i).1, ht0, product_zero, map_zero]
  | @rejectWeight u hu hnot =>
    have hzero : ∀ (i : Fin 8) (j : Fin 256), u[i][j] = 0 := by
      refine (accepted_of_residues_zero (A := 2 * DIL_GAMMA2) 1
        (fun i => ⟨?_, fun j => (hu.lt i j).le⟩) (by decide) (by decide)).1
      rw [hu.residues_eq, hw0, hs2, ht0, product_zero, map_zero, sub_zero, add_zero]
    have hhint : (dilPolyveckMakeHint u c.w1).1 = .replicate 8 (.replicate 256 0) := by
      refine Vector.ext fun i hi => Vector.ext fun j hj => ?_
      have hu := hzero ⟨i, hi⟩ ⟨j, hj⟩
      have hbit : ∀ a1, dilMakeHint 0 a1 = 0 := by
        intro a1
        rw [dilMakeHint, if_neg (by rw [DIL_GAMMA2, DIL_Q]; omega)]
      simp only [vector_getElem_fin] at hu
      simp [dilPolyveckMakeHint, hu, hbit]
    have hweight : (dilPolyveckMakeHint u c.w1).2 = 0 := by
      refine (congrArg hintWeight hhint).trans ?_
      simp [hintWeight]
    rw [hweight] at hnot
    exact absurd hnot (by decide)

end FirstPass

theorem constantShake_signature_accepted :
    ∃ pk sk sig, dilithiumKeygenFromSeed constantShake 6 (List.replicate 32 0) = .ok (pk, sk) ∧
      dilithiumSign constantShake 6 (List.replicate 32 0) [] sk = .ok sig ∧
      dilithiumVerify constantShake 6 sig [] pk = .ok 0 := by
  obtain ⟨⟨pk, sk⟩, hkeys, k, t1, mat, hpair⟩ :=
    (dilithiumKeygenFromSeed_ensures constantShake_samples (List.replicate 32 0)).exists_ok
  obtain ⟨s, hsigner, hs⟩ :=
    (prepareSigner_ensures constantShake_samples hpair.encodable.bounded (List.replicate 32 0)
      []).exists_ok
  obtain ⟨hs1, hs2, ht0⟩ := constantShake_secrets hpair hs
  have hmat := Except.ok.inj ((constantShake_expandMat k.rho).symm.trans hs.expandMat)
  obtain ⟨r, hr, c, hc, z, hz, hcase⟩ :=
    (signAttempt_ensures constantShake_samples hs.bounded 0).exists_ok
  obtain ⟨sig, u, -, rfl⟩ | ⟨hrejected, -⟩ := hcase
  · have hsig : dilithiumSign constantShake 6 (List.replicate 32 0) [] sk = .ok sig := by
      rw [dilithiumSign, hpair.unpackSk, ok_bind, hsigner, ok_bind, signLoop, hr]
      rfl
    exact ⟨pk, sk, sig, hkeys, hsig, dilithiumVerify_dilithiumSign constantShake _ _ _ _ _ _ _ _ _
      hkeys hsig (le_refl 6)⟩
  · rcases hrejected with hnot | hnone
    · exact absurd (constantShake_response hs1 hc hz) hnot
    · exact absurd hnone (constantShake_hint hs2 ht0 hmat.symm hc)

end HcsCoin.Dilithium
