import HcsCoin.Crypto.Dilithium.Keys

/-!
# No overflow in dilithium.c

The signed operations of the model fail when their result does not fit, and so
does Montgomery reduction outside the range in which it is exact.  For keys and
signatures that are arbitrary bytes, the four functions of the interface fail in
neither way: the decoded coefficients are small whatever the bytes are, and every
later value is reduced before it can grow out of its type.
-/

namespace HcsCoin.Dilithium

open Foundation

section Decoding

variable {E : Fault → Prop}

theorem dilUnpackSk_ensures (sk : Bytes) : Ensures E (dilUnpackSk sk) SecretKey.Bounded := by
  have heta : ∀ block, Ensures E (dilPolyetaUnpack block) (Bounded 5) :=
    unpackOffset_bounded (by decide) (by decide) (by decide)
  have ht0 : ∀ block, Ensures E (dilPolyt0Unpack block) (Bounded (2 ^ 12)) :=
    unpackOffset_bounded (by decide) (by decide) (by decide)
  refine (Ensures.tabulate fun i : Fin 7 => heta _).bind fun s1 hs1 => ?_
  refine (Ensures.tabulate fun i : Fin 8 => heta _).bind fun s2 hs2 => ?_
  refine (Ensures.tabulate fun i : Fin 8 => ht0 _).bind fun t0 ht0 => ?_
  exact Ensures.pure ⟨hs1, hs2, ht0⟩

theorem dilUnpackPk_ensures (pk : Bytes) :
    Ensures E (dilUnpackPk pk) fun r =>
      ∀ (i : Fin 8) (j : Fin 256), 0 ≤ r.2[i][j] ∧ r.2[i][j] < 2 ^ 10 := by
  have ht1 : ∀ block, Ensures E (pure (dilPolyt1Unpack block)) fun a =>
      ∀ j : Fin 256, 0 ≤ a[j] ∧ a[j] < 2 ^ 10 := by
    intro block
    refine Ensures.pure fun j => ?_
    have hlt := unpackValues_lt (show 10 ≤ 32 by decide) block j
    rw [dilPolyt1Unpack, unpackPlain, vector_getElem_fin, Vector.getElem_ofFn]
    exact ⟨Int.natCast_nonneg _, by exact_mod_cast hlt⟩
  refine (Ensures.tabulate fun i : Fin 8 => ht1 _).bind fun t1 ht1 => ?_
  exact Ensures.pure ht1

theorem dilUnpackSig_bounded (sig : Bytes) :
    Ensures E (dilUnpackSig sig) fun r => ∀ s, r = some s → ∀ i : Fin 7, Bounded (2 ^ 19) s.z[i] := by
  have hz : ∀ block, Ensures E (dilPolyzUnpack block) (Bounded (2 ^ 19)) :=
    unpackOffset_bounded (by decide) (by decide) (by decide)
  refine (Ensures.tabulate fun i : Fin 7 => hz _).bind fun z hz => Ensures.pure fun s hs => ?_
  obtain ⟨h, -, rfl⟩ := Option.map_eq_some_iff.mp hs
  exact hz

theorem dilPackPk_returns (rho : Bytes) (t1 : PolyVecK) :
    Ensures E (dilPackPk rho t1) fun _ => True := by
  have hpack : ∀ i : Fin 8, Ensures E (pure (dilPolyt1Pack t1[i])) fun _ => True :=
    fun i => Ensures.pure trivial
  have hvec : Ensures E (packVec (fun a => pure (dilPolyt1Pack a)) t1) fun _ => True :=
    (Ensures.tabulate hpack).bind fun _ _ => Ensures.pure trivial
  exact hvec.bind fun _ _ => Ensures.pure trivial

theorem dilPolyveckUseHint_returns {u h : PolyVecK}
    (hu : ∀ (i : Fin 8) (j : Fin 256), 0 ≤ u[i][j] ∧ u[i][j] < DIL_Q) :
    Ensures E (dilPolyveckUseHint u h) fun _ => True := by
  have hentry : ∀ (i : Fin 8) (j : Fin 256), Ensures E (dilUseHint u[i][j] h[i][j]) fun _ => True := by
    intro i j
    refine (dilDecompose_ensures (hu i j)).bind ?_
    rintro ⟨a1, a0⟩ -
    dsimp only
    split
    · exact Ensures.pure trivial
    · split <;> exact Ensures.pure trivial
  have hrow : ∀ i : Fin 8, Ensures E (tabulate 256 fun j => dilUseHint u[i][j] h[i][j])
      fun _ => True :=
    fun i => (Ensures.tabulate (hentry i)).mono fun _ _ => trivial
  exact (Ensures.tabulate hrow).mono fun _ _ => trivial

end Decoding

/-! ## The interface on arbitrary bytes -/

section Interface

variable {E : Fault → Prop} {shake : Shake} {fuel : Nat} (hsamples : Samples E shake fuel)

include hsamples

theorem dilithiumPkFromSk_returns (sk : Bytes) :
    Ensures E (dilithiumPkFromSk shake fuel sk) fun _ => True := by
  refine (dilUnpackSk_ensures sk).bind fun k hk => ?_
  refine (hsamples.expandMat k.rho).bind fun mat hmat => ?_
  refine (derivePublic_ensures hmat hk.s1 hk.s2).bind fun t _ => ?_
  exact dilPackPk_returns k.rho t.1

theorem dilithiumSign_returns (hE : E .timeout) (rnd msg sk : Bytes) :
    Ensures E (dilithiumSign shake fuel rnd msg sk) fun _ => True := by
  refine (dilUnpackSk_ensures sk).bind fun k hk => ?_
  refine (prepareSigner_ensures hsamples hk rnd msg).bind fun s hs => ?_
  exact (signLoop_ensures hsamples hE hs.bounded fuel 0).mono fun _ _ => trivial

theorem recoverW1_returns (rho : Bytes) {t1 : PolyVecK} {s : Signature}
    (ht1 : ∀ (i : Fin 8) (j : Fin 256), 0 ≤ t1[i][j] ∧ t1[i][j] < 2 ^ 10)
    (hz : ∀ i : Fin 7, Bounded (2 ^ 19) s.z[i]) :
    Ensures E (recoverW1 shake fuel rho t1 s) fun _ => True := by
  refine (hsamples.challenge s.ctilde).bind fun a ha => ?_
  refine (hsamples.expandMat rho).bind fun mat hmat => ?_
  refine (vecNtt_ensures fun i => (hz i).mono (by decide)).bind fun zhat hzhat => ?_
  refine (dilNtt_ensures ha (by decide)).bind fun cp hcp => ?_
  refine (shiftT1_ensures ht1).bind fun t1s ht1s => ?_
  refine (vecNtt_ensures fun i => (ht1s i).2).bind fun t1hat ht1hat => ?_
  have hrow := fun i : Fin 8 => recoverRow_ensures (E := E) (hmat i) (fun j => (hzhat j).2)
    (hcp.2.mono (by decide)) (ht1hat i).2
  refine (Ensures.tabulate hrow).bind fun w hw => ?_
  refine (vecCaddq_ensures (fun i => (hw i).2) (by decide)).bind fun w' hw' => ?_
  exact dilPolyveckUseHint_returns fun i => (hw' i).2

theorem dilithiumVerify_returns (sig msg pk : Bytes) :
    Ensures E (dilithiumVerify shake fuel sig msg pk) fun _ => True := by
  rw [dilithiumVerify]
  split
  · exact Ensures.pure trivial
  · refine (dilUnpackPk_ensures pk).bind ?_
    rintro ⟨rho, t1⟩ ht1
    refine (dilUnpackSig_bounded sig).bind fun r hr => ?_
    cases r with
    | none => exact Ensures.pure trivial
    | some s =>
      have hz := hr s rfl
      refine (vecChknorm_ensures hz (by decide)).bind fun b _ => ?_
      cases b with
      | true => exact Ensures.pure trivial
      | false =>
        refine (recoverW1_returns hsamples rho ht1 hz).bind fun w1 _ => ?_
        exact Ensures.pure trivial

end Interface

/-- The results of the remaining signed operations, on bytes, counters and constants, which
the model computes without a check. -/
inductive SmallResult : Int → Prop
  /-- `DIL_ETA - (int32_t)t0` in `dil_poly_uniform_eta`. -/
  | eta (t : Nat) (ht : t < 15) : SmallResult (2 - (t - 205 * t / 2 ^ 10 * 5 : Nat))
  /-- `DIL_L * nonce` in `dil_polyvecl_uniform_gamma1`. -/
  | nonce (nonce : UInt16) : SmallResult (7 * nonce.toNat)
  | brv8 (x : UInt8) (k : Nat) (hk : k ≤ 4) : SmallResult (x.toNat * 2 ^ k)
  | zeta (t : Nat) : SmallResult ((t % 8380417 : Nat) - DIL_Q)
  /-- `a1 + 1` and `a1 - 1` in `dil_use_hint`, on what `dil_decompose` returns. -/
  | increment (a a1 a0 : Int) (h : Decomposed a a1 a0) : SmallResult (a1 + 1)
  | decrement (a a1 a0 : Int) (h : Decomposed a a1 a0) : SmallResult (a1 - 1)

theorem SmallResult.fits {x : Int} (h : SmallResult x) : int32 x = .ok x := by
  refine int32_eq ?_
  cases h with
  | eta t ht => omega
  | nonce n =>
    have := n.toNat_lt
    omega
  | brv8 y k hk =>
    have hy := y.toNat_lt
    have hpow : 2 ^ k ≤ 2 ^ 4 := Nat.pow_le_pow_right (by decide) hk
    have hproduct : y.toNat * 2 ^ k ≤ 255 * 2 ^ 4 := Nat.mul_le_mul (by omega) hpow
    have hcast : ((y.toNat * 2 ^ k : Nat) : Int) = y.toNat * 2 ^ k := by push_cast; rfl
    omega
  | zeta t =>
    rw [DIL_Q]
    omega
  | increment a a1 a0 h =>
    have := h.1
    omega
  | decrement a a1 a0 h =>
    have := h.1
    omega

/-- No signed operation of the run overflowed and every argument of Montgomery reduction was
in range. -/
def InRange {α : Type} (m : Exec α) : Prop := m ≠ .error .overflow ∧ m ≠ .error .reduction

theorem InRange.of_ensures {α : Type} {m : Exec α} {P : α → Prop}
    (h : Ensures (fun e => e = .timeout) m P) : InRange m :=
  ⟨fun hm => (by cases h.throws _ hm), fun hm => (by cases h.throws _ hm)⟩

/-- Keys, signatures, messages and randomness may be any bytes. -/
theorem dilithium_inRange (shake : Shake) (fuel : Nat) (seed rnd msg sk pk sig : Bytes) :
    InRange (dilithiumKeygenFromSeed shake fuel seed) ∧
    InRange (dilithiumPkFromSk shake fuel sk) ∧
    InRange (dilithiumSign shake fuel rnd msg sk) ∧
    InRange (dilithiumVerify shake fuel sig msg pk) ∧
    ∀ x, SmallResult x → int32 x = .ok x := by
  have hsamples : Samples (fun e => e = .timeout) shake fuel :=
    Samples.of_timeout (E := fun e => e = .timeout) rfl shake fuel
  exact ⟨.of_ensures (dilithiumKeygenFromSeed_ensures hsamples seed),
    .of_ensures (dilithiumPkFromSk_returns hsamples sk),
    .of_ensures (dilithiumSign_returns hsamples rfl rnd msg sk),
    .of_ensures (dilithiumVerify_returns hsamples sig msg pk), fun _ h => h.fits⟩

end HcsCoin.Dilithium
