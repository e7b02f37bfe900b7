import HcsCoin.Crypto.Dilithium.Completeness

/-!
# Public keys derived from secret keys

`dilithium_pk_from_sk` decodes a secret key and runs the derivation of
`dilithium_keygen_from_seed` on what it reads.
-/

namespace HcsCoin.Dilithium

open Foundation

variable (shake : Shake) (fuel : Nat)

def dilithiumPkFromSk (sk : Bytes) : Exec Bytes := do
  let k ← dilUnpackSk sk
  let mat ← dilExpandMat shake fuel k.rho
  let (t1, _) ← derivePublic mat k.s1 k.s2
  dilPackPk k.rho t1

theorem derivePublic_pk {shake : Shake} {fuel : Nat} {sk pk : Bytes} {k : SecretKey}
    {mat : Vector PolyVecL 8} {t : PolyVecK × PolyVecK} (hsk : dilUnpackSk sk = .ok k)
    (hmat : dilExpandMat shake fuel k.rho = .ok mat) (ht : derivePublic mat k.s1 k.s2 = .ok t)
    (hpk : dilPackPk k.rho t.1 = .ok pk) : dilithiumPkFromSk shake fuel sk = .ok pk := by
  rw [dilithiumPkFromSk, hsk, ok_bind, hmat, ok_bind, ht, ok_bind]
  exact hpk

/-- Keygen's secret key reads back as the fields packed into it, and the public key derived
from it is keygen's. -/
theorem dilithiumPkFromSk_keygen {shake : Shake} {fuel : Nat} {seed pk sk : Bytes}
    (h : dilithiumKeygenFromSeed shake fuel seed = .ok (pk, sk)) :
    ∃ k, keygenFields shake fuel seed = .ok (pk, k) ∧ dilPackSk k = .ok sk ∧
      dilUnpackSk sk = .ok k ∧
      ∀ fuel', fuel ≤ fuel' → dilithiumPkFromSk shake fuel' sk = .ok pk := by
  have hsamples : Samples (fun _ => True) shake fuel := Samples.of_timeout trivial shake fuel
  rw [dilithiumKeygenFromSeed] at h
  cases hfields : keygenFields shake fuel seed with
  | error e =>
    rw [hfields] at h
    cases h
  | ok r =>
    obtain ⟨pk', k⟩ := r
    rw [hfields, ok_bind] at h
    dsimp only at h
    cases hpack : dilPackSk k with
    | error e =>
      rw [hpack] at h
      cases h
    | ok sk' =>
      rw [hpack, ok_bind] at h
      cases h
      obtain ⟨hencodable, mat, t, ht, hpk, hpair⟩ :=
        (keygenFields_ensures hsamples seed).apply hfields
      have hunpack := ((dilPackSk_ensures (E := fun _ => True) hencodable).apply hpack).2
      refine ⟨k, rfl, hpack, hunpack, fun fuel' hfuel => ?_⟩
      exact derivePublic_pk hunpack
        (dilExpandMat_extends hfuel shake _ mat (hpair sk hunpack).expandMat) ht hpk

theorem dilithiumPkFromSk_constantShake :
    ∃ pk sk, dilithiumKeygenFromSeed constantShake 6 (List.replicate 32 0) = .ok (pk, sk) ∧
      dilithiumPkFromSk constantShake 6 sk = .ok pk := by
  obtain ⟨⟨pk, sk⟩, hkeys, -⟩ :=
    (dilithiumKeygenFromSeed_ensures constantShake_samples (List.replicate 32 0)).exists_ok
  obtain ⟨k, -, -, -, hpk⟩ := dilithiumPkFromSk_keygen hkeys
  exact ⟨pk, sk, hkeys, hpk 6 (Nat.le_refl 6)⟩

end HcsCoin.Dilithium
