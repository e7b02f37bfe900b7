import HcsCoin.Crypto.Dilithium.Arith

/-!
# Rounding and hints in dilithium.c

`Power2Round` splits off the low bits that the public key leaves out;
`Decompose` splits a residue into a multiple of `2 * GAMMA2` and a rest.  A hint
bit tells the verifier, who knows a residue only up to a small error, the high
part that the signer had.
-/

namespace HcsCoin.Dilithium

open Foundation

def DIL_GAMMA2 : Int := (DIL_Q - 1) / 32

def shiftLeft32 (x : Int) (k : Nat) : Exec Int :=
  if x < 0 then throw .overflow else int32 (x * 2 ^ k)

def dilPower2round (a : Int) : Exec (Int × Int) := do
  let a1 := (← int32 ((← int32 (a + 2 ^ 12)) - 1)) >>> (13 : Nat)
  let a0 ← int32 (a - (← shiftLeft32 a1 13))
  pure (a1, a0)

def dilDecompose (a : Int) : Exec (Int × Int) := do
  let a1 := (← int32 (a + 127)) >>> (7 : Nat)
  let a1 := (← int32 ((← int32 (a1 * 1025)) + 2 ^ 21)) >>> (22 : Nat)
  let a1 := a1 % 16
  let a0 ← int32 (a - (← int32 ((← int32 (a1 * 2)) * DIL_GAMMA2)))
  let a0 ← int32 (a0 - signMask (← int32 ((DIL_Q - 1) / 2 - a0)) DIL_Q)
  pure (a1, a0)

def dilMakeHint (a0 a1 : Int) : Int :=
  if a0 > DIL_GAMMA2 ∨ a0 < -DIL_GAMMA2 ∨ (a0 = -DIL_GAMMA2 ∧ a1 ≠ 0) then 1 else 0

def dilUseHint (a hint : Int) : Exec Int := do
  let (a1, a0) ← dilDecompose a
  if hint = 0 then pure a1
  else if a0 > 0 then pure (if a1 = 15 then 0 else a1 + 1)
  else pure (if a1 = 0 then 15 else a1 - 1)

theorem shiftLeft32_eq {x : Int} {k : Nat} (hx : 0 ≤ x) (hfits : x * 2 ^ k < 2 ^ 31) :
    shiftLeft32 x k = .ok (x * 2 ^ k) := by
  have hnonneg : 0 ≤ x * 2 ^ k := mul_nonneg hx (by positivity)
  rw [shiftLeft32, if_neg (not_lt.mpr hx), int32_eq ⟨by omega, hfits⟩]

def Power2Rounded (a a1 a0 : Int) : Prop :=
  a = a1 * 2 ^ 13 + a0 ∧ (0 ≤ a1 ∧ a1 < 2 ^ 10) ∧ -2 ^ 12 < a0 ∧ a0 ≤ 2 ^ 12

variable {E : Fault → Prop} {a : Int}

theorem dilPower2round_ensures (ha : 0 ≤ a ∧ a < DIL_Q) :
    Ensures E (dilPower2round a) fun r => Power2Rounded a r.1 r.2 := by
  rw [DIL_Q] at ha
  rw [dilPower2round, int32_eq (by omega), ok_bind, int32_eq (by omega), ok_bind,
    Int.shiftRight_eq_div_pow]
  dsimp only
  rw [shiftLeft32_eq (by omega) (by omega), ok_bind, int32_eq (by omega), ok_bind]
  refine Ensures.pure ⟨?_, ⟨?_, ?_⟩, ?_, ?_⟩ <;> dsimp only <;> omega

/-- The parts of a residue.  The last residues, from which the next multiple of
`2 * GAMMA2` would be `Q - 1`, have high part zero. -/
def Decomposed (a a1 a0 : Int) : Prop :=
  (0 ≤ a1 ∧ a1 ≤ 15) ∧
    ((a = a1 * 523776 + a0 ∧ -261888 < a0 ∧ a0 ≤ 261888) ∨
      (a1 = 0 ∧ a = DIL_Q + a0 ∧ -261888 ≤ a0 ∧ a0 < 0))

theorem Decomposed.cast {a1 a0 : Int} (h : Decomposed a a1 a0) :
    (a : Zq) = 2 * DIL_GAMMA2 * a1 + a0 := by
  have hgamma : ((DIL_GAMMA2 : Int) : Zq) = 261888 := rfl
  have hQ : ((DIL_Q : Int) : Zq) = 0 := rfl
  rw [hgamma]
  rcases h.2 with ⟨rfl, -⟩ | ⟨rfl, rfl, -⟩
  · push_cast
    ring
  · push_cast
    rw [hQ]
    ring

theorem rounded_quotient (ha : 0 ≤ a ∧ a < 8380417) :
    -261888 < a - ((a + 127) / 128 * 1025 + 2097152) / 4194304 * 523776 ∧
      a - ((a + 127) / 128 * 1025 + 2097152) / 4194304 * 523776 ≤ 261888 := by
  omega

theorem dilDecompose_ensures (ha : 0 ≤ a ∧ a < DIL_Q) :
    Ensures E (dilDecompose a) fun r => Decomposed a r.1 r.2 := by
  rw [DIL_Q] at ha
  have hrounded := rounded_quotient ha
  rw [dilDecompose, int32_eq (by omega), ok_bind, Int.shiftRight_eq_div_pow]
  dsimp only
  rw [int32_eq (by omega), ok_bind, int32_eq (by omega), ok_bind, Int.shiftRight_eq_div_pow]
  push_cast
  generalize ((a + 127) / 128 * 1025 + 2097152) / 4194304 = q at hrounded
  rw [int32_eq (by omega), ok_bind, DIL_GAMMA2, DIL_Q, int32_eq (by omega), ok_bind,
    int32_eq (by omega), ok_bind, int32_eq (by omega), ok_bind, signMask]
  -- the quotient 16 of the last residues becomes zero
  by_cases hq : q = 16
  · rw [if_pos (by omega), int32_eq (by omega), ok_bind]
    refine Ensures.pure ⟨?_, .inr ?_⟩
    all_goals
      simp only [DIL_Q]
      omega
  · rw [if_neg (by omega), int32_eq (by omega), ok_bind]
    refine Ensures.pure ⟨?_, .inl ?_⟩
    all_goals
      dsimp only
      omega

/-- The verifier recovers the high part of the signer: a residue that differs from
`w1 * 2 * GAMMA2` by less than `2 * GAMMA2` leads back to `w1` under the hint. -/
theorem dilUseHint_ensures {w w1 u : Int} (hw : 0 ≤ w ∧ w < DIL_Q) (hw1 : 0 ≤ w1 ∧ w1 ≤ 15)
    (hu : |u| < 2 * DIL_GAMMA2) (hclose : DIL_Q ∣ w - (w1 * (2 * DIL_GAMMA2) + u)) :
    Ensures E (dilUseHint w (dilMakeHint u w1)) fun r => r = w1 := by
  obtain ⟨m, hm⟩ := hclose
  refine (dilDecompose_ensures hw).bind ?_
  rintro ⟨a1, a0⟩ ⟨ha1, hsplit⟩
  rw [abs_lt] at hu
  simp only [DIL_GAMMA2, DIL_Q] at hw hu hm hsplit
  dsimp only at ha1 ⊢
  have hwraps : m = -1 ∨ m = 0 ∨ m = 1 := by omega
  rw [dilMakeHint, DIL_GAMMA2, DIL_Q]
  by_cases hhint : u > (8380417 - 1) / 32 ∨ u < -((8380417 - 1) / 32) ∨
      (u = -((8380417 - 1) / 32) ∧ w1 ≠ 0)
  · rw [if_pos hhint, if_neg one_ne_zero]
    by_cases ha0 : a0 > 0
    · rw [if_pos ha0]
      refine Ensures.pure ?_
      rcases hwraps with rfl | rfl | rfl <;> split <;> omega
    · rw [if_neg ha0]
      refine Ensures.pure ?_
      rcases hwraps with rfl | rfl | rfl <;> split <;> omega
  · rw [if_neg hhint, if_pos rfl]
    refine Ensures.pure ?_
    rcases hwraps with rfl | rfl | rfl <;> omega

end HcsCoin.Dilithium
