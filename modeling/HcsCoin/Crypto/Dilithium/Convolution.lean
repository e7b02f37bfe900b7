import HcsCoin.Crypto.Dilithium.Poly
import Mathlib.Algebra.Polynomial.Div
import Mathlib.RingTheory.FiniteType
import Mathlib.Data.ZMod.IntUnitsPower

/-!
# The transform of dilithium.c multiplies polynomials

Each entry of the forward transform is the value of the polynomial at a root of
`X ^ 256 + 1`: the twiddle factors of the eight layers are the powers
`r ^ 128, r ^ 64, ..., r` of that root up to sign.  Reduction by `X ^ 256 + 1`
does not change the values at the roots, and a table is determined by its
transform, so the inverse transform of the products of the values gives the
coefficients of the reduced product.
-/

namespace HcsCoin.Dilithium

open Foundation Polynomial

/-! ## The roots -/

/-- The factor of position `i` in the layer at distance `2 ^ t`, with the sign it
has on the upper position of a pair. -/
def signedZeta (t : Nat) (i : Nat) : Zq :=
  let zeta : Zq := dilZetas (2 ^ (7 - t) + i / 2 ^ (t + 1)) * montInv
  if i.testBit t then -zeta else zeta

/-- The root of `X ^ 256 + 1` at which the transform evaluates in entry `i`. -/
def root (i : Nat) : Zq := signedZeta 0 i

theorem zetas_square : ∀ (t : Fin 7) (b : Fin (2 ^ (7 - t.val))),
    ((dilZetas (2 ^ (7 - t.val) + b.val) : Zq) * montInv) ^ 2 =
      let zeta : Zq := dilZetas (2 ^ (6 - t.val) + b.val / 2) * montInv
      if b.val.testBit 0 then -zeta else zeta := by
  decide +kernel

theorem zetas_first : ((dilZetas 1 : Zq) * montInv) ^ 2 = -1 := by decide

theorem signedZeta_sq (t i : Nat) :
    signedZeta t i ^ 2 = ((dilZetas (2 ^ (7 - t) + i / 2 ^ (t + 1)) : Zq) * montInv) ^ 2 := by
  rw [signedZeta]
  split
  · exact neg_sq _
  · rfl

variable {t i m : Nat}

theorem signedZeta_succ (ht : t < 7) (hi : i < 256) :
    signedZeta t i ^ 2 = signedZeta (t + 1) i := by
  have hblock : i / 2 ^ (t + 1) < 2 ^ (7 - t) := by
    rw [Nat.div_lt_iff_lt_mul (Nat.two_pow_pos _), ← Nat.pow_add, show 7 - t + (t + 1) = 8 by omega]
    exact hi
  have hsquare := zetas_square ⟨t, ht⟩ ⟨i / 2 ^ (t + 1), hblock⟩
  dsimp only at hsquare
  rw [signedZeta_sq, hsquare, signedZeta, Nat.testBit_div_two_pow, Nat.div_div_eq_div_mul,
    ← Nat.pow_succ, Nat.zero_add]
  have hlevel : 6 - t = 7 - (t + 1) := by omega
  rw [hlevel]

theorem root_pow (ht : t ≤ 7) (hi : i < 256) : root i ^ 2 ^ t = signedZeta t i := by
  induction t with
  | zero => rw [pow_zero, pow_one, root]
  | succ t ih => rw [pow_succ, pow_mul, ih (by omega), signedZeta_succ ht hi]

theorem root_pow_size (hi : i < 256) : root i ^ 256 = -1 := by
  have hzero : i / 2 ^ 8 = 0 := by omega
  rw [show 256 = 2 ^ 7 * 2 from rfl, pow_mul, root_pow (le_refl 7) hi, signedZeta_sq, hzero]
  exact zetas_first

/-! ## The layers evaluate -/

/-- The position `m` places into the block of `2 ^ t` entries that holds `i`. -/
def blockEntry (t i m : Nat) : Fin 256 := .ofNat 256 (i / 2 ^ t * 2 ^ t + m)

section

variable (ht : t ≤ 8) (hi : i < 256) (hm : m < 2 ^ t)
include ht hi hm

theorem val_blockEntry :
    (blockEntry t i m).val = i / 2 ^ t * 2 ^ t + m := by
  have hpow : 2 ^ (8 - t) * 2 ^ t = 256 := by rw [← Nat.pow_add, Nat.sub_add_cancel ht]
  have hblock : i / 2 ^ t + 1 ≤ 2 ^ (8 - t) := by
    rw [Nat.succ_le_iff, Nat.div_lt_iff_lt_mul (Nat.two_pow_pos _), hpow]
    exact hi
  have hmul := Nat.mul_le_mul_right (2 ^ t) hblock
  rw [hpow, Nat.succ_mul] at hmul
  exact Nat.mod_eq_of_lt (by omega)

theorem div_blockEntry :
    (blockEntry t i m).val / 2 ^ t = i / 2 ^ t := by
  rw [val_blockEntry ht hi hm, Nat.mul_comm, Nat.mul_add_div (Nat.two_pow_pos _),
    Nat.div_eq_of_lt hm, Nat.add_zero]

theorem testBit_blockEntry :
    (blockEntry t i m).val.testBit t = i.testBit t := by
  rw [Nat.testBit_eq_decide_div_mod_eq, div_blockEntry ht hi hm, Nat.testBit_eq_decide_div_mod_eq]

end

section

variable (ht : t < 8) (hi : i < 256) (hm : m < 2 ^ t)
include ht hi hm

theorem blockEntry_eq :
    blockEntry t i m = blockEntry (t + 1) i (if i.testBit t then 2 ^ t + m else m) := by
  have hpow : 2 ^ (t + 1) = 2 * 2 ^ t := Nat.pow_succ'
  have hsplit := Nat.div_add_mod (i / 2 ^ t) 2
  rw [Nat.div_div_eq_div_mul, ← Nat.pow_succ] at hsplit
  have hlt : (if i.testBit t then 2 ^ t + m else m) < 2 ^ (t + 1) := by split <;> omega
  refine Fin.ext ?_
  rw [val_blockEntry (by omega) hi hm, val_blockEntry (by omega) hi hlt, ← hsplit, hpow,
    Nat.testBit_eq_decide_div_mod_eq]
  rcases Nat.mod_two_eq_zero_or_one (i / 2 ^ t) with h | h
  · rw [h, if_neg (by decide)]
    ring
  · rw [h, if_pos (by decide)]
    ring

theorem partner_lower :
    partner (.ofNat 8 t) (blockEntry (t + 1) i m) = blockEntry (t + 1) i (2 ^ t + m) := by
  have hpow : 2 ^ (t + 1) = 2 * 2 ^ t := Nat.pow_succ'
  have hlevel : (Fin.ofNat 8 t).val = t := Nat.mod_eq_of_lt ht
  have hval := val_blockEntry (m := m) (show t + 1 ≤ 8 by omega) hi (by omega)
  have hlow : low (.ofNat 8 t) (blockEntry (t + 1) i m) = true := by
    have heven : (i / 2 ^ (t + 1) * 2 ^ (t + 1) + m) / 2 ^ t = 2 * (i / 2 ^ (t + 1)) := by
      rw [hpow, show i / (2 * 2 ^ t) * (2 * 2 ^ t) = 2 ^ t * (2 * (i / (2 * 2 ^ t))) by ring,
        Nat.mul_add_div (Nat.two_pow_pos _), Nat.div_eq_of_lt hm, Nat.add_zero]
    rw [low, hlevel, hval, Nat.testBit_eq_decide_div_mod_eq, heven, Nat.mul_mod_right]
    rfl
  have hpartner := (partner_facts _ _).2.2.2.2 hlow
  rw [hlevel] at hpartner
  refine Fin.ext ?_
  rw [← hpartner, hval, val_blockEntry (by omega) hi (by omega)]
  omega

theorem zeta_blockEntry :
    (layer (.ofNat 8 t)).zeta (blockEntry t i m) =
      dilZetas (2 ^ (7 - t) + i / 2 ^ (t + 1)) * montInv := by
  have hlevel : (Fin.ofNat 8 t).val = t := Nat.mod_eq_of_lt ht
  dsimp only [layer, forwardIndex]
  rw [hlevel, Nat.pow_succ, ← Nat.div_div_eq_div_mul, div_blockEntry (by omega) hi hm,
    Nat.div_div_eq_div_mul]

theorem forward_blockEntry (x : Fin 256 → Zq) :
    (layer (.ofNat 8 t)).forward x (blockEntry t i m) =
      x (blockEntry (t + 1) i m) + signedZeta t i * x (blockEntry (t + 1) i (2 ^ t + m)) := by
  have hlevel : (Fin.ofNat 8 t).val = t := Nat.mod_eq_of_lt ht
  have hbit := testBit_blockEntry (by omega) hi hm
  have hentry := blockEntry_eq ht hi hm
  have hpartner := partner_lower ht hi hm
  rw [signedZeta, ← zeta_blockEntry ht hi hm]
  cases hhigh : i.testBit t with
  | false =>
    have hlow : (layer (.ofNat 8 t)).low (blockEntry t i m) = true := by
      change (!_) = true
      rw [hlevel, hbit, hhigh]
      rfl
    rw [hhigh, if_neg Bool.false_ne_true] at hentry
    rw [ButterflyLayer.forward_of_low _ hlow, hentry, if_neg Bool.false_ne_true, ← hpartner]
    rfl
  | true =>
    have hlow : (layer (.ofNat 8 t)).low (blockEntry t i m) = false := by
      change (!_) = false
      rw [hlevel, hbit, hhigh]
      rfl
    rw [hhigh, if_pos rfl] at hentry
    have hback : (layer (.ofNat 8 t)).partner (blockEntry (t + 1) i (2 ^ t + m)) =
        blockEntry (t + 1) i m := by
      rw [← hpartner]
      exact (layer (.ofNat 8 t)).partner_partner _
    rw [ButterflyLayer.forward_of_high _ hlow, hentry, if_pos rfl, hback]
    ring

end

/-- The layers below `2 ^ t` evaluate each block of `2 ^ t` entries at the root of the
entry. -/
theorem forward_layersBelow (ht : t ≤ 8) (x : Fin 256 → Zq) (i : Fin 256) :
    ButterflyNetwork.forward (layersBelow t) x i =
      ∑ m ∈ Finset.range (2 ^ t), x (blockEntry t i m) * root i ^ m := by
  induction t generalizing x with
  | zero =>
    have hself : blockEntry 0 i 0 = i := by
      refine Fin.ext ((val_blockEntry (by omega) i.isLt (by decide)).trans ?_)
      rw [pow_zero, Nat.div_one, Nat.mul_one, Nat.add_zero]
    rw [pow_zero, Finset.sum_range_one, hself, pow_zero, mul_one]
    rfl
  | succ t ih =>
    have hinner : ButterflyNetwork.forward (layersBelow (t + 1)) x i =
        ButterflyNetwork.forward (layersBelow t) ((layer (.ofNat 8 t)).forward x) i := rfl
    have hstep : ∀ m ∈ Finset.range (2 ^ t),
        (layer (.ofNat 8 t)).forward x (blockEntry t i m) * root i ^ m =
          x (blockEntry (t + 1) i m) * root i ^ m +
            x (blockEntry (t + 1) i (2 ^ t + m)) * root i ^ (2 ^ t + m) := by
      intro m hm
      rw [forward_blockEntry ht i.isLt (Finset.mem_range.mp hm), pow_add,
        root_pow (by omega) i.isLt]
      ring
    rw [hinner, ih (by omega), Finset.sum_congr rfl hstep, Finset.sum_add_distrib,
      Nat.pow_succ, Nat.mul_two, Finset.sum_range_add]

theorem ntt_apply (x : Fin 256 → Zq) (i : Fin 256) :
    ntt x i = ∑ m : Fin 256, x m * root i ^ m.val := by
  have hblock : i.val / 2 ^ 8 = 0 := by omega
  rw [ntt, forward_layersBelow (le_refl 8), Finset.sum_range]
  refine Finset.sum_congr rfl fun m _ => ?_
  have hentry : blockEntry 8 i m = m := by
    refine Fin.ext ((val_blockEntry (le_refl 8) i.isLt m.isLt).trans ?_)
    rw [hblock, Nat.zero_mul, Nat.zero_add]
  rw [hentry]

/-! ## Products of polynomials -/

noncomputable def toPolynomial (a : Poly) : ℤ[X] := ∑ j : Fin 256, C a[j] * X ^ j.val

/-- The product in the ring of the scheme, `ℤ[X]` modulo `X ^ 256 + 1`. -/
noncomputable def negacyclicProduct (a b : Poly) : ℤ[X] :=
  toPolynomial a * toPolynomial b %ₘ (X ^ 256 + 1)

theorem natDegree_remainder {n : Nat} (hn : n ≠ 0) (p : ℤ[X]) :
    (p %ₘ (X ^ n + 1)).natDegree < n := by
  have hmonic : (X ^ n + C 1 : ℤ[X]).Monic := monic_X_pow_add_C 1 hn
  have hdegree : (X ^ n + C 1 : ℤ[X]).natDegree = n := natDegree_X_pow_add_C
  have hne : (X ^ n + C 1 : ℤ[X]) ≠ 1 := by
    intro hone
    rw [hone, natDegree_one] at hdegree
    exact hn hdegree.symm
  have hlt := natDegree_modByMonic_lt p hmonic hne
  rwa [hdegree, C_1] at hlt

theorem eval₂_toPolynomial (a : Poly) (r : Zq) :
    (toPolynomial a).eval₂ (Int.castRingHom Zq) r = ∑ j : Fin 256, residues a j * r ^ j.val := by
  rw [toPolynomial, eval₂_finsetSum]
  refine Finset.sum_congr rfl fun j _ => ?_
  rw [eval₂_mul, eval₂_C, eval₂_pow, eval₂_X]
  rfl

theorem ntt_residues (a : Poly) (i : Fin 256) :
    ntt (residues a) i = (toPolynomial a).eval₂ (Int.castRingHom Zq) (root i) := by
  rw [ntt_apply, eval₂_toPolynomial]

theorem ntt_negacyclicProduct (a b : Poly) :
    ntt (fun k => ((negacyclicProduct a b).coeff k.val : Zq)) =
      ntt (residues a) * ntt (residues b) := by
  funext i
  have hroot : (X ^ 256 + 1 : ℤ[X]).eval₂ (Int.castRingHom Zq) (root i) = 0 := by
    rw [eval₂_add, eval₂_pow, eval₂_X, eval₂_one, root_pow_size i.isLt, neg_add_cancel]
  have hdegree : (negacyclicProduct a b).natDegree < 256 := natDegree_remainder (by decide) _
  have hsum : (negacyclicProduct a b).eval₂ (Int.castRingHom Zq) (root i) =
      ∑ k : Fin 256, ((negacyclicProduct a b).coeff k.val : Zq) * root i ^ k.val := by
    rw [eval₂_eq_sum_range' _ hdegree, Finset.sum_range]
    rfl
  rw [ntt_apply, ← hsum, negacyclicProduct, eval₂_modByMonic_eq_self_of_root hroot, eval₂_mul,
    Pi.mul_apply, ntt_residues, ntt_residues]

theorem ntt_injective : Function.Injective ntt := by
  refine OrzechProperty.injective_of_surjective_endomorphism ntt fun y => ?_
  refine ⟨invntt (montInv • y), ?_⟩
  rw [ntt_invntt, smul_smul, montInv_mul, one_smul]

theorem invntt_product (a b : Poly) :
    invntt (product (ntt (residues a)) (ntt (residues b))) =
      fun k => ((negacyclicProduct a b).coeff k.val : Zq) := by
  refine ntt_injective ?_
  rw [ntt_negacyclicProduct, product, ntt_invntt, smul_smul, montInv_mul, one_smul]

def nttMultiply (a b : Poly) : Exec Poly := do
  let a ← dilNtt a
  let b ← dilNtt b
  dilInvnttTomont (← dilPolyPointwise a b)

theorem nttMultiply_ensures {E : Fault → Prop} {a b : Poly} (ha : Bounded DIL_Q a)
    (hb : Bounded DIL_Q b) :
    Ensures E (nttMultiply a b) fun c =>
      residues c = (fun k => ((negacyclicProduct a b).coeff k.val : Zq)) ∧ Bounded 4211197 c := by
  refine (dilNtt_ensures ha (by decide)).bind fun x hx => ?_
  refine (dilNtt_ensures hb (by decide)).bind fun y hy => ?_
  refine (dilPolyPointwise_ensures hx.2 hy.2 (by decide)).bind fun z hz => ?_
  refine (dilInvnttTomont_ensures hz.2 (by decide) (by decide)).mono fun c hc => ?_
  rw [← invntt_product, hc.1, hz.1, hx.1, hy.1]
  exact ⟨rfl, hc.2⟩

/-- The transforms and the pointwise product multiply polynomials modulo
`X ^ 256 + 1` and modulo `Q`. -/
theorem nttMultiply_congr (a b : Poly) (ha : ∀ i : Fin 256, |a[i]| < DIL_Q)
    (hb : ∀ i : Fin 256, |b[i]| < DIL_Q) :
    ∃ r, nttMultiply a b = .ok r ∧ ∀ k : Fin 256,
      r[k] ≡ (negacyclicProduct a b).coeff k.val [ZMOD DIL_Q] ∧ |r[k]| < DIL_Q := by
  have hresult := nttMultiply_ensures (E := fun _ => False) (fun i => (ha i).le) fun i => (hb i).le
  obtain ⟨r, hr, hresidues, hbound⟩ := hresult.exists_ok
  refine ⟨r, hr, fun k => ⟨?_, (hbound k).trans_lt (by decide)⟩⟩
  exact (ZMod.intCast_eq_intCast_iff _ _ 8380417).mp (congrFun hresidues k)

private def monomialPoly (n : Fin 256) (c : Int) : Poly := .ofFn fun j => if j = n then c else 0

private theorem monomialPoly_lt (n : Fin 256) {c : Int} (hc : |c| < DIL_Q) (i : Fin 256) :
    |(monomialPoly n c)[i]| < DIL_Q := by
  simp only [monomialPoly, vector_getElem_fin, Vector.getElem_ofFn]
  split
  · exact hc
  · decide

theorem nttMultiply_congr_monomials :
    ∃ r, nttMultiply (monomialPoly 255 8380416) (monomialPoly 1 (-2)) = .ok r ∧ ∀ k : Fin 256,
      r[k] ≡ (negacyclicProduct (monomialPoly 255 8380416) (monomialPoly 1 (-2))).coeff k.val
        [ZMOD DIL_Q] ∧ |r[k]| < DIL_Q :=
  nttMultiply_congr _ _ (monomialPoly_lt _ (by decide)) (monomialPoly_lt _ (by decide))

end HcsCoin.Dilithium
