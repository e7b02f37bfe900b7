import Mathlib.Algebra.Module.LinearMap.Basic
import Mathlib.Tactic.Ring
import Mathlib.Tactic.LinearCombination

/-!
# Butterfly networks

A layer of a fast transform pairs up the entries of a table and replaces each
pair by the sum and the difference, with one of the two multiplied by a twiddle
factor.  The layers of a network that undo each other up to the factor two are
kept together, so that a network followed backwards and then forwards
multiplies by a power of two.
-/

namespace HcsCoin.Foundation

variable {ι R : Type} [CommRing R]

/-- A layer: which entry goes with which, which of the two is the lower one, and the
twiddle factors of the two directions. -/
structure ButterflyLayer (ι R : Type) [CommRing R] where
  partner : ι → ι
  low : ι → Bool
  zeta : ι → R
  eta : ι → R
  partner_partner : ∀ i, partner (partner i) = i
  low_partner : ∀ i, low (partner i) = !low i
  eta_partner : ∀ i, eta (partner i) = eta i
  zeta_mul_eta : ∀ i, zeta i * eta i = 1

namespace ButterflyLayer

variable (L : ButterflyLayer ι R)

def forward : (ι → R) →ₗ[R] ι → R where
  toFun x i := if L.low i then x i + L.zeta i * x (L.partner i)
    else x (L.partner i) - L.zeta i * x i
  map_add' x y := by
    funext i
    simp only [Pi.add_apply]
    split <;> ring
  map_smul' c x := by
    funext i
    simp only [Pi.smul_apply, smul_eq_mul, RingHom.id_apply]
    split <;> ring

def backward : (ι → R) →ₗ[R] ι → R where
  toFun x i := if L.low i then x i + x (L.partner i)
    else L.eta i * (x (L.partner i) - x i)
  map_add' x y := by
    funext i
    simp only [Pi.add_apply]
    split <;> ring
  map_smul' c x := by
    funext i
    simp only [Pi.smul_apply, smul_eq_mul, RingHom.id_apply]
    split <;> ring

variable {i : ι}

theorem forward_of_low (h : L.low i = true) (x : ι → R) :
    L.forward x i = x i + L.zeta i * x (L.partner i) := if_pos h

theorem forward_of_high (h : L.low i = false) (x : ι → R) :
    L.forward x i = x (L.partner i) - L.zeta i * x i :=
  if_neg (by rw [h]; exact Bool.false_ne_true)

theorem backward_of_low (h : L.low i = true) (x : ι → R) :
    L.backward x i = x i + x (L.partner i) := if_pos h

theorem backward_of_high (h : L.low i = false) (x : ι → R) :
    L.backward x i = L.eta i * (x (L.partner i) - x i) :=
  if_neg (by rw [h]; exact Bool.false_ne_true)

theorem forward_backward (x : ι → R) : L.forward (L.backward x) = (2 : R) • x := by
  funext i
  have hpartner := L.partner_partner i
  have hunit := L.zeta_mul_eta i
  rw [Pi.smul_apply, smul_eq_mul]
  cases hlow : L.low i with
  | true =>
    have hhigh : L.low (L.partner i) = false := by rw [L.low_partner, hlow]; rfl
    rw [L.forward_of_low hlow, L.backward_of_low hlow, L.backward_of_high hhigh, hpartner,
      L.eta_partner]
    linear_combination (x i - x (L.partner i)) * hunit
  | false =>
    have hhigh : L.low (L.partner i) = true := by rw [L.low_partner, hlow]; rfl
    rw [L.forward_of_high hlow, L.backward_of_low hhigh, L.backward_of_high hlow, hpartner]
    linear_combination -(x (L.partner i) - x i) * hunit

end ButterflyLayer

namespace ButterflyNetwork

def forward : List (ButterflyLayer ι R) → (ι → R) →ₗ[R] ι → R
  | [] => LinearMap.id
  | L :: layers => forward layers ∘ₗ L.forward

def backward : List (ButterflyLayer ι R) → (ι → R) →ₗ[R] ι → R
  | [] => LinearMap.id
  | L :: layers => L.backward ∘ₗ backward layers

theorem forward_backward (layers : List (ButterflyLayer ι R)) (x : ι → R) :
    forward layers (backward layers x) = (2 ^ layers.length : R) • x := by
  induction layers with
  | nil => rw [List.length_nil, pow_zero, one_smul]; rfl
  | cons L layers ih =>
    have hinner : forward (L :: layers) (backward (L :: layers) x) =
        forward layers (L.forward (L.backward (backward layers x))) := rfl
    rw [hinner, L.forward_backward, map_smul, ih, smul_smul, List.length_cons, pow_succ']

end ButterflyNetwork

end HcsCoin.Foundation
