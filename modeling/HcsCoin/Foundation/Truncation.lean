import Mathlib.Tactic

/-!
# Truncating floating-point formats

A number is stored as a mantissa below a fixed bound and a power of the base,
with the least exponent that makes the mantissa fit; the low digits are dropped.
-/

namespace HcsCoin.Foundation

structure TruncFormat where
  base : Nat
  bound : Nat
  one_lt_base : 1 < base
  bound_pos : 0 < bound
  base_dvd_bound : base ∣ bound

namespace TruncFormat

variable (f : TruncFormat)

theorem exists_scale (x : Nat) : ∃ e, x / f.base ^ e < f.bound := by
  refine ⟨x, ?_⟩
  rw [Nat.div_eq_of_lt (Nat.lt_pow_self f.one_lt_base)]
  exact f.bound_pos

def scale (x : Nat) : Nat := Nat.find (f.exists_scale x)

def mantissa (x : Nat) : Nat := x / f.base ^ f.scale x

def truncate (x : Nat) : Nat := f.mantissa x * f.base ^ f.scale x

theorem mantissa_lt (x : Nat) : f.mantissa x < f.bound := Nat.find_spec (f.exists_scale x)

theorem base_pow_pos (e : Nat) : 0 < f.base ^ e :=
  Nat.pow_pos (Nat.lt_trans Nat.zero_lt_one f.one_lt_base)

variable {f} {e x y : Nat}

theorem le_div_of_lt_scale (h : e < f.scale x) : f.bound ≤ x / f.base ^ e :=
  Nat.not_lt.mp (Nat.find_min (f.exists_scale x) h)

theorem scale_le_of_lt (h : x < f.bound * f.base ^ e) : f.scale x ≤ e :=
  Nat.find_min' _ ((Nat.div_lt_iff_lt_mul (f.base_pow_pos e)).mpr h)

theorem scale_eq_zero (h : x < f.bound) : f.scale x = 0 :=
  Nat.le_zero.mp (scale_le_of_lt (by simpa using h))

theorem scale_eq_succ (hlow : f.bound * f.base ^ e ≤ x) (hhigh : x < f.bound * f.base ^ (e + 1)) :
    f.scale x = e + 1 := by
  apply le_antisymm (scale_le_of_lt hhigh)
  by_contra hlt
  have hfit : f.mantissa x < f.bound := f.mantissa_lt x
  rw [mantissa, Nat.div_lt_iff_lt_mul (f.base_pow_pos _)] at hfit
  have hpow : f.base ^ f.scale x ≤ f.base ^ e :=
    Nat.pow_le_pow_right (by have := f.one_lt_base; omega) (by omega)
  exact absurd (lt_of_lt_of_le hfit (Nat.mul_le_mul_left _ hpow)) (Nat.not_lt.mpr hlow)

theorem scale_mono (h : x ≤ y) : f.scale x ≤ f.scale y :=
  Nat.find_min' _ (lt_of_le_of_lt (Nat.div_le_div_right h) (f.mantissa_lt y))

theorem truncate_le (x : Nat) : f.truncate x ≤ x := Nat.div_mul_le_self _ _

theorem lt_truncate_add (x : Nat) : x < f.truncate x + f.base ^ f.scale x := by
  have hmod := Nat.mod_lt x (f.base_pow_pos (f.scale x))
  have hsplit := Nat.div_add_mod' x (f.base ^ f.scale x)
  simp only [truncate, mantissa]
  omega

theorem truncate_eq_self (h : x < f.bound) : f.truncate x = x := by
  simp [truncate, mantissa, scale_eq_zero h]

/-- Dropping digits is monotone.  When the exponents differ the larger number is
at least `bound` times the next lower power, which is itself representable. -/
theorem truncate_mono (h : x ≤ y) : f.truncate x ≤ f.truncate y := by
  rcases Nat.eq_or_lt_of_le (scale_mono (f := f) h) with heq | hlt
  · simp only [truncate, mantissa, heq]
    exact Nat.mul_le_mul_right _ (Nat.div_le_div_right h)
  · obtain ⟨e, he⟩ : ∃ e, f.scale y = e + 1 := ⟨f.scale y - 1, by omega⟩
    obtain ⟨q, hq⟩ := f.base_dvd_bound
    have hxlt : x < f.bound * f.base ^ f.scale x :=
      (Nat.div_lt_iff_lt_mul (f.base_pow_pos _)).mp (f.mantissa_lt x)
    have hpow : f.base ^ f.scale x ≤ f.base ^ e :=
      Nat.pow_le_pow_right (by have := f.one_lt_base; omega) (by omega)
    have hlow : f.bound * f.base ^ e ≤ y := by
      have hdiv := le_div_of_lt_scale (f := f) (x := y) (e := e) (by omega)
      exact (Nat.le_div_iff_mul_le (f.base_pow_pos e)).mp hdiv
    have hgrid : f.bound * f.base ^ e = q * f.base ^ (e + 1) := by
      rw [hq, pow_succ]
      ring
    have hq' : q ≤ f.mantissa y := by
      rw [mantissa, he, Nat.le_div_iff_mul_le (f.base_pow_pos _), ← hgrid]
      exact hlow
    calc f.truncate x ≤ x := truncate_le x
      _ ≤ f.bound * f.base ^ e := (hxlt.trans_le (Nat.mul_le_mul_left _ hpow)).le
      _ = q * f.base ^ (e + 1) := hgrid
      _ ≤ f.mantissa y * f.base ^ (e + 1) := Nat.mul_le_mul_right _ hq'
      _ = f.truncate y := by rw [truncate, he]

theorem truncate_lt_truncate (h : x + f.base ^ f.scale y ≤ y) : f.truncate x < f.truncate y := by
  have hx := truncate_le (f := f) x
  have hy := lt_truncate_add (f := f) y
  omega

end TruncFormat

end HcsCoin.Foundation
