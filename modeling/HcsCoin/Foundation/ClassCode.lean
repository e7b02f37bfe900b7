import Mathlib.Data.List.Induction
import Mathlib.Data.Nat.Bitwise
import Mathlib.Data.Nat.Size

/-!
# Numbers in classes of growing size

A code for natural numbers over a list of bit widths.  The first `2 ^ w` numbers
form the class of the first width, the next ones that of the second, and so on; a
number is written as one bit set for each class before its own, a clear bit unless
its class is the last one, and its place in the class, most significant bit first.
-/

namespace HcsCoin.Foundation

def lowBits : Nat → Nat → List Bool
  | 0, _ => []
  | n + 1, x => x.testBit n :: lowBits n x

def bitsValue (bits : List Bool) : Nat := bits.foldl (fun value bit => 2 * value + bit.toNat) 0

@[simp] theorem length_lowBits (n x : Nat) : (lowBits n x).length = n := by
  induction n with
  | zero => rfl
  | succ n ih => rw [lowBits, List.length_cons, ih]

variable {n x y : Nat} {widths : List Nat}

theorem lowBits_congr (h : ∀ i < n, x.testBit i = y.testBit i) : lowBits n x = lowBits n y := by
  induction n with
  | zero => rfl
  | succ n ih =>
    rw [lowBits, lowBits, h n (Nat.lt_succ_self n), ih fun i hi => h i (Nat.lt_succ_of_lt hi)]

theorem lowBits_succ_add (hx : x < 2 ^ n) (bit : Bool) :
    lowBits (n + 1) (2 ^ n * bit.toNat + x) = bit :: lowBits n x := by
  have htop : (2 ^ n * bit.toNat + x).testBit n = bit := by
    rw [Nat.testBit_two_pow_mul_add _ hx, if_neg (lt_irrefl n), Nat.sub_self]
    cases bit <;> rfl
  rw [lowBits, htop]
  congr 1
  refine lowBits_congr fun i hi => ?_
  rw [Nat.testBit_two_pow_mul_add _ hx, if_pos hi]

theorem lowBits_injective (hx : x < 2 ^ n) (hy : y < 2 ^ n) (h : lowBits n x = lowBits n y) :
    x = y := by
  have hbits : ∀ {m}, lowBits m x = lowBits m y → ∀ i < m, x.testBit i = y.testBit i := by
    intro m
    induction m with
    | zero => intro _ i hi; cases hi
    | succ m ih =>
      intro heq i hi
      obtain ⟨htop, hrest⟩ := List.cons.inj heq
      obtain rfl | hlt := Nat.eq_or_lt_of_le (Nat.le_of_lt_succ hi)
      · exact htop
      · exact ih hrest i hlt
  refine Nat.eq_of_testBit_eq fun i => ?_
  by_cases hi : i < n
  case pos => exact hbits h i hi
  case neg =>
    have hpow : 2 ^ n ≤ 2 ^ i := Nat.pow_le_pow_right (by decide) (not_lt.mp hi)
    rw [Nat.testBit_lt_two_pow (hx.trans_le hpow), Nat.testBit_lt_two_pow (hy.trans_le hpow)]

private theorem foldl_lowBits (value : Nat) (hx : x < 2 ^ n) :
    (lowBits n x).foldl (fun value bit => 2 * value + bit.toNat) value = 2 ^ n * value + x := by
  induction n generalizing x value with
  | zero => simp [lowBits, Nat.lt_one_iff.mp hx]
  | succ n ih =>
    have hsplit := Nat.div_add_mod x (2 ^ n)
    have hquot : x / 2 ^ n < 2 := Nat.div_lt_of_lt_mul (by rw [← Nat.pow_succ]; exact hx)
    have hlow : lowBits n x = lowBits n (x % 2 ^ n) :=
      lowBits_congr fun i hi => by simp [Nat.testBit_mod_two_pow, hi]
    have hbit : (x.testBit n).toNat = x / 2 ^ n := by
      rw [Nat.testBit_eq_decide_div_mod_eq]
      obtain h | h := Nat.le_one_iff_eq_zero_or_eq_one.mp (Nat.le_of_lt_succ hquot) <;> simp [h]
    rw [lowBits, List.foldl_cons, hlow, ih _ (Nat.mod_lt x (Nat.two_pow_pos n)), hbit,
      Nat.pow_succ, Nat.mul_add, Nat.add_assoc, hsplit, Nat.mul_assoc]

theorem bitsValue_leading (hx : x < 2 ^ n) : bitsValue (true :: lowBits n x) = 2 ^ n + x :=
  (foldl_lowBits 1 hx).trans (by rw [Nat.mul_one])

theorem lowBits_bitsValue (bits : List Bool) :
    bitsValue bits < 2 ^ bits.length ∧ lowBits bits.length (bitsValue bits) = bits := by
  induction bits using List.reverseRecOn with
  | nil => exact ⟨Nat.one_pos, rfl⟩
  | append_singleton bits bit ih =>
    obtain ⟨hlt, hbits⟩ := ih
    have hvalue : bitsValue (bits ++ [bit]) = 2 * bitsValue bits + bit.toNat := by
      rw [bitsValue, List.foldl_append]
      rfl
    have hconcat : ∀ n x, lowBits (n + 1) (2 * x + bit.toNat) = lowBits n x ++ [bit] := by
      intro n x
      induction n with
      | zero => cases bit <;> simp [lowBits]
      | succ n ih =>
        have hdiv : (2 * x + bit.toNat) / 2 = x := by
          have hle := bit.toNat_le
          omega
        rw [lowBits, ih, lowBits, Nat.testBit_succ, hdiv]
        rfl
    rw [List.length_append, List.length_singleton, hvalue, hconcat, hbits, Nat.pow_succ]
    refine ⟨?_, rfl⟩
    cases bit <;> simp <;> omega

theorem bitsValue_leading_injective {bits bits' : List Bool}
    (h : bitsValue (true :: bits) = bitsValue (true :: bits')) : bits = bits' := by
  obtain ⟨hlt, hbits⟩ := lowBits_bitsValue bits
  obtain ⟨hlt', hbits'⟩ := lowBits_bitsValue bits'
  have hvalue := bitsValue_leading hlt
  have hvalue' := bitsValue_leading hlt'
  rw [hbits] at hvalue
  rw [hbits'] at hvalue'
  rw [hvalue, hvalue'] at h
  have hlength : bits.length = bits'.length := by
    by_contra hne
    obtain hless | hless := Nat.lt_or_gt_of_ne hne
    · have hpow := Nat.pow_le_pow_right (show 0 < 2 by decide) hless
      rw [Nat.pow_succ] at hpow
      omega
    · have hpow := Nat.pow_le_pow_right (show 0 < 2 by decide) hless
      rw [Nat.pow_succ] at hpow
      omega
  rw [hlength, Nat.add_left_cancel_iff] at h
  rw [← hbits, ← hbits', h, hlength]

theorem bitsValue_size (hx : x ≠ 0) : bitsValue (true :: lowBits (x.size - 1) x) = x := by
  have hpos : 0 < x.size := Nat.size_pos.mpr (Nat.pos_of_ne_zero hx)
  have hlow : 2 ^ (x.size - 1) ≤ x := Nat.lt_size.mp (by omega)
  have hhigh : x < 2 ^ (x.size - 1 + 1) := by
    rw [Nat.sub_add_cancel hpos]
    exact Nat.lt_size_self x
  obtain ⟨y, hy⟩ := Nat.exists_eq_add_of_le hlow
  have hylt : y < 2 ^ (x.size - 1) := by
    rw [Nat.pow_succ] at hhigh
    omega
  have hbits : lowBits (x.size - 1) x = lowBits (x.size - 1) y := by
    refine lowBits_congr fun i hi => ?_
    have htest := Nat.testBit_two_pow_mul_add 1 hylt i
    rw [if_pos hi, Nat.mul_one, ← hy] at htest
    exact htest
  rw [hbits, bitsValue_leading hylt, ← hy]

/-! ## The code -/

def classCapacity (widths : List Nat) : Nat := (widths.map (2 ^ ·)).sum

def classEncode : List Nat → Nat → List Bool
  | [], _ => []
  | [width], x => lowBits width x
  | width :: widths, x =>
    if x < 2 ^ width then false :: lowBits width x
    else true :: classEncode widths (x - 2 ^ width)

theorem classEncode_of_lt {width next : Nat} (h : x < 2 ^ width) :
    classEncode (width :: next :: widths) x = false :: lowBits width x := by
  rw [classEncode, if_pos h]
  nofun

theorem classEncode_add (width next x : Nat) (widths : List Nat) :
    classEncode (width :: next :: widths) (2 ^ width + x) =
      true :: classEncode (next :: widths) x := by
  rw [classEncode, if_neg (by omega), Nat.add_sub_cancel_left]
  nofun

theorem classEncode_append_inj {rest rest' : List Bool} (hx : x < classCapacity widths)
    (hy : y < classCapacity widths)
    (h : classEncode widths x ++ rest = classEncode widths y ++ rest') : x = y ∧ rest = rest' := by
  induction widths generalizing x y with
  | nil => cases hx
  | cons width widths ih =>
    have hlow : ∀ {x y : Nat}, x < 2 ^ width → y < 2 ^ width →
        lowBits width x ++ rest = lowBits width y ++ rest' → x = y ∧ rest = rest' := by
      intro x y hx hy heq
      obtain ⟨hbits, hrest⟩ := List.append_inj heq (by rw [length_lowBits, length_lowBits])
      exact ⟨lowBits_injective hx hy hbits, hrest⟩
    cases widths with
    | nil =>
      rw [classCapacity, List.map_singleton, List.sum_singleton] at hx hy
      exact hlow hx hy h
    | cons next widths =>
      have hcap : classCapacity (width :: next :: widths) =
          2 ^ width + classCapacity (next :: widths) := rfl
      by_cases hxlt : x < 2 ^ width <;> by_cases hylt : y < 2 ^ width
      · rw [classEncode_of_lt hxlt, classEncode_of_lt hylt] at h
        exact hlow hxlt hylt (List.cons.inj h).2
      · obtain ⟨y, rfl⟩ := Nat.exists_eq_add_of_le (not_lt.mp hylt)
        rw [classEncode_of_lt hxlt, classEncode_add] at h
        cases (List.cons.inj h).1
      · obtain ⟨x, rfl⟩ := Nat.exists_eq_add_of_le (not_lt.mp hxlt)
        rw [classEncode_of_lt hylt, classEncode_add] at h
        cases (List.cons.inj h).1
      · obtain ⟨x, rfl⟩ := Nat.exists_eq_add_of_le (not_lt.mp hxlt)
        obtain ⟨y, rfl⟩ := Nat.exists_eq_add_of_le (not_lt.mp hylt)
        rw [classEncode_add, classEncode_add] at h
        obtain ⟨rfl, hrest⟩ := ih (by omega) (by omega) (List.cons.inj h).2
        exact ⟨rfl, hrest⟩

end HcsCoin.Foundation
