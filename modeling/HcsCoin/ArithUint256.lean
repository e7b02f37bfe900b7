import HcsCoin.BaseUint
import HcsCoin.Foundation.Truncation

/-!
# 256-bit targets and their compact encoding

`arith_uint256` with `SetCompact` and `GetCompact`.  The compact form is a
truncating floating-point format with base 256 and mantissas below `2 ^ 23`:
encoding a number and decoding it again drops its low bytes and nothing else.
-/

namespace HcsCoin

open Foundation

abbrev ArithUint256 := BaseUint 8

/-- What `SetCompact` computes: the number and the two optional out-parameters. -/
structure CompactResult where
  value : ArithUint256
  fNegative : Bool
  fOverflow : Bool
  deriving DecidableEq

def uintToArith256 (a : Uint256) : ArithUint256 :=
  ⟨(List.range 8).map fun x => UInt32.ofNat (leNat ((a.mData.drop (x * 4)).take 4)), by simp⟩

namespace ArithUint256

def ofUInt64 (b : UInt64) : ArithUint256 :=
  ⟨[b.toUInt32, (b >>> 32).toUInt32, 0, 0, 0, 0, 0, 0], rfl⟩

def equalTo (a : ArithUint256) (b : UInt64) : Bool :=
  (a.pn.drop 2).all (· == 0) && a.pn.getD 1 0 == (b >>> 32).toUInt32 &&
    a.pn.getD 0 0 == (b &&& 0xffffffff).toUInt32

def getLow64 (a : ArithUint256) : UInt64 :=
  (a.pn.getD 0 0).toUInt64 ||| ((a.pn.getD 1 0).toUInt64 <<< 32)

def setCompact (nCompact : UInt32) : CompactResult :=
  let nSize := (nCompact >>> 24).toNat
  let nWord := nCompact &&& 0x007fffff
  let nWord := if nSize ≤ 3 then nWord >>> UInt32.ofNat (8 * (3 - nSize)) else nWord
  { value :=
      if nSize ≤ 3 then ofUInt64 nWord.toUInt64
      else (ofUInt64 nWord.toUInt64).shiftLeft (8 * (nSize - 3))
    fNegative := nWord != 0 && nCompact &&& 0x00800000 != 0
    fOverflow := nWord != 0 && (decide (nSize > 34) ||
      (decide (nWord > 0xff) && decide (nSize > 33)) ||
      (decide (nWord > 0xffff) && decide (nSize > 32))) }

def ceilDiv (dividend divisor : Nat) : Nat :=
  dividend / divisor + if dividend % divisor ≠ 0 then 1 else 0

def leadingBytes (a : ArithUint256) (nSize : Nat) : UInt32 :=
  if nSize ≤ 3 then (a.getLow64 <<< UInt64.ofNat (8 * (3 - nSize))).toUInt32
  else (getLow64 (a.shiftRight (8 * (nSize - 3)))).toUInt32

/-- The mantissa and the size once the sign bit is free. -/
def compactParts (a : ArithUint256) : UInt32 × Nat :=
  let nSize := ceilDiv a.bits 8
  let nCompact := a.leadingBytes nSize
  if nCompact &&& 0x00800000 ≠ 0 then (nCompact >>> 8, nSize + 1) else (nCompact, nSize)

def getCompact (a : ArithUint256) (fNegative : Bool) : UInt32 :=
  let (nCompact, nSize) := a.compactParts
  let nCompact := nCompact ||| (UInt32.ofNat nSize <<< 24)
  nCompact ||| (if fNegative && nCompact &&& 0x007fffff != 0 then 0x00800000 else 0)

end ArithUint256

def deriveTarget (nBits : UInt32) (powLimit : Uint256) : Option ArithUint256 :=
  let bnTarget := ArithUint256.setCompact nBits
  if bnTarget.fNegative || bnTarget.value.equalTo 0 || bnTarget.fOverflow ||
      bnTarget.value.compareTo (uintToArith256 powLimit) == .gt then none
  else some bnTarget.value

/-! ## Conversions -/

theorem wordsValue_ofBytes (n : Nat) {bs : Bytes} (h : bs.length = 4 * n) :
    wordsValue ((List.range n).map fun x =>
      UInt32.ofNat (leNat ((bs.drop (x * 4)).take 4))) = leNat bs := by
  induction n generalizing bs with
  | zero =>
    obtain rfl := List.length_eq_zero_iff.mp (by simpa using h)
    rfl
  | succ n ih =>
    have hlow : leNat (bs.take 4) < 2 ^ 32 := by
      have hlt := leNat_lt (bs.take 4)
      rw [List.length_take, min_eq_left (by omega)] at hlt
      exact hlt
    have htail := ih (by rw [List.length_drop]; omega : (bs.drop 4).length = 4 * n)
    simp only [List.drop_drop] at htail
    have hsplit : leNat bs = leNat (bs.take 4) + 2 ^ 32 * leNat (bs.drop 4) := by
      conv_lhs => rw [← List.take_append_drop 4 bs]
      rw [leNat, positionalValue_append, List.length_take, min_eq_left (by omega)]
      rfl
    rw [List.range_succ_eq_map, List.map_cons, List.map_map, wordsValue_cons, hsplit, ← htail]
    congr 1
    · simpa using hlow
    · congr 3
      funext x
      simp only [Function.comp_apply]
      congr 4
      omega

theorem toNat_uintToArith256 (a : Uint256) : (uintToArith256 a).toNat = a.toNat :=
  wordsValue_ofBytes 8 a.size_eq

namespace ArithUint256

variable (a : ArithUint256)

theorem toNat_lt_two_pow : a.toNat < 2 ^ 256 := a.toNat_lt

theorem toNat_ofUInt64 (b : UInt64) : (ofUInt64 b).toNat = b.toNat := by
  have hb := b.toNat_lt
  simp only [BaseUint.toNat, ofUInt64, wordsValue_cons, UInt64.toNat_toUInt32,
    UInt64.toNat_shiftRight]
  simp [wordsValue, Nat.shiftRight_eq_div_pow]
  omega

theorem exists_words :
    ∃ w0 w1 rest, a.pn = w0 :: w1 :: rest ∧
      a.toNat = w0.toNat + 2 ^ 32 * w1.toNat + 2 ^ 64 * wordsValue rest := by
  obtain ⟨pn, hlength⟩ := a
  match pn, hlength with
  | w0 :: w1 :: rest, _ =>
    refine ⟨w0, w1, rest, rfl, ?_⟩
    simp only [BaseUint.toNat, wordsValue_cons]
    ring

theorem toNat_getLow64 : a.getLow64.toNat = a.toNat % 2 ^ 64 := by
  obtain ⟨w0, w1, rest, hpn, hvalue⟩ := exists_words a
  have h0 := w0.toNat_lt
  have h1 := w1.toNat_lt
  have hhigh : (w1.toUInt64 <<< 32).toNat = 2 ^ 32 * w1.toNat := by
    rw [UInt64.toNat_shiftLeft, UInt32.toNat_toUInt64]
    change w1.toNat <<< 32 % 2 ^ 64 = _
    rw [Nat.shiftLeft_eq]
    omega
  simp only [getLow64, hpn, List.getD_cons_zero, List.getD_cons_succ, UInt64.toNat_or, hhigh,
    UInt32.toNat_toUInt64]
  rw [Nat.or_comm, ← Nat.two_pow_add_eq_or_of_lt h0, hvalue]
  omega

theorem wordsValue_eq_zero_iff (ws : List UInt32) : wordsValue ws = 0 ↔ ∀ w ∈ ws, w = 0 := by
  induction ws with
  | nil => simp [wordsValue]
  | cons w ws ih =>
    have hzero : w = 0 ↔ w.toNat = 0 := UInt32.toNat_inj.symm
    simp [← ih, hzero]

theorem equalTo_zero_iff : a.equalTo 0 = true ↔ a.toNat = 0 := by
  rw [BaseUint.toNat, wordsValue_eq_zero_iff]
  obtain ⟨w0, w1, rest, hpn, -⟩ := exists_words a
  simp [equalTo, hpn]
  tauto

/-! ## The compact form -/

def compactFormat : TruncFormat where
  base := 256
  bound := 2 ^ 23
  one_lt_base := by norm_num
  bound_pos := by norm_num
  base_dvd_bound := by norm_num

theorem sign_bit_iff {w : UInt32} : w &&& 0x00800000 ≠ 0 ↔ w.toNat / 2 ^ 23 % 2 = 1 := by
  rw [ne_eq, ← UInt32.toNat_inj, UInt32.toNat_and]
  change ¬ w.toNat &&& 2 ^ 23 = 0 ↔ _
  rw [Nat.and_two_pow, Nat.testBit_eq_decide_div_mod_eq]
  simp

theorem toNat_shiftRight_ofNat (w : UInt32) {k : Nat} (hk : k < 32) :
    (w >>> UInt32.ofNat k).toNat = w.toNat / 2 ^ k := by
  have hmod : (UInt32.ofNat k).toNat % 32 = k := by
    rw [UInt32.toNat_ofNat']
    omega
  rw [UInt32.toNat_shiftRight, hmod, Nat.shiftRight_eq_div_pow]

theorem two_pow_eight_mul (k : Nat) : 2 ^ (8 * k) = 256 ^ k := by
  rw [pow_mul]
  norm_num

variable {size x : Nat}

theorem setCompact_of_parts {c : UInt32} {mant : Nat} (hmant : mant < 2 ^ 23)
    (hc : c.toNat = mant + 2 ^ 24 * size) (hfits : size ≤ 32 ∨ size = 33 ∧ mant < 2 ^ 16) :
    (setCompact c).fNegative = false ∧ (setCompact c).fOverflow = false ∧
    (setCompact c).value.toNat =
      if size ≤ 3 then mant / 256 ^ (3 - size) else mant * 256 ^ (size - 3) % 2 ^ 256 := by
  have hsize : (c >>> 24).toNat = size := by
    rw [UInt32.toNat_shiftRight]
    change c.toNat >>> 24 = size
    rw [Nat.shiftRight_eq_div_pow]
    omega
  have hword : (c &&& 0x007fffff).toNat = mant := by
    rw [UInt32.toNat_and]
    change c.toNat &&& (2 ^ 23 - 1) = mant
    rw [Nat.and_two_pow_sub_one_eq_mod]
    omega
  have hsign : c &&& 0x00800000 = 0 := by
    by_contra h
    have := sign_bit_iff.mp h
    omega
  refine ⟨by simp [setCompact, hsign], ?_, ?_⟩
  · have hsmall : size = 33 → ¬ (c &&& 0x007fffff) > 0xffff := by
      intro h33
      rw [gt_iff_lt, UInt32.lt_iff_toNat_lt, hword, Nat.not_lt]
      change mant ≤ 0xffff
      omega
    have h34 : ¬ size > 34 := by omega
    have h33 : ¬ size > 33 := by omega
    simp only [setCompact, hsize, h34, h33, decide_false, Bool.and_false, Bool.false_or]
    rcases hfits with hle | ⟨heq, -⟩
    · simp [Nat.not_lt.mpr hle]
    · simp [heq, hsmall heq]
  · simp only [setCompact, hsize]
    split
    next hle =>
      rw [toNat_ofUInt64, UInt32.toNat_toUInt64, toNat_shiftRight_ofNat _ (by omega), hword,
        two_pow_eight_mul]
    next hgt =>
      rw [BaseUint.toNat_shiftLeft, toNat_ofUInt64, UInt32.toNat_toUInt64, hword, two_pow_eight_mul]

theorem lt_ceilDiv_bits_iff (k : Nat) : k < ceilDiv a.bits 8 ↔ 256 ^ k ≤ a.toNat := by
  rw [← two_pow_eight_mul, ← Nat.lt_size, BaseUint.bits_eq_size]
  unfold ceilDiv
  split <;> omega

theorem scaled_eq (x size : Nat) :
    x * 256 ^ 3 / 256 ^ size =
      if size ≤ 3 then x * 256 ^ (3 - size) else x / 256 ^ (size - 3) := by
  split
  next hle =>
    rw [show 256 ^ 3 = 256 ^ (3 - size) * 256 ^ size by rw [← pow_add, Nat.sub_add_cancel hle],
      ← Nat.mul_assoc, Nat.mul_div_cancel _ (by positivity)]
  next hgt =>
    rw [show 256 ^ size = 256 ^ (size - 3) * 256 ^ 3 by
        rw [← pow_add, Nat.sub_add_cancel (by omega)],
      Nat.mul_div_mul_right _ _ (by positivity)]

theorem toNat_leadingBytes {a : ArithUint256} (h : a.toNat < 256 ^ size) :
    (a.leadingBytes size).toNat = a.toNat * 256 ^ 3 / 256 ^ size ∧
      (a.leadingBytes size).toNat < 2 ^ 24 := by
  have hfit : a.toNat * 256 ^ 3 / 256 ^ size < 2 ^ 24 := by
    rw [Nat.div_lt_iff_lt_mul (by positivity), Nat.mul_comm]
    exact Nat.mul_lt_mul_of_pos_left h (by norm_num)
  suffices hvalue : (a.leadingBytes size).toNat = a.toNat * 256 ^ 3 / 256 ^ size from
    ⟨hvalue, hvalue ▸ hfit⟩
  rw [scaled_eq] at hfit ⊢
  unfold leadingBytes
  split
  next hle =>
    rw [if_pos hle] at hfit
    have hself : a.toNat ≤ a.toNat * 256 ^ (3 - size) := Nat.le_mul_of_pos_right _ (by positivity)
    have hmod : (UInt64.ofNat (8 * (3 - size))).toNat % 64 = 8 * (3 - size) := by
      rw [UInt64.toNat_ofNat']
      omega
    rw [UInt64.toNat_toUInt32, UInt64.toNat_shiftLeft, hmod, toNat_getLow64,
      Nat.shiftLeft_eq, two_pow_eight_mul, Nat.mod_eq_of_lt (by omega : a.toNat < 2 ^ 64)]
    omega
  next hgt =>
    rw [if_neg hgt] at hfit
    rw [UInt64.toNat_toUInt32, toNat_getLow64, BaseUint.toNat_shiftRight, two_pow_eight_mul]
    generalize a.toNat / 256 ^ (size - 3) = q at hfit
    omega

theorem truncate_of_bounds {e : Nat} (hlow : 2 ^ 23 * 256 ^ e ≤ x)
    (hhigh : x < 2 ^ 23 * 256 ^ (e + 1)) :
    x / 256 ^ (e + 1) * 256 ^ (e + 1) = compactFormat.truncate x := by
  have hscale : compactFormat.scale x = e + 1 := TruncFormat.scale_eq_succ hlow hhigh
  rw [TruncFormat.truncate, TruncFormat.mantissa, hscale]
  rfl

/-- The mantissa keeps the leading bytes, and has a significant bit in the upper of the two
bytes that the sign bit leaves it. -/
theorem compactParts_scaled :
    a.compactParts.1.toNat = a.toNat * 256 ^ 3 / 256 ^ a.compactParts.2 ∧
      a.compactParts.1.toNat < 2 ^ 23 ∧
      (a.compactParts.2 ≤ 32 ∨ a.compactParts.2 = 33 ∧ a.compactParts.1.toNat < 2 ^ 16) ∧
      (a.toNat = 0 ∧ a.compactParts.2 = 0 ∨ 2 ^ 15 ≤ a.compactParts.1.toNat) := by
  obtain ⟨size, hsize⟩ : ∃ size, size = ceilDiv a.bits 8 := ⟨_, rfl⟩
  have hbytes := lt_ceilDiv_bits_iff a
  rw [← hsize] at hbytes
  have hhigh : a.toNat < 256 ^ size := Nat.not_le.mp fun h => lt_irrefl _ ((hbytes size).mpr h)
  have hsize32 : size ≤ 32 := Nat.not_lt.mp fun h =>
    absurd ((hbytes 32).mp h) (Nat.not_le.mpr (by simpa using a.toNat_lt_two_pow))
  obtain ⟨hlead, hlead24⟩ := toNat_leadingBytes hhigh
  have hlow : a.toNat = 0 ∧ size = 0 ∨ 2 ^ 16 ≤ (a.leadingBytes size).toNat := by
    cases size with
    | zero => exact .inl ⟨Nat.lt_one_iff.mp hhigh, rfl⟩
    | succ k =>
      refine .inr ?_
      rw [hlead, Nat.le_div_iff_mul_le (by positivity), pow_succ]
      have := (hbytes k).mp (Nat.lt_succ_self k)
      omega
  have hshift : (a.leadingBytes size >>> 8).toNat = (a.leadingBytes size).toNat / 256 :=
    toNat_shiftRight_ofNat _ (by norm_num)
  simp only [compactParts, ← hsize, sign_bit_iff]
  by_cases hsign : (a.leadingBytes size).toNat / 2 ^ 23 % 2 = 1
  · -- The sign bit is taken, so one more byte goes and the size grows.
    rw [if_pos hsign]
    dsimp only
    rw [hshift]
    refine ⟨?_, by omega, by omega, .inr (by omega)⟩
    rw [hlead, Nat.div_div_eq_div_mul, ← pow_succ]
  · rw [if_neg hsign]
    dsimp only
    exact ⟨hlead, by omega, .inl hsize32, hlow.imp_right (by omega)⟩

theorem compactParts_spec :
    (if a.compactParts.2 ≤ 3 then a.compactParts.1.toNat / 256 ^ (3 - a.compactParts.2)
      else a.compactParts.1.toNat * 256 ^ (a.compactParts.2 - 3) % 2 ^ 256) =
      compactFormat.truncate a.toNat := by
  obtain ⟨hmant, hlt, -, hlow⟩ := compactParts_scaled a
  generalize a.compactParts.2 = size at hmant hlow ⊢
  generalize a.compactParts.1.toNat = mant at hmant hlt hlow ⊢
  rw [scaled_eq] at hmant
  split
  next hle =>
    rw [if_pos hle] at hmant
    rw [hmant, Nat.mul_div_cancel _ (by positivity)]
    refine (TruncFormat.truncate_eq_self (lt_of_le_of_lt ?_ hlt)).symm
    rw [hmant]
    exact Nat.le_mul_of_pos_right _ (by positivity)
  next hgt =>
    obtain ⟨e, rfl⟩ : ∃ e, size = e + 4 := ⟨size - 4, by omega⟩
    rw [if_neg hgt] at hmant
    have hbit := hlow.resolve_left (by omega)
    change mant = a.toNat / 256 ^ (e + 1) at hmant
    change mant * 256 ^ (e + 1) % 2 ^ 256 = _
    rw [hmant, Nat.div_lt_iff_lt_mul (by positivity)] at hlt
    rw [hmant, Nat.le_div_iff_mul_le (by positivity), pow_succ] at hbit
    rw [hmant, Nat.mod_eq_of_lt ((Nat.div_mul_le_self _ _).trans_lt a.toNat_lt_two_pow)]
    exact truncate_of_bounds (by omega) hlt

theorem toNat_or_size {mant : UInt32} (hmant : mant.toNat < 2 ^ 23) (hsize : size < 256) :
    (mant ||| (UInt32.ofNat size <<< 24)).toNat = mant.toNat + 2 ^ 24 * size := by
  have hhigh : (UInt32.ofNat size <<< 24).toNat = 2 ^ 24 * size := by
    have hof : (UInt32.ofNat size).toNat = size := by
      rw [UInt32.toNat_ofNat']
      omega
    rw [UInt32.toNat_shiftLeft, hof]
    change size <<< 24 % 2 ^ 32 = _
    rw [Nat.shiftLeft_eq]
    omega
  rw [UInt32.toNat_or, hhigh, Nat.or_comm, ← Nat.two_pow_add_eq_or_of_lt (by omega)]
  omega

theorem getCompact_asserts : a.compactParts.1 &&& ~~~0x007fffff = 0 ∧ a.compactParts.2 < 256 := by
  obtain ⟨-, hmant, hsize, -⟩ := compactParts_scaled a
  refine ⟨?_, by omega⟩
  rw [← UInt32.toNat_inj, UInt32.toNat_and]
  apply Nat.eq_of_testBit_eq
  intro i
  change (a.compactParts.1.toNat &&& 2 ^ 23 * 511).testBit i = Nat.testBit 0 i
  rw [Nat.testBit_and, Nat.testBit_two_pow_mul, Nat.zero_testBit]
  by_cases hi : 23 ≤ i
  · rw [Nat.testBit_lt_two_pow (hmant.trans_le (Nat.pow_le_pow_right (by norm_num) hi)),
      Bool.false_and]
  · simp [hi]

theorem toNat_getCompact :
    (a.getCompact false).toNat = a.compactParts.1.toNat + 2 ^ 24 * a.compactParts.2 := by
  obtain ⟨-, hmant, hsize, -⟩ := compactParts_scaled a
  simp only [getCompact, Bool.false_and, Bool.false_eq_true, if_false, UInt32.or_zero]
  exact toNat_or_size hmant (by omega)

theorem setCompact_getCompact :
    (setCompact (a.getCompact false)).fNegative = false ∧
    (setCompact (a.getCompact false)).fOverflow = false ∧
    (setCompact (a.getCompact false)).value.toNat = compactFormat.truncate a.toNat := by
  obtain ⟨-, hmant, hsize, -⟩ := compactParts_scaled a
  rw [← compactParts_spec a]
  exact setCompact_of_parts hmant (toNat_getCompact a) hsize

/-- The codes `GetCompact` gives: zero, and those of a number that fits, with the sign bit
clear, no mantissa byte to spare and none below the point. -/
def IsCanonicalCompact (c : UInt32) : Prop :=
  c = 0 ∨ 2 ^ 15 ≤ c.toNat % 2 ^ 24 ∧ c.toNat % 2 ^ 24 < 2 ^ 23 ∧
    256 ^ (3 - c.toNat / 2 ^ 24) ∣ c.toNat % 2 ^ 24 ∧
    (c.toNat / 2 ^ 24 ≤ 32 ∨ c.toNat / 2 ^ 24 = 33 ∧ c.toNat % 2 ^ 24 < 2 ^ 16)

theorem le_of_scaled {s t : Nat} (hs : 2 ^ 15 ≤ x / 256 ^ s) (ht : x / 256 ^ t < 2 ^ 23) :
    s ≤ t := by
  by_contra hlt
  have hdrop : x / 256 ^ s ≤ x / 256 ^ t / 256 := by
    rw [Nat.div_div_eq_div_mul, ← pow_succ]
    exact Nat.div_le_div_left (Nat.pow_le_pow_right (by norm_num) (by omega)) (by positivity)
  omega

theorem isCanonicalCompact_getCompact : IsCanonicalCompact (a.getCompact false) := by
  obtain ⟨hmant, hlt, hfits, hlow⟩ := compactParts_scaled a
  have hcode := toNat_getCompact a
  rcases hlow with ⟨hzero, hsize⟩ | hbit
  · refine .inl (UInt32.toNat_inj.mp ?_)
    rw [hcode, hmant, hzero, hsize]
    rfl
  · have hdiv : (a.getCompact false).toNat / 2 ^ 24 = a.compactParts.2 := by omega
    have hmod : (a.getCompact false).toNat % 2 ^ 24 = a.compactParts.1.toNat := by omega
    refine .inr ?_
    rw [hdiv, hmod]
    refine ⟨hbit, hlt, ?_, hfits⟩
    rw [hmant, scaled_eq]
    split
    next => exact Nat.dvd_mul_left _ _
    next hgt => simp [Nat.sub_eq_zero_of_le (Nat.le_of_not_le hgt)]

variable (c : UInt32)

theorem getCompact_setCompact_iff :
    (setCompact c).value.getCompact false = c ↔ IsCanonicalCompact c := by
  refine ⟨fun h => h ▸ isCanonicalCompact_getCompact _, ?_⟩
  rintro (rfl | ⟨hlow, hlt, hdvd, hfits⟩)
  · decide
  generalize hsize : c.toNat / 2 ^ 24 = size at hdvd hfits
  generalize hmant : c.toNat % 2 ^ 24 = mant at hlow hlt hdvd hfits
  have hc : c.toNat = mant + 2 ^ 24 * size := by omega
  obtain ⟨-, -, hvalue⟩ := setCompact_of_parts hlt hc hfits
  generalize (setCompact c).value = v at hvalue ⊢
  have hscaled : mant = v.toNat * 256 ^ 3 / 256 ^ size := by
    rw [scaled_eq, hvalue]
    split
    next => rw [Nat.div_mul_cancel hdvd]
    next hgt =>
      rw [Nat.mod_eq_of_lt ?_, Nat.mul_div_cancel _ (by positivity)]
      rcases hfits with hle | ⟨rfl, h16⟩
      · exact (Nat.mul_lt_mul_of_lt_of_le hlt
          (Nat.pow_le_pow_right (by norm_num) (by omega : size - 3 ≤ 29))
          (by positivity)).trans_le (by norm_num)
      · exact (Nat.mul_lt_mul_of_pos_right h16 (by norm_num)).trans_eq (by norm_num)
  obtain ⟨hmant', hlt', -, hlow'⟩ := compactParts_scaled v
  have hbit := hlow'.resolve_left fun h => by rw [h.1] at hscaled; simp at hscaled; omega
  have hsame : v.compactParts.2 = size :=
    le_antisymm (le_of_scaled (hmant' ▸ hbit) (hscaled ▸ hlt))
      (le_of_scaled (hscaled ▸ hlow) (hmant' ▸ hlt'))
  rw [hsame, ← hscaled] at hmant'
  exact UInt32.toNat_inj.mp (by rw [toNat_getCompact, hsame, hmant', hc])

theorem toNat_setCompact_succ_lt : (setCompact c).value.toNat + 1 < 2 ^ 256 := by
  simp only [setCompact]
  split
  case isTrue hsize =>
    rw [toNat_ofUInt64, UInt32.toNat_toUInt64]
    have hlt := UInt32.toNat_lt ((c &&& 0x007fffff) >>> UInt32.ofNat (8 * (3 - (c >>> 24).toNat)))
    omega
  case isFalse hsize =>
    -- The shift is by whole bytes, so the lowest byte is zero.
    rw [BaseUint.toNat_shiftLeft]
    have hdvd : 2 ^ 8 ∣ (ofUInt64 (c &&& 0x007fffff).toUInt64).toNat *
        2 ^ (8 * ((c >>> 24).toNat - 3)) % 2 ^ (32 * 8) := by
      refine (Nat.dvd_mod_iff (Nat.pow_dvd_pow 2 (by norm_num))).mpr (Dvd.dvd.mul_left ?_ _)
      exact Nat.pow_dvd_pow 2 (by omega)
    have hlt := Nat.mod_lt ((ofUInt64 (c &&& 0x007fffff).toUInt64).toNat *
        2 ^ (8 * ((c >>> 24).toNat - 3))) (by norm_num : 0 < 2 ^ (32 * 8))
    norm_num at hdvd hlt ⊢
    omega

/-- `DeriveTarget` accepts exactly the codes of a positive number that fits and
is at most the limit. -/
theorem deriveTarget_eq_some_iff (nBits : UInt32) (powLimit : Uint256) (t : ArithUint256) :
    deriveTarget nBits powLimit = some t ↔
      (setCompact nBits).fNegative = false ∧ (setCompact nBits).fOverflow = false ∧
        (setCompact nBits).value = t ∧ 0 < t.toNat ∧ t.toNat ≤ powLimit.toNat := by
  have hzero := equalTo_zero_iff (setCompact nBits).value
  simp only [deriveTarget, BaseUint.compareTo_eq, toNat_uintToArith256]
  constructor
  · intro h
    split at h
    · cases h
    next hok =>
      simp only [Bool.or_eq_true, not_or, Bool.not_eq_true, beq_iff_eq, Nat.compare_eq_gt,
        Nat.not_lt] at hok
      obtain ⟨⟨⟨hneg, hne⟩, hover⟩, hle⟩ := hok
      obtain rfl := Option.some.inj h
      refine ⟨hneg, hover, rfl, Nat.pos_of_ne_zero fun h0 => ?_, hle⟩
      rw [hzero.mpr h0] at hne
      cases hne
  · rintro ⟨hneg, hover, rfl, hpos, hle⟩
    have hne : (setCompact nBits).value.equalTo 0 = false :=
      Bool.eq_false_iff.mpr fun h => hpos.ne' (hzero.mp h)
    rw [if_neg]
    simp [hneg, hover, hne, Nat.compare_eq_gt, hle]

end ArithUint256

end HcsCoin
