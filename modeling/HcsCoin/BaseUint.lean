import HcsCoin.Uint256
import Mathlib.Data.Nat.Size

/-!
# Multi-word unsigned integers

`BaseUint width` is `base_uint<32 * width>` of `arith_uint256.h`: an array of
32-bit words, least significant first.  Every operation is the word loop of
the source; the `toNat_*` theorems say which arithmetic operation modulo
`2 ^ (32 * width)` it computes.
-/

namespace HcsCoin

open Foundation

structure BaseUint (width : Nat) where
  pn : List UInt32
  length_eq : pn.length = width
  deriving DecidableEq

/-! ## Word loops -/

def wordsValue (ws : List UInt32) : Nat := positionalValue UInt32.toNat (2 ^ 32) ws

/-- The carry loop shared by `operator+=` and the one-word `operator*=`: word
`i` receives the low half of `carry + terms[i]` and the high half is carried. -/
def propagateCarry : UInt64 → List UInt64 → List UInt32
  | _, [] => []
  | carry, term :: terms =>
    let n := carry + term
    (n &&& 0xffffffff).toUInt32 :: propagateCarry (n >>> 32) terms

def incrementWords : List UInt32 → List UInt32
  | [] => []
  | w :: ws => if w + 1 = 0 then 0 :: incrementWords ws else (w + 1) :: ws

def decrementWords : List UInt32 → List UInt32
  | [] => []
  | w :: ws => if w - 1 = 0xffffffff then (w - 1) :: decrementWords ws else (w - 1) :: ws

def orWord (pn : List UInt32) (i : Nat) (w : UInt32) : List UInt32 :=
  pn.modify i (· ||| w)

def shiftLeftStep (a : List UInt32) (k s i : Nat) (pn : List UInt32) : List UInt32 :=
  let pn := if i + k + 1 < a.length ∧ s ≠ 0
    then orWord pn (i + k + 1) (a.getD i 0 >>> UInt32.ofNat (32 - s)) else pn
  if i + k < a.length then orWord pn (i + k) (a.getD i 0 <<< UInt32.ofNat s) else pn

def shiftRightStep (a : List UInt32) (k s i : Nat) (pn : List UInt32) : List UInt32 :=
  let pn := if k + 1 ≤ i ∧ s ≠ 0
    then orWord pn (i - k - 1) (a.getD i 0 <<< UInt32.ofNat (32 - s)) else pn
  if k ≤ i then orWord pn (i - k) (a.getD i 0 >>> UInt32.ofNat s) else pn

def forWords (body : Nat → List UInt32 → List UInt32) (count : Nat)
    (pn : List UInt32) : List UInt32 :=
  (List.range count).foldl (fun pn i => body i pn) pn

def wordBits (w : UInt32) : Nat → Nat
  | 0 => 1
  | nbits + 1 => if w &&& (1 <<< UInt32.ofNat (nbits + 1)) ≠ 0 then nbits + 2
      else wordBits w nbits

/-- `bits()` over the words from the most significant one down. -/
def bitsFromTop : List UInt32 → Nat
  | [] => 0
  | w :: ws => if w ≠ 0 then 32 * ws.length + wordBits w 31 else bitsFromTop ws

namespace BaseUint

variable {width : Nat}

@[ext] theorem ext {a b : BaseUint width} (h : a.pn = b.pn) : a = b := by
  cases a
  cases b
  simp_all

def toNat (a : BaseUint width) : Nat := wordsValue a.pn

end BaseUint

/-! ## Carry propagation -/

variable (ws : List UInt32)

theorem wordsValue_lt : wordsValue ws < 2 ^ (32 * ws.length) := by
  rw [pow_mul]
  exact positionalValue_lt (fun w => w.toNat_lt) ws

@[simp] theorem wordsValue_cons (w : UInt32) (ws : List UInt32) :
    wordsValue (w :: ws) = w.toNat + 2 ^ 32 * wordsValue ws := rfl

@[simp] theorem propagateCarry_length (carry : UInt64) (terms : List UInt64) :
    (propagateCarry carry terms).length = terms.length := by
  induction terms generalizing carry with
  | nil => rfl
  | cons term terms ih => simp [propagateCarry, ih]

theorem carry_step (base modulus sum high : Nat) (hbase : 0 < base) :
    (sum + base * high) % (base * modulus) =
      sum % base + base * ((sum / base + high) % modulus) := by
  rw [Nat.mod_mul, Nat.add_mul_mod_self_left, Nat.add_mul_div_left _ _ hbase]

/-- The loop computes the sum of its terms modulo the width of the number, as
long as no 64-bit intermediate overflows. -/
theorem propagateCarry_value {carry : UInt64} {terms : List UInt64} (hcarry : carry.toNat < 2 ^ 32)
    (hterms : ∀ t ∈ terms, t.toNat ≤ 2 ^ 64 - 2 ^ 32) :
    wordsValue (propagateCarry carry terms) =
      (carry.toNat + positionalValue UInt64.toNat (2 ^ 32) terms) %
        (2 ^ 32) ^ terms.length := by
  induction terms generalizing carry with
  | nil => simp [propagateCarry, wordsValue, Nat.mod_one]
  | cons term terms ih =>
    have hterm := hterms term (by simp)
    have hsum : (carry + term).toNat = carry.toNat + term.toNat := by
      rw [UInt64.toNat_add]
      exact Nat.mod_eq_of_lt (by omega)
    have hlow : ((carry + term) &&& 0xffffffff).toUInt32.toNat =
        (carry.toNat + term.toNat) % 2 ^ 32 := by
      rw [UInt64.toNat_toUInt32, UInt64.toNat_and, hsum]
      change ((carry.toNat + term.toNat) &&& (2 ^ 32 - 1)) % 2 ^ 32 = _
      rw [Nat.and_two_pow_sub_one_eq_mod, Nat.mod_mod]
    have hhigh : ((carry + term) >>> 32).toNat = (carry.toNat + term.toNat) / 2 ^ 32 := by
      rw [UInt64.toNat_shiftRight, hsum, Nat.shiftRight_eq_div_pow]
      rfl
    have hnext : ((carry + term) >>> 32).toNat < 2 ^ 32 := by
      rw [hhigh]
      omega
    rw [propagateCarry, wordsValue_cons, hlow,
      ih hnext fun t ht => hterms t (by simp [ht]), hhigh, positionalValue_cons,
      List.length_cons, pow_succ' (2 ^ 32) terms.length, ← Nat.add_assoc,
      carry_step _ _ _ _ (by norm_num)]

theorem mul_words_le (x y : UInt32) : x.toNat * y.toNat ≤ (2 ^ 32 - 1) * (2 ^ 32 - 1) :=
  Nat.mul_le_mul (Nat.le_sub_one_of_lt x.toNat_lt) (Nat.le_sub_one_of_lt y.toNat_lt)

theorem toNat_mul_words (x y : UInt32) :
    (x.toUInt64 * y.toUInt64).toNat = x.toNat * y.toNat := by
  have hmul := mul_words_le x y
  rw [UInt64.toNat_mul, UInt32.toNat_toUInt64, UInt32.toNat_toUInt64]
  exact Nat.mod_eq_of_lt (by omega)

theorem positionalValue_map_mul (b : UInt32) (ws : List UInt32) :
    positionalValue UInt64.toNat (2 ^ 32)
        (ws.map fun w => b.toUInt64 * w.toUInt64) = b.toNat * wordsValue ws := by
  induction ws with
  | nil => simp [wordsValue]
  | cons w ws ih =>
    rw [List.map_cons, positionalValue_cons, toNat_mul_words, ih, wordsValue_cons]
    ring

variable {f : UInt32 → UInt32 → UInt64} {w : UInt32} {i : Nat} {xs ys : List UInt32} {n s r k : Nat}

section

variable (hf : ∀ x y, (f x y).toNat = x.toNat + w.toNat * y.toNat) (hlength : xs.length ≤ ys.length)
include hf hlength

theorem positionalValue_zipWith :
    positionalValue UInt64.toNat (2 ^ 32) (List.zipWith f xs ys) =
      wordsValue xs + w.toNat * wordsValue (ys.take xs.length) := by
  induction xs generalizing ys with
  | nil => simp [wordsValue]
  | cons x xs ih =>
    cases ys with
    | nil => simp at hlength
    | cons y ys =>
      rw [List.zipWith_cons_cons, positionalValue_cons, hf, ih (by simpa using hlength),
        List.length_cons, List.take_succ_cons, wordsValue_cons, wordsValue_cons]
      ring

theorem propagateCarry_zipWith :
    wordsValue (propagateCarry 0 (List.zipWith f xs ys)) =
      (wordsValue xs + w.toNat * wordsValue (ys.take xs.length)) % (2 ^ 32) ^ xs.length := by
  have hbound (x y : UInt32) : (f x y).toNat ≤ 2 ^ 64 - 2 ^ 32 := by
    have hx := x.toNat_lt
    have hmul := mul_words_le w y
    rw [hf]
    omega
  have hterms : ∀ t ∈ List.zipWith f xs ys, t.toNat ≤ 2 ^ 64 - 2 ^ 32 := by
    intro t ht
    obtain ⟨i, hi, rfl⟩ := List.getElem_of_mem ht
    rw [List.getElem_zipWith]
    exact hbound _ _
  rw [propagateCarry_value (by norm_num) hterms, positionalValue_zipWith hf hlength,
    List.length_zipWith, min_eq_left hlength]
  simp

end

/-- The rows of `operator*=` with the words `a` accumulated so far.  Row `j` changes words
from `j` on, so its first word is final. -/
def mulRows (b : List UInt32) : List UInt32 → List UInt32 → List UInt32
  | [], a => a
  | w :: ws, a =>
    match propagateCarry 0
        (List.zipWith (fun x y => x.toUInt64 + w.toUInt64 * y.toUInt64) a b) with
    | [] => []
    | low :: rest => low :: mulRows b ws rest

theorem wordsValue_take_modEq (h : n ≤ ws.length) :
    wordsValue (ws.take n) ≡ wordsValue ws [MOD (2 ^ 32) ^ n] := by
  have hsplit : wordsValue ws = wordsValue (ws.take n) + (2 ^ 32) ^ n * wordsValue (ws.drop n) := by
    conv_lhs => rw [← List.take_append_drop n ws]
    rw [wordsValue, positionalValue_append, List.length_take, min_eq_left h]
    rfl
  rw [Nat.ModEq, hsplit, Nat.add_mul_mod_self_left]

theorem toNat_add_mul_words (x w y : UInt32) :
    (x.toUInt64 + w.toUInt64 * y.toUInt64).toNat = x.toNat + w.toNat * y.toNat := by
  have hx := x.toNat_lt
  have hmul := mul_words_le w y
  rw [UInt64.toNat_add, toNat_mul_words, UInt32.toNat_toUInt64]
  exact Nat.mod_eq_of_lt (by omega)

theorem mulRows_value (b : List UInt32) {ws a : List UInt32} (hws : ws.length = a.length)
    (hb : a.length ≤ b.length) :
    (mulRows b ws a).length = a.length ∧
      wordsValue (mulRows b ws a) =
        (wordsValue a + wordsValue ws * wordsValue b) % (2 ^ 32) ^ a.length := by
  induction ws generalizing a with
  | nil =>
    obtain rfl := List.length_eq_zero_iff.mp hws.symm
    exact ⟨rfl, by simp [mulRows, wordsValue, Nat.mod_one]⟩
  | cons w ws ih =>
    have hrow := propagateCarry_zipWith (fun x y => toNat_add_mul_words x w y) hb
    have hlength : (propagateCarry 0 (List.zipWith (fun x y =>
        x.toUInt64 + w.toUInt64 * y.toUInt64) a b)).length = ws.length + 1 := by
      rw [propagateCarry_length, List.length_zipWith, min_eq_left hb, ← hws, List.length_cons]
    rw [mulRows]
    generalize propagateCarry 0 (List.zipWith (fun x y =>
        x.toUInt64 + w.toUInt64 * y.toUInt64) a b) = row at hrow hlength ⊢
    cases row with
    | nil => cases hlength
    | cons low rest =>
      have hrest : ws.length = rest.length := (Nat.succ.inj hlength).symm
      obtain ⟨hlen, hvalue⟩ := ih hrest (by rw [List.length_cons] at hws; omega)
      refine ⟨by rw [List.length_cons, hlen, ← hws, List.length_cons, hrest], ?_⟩
      have hlow := low.toNat_lt
      have hmod := (wordsValue_take_modEq b hb).mul_left w.toNat
      rw [← hws, List.length_cons, pow_succ', hrest] at hrow hmod ⊢
      rw [wordsValue_cons] at hrow
      rw [wordsValue_cons, hvalue, wordsValue_cons]
      -- The row is reduced already, so the later rows only add to the words above `low`.
      calc low.toNat + 2 ^ 32 *
            ((wordsValue rest + wordsValue ws * wordsValue b) % (2 ^ 32) ^ rest.length)
          = (low.toNat + 2 ^ 32 * wordsValue rest + 2 ^ 32 * (wordsValue ws * wordsValue b)) %
              (2 ^ 32 * (2 ^ 32) ^ rest.length) := by
            rw [carry_step _ _ _ _ (by norm_num), Nat.add_mul_mod_self_left,
              Nat.mod_eq_of_lt hlow, Nat.add_mul_div_left _ _ (by norm_num),
              Nat.div_eq_of_lt hlow, Nat.zero_add]
        _ = (wordsValue a + w.toNat * wordsValue b +
              2 ^ 32 * (wordsValue ws * wordsValue b)) % (2 ^ 32 * (2 ^ 32) ^ rest.length) := by
            rw [hrow, Nat.mod_add_mod]
            exact (hmod.add_left _).add_right _
        _ = _ := by ring_nf

/-! ## Complement and increment -/

theorem wordsValue_complement :
    wordsValue (ws.map (~~~ ·)) + wordsValue ws + 1 = 2 ^ (32 * ws.length) := by
  induction ws with
  | nil => simp [wordsValue]
  | cons w ws ih =>
    have hw : (~~~w).toNat + w.toNat = 2 ^ 32 - 1 := by
      have hw := w.toNat_lt
      rw [UInt32.toNat_not, show UInt32.size = 2 ^ 32 from rfl]
      omega
    calc wordsValue ((w :: ws).map (~~~ ·)) + wordsValue (w :: ws) + 1
        = ((~~~w).toNat + w.toNat + 1) +
            2 ^ 32 * (wordsValue (ws.map (~~~ ·)) + wordsValue ws) := by
          simp only [List.map_cons, wordsValue_cons]
          ring
      _ = 2 ^ 32 * (wordsValue (ws.map (~~~ ·)) + wordsValue ws + 1) := by
          rw [hw]
          ring
      _ = 2 ^ (32 * (w :: ws).length) := by
          rw [ih, ← pow_add]
          congr 1
          simp only [List.length_cons]
          ring

@[simp] theorem incrementWords_length : (incrementWords ws).length = ws.length := by
  induction ws with
  | nil => rfl
  | cons w ws ih => by_cases h : w + 1 = 0 <;> simp [incrementWords, h, ih]

@[simp] theorem decrementWords_length : (decrementWords ws).length = ws.length := by
  fun_induction decrementWords ws <;> simp [*]

theorem wordsValue_increment :
    wordsValue (incrementWords ws) = (wordsValue ws + 1) % 2 ^ (32 * ws.length) := by
  induction ws with
  | nil => simp [incrementWords, wordsValue]
  | cons w ws ih =>
    have hpow : 2 ^ (32 * (w :: ws).length) = 2 ^ 32 * 2 ^ (32 * ws.length) := by
      rw [← pow_add, List.length_cons]
      congr 1
      ring
    have hw := w.toNat_lt
    have hsucc : (w + 1).toNat = (w.toNat + 1) % 2 ^ 32 := by
      rw [UInt32.toNat_add]
      rfl
    by_cases h : w + 1 = 0
    · have htop : w.toNat = 2 ^ 32 - 1 := by
        rw [h] at hsucc
        change 0 = (w.toNat + 1) % 2 ^ 32 at hsucc
        omega
      have hcarry : w.toNat + 2 ^ 32 * wordsValue ws + 1 = 0 + 2 ^ 32 * (wordsValue ws + 1) := by
        rw [htop]
        omega
      rw [incrementWords, if_pos h, wordsValue_cons, ih, wordsValue_cons, hcarry,
        hpow, carry_step _ _ _ _ (by norm_num)]
      simp
    · have hne : w.toNat ≠ 2 ^ 32 - 1 := by
        intro htop
        apply h
        apply UInt32.toNat_inj.mp
        rw [hsucc, htop]
        rfl
      have hlt := wordsValue_lt (w :: ws)
      have hstep : (w + 1).toNat = w.toNat + 1 := by
        rw [hsucc]
        exact Nat.mod_eq_of_lt (by omega)
      have hhigh := wordsValue_lt ws
      rw [incrementWords, if_neg h, wordsValue_cons, wordsValue_cons, hstep, hpow, Nat.mod_eq_of_lt]
      · ring
      · have hle : 2 ^ 32 * (wordsValue ws + 1) ≤ 2 ^ 32 * 2 ^ (32 * ws.length) :=
          Nat.mul_le_mul_left _ hhigh
        omega

/-! ## Shifts -/

theorem wordsValue_testBit (i : Nat) :
    (wordsValue ws).testBit i = (ws.getD (i / 32) 0).toNat.testBit (i % 32) := by
  rw [wordsValue, positionalValue_testBit (by norm_num) (fun w => w.toNat_lt),
    List.getD_eq_getElem?_getD]
  cases ws[i / 32]? <;> rfl

@[simp] theorem orWord_length (pn : List UInt32) (i : Nat) (w : UInt32) :
    (orWord pn i w).length = pn.length := by
  simp [orWord]

theorem orWord_getD (pn : List UInt32) (i j : Nat) (w : UInt32) (hi : i < pn.length) :
    (orWord pn i w).getD j 0 = if i = j then pn.getD j 0 ||| w else pn.getD j 0 := by
  simp only [orWord, List.getD_eq_getElem?_getD, List.getElem?_modify]
  by_cases hij : i = j
  · subst hij
    simp [hi]
  · cases pn[j]? <;> simp [hij]

theorem forWords_succ (body : Nat → List UInt32 → List UInt32) (count : Nat) (pn : List UInt32) :
    forWords body (count + 1) pn = body count (forWords body count pn) := by
  simp [forWords, List.range_succ]

/-- A loop of which iteration `i` ors in the bits `t` with `source t = i` leaves the bits whose
iteration was among them. -/
theorem forWords_testBit {body : Nat → List UInt32 → List UInt32} {source : Nat → Nat}
    {bit : Nat → Bool} {size : Nat}
    (hlength : ∀ i pn, pn.length = size → (body i pn).length = size)
    (count : Nat)
    (hbody : ∀ i < count, ∀ pn, pn.length = size → ∀ t < 32 * size,
      (wordsValue (body i pn)).testBit t =
        ((wordsValue pn).testBit t || (decide (source t = i) && bit t))) :
    (forWords body count (List.replicate size 0)).length = size ∧
      ∀ t < 32 * size, (wordsValue (forWords body count (List.replicate size 0))).testBit t =
        (decide (source t < count) && bit t) := by
  induction count with
  | zero =>
    refine ⟨by simp [forWords], fun t _ => ?_⟩
    simp [forWords, wordsValue, positionalValue_replicate]
  | succ count ih =>
    obtain ⟨hsize, hbits⟩ := ih fun i hi => hbody i (by omega)
    rw [forWords_succ]
    refine ⟨hlength _ _ hsize, fun t ht => ?_⟩
    rw [hbody count (by omega) _ hsize t ht, hbits t ht, ← Bool.and_or_distrib_right,
      ← Bool.decide_or]
    congr 1
    rw [decide_eq_decide]
    omega

theorem toNat_ofNat_mod (hs : s < 32) : (UInt32.ofNat s).toNat % 32 = s := by
  rw [UInt32.toNat_ofNat']
  omega

theorem testBit_shiftLeft_word (w : UInt32) (hs : s < 32) (hr : r < 32) :
    (w <<< UInt32.ofNat s).toNat.testBit r = (decide (s ≤ r) && w.toNat.testBit (r - s)) := by
  rw [UInt32.toNat_shiftLeft, toNat_ofNat_mod hs, Nat.testBit_mod_two_pow, Nat.testBit_shiftLeft]
  simp [hr]

theorem testBit_shiftRight_word (w : UInt32) (hs : s < 32) :
    (w >>> UInt32.ofNat s).toNat.testBit r = w.toNat.testBit (s + r) := by
  rw [UInt32.toNat_shiftRight, toNat_ofNat_mod hs, Nat.testBit_shiftRight]

def shiftLeftBit (a : List UInt32) (k s i j r : Nat) : Bool :=
  (decide (i + k + 1 = j ∧ s ≠ 0) && (a.getD i 0).toNat.testBit (32 - s + r)) ||
    (decide (i + k = j ∧ s ≤ r) && (a.getD i 0).toNat.testBit (r - s))

def shiftRightBit (a : List UInt32) (k s i j r : Nat) : Bool :=
  (decide (j + k + 1 = i ∧ s ≠ 0 ∧ 32 - s ≤ r) &&
      (a.getD i 0).toNat.testBit (r - (32 - s))) ||
    (decide (j + k = i) && (a.getD i 0).toNat.testBit (s + r))

variable (a : List UInt32)

theorem shiftLeftStep_length (k s i : Nat) (pn : List UInt32) (h : pn.length = a.length) :
    (shiftLeftStep a k s i pn).length = a.length := by
  unfold shiftLeftStep
  split <;> split <;> simp [h]

theorem shiftRightStep_length (k s i : Nat) (pn : List UInt32) (h : pn.length = a.length) :
    (shiftRightStep a k s i pn).length = a.length := by
  unfold shiftRightStep
  split <;> split <;> simp [h]

theorem testBit_word_ge (w : UInt32) (hi : 32 ≤ i) : w.toNat.testBit i = false := by
  apply Nat.testBit_lt_two_pow
  exact lt_of_lt_of_le w.toNat_lt (Nat.pow_le_pow_right (by norm_num) hi)

theorem orWord_if_testBit {pn : List UInt32} {c : Prop} [Decidable c] {m j : Nat}
    (hm : c → m < pn.length) (r : Nat) :
    ((if c then orWord pn m w else pn).getD j 0).toNat.testBit r =
      ((pn.getD j 0).toNat.testBit r || (decide (c ∧ m = j) && w.toNat.testBit r)) := by
  by_cases hc : c
  · rw [if_pos hc, orWord_getD _ _ _ _ (hm hc)]
    by_cases hmj : m = j <;> simp [hc, hmj]
  · simp [hc]

theorem shiftLeftStep_testBit (hs : s < 32) (i : Nat) (pn : List UInt32)
    (h : pn.length = a.length) (j : Nat) (hj : j < a.length) (r : Nat) (hr : r < 32) :
    ((shiftLeftStep a k s i pn).getD j 0).toNat.testBit r =
      ((pn.getD j 0).toNat.testBit r || shiftLeftBit a k s i j r) := by
  unfold shiftLeftStep
  simp only
  rw [orWord_if_testBit, orWord_if_testBit, Bool.or_assoc]
  · congr 1
    unfold shiftLeftBit
    congr 1
    · by_cases hs0 : s = 0
      · simp [hs0]
      · rw [testBit_shiftRight_word _ (by omega)]
        congr 1
        rw [decide_eq_decide]
        omega
    · rw [testBit_shiftLeft_word _ hs hr, ← Bool.and_assoc, ← Bool.decide_and]
      congr 1
      rw [decide_eq_decide]
      omega
  · intro hc
    omega
  · intro hc
    split <;> simp [h, hc]

theorem shiftRightStep_testBit (hs : s < 32) (i : Nat) (hi : i < a.length)
    (pn : List UInt32) (h : pn.length = a.length) (j : Nat) (r : Nat) (hr : r < 32) :
    ((shiftRightStep a k s i pn).getD j 0).toNat.testBit r =
      ((pn.getD j 0).toNat.testBit r || shiftRightBit a k s i j r) := by
  unfold shiftRightStep
  simp only
  rw [orWord_if_testBit, orWord_if_testBit, Bool.or_assoc]
  · congr 1
    unfold shiftRightBit
    congr 1
    · by_cases hs0 : s = 0
      · simp [hs0]
      · rw [testBit_shiftLeft_word _ (by omega) hr, ← Bool.and_assoc, ← Bool.decide_and]
        congr 1
        rw [decide_eq_decide]
        omega
    · rw [testBit_shiftRight_word _ hs]
      congr 1
      rw [decide_eq_decide]
      omega
  · intro hc
    omega
  · intro hc
    split <;> simp [h] <;> omega

def shiftLeftWords (a : List UInt32) (shift : Nat) : List UInt32 :=
  forWords (shiftLeftStep a (shift / 32) (shift % 32)) a.length
    (List.replicate a.length 0)

def shiftRightWords (a : List UInt32) (shift : Nat) : List UInt32 :=
  forWords (shiftRightStep a (shift / 32) (shift % 32)) a.length
    (List.replicate a.length 0)

variable (shift : Nat)

/-- The bit comes from one source word, named by whether it crosses a boundary. -/
theorem shiftLeftBit_eq (i t : Nat) :
    shiftLeftBit a (shift / 32) (shift % 32) i (t / 32) (t % 32) =
      (decide ((t - shift) / 32 = i) &&
        (decide (shift ≤ t) && (wordsValue a).testBit (t - shift))) := by
  rw [wordsValue_testBit, Bool.eq_iff_iff]
  simp only [shiftLeftBit, Bool.or_eq_true, Bool.and_eq_true, decide_eq_true_eq]
  by_cases hcross : t % 32 < shift % 32
  · constructor
    · rintro (⟨hij, hbit⟩ | ⟨⟨-, hle⟩, -⟩)
      · obtain rfl : (t - shift) / 32 = i := by omega
        rw [show (t - shift) % 32 = 32 - shift % 32 + t % 32 by omega]
        exact ⟨rfl, by omega, hbit⟩
      · omega
    · rintro ⟨rfl, hle, hbit⟩
      rw [show (t - shift) % 32 = 32 - shift % 32 + t % 32 by omega] at hbit
      exact .inl ⟨by omega, hbit⟩
  · constructor
    · rintro (⟨-, hbit⟩ | ⟨hij, hbit⟩)
      · rw [testBit_word_ge _ (by omega)] at hbit
        cases hbit
      · obtain rfl : (t - shift) / 32 = i := by omega
        rw [show (t - shift) % 32 = t % 32 - shift % 32 by omega]
        exact ⟨rfl, by omega, hbit⟩
    · rintro ⟨rfl, hle, hbit⟩
      rw [show (t - shift) % 32 = t % 32 - shift % 32 by omega] at hbit
      exact .inr ⟨by omega, hbit⟩

theorem shiftRightBit_eq (i t : Nat) :
    shiftRightBit a (shift / 32) (shift % 32) i (t / 32) (t % 32) =
      (decide ((t + shift) / 32 = i) && (wordsValue a).testBit (t + shift)) := by
  rw [wordsValue_testBit, Bool.eq_iff_iff]
  simp only [shiftRightBit, Bool.or_eq_true, Bool.and_eq_true, decide_eq_true_eq]
  by_cases hcross : 32 ≤ t % 32 + shift % 32
  · rw [show (t + shift) % 32 = t % 32 - (32 - shift % 32) by omega]
    constructor
    · rintro (⟨hij, hbit⟩ | ⟨-, hbit⟩)
      · obtain rfl : (t + shift) / 32 = i := by omega
        exact ⟨rfl, hbit⟩
      · rw [testBit_word_ge _ (by omega)] at hbit
        cases hbit
    · rintro ⟨rfl, hbit⟩
      exact .inl ⟨by omega, hbit⟩
  · rw [show (t + shift) % 32 = shift % 32 + t % 32 by omega]
    constructor
    · rintro (⟨hij, -⟩ | ⟨hij, hbit⟩)
      · omega
      · obtain rfl : (t + shift) / 32 = i := by omega
        exact ⟨rfl, hbit⟩
    · rintro ⟨rfl, hbit⟩
      exact .inr ⟨by omega, hbit⟩

theorem wordsValue_testBit_ge {t : Nat} (ht : 32 * ws.length ≤ t) :
    (wordsValue ws).testBit t = false :=
  Nat.testBit_lt_two_pow ((wordsValue_lt ws).trans_le (Nat.pow_le_pow_right (by norm_num) ht))

theorem wordsValue_shiftLeft :
    (shiftLeftWords a shift).length = a.length ∧
      wordsValue (shiftLeftWords a shift) = wordsValue a * 2 ^ shift % 2 ^ (32 * a.length) := by
  have hs : shift % 32 < 32 := Nat.mod_lt _ (by norm_num)
  obtain ⟨hlength, hbits⟩ := forWords_testBit
    (fun i pn h => shiftLeftStep_length a (shift / 32) (shift % 32) i pn h) a.length
    (fun i _ pn h t ht => by
      rw [wordsValue_testBit, shiftLeftStep_testBit a hs i pn h _ (by omega) _ (by omega),
        shiftLeftBit_eq, ← wordsValue_testBit])
  refine ⟨hlength, Nat.eq_of_testBit_eq fun t => ?_⟩
  rw [Nat.testBit_mod_two_pow, Nat.testBit_mul_two_pow]
  by_cases ht : t < 32 * a.length
  · rw [shiftLeftWords, hbits t ht, decide_eq_true (by omega), decide_eq_true ht]
  · rw [wordsValue_testBit_ge _ (by rw [shiftLeftWords, hlength]; omega), decide_eq_false ht,
      Bool.false_and]

theorem wordsValue_shiftRight :
    (shiftRightWords a shift).length = a.length ∧
      wordsValue (shiftRightWords a shift) = wordsValue a / 2 ^ shift := by
  have hs : shift % 32 < 32 := Nat.mod_lt _ (by norm_num)
  obtain ⟨hlength, hbits⟩ := forWords_testBit
    (fun i pn h => shiftRightStep_length a (shift / 32) (shift % 32) i pn h) a.length
    (fun i hi pn h t ht => by
      rw [wordsValue_testBit, shiftRightStep_testBit a hs i hi pn h _ _ (by omega),
        shiftRightBit_eq, ← wordsValue_testBit])
  refine ⟨hlength, Nat.eq_of_testBit_eq fun t => ?_⟩
  rw [Nat.testBit_div_two_pow]
  by_cases hin : t + shift < 32 * a.length
  · rw [shiftRightWords, hbits t (by omega), decide_eq_true (by omega), Bool.true_and]
  · rw [wordsValue_testBit_ge a (by omega)]
    by_cases ht : t < 32 * a.length
    · rw [shiftRightWords, hbits t ht, decide_eq_false (by omega), Bool.false_and]
    · exact wordsValue_testBit_ge _ (by rw [shiftRightWords, hlength]; omega)

/-! ## Bit length -/

theorem size_eq_of_bounds (hlow : 2 ^ k ≤ n) (hhigh : n < 2 ^ (k + 1)) : n.size = k + 1 :=
  le_antisymm (Nat.size_le.mpr hhigh) (Nat.lt_size.mpr hlow)

theorem toNat_one_shiftLeft (hi : i < 32) : ((1 : UInt32) <<< UInt32.ofNat i).toNat = 2 ^ i := by
  rw [UInt32.toNat_shiftLeft, toNat_ofNat_mod hi]
  change 1 <<< i % 2 ^ 32 = 2 ^ i
  rw [Nat.one_shiftLeft]
  exact Nat.mod_eq_of_lt (Nat.pow_lt_pow_right (by norm_num) hi)

theorem and_bit_ne_zero_iff (w : UInt32) (hi : i < 32) :
    w &&& (1 <<< UInt32.ofNat i) ≠ 0 ↔ w.toNat.testBit i = true := by
  rw [ne_eq, ← UInt32.toNat_inj, UInt32.toNat_and, toNat_one_shiftLeft hi, Nat.and_two_pow]
  cases w.toNat.testBit i <;> simp

theorem wordBits_eq_size (w : UInt32) (hw : w ≠ 0) (nbits : Nat)
    (hn : nbits < 32) (hlt : w.toNat < 2 ^ (nbits + 1)) :
    wordBits w nbits = w.toNat.size := by
  induction nbits with
  | zero =>
    have hpos : w.toNat ≠ 0 := fun h => hw (UInt32.toNat_inj.mp h)
    have hone : w.toNat = 1 := by omega
    rw [wordBits, hone, Nat.size_one]
  | succ nbits ih =>
    rw [wordBits]
    by_cases hbit : w.toNat.testBit (nbits + 1) = true
    · rw [if_pos ((and_bit_ne_zero_iff w hn).mpr hbit)]
      exact (size_eq_of_bounds (Nat.ge_two_pow_of_testBit hbit) hlt).symm
    · rw [if_neg fun h => hbit ((and_bit_ne_zero_iff w hn).mp h)]
      apply ih (by omega)
      by_contra hge
      apply hbit
      rw [Nat.testBit_eq_decide_div_mod_eq, Nat.div_eq_of_lt_le (k := 1)]
      · rfl
      · omega
      · omega

theorem size_add_mul {low high : Nat} (hlow : low < 2 ^ k) (hhigh : high ≠ 0) :
    (low + 2 ^ k * high).size = k + high.size := by
  apply le_antisymm
  · rw [Nat.size_le, pow_add]
    have hlt : high + 1 ≤ 2 ^ high.size := Nat.lt_size_self high
    calc low + 2 ^ k * high < 2 ^ k * (high + 1) := by rw [Nat.mul_succ]; omega
      _ ≤ 2 ^ k * 2 ^ high.size := Nat.mul_le_mul_left _ hlt
  · obtain ⟨m, hm⟩ : ∃ m, high.size = m + 1 := by
      have hpos := Nat.size_pos.mpr (Nat.pos_of_ne_zero hhigh)
      exact ⟨high.size - 1, by omega⟩
    have hle : 2 ^ m ≤ high := Nat.lt_size.mp (by omega)
    rw [hm, ← Nat.add_assoc]
    apply Nat.lt_size.mpr
    calc 2 ^ (k + m) = 2 ^ k * 2 ^ m := pow_add _ _ _
      _ ≤ 2 ^ k * high := Nat.mul_le_mul_left _ hle
      _ ≤ low + 2 ^ k * high := Nat.le_add_left _ _

theorem bitsFromTop_eq_size : bitsFromTop ws = (wordsValue ws.reverse).size := by
  induction ws with
  | nil => rfl
  | cons w ws ih =>
    have hvalue : wordsValue (w :: ws).reverse =
        wordsValue ws.reverse + 2 ^ (32 * ws.length) * w.toNat := by
      rw [wordsValue, List.reverse_cons, positionalValue_append, ← pow_mul]
      simp [wordsValue]
    have hlow : wordsValue ws.reverse < 2 ^ (32 * ws.length) := by
      simpa using wordsValue_lt ws.reverse
    by_cases hw : w = 0
    · simp [bitsFromTop, hw, ih, wordsValue, positionalValue_append]
    · have hne : w.toNat ≠ 0 := fun h => hw (UInt32.toNat_inj.mp h)
      rw [bitsFromTop, if_pos hw, hvalue, size_add_mul hlow hne,
        wordBits_eq_size w hw 31 (by norm_num) w.toNat_lt]

/-! ## Operations on whole numbers -/

namespace BaseUint

variable {width : Nat} {b a : BaseUint width}

def zero : BaseUint width := ⟨List.replicate width 0, by simp⟩

instance : Inhabited (BaseUint width) := ⟨zero⟩

def add (a b : BaseUint width) : BaseUint width :=
  ⟨propagateCarry 0 (List.zipWith (fun x y => x.toUInt64 + y.toUInt64) a.pn b.pn),
    by simp [a.length_eq, b.length_eq]⟩

def mulWord (a : BaseUint width) (b32 : UInt32) : BaseUint width :=
  ⟨propagateCarry 0 (a.pn.map fun w => b32.toUInt64 * w.toUInt64), by simp [a.length_eq]⟩

def mul (a b : BaseUint width) : BaseUint width :=
  ⟨mulRows b.pn a.pn (List.replicate width 0), by
    rw [(mulRows_value b.pn (by simp [a.length_eq]) (by simp [b.length_eq])).1]
    simp⟩

def complement (a : BaseUint width) : BaseUint width :=
  ⟨a.pn.map (~~~ ·), by simp [a.length_eq]⟩

def increment (a : BaseUint width) : BaseUint width :=
  ⟨incrementWords a.pn, by simp [a.length_eq]⟩

def decrement (a : BaseUint width) : BaseUint width :=
  ⟨decrementWords a.pn, by simp [a.length_eq]⟩

def neg (a : BaseUint width) : BaseUint width := a.complement.increment

def sub (a b : BaseUint width) : BaseUint width := a.add b.neg

def shiftLeft (a : BaseUint width) (shift : Nat) : BaseUint width :=
  ⟨shiftLeftWords a.pn shift, by rw [(wordsValue_shiftLeft _ _).1, a.length_eq]⟩

def shiftRight (a : BaseUint width) (shift : Nat) : BaseUint width :=
  ⟨shiftRightWords a.pn shift, by rw [(wordsValue_shiftRight _ _).1, a.length_eq]⟩

def compareTo (a b : BaseUint width) : Ordering :=
  scanCompare UInt32.toNat a.pn.reverse b.pn.reverse

def bits (a : BaseUint width) : Nat := bitsFromTop a.pn.reverse

def setBit (a : BaseUint width) (shift : Nat) : BaseUint width :=
  ⟨orWord a.pn (shift / 32) (1 <<< UInt32.ofNat (shift % 32)), by simp [a.length_eq]⟩

/-- The loop of `operator/=` for `shift, shift - 1, ..., 0`, with one more than
`shift` as its counter. -/
def divLoop : Nat → BaseUint width → BaseUint width → BaseUint width → BaseUint width
  | 0, _, _, quotient => quotient
  | shift + 1, num, div, quotient =>
    if num.compareTo div ≠ .lt then
      divLoop shift (num.sub div) (div.shiftRight 1) (quotient.setBit shift)
    else
      divLoop shift num (div.shiftRight 1) quotient

/-- `operator/=`; `none` is the exception "Division by zero". -/
def div (a b : BaseUint width) : Option (BaseUint width) :=
  let numBits := a.bits
  let divBits := b.bits
  if divBits = 0 then none
  else if divBits > numBits then some zero
  else
    let shift := numBits - divBits
    some (divLoop (shift + 1) a (b.shiftLeft shift) zero)

theorem toNat_lt (a : BaseUint width) : a.toNat < 2 ^ (32 * width) := by
  simpa [toNat, a.length_eq] using wordsValue_lt a.pn

theorem toNat_injective : Function.Injective (@toNat width) := by
  intro a b h
  apply BaseUint.ext
  exact positionalValue_injective (fun w => w.toNat_lt)
    (fun _ _ h => UInt32.toNat_inj.mp h) (by rw [a.length_eq, b.length_eq]) h

@[simp] theorem toNat_zero : (zero : BaseUint width).toNat = 0 :=
  positionalValue_replicate (rfl : UInt32.toNat 0 = 0) width

theorem toNat_add (a b : BaseUint width) :
    (a.add b).toNat = (a.toNat + b.toNat) % 2 ^ (32 * width) := by
  have hsum (x y : UInt32) :
      (x.toUInt64 + y.toUInt64).toNat = x.toNat + (1 : UInt32).toNat * y.toNat := by
    have hx := x.toNat_lt
    have hy := y.toNat_lt
    rw [UInt64.toNat_add, UInt32.toNat_toUInt64, UInt32.toNat_toUInt64, UInt32.toNat_one, Nat.one_mul]
    exact Nat.mod_eq_of_lt (by omega)
  have hlength : a.pn.length = b.pn.length := by rw [a.length_eq, b.length_eq]
  rw [toNat, add, propagateCarry_zipWith hsum hlength.le, hlength, List.take_length,
    UInt32.toNat_one, Nat.one_mul, b.length_eq, pow_mul]
  rfl

theorem toNat_mulWord (a : BaseUint width) (b32 : UInt32) :
    (a.mulWord b32).toNat = a.toNat * b32.toNat % 2 ^ (32 * width) := by
  have hterms : ∀ t ∈ a.pn.map (fun w => b32.toUInt64 * w.toUInt64), t.toNat ≤ 2 ^ 64 - 2 ^ 32 := by
    intro t ht
    obtain ⟨w, -, rfl⟩ := List.mem_map.mp ht
    rw [toNat_mul_words]
    have hmul := mul_words_le b32 w
    omega
  have hvalue := propagateCarry_value (by norm_num : (0 : UInt64).toNat < 2 ^ 32) hterms
  rw [positionalValue_map_mul] at hvalue
  rw [toNat, mulWord, hvalue, pow_mul, Nat.mul_comm a.toNat]
  simp [toNat, a.length_eq]

theorem toNat_complement (a : BaseUint width) :
    a.complement.toNat = 2 ^ (32 * width) - 1 - a.toNat := by
  have hsum := wordsValue_complement a.pn
  rw [a.length_eq] at hsum
  simp only [toNat, complement]
  omega

theorem toNat_increment (a : BaseUint width) :
    a.increment.toNat = (a.toNat + 1) % 2 ^ (32 * width) := by
  simpa [toNat, increment, a.length_eq] using wordsValue_increment a.pn

theorem toNat_neg (a : BaseUint width) :
    a.neg.toNat = (2 ^ (32 * width) - a.toNat) % 2 ^ (32 * width) := by
  have hlt := a.toNat_lt
  rw [neg, toNat_increment, toNat_complement]
  congr 1
  omega

theorem toNat_mul (a b : BaseUint width) :
    (a.mul b).toNat = a.toNat * b.toNat % 2 ^ (32 * width) := by
  have hzero : wordsValue (List.replicate width 0) = 0 := toNat_zero
  rw [toNat, mul, (mulRows_value b.pn (by simp [a.length_eq]) (by simp [b.length_eq])).2, hzero,
    List.length_replicate, Nat.zero_add, pow_mul]
  rfl

theorem toNat_sub (h : b.toNat ≤ a.toNat) : (a.sub b).toNat = a.toNat - b.toNat := by
  have ha := a.toNat_lt
  have hb := b.toNat_lt
  rw [sub, toNat_add, toNat_neg, Nat.add_mod_mod,
    show a.toNat + (2 ^ (32 * width) - b.toNat) = a.toNat - b.toNat + 2 ^ (32 * width) by omega,
    Nat.add_mod_right]
  exact Nat.mod_eq_of_lt (by omega)

theorem toNat_shiftLeft (a : BaseUint width) (shift : Nat) :
    (a.shiftLeft shift).toNat = a.toNat * 2 ^ shift % 2 ^ (32 * width) := by
  simpa [toNat, shiftLeft, a.length_eq] using (wordsValue_shiftLeft a.pn shift).2

theorem toNat_shiftRight (a : BaseUint width) (shift : Nat) :
    (a.shiftRight shift).toNat = a.toNat / 2 ^ shift :=
  (wordsValue_shiftRight a.pn shift).2

theorem compareTo_eq (a b : BaseUint width) : a.compareTo b = compare a.toNat b.toNat := by
  rw [compareTo, scanCompare_reverse (fun w : UInt32 => w.toNat_lt)
    (by simp [a.length_eq, b.length_eq])]
  simp [toNat, wordsValue]

theorem bits_eq_size (a : BaseUint width) : a.bits = a.toNat.size := by
  simpa [toNat, bits] using bitsFromTop_eq_size a.pn.reverse

/-! ## Restoring division -/

theorem toNat_setBit {shift : Nat} (hshift : shift < 32 * width)
    (hclear : 2 ^ (shift + 1) ∣ a.toNat) : (a.setBit shift).toNat = a.toNat + 2 ^ shift := by
  obtain ⟨q, hq⟩ := hclear
  have hword : shift / 32 < a.pn.length := by
    rw [a.length_eq]
    omega
  have hor : (a.setBit shift).toNat = a.toNat ||| 2 ^ shift := by
    apply Nat.eq_of_testBit_eq
    intro i
    have hlt : shift % 32 < 32 := Nat.mod_lt _ (by norm_num)
    rw [toNat, setBit, wordsValue_testBit, orWord_getD _ _ _ _ hword, Nat.testBit_or,
      toNat, wordsValue_testBit, Nat.testBit_two_pow]
    by_cases hi : shift / 32 = i / 32
    · rw [if_pos hi, UInt32.toNat_or, Nat.testBit_or, toNat_one_shiftLeft hlt, Nat.testBit_two_pow]
      congr 2
      rw [eq_iff_iff]
      omega
    · have hne : shift ≠ i := by
        rintro rfl
        exact hi rfl
      rw [if_neg hi]
      simp [hne]
  have hlow : 2 ^ shift < 2 ^ (shift + 1) := Nat.pow_lt_pow_right (by norm_num) (by omega)
  rw [hor, hq, Nat.two_pow_add_eq_or_of_lt hlow]

/-- The restoring division loop.  Before round `shift` the divisor stands
shifted up by `shift`, what is left of the numerator is below twice that, and the
quotient bits still to be found are clear. -/
theorem divLoop_value {b : Nat} (hb : 0 < b) (count : Nat)
    (hcount : count ≤ 32 * width) (num div quotient : BaseUint width)
    (hdiv : div.toNat = b * 2 ^ count / 2)
    (hnum : num.toNat < b * 2 ^ count) (hclear : 2 ^ count ∣ quotient.toNat) :
    (divLoop count num div quotient).toNat = quotient.toNat + num.toNat / b := by
  induction count generalizing num div quotient with
  | zero => rw [divLoop, Nat.div_eq_of_lt (by simpa using hnum), Nat.add_zero]
  | succ shift ih =>
    have hdiv' : div.toNat = b * 2 ^ shift := by
      rw [hdiv, pow_succ, ← Nat.mul_assoc]
      exact Nat.mul_div_cancel _ (by norm_num)
    have hhalf : (div.shiftRight 1).toNat = b * 2 ^ shift / 2 := by
      rw [toNat_shiftRight, hdiv', pow_one]
    have hclear' : 2 ^ shift ∣ quotient.toNat :=
      (Nat.pow_dvd_pow 2 (Nat.le_succ shift)).trans hclear
    simp only [divLoop, compareTo_eq, ne_eq, Nat.compare_eq_lt, Nat.not_lt]
    split
    next hge =>
      have hset := toNat_setBit (by omega) hclear
      have hsub := toNat_sub hge
      have hquotient : num.toNat / b = 2 ^ shift + (num.toNat - b * 2 ^ shift) / b := by
        rw [Nat.add_comm, ← Nat.add_mul_div_left _ _ hb]
        congr 1
        omega
      rw [ih (by omega) _ _ _ hhalf, hset, hsub, hdiv', hquotient, Nat.add_assoc]
      · rw [hsub, hdiv']
        rw [pow_succ, ← Nat.mul_assoc] at hnum
        omega
      · rw [hset]
        exact Nat.dvd_add hclear' (Nat.dvd_refl _)
    next hlt => exact ih (by omega) _ _ _ hhalf (by omega) hclear'

theorem div_of_pos (a : BaseUint width) (hb : 0 < b.toNat) :
    ∃ q, a.div b = some q ∧ q.toNat = a.toNat / b.toNat := by
  have hsize : b.toNat.size ≠ 0 := by simpa [Nat.size_eq_zero] using hb.ne'
  simp only [div, bits_eq_size, if_neg hsize]
  split
  next hgt =>
    refine ⟨zero, rfl, ?_⟩
    have hlt : a.toNat < b.toNat := by
      by_contra hle
      exact absurd (Nat.size_le_size (Nat.not_lt.mp hle)) (Nat.not_le.mpr hgt)
    rw [toNat_zero, Nat.div_eq_of_lt hlt]
  next hle =>
    refine ⟨_, rfl, ?_⟩
    -- The top round lines the leading bits up, so the divisor does not overflow.
    have hle' : b.toNat.size ≤ a.toNat.size := Nat.not_lt.mp hle
    have hwidth : a.toNat.size ≤ 32 * width := Nat.size_le.mpr a.toNat_lt
    have hbhigh := Nat.lt_size_self b.toNat
    have hblow : 2 ^ (b.toNat.size - 1) ≤ b.toNat := Nat.lt_size.mp (by omega)
    have hexp : b.toNat.size + (a.toNat.size - b.toNat.size) = a.toNat.size := by omega
    have hfit : b.toNat * 2 ^ (a.toNat.size - b.toNat.size) < 2 ^ (32 * width) := by
      calc b.toNat * 2 ^ (a.toNat.size - b.toNat.size)
          < 2 ^ b.toNat.size * 2 ^ (a.toNat.size - b.toNat.size) :=
            Nat.mul_lt_mul_of_pos_right hbhigh (by positivity)
        _ = 2 ^ a.toNat.size := by rw [← pow_add, hexp]
        _ ≤ 2 ^ (32 * width) := Nat.pow_le_pow_right (by norm_num) hwidth
    have hnum : a.toNat < b.toNat * 2 ^ (a.toNat.size - b.toNat.size + 1) := by
      calc a.toNat < 2 ^ a.toNat.size := Nat.lt_size_self _
        _ = 2 ^ (b.toNat.size - 1) * 2 ^ (a.toNat.size - b.toNat.size + 1) := by
            rw [← pow_add]
            congr 1
            omega
        _ ≤ b.toNat * 2 ^ (a.toNat.size - b.toNat.size + 1) := Nat.mul_le_mul_right _ hblow
    rw [divLoop_value hb _ (by omega) _ _ _ _ hnum (by simp), toNat_zero, Nat.zero_add]
    rw [toNat_shiftLeft, Nat.mod_eq_of_lt hfit, pow_succ, ← Nat.mul_assoc,
      Nat.mul_div_cancel _ (by norm_num)]

end BaseUint

end HcsCoin
