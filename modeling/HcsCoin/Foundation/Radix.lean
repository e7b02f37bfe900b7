import HcsCoin.Foundation.Digits

/-!
# Radix conversion in place

A number is kept as a fixed count of digits.  Its leading zeros are cut off by the length of
its digits, and a rational bound of the ratio of two logarithms bounds this length for the
numbers of another base.
-/

namespace HcsCoin.Foundation

variable {base : Nat}

theorem toDigits_zero (base n : Nat) : toDigits base n 0 = List.replicate n 0 := by
  induction n with
  | zero => rfl
  | succ n ih => simp [toDigits, ih, List.replicate_succ]

variable {n x v : Nat} {ds : List Nat} {α : Type*} {char : Nat → α}

theorem take_toDigits {k : Nat} (h : k ≤ n) (x : Nat) :
    (toDigits base n x).take k = toDigits base k x := by
  induction k generalizing n x with
  | zero => rfl
  | succ k ih =>
    obtain _ | n := n
    · omega
    rw [toDigits, List.take_succ_cons, ih (Nat.succ_le_succ_iff.1 h), toDigits]

theorem toDigits_length_digits (hbase : 1 < base) (x : Nat) :
    toDigits base (base.digits x).length x = base.digits x := by
  induction x using Nat.strongRecOn with
  | ind x ih =>
    rcases Nat.eq_zero_or_pos x with rfl | hx
    · simp [toDigits]
    · rw [Nat.digits_def' hbase hx, List.length_cons, toDigits, ih _ (Nat.div_lt_self hx hbase)]

theorem drop_reverse_toDigits (hbase : 1 < base) (hx : x < base ^ n) :
    (toDigits base n x).reverse.drop (n - (base.digits x).length) = (base.digits x).reverse := by
  have hlength := (Nat.digits_length_le_iff hbase x).2 hx
  rw [List.drop_reverse, length_toDigits, Nat.sub_sub_self hlength, take_toDigits hlength,
    toDigits_length_digits hbase]

theorem length_digits_div (hbase : 1 < base) (hx : x ≠ 0) :
    (base.digits x).length = (base.digits (x / base)).length + 1 := by
  rw [Nat.digits_def' hbase (Nat.pos_of_ne_zero hx), List.length_cons]

theorem lt_pow_of_ratio {a p q : Nat} (hbase : 0 < base) (hratio : a ^ q ≤ base ^ p) (hq : 0 < q)
    (hx : x < a ^ n) : x < base ^ (n * p / q + 1) := by
  have hpow : (a ^ n) ^ q ≤ (base ^ (n * p / q + 1)) ^ q := by
    calc (a ^ n) ^ q = (a ^ q) ^ n := by rw [← pow_mul, ← pow_mul, Nat.mul_comm]
      _ ≤ (base ^ p) ^ n := Nat.pow_le_pow_left hratio n
      _ = base ^ (n * p) := by rw [← pow_mul, Nat.mul_comm]
      _ ≤ base ^ ((n * p / q + 1) * q) :=
          Nat.pow_le_pow_right hbase (Nat.le_of_lt (by
            rw [Nat.mul_comm _ q]
            exact Nat.lt_mul_div_succ (n * p) hq))
      _ = (base ^ (n * p / q + 1)) ^ q := by rw [pow_mul]
  exact Nat.lt_of_lt_of_le hx ((Nat.pow_le_pow_iff_left (Nat.pos_iff_ne_zero.1 hq)).1 hpow)

/-! ## Numerals from the highest digit on -/

def numeral (base : Nat) (v : Nat) (ds : List Nat) : Nat := ds.foldl (fun v d => base * v + d) v

theorem numeral_zero (base : Nat) (ds : List Nat) :
    numeral base 0 ds = Nat.ofDigits base ds.reverse := by
  rw [Nat.ofDigits_eq_foldr, List.foldr_reverse]
  simp [numeral, add_comm]

theorem le_numeral (hbase : 0 < base) (v : Nat) (ds : List Nat) : v ≤ numeral base v ds := by
  induction ds generalizing v with
  | nil => exact Nat.le_refl v
  | cons d ds ih =>
    calc v ≤ base * v := Nat.le_mul_of_pos_left v hbase
      _ ≤ base * v + d := Nat.le_add_right _ _
      _ ≤ numeral base v (d :: ds) := ih _

theorem numeral_lt {m : Nat} (hds : ∀ d ∈ ds, d < base) (hv : v < base ^ m) :
    numeral base v ds < base ^ (m + ds.length) := by
  induction ds generalizing v m with
  | nil => exact hv
  | cons d ds ih =>
    simp only [List.mem_cons, forall_eq_or_imp] at hds
    have hstep : base * v + d < base ^ (m + 1) := by
      calc base * v + d < base * v + base := by omega
        _ = base * (v + 1) := by ring
        _ ≤ base * base ^ m := Nat.mul_le_mul_left _ hv
        _ = base ^ (m + 1) := by ring
    have h := ih hds.2 hstep
    rwa [show m + 1 + ds.length = m + (d :: ds).length by simp; omega] at h

theorem digits_numeral (hbase : 1 < base) (hds : ∀ d ∈ ds, d < base)
    (hhead : ∀ d ∈ ds.head?, d ≠ 0) : base.digits (numeral base 0 ds) = ds.reverse := by
  rw [numeral_zero]
  refine Nat.digits_ofDigits base hbase _ (by simpa using hds) fun h => ?_
  rw [List.getLast_reverse]
  exact hhead _ (List.head_mem_head? _)

theorem numeral_reverse_digits (base v : Nat) : numeral base 0 (base.digits v).reverse = v := by
  rw [numeral_zero, List.reverse_reverse, Nat.ofDigits_digits]

/-! ## Texts -/

def spell {α : Type*} (base : Nat) (char : Nat → α) (zeroes v : Nat) : List α :=
  List.replicate zeroes (char 0) ++ (base.digits v).reverse.map char

theorem spell_cons (hbase : 1 < base) (hds : ∀ d ∈ ds, d < base) (hhead : ∀ d ∈ ds.head?, d ≠ 0)
    (zeroes : Nat) :
    spell base char zeroes (numeral base 0 ds) = List.replicate zeroes (char 0) ++ ds.map char := by
  rw [spell, digits_numeral hbase hds hhead, List.reverse_reverse]

theorem head_reverse_digits_ne {d : Nat} (h : d ∈ (base.digits v).reverse.head?) : d ≠ 0 := by
  rw [List.head?_reverse] at h
  have hne : v ≠ 0 := by
    rintro rfl
    simp at h
  rw [List.getLast?_eq_some_getLast (Nat.digits_ne_nil_iff_ne_zero.2 hne), Option.mem_some_iff] at h
  rw [← h]
  exact Nat.getLast_digit_ne_zero base hne

theorem exists_spell (hbase : 1 < base) (hds : ∀ d ∈ ds, d < base) :
    ∃ zeroes v, ds.map char = spell base char zeroes v := by
  induction ds with
  | nil => exact ⟨0, 0, by simp [spell]⟩
  | cons d ds ih =>
    simp only [List.mem_cons, forall_eq_or_imp] at hds
    by_cases hd : d = 0
    · obtain ⟨zeroes, v, h⟩ := ih hds.2
      exact ⟨zeroes + 1, v, by simp [spell, hd, h, List.replicate_succ]⟩
    · refine ⟨0, numeral base 0 (d :: ds), ?_⟩
      rw [spell_cons hbase (by simpa using hds) (by simpa using hd)]
      rfl

theorem span_append {p : α → Bool} {xs ys : List α} (hxs : ∀ x ∈ xs, p x = true)
    (hys : ∀ y ∈ ys.head?, p y = false) :
    (xs ++ ys).takeWhile p = xs ∧ (xs ++ ys).dropWhile p = ys := by
  rw [List.takeWhile_append_of_pos hxs, List.dropWhile_append_of_pos hxs]
  cases ys with
  | nil => simp
  | cons y ys => simp [hys y rfl]

end HcsCoin.Foundation
