import HcsCoin.Foundation.Codec

/-!
# Numbers cut into digits

The digits of a number in a given base, a fixed count of them, and how they
relate to the value of a numeral.  A byte string and a list of fixed-width
integers that hold the same bits are the digits of one number in two bases.
-/

namespace HcsCoin.Foundation

def toDigits (base : Nat) : Nat → Nat → List Nat
  | 0, _ => []
  | n + 1, x => x % base :: toDigits base n (x / base)

@[simp] theorem length_toDigits (base n x : Nat) : (toDigits base n x).length = n := by
  induction n generalizing x with
  | zero => rfl
  | succ n ih => rw [toDigits, List.length_cons, ih]

theorem getElem?_toDigits {base n i : Nat} (x : Nat) (hi : i < n) :
    (toDigits base n x)[i]? = some (x / base ^ i % base) := by
  induction n generalizing i x with
  | zero => omega
  | succ n ih =>
    cases i with
    | zero => simp [toDigits]
    | succ i =>
      rw [toDigits, List.getElem?_cons_succ, ih _ (by omega), Nat.div_div_eq_div_mul, pow_succ']

theorem mem_toDigits_lt {base n x d : Nat} (hbase : 0 < base) (hd : d ∈ toDigits base n x) :
    d < base := by
  induction n generalizing x with
  | zero => exact absurd hd List.not_mem_nil
  | succ n ih =>
    rcases List.mem_cons.mp hd with rfl | hd
    · exact Nat.mod_lt x hbase
    · exact ih hd

theorem positionalValue_toDigits (base n x : Nat) :
    positionalValue id base (toDigits base n x) = x % base ^ n := by
  induction n generalizing x with
  | zero => simp [toDigits, Nat.mod_one]
  | succ n ih => rw [toDigits, positionalValue_cons, ih, pow_succ', Nat.mod_mul, id]

section Numerals

variable {α : Type} {digit : α → Nat} {base : Nat}

theorem toDigits_positionalValue (hdigit : ∀ d, digit d < base) (ds : List α) :
    toDigits base ds.length (positionalValue digit base ds) = ds.map digit := by
  induction ds with
  | nil => rfl
  | cons d ds ih =>
    have hpos : 0 < base := (Nat.zero_le _).trans_lt (hdigit d)
    rw [List.length_cons, toDigits, positionalValue_cons, Nat.add_mul_mod_self_left,
      Nat.mod_eq_of_lt (hdigit d), Nat.add_mul_div_left _ _ hpos, Nat.div_eq_of_lt (hdigit d),
      Nat.zero_add, ih, List.map_cons]

theorem positionalValue_congr {digit' : α → Nat} {ds : List α} (h : ∀ d ∈ ds, digit d = digit' d) :
    positionalValue digit base ds = positionalValue digit' base ds := by
  induction ds with
  | nil => rfl
  | cons d ds ih =>
    rw [positionalValue_cons, positionalValue_cons, h d List.mem_cons_self,
      ih (List.forall_mem_cons.mp h).2]

end Numerals

theorem toNat_getD_eq (bs : Bytes) (i : Nat) : (bs.getD i 0).toNat = leNat bs / 256 ^ i % 256 := by
  induction bs generalizing i with
  | nil => simp [leNat]
  | cons b bs ih =>
    have hb : b.toNat < 256 := b.toNat_lt
    have hvalue : leNat (b :: bs) = b.toNat + 256 * leNat bs := rfl
    cases i with
    | zero =>
      rw [hvalue, pow_zero, Nat.div_one, List.getD_cons_zero]
      omega
    | succ i =>
      rw [List.getD_cons_succ, ih, hvalue, pow_succ', ← Nat.div_div_eq_div_mul,
        Nat.add_mul_div_left _ _ (by decide), Nat.div_eq_of_lt hb, Nat.zero_add]

theorem leNat_append (xs ys : Bytes) : leNat (xs ++ ys) = leNat xs + 256 ^ xs.length * leNat ys :=
  positionalValue_append UInt8.toNat 256 xs ys

end HcsCoin.Foundation
