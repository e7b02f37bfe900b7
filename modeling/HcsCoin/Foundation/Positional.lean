import Mathlib.Data.Nat.Bitwise
import Mathlib.Tactic

/-!
# Positional numerals over an arbitrary digit type

A numeral is a list of digits, least significant first.  The digit type is
abstract: `digit` reads one of its values as a natural number.  Byte strings
read little-endian and multi-word integers are two instances, so the facts
about carries, bit positions and comparison are proved once here.
-/

namespace HcsCoin.Foundation

section Positional

variable {α : Type} (digit : α → Nat) (base : Nat)

def positionalValue : List α → Nat
  | [] => 0
  | d :: ds => digit d + base * positionalValue ds

@[simp] theorem positionalValue_nil : positionalValue digit base [] = 0 := rfl

@[simp] theorem positionalValue_cons (d : α) (ds : List α) :
    positionalValue digit base (d :: ds) = digit d + base * positionalValue digit base ds := rfl

theorem positionalValue_append (xs ys : List α) :
    positionalValue digit base (xs ++ ys) =
      positionalValue digit base xs + base ^ xs.length * positionalValue digit base ys := by
  induction xs with
  | nil => simp
  | cons x xs ih =>
    simp only [List.cons_append, positionalValue_cons, ih, List.length_cons, pow_succ]
    ring

variable {digit base}

theorem positionalValue_lt (hdigit : ∀ d, digit d < base) (ds : List α) :
    positionalValue digit base ds < base ^ ds.length := by
  induction ds with
  | nil => simp
  | cons d ds ih =>
    have hd := hdigit d
    calc positionalValue digit base (d :: ds)
        < base + base * positionalValue digit base ds := Nat.add_lt_add_right hd _
      _ = base * (positionalValue digit base ds + 1) := by ring
      _ ≤ base * base ^ ds.length := Nat.mul_le_mul_left _ ih
      _ = base ^ (d :: ds).length := by rw [List.length_cons, pow_succ]; ring

theorem positionalValue_replicate {d : α} (hd : digit d = 0) (n : Nat) :
    positionalValue digit base (List.replicate n d) = 0 := by
  induction n with
  | zero => rfl
  | succ n ih => simp [List.replicate_succ, ih, hd]

theorem positionalValue_injective (hdigit : ∀ d, digit d < base)
    (hinj : Function.Injective digit) {xs ys : List α}
    (hlength : xs.length = ys.length)
    (hvalue : positionalValue digit base xs = positionalValue digit base ys) :
    xs = ys := by
  induction xs generalizing ys with
  | nil =>
    cases ys with
    | nil => rfl
    | cons y ys => simp at hlength
  | cons x xs ih =>
    cases ys with
    | nil => simp at hlength
    | cons y ys =>
      simp only [positionalValue_cons] at hvalue
      have hbase : 0 < base := lt_of_le_of_lt (Nat.zero_le _) (hdigit x)
      have hlow : digit x = digit y := by
        have := congrArg (· % base) hvalue
        simpa [Nat.add_mul_mod_self_left, Nat.mod_eq_of_lt (hdigit _)] using this
      have hhigh : positionalValue digit base xs = positionalValue digit base ys := by
        rw [hlow] at hvalue
        exact Nat.eq_of_mul_eq_mul_left hbase (Nat.add_left_cancel hvalue)
      rw [hinj hlow, ih (by simpa using hlength) hhigh]

theorem positionalValue_testBit {width : Nat} (hwidth : 0 < width)
    (hdigit : ∀ d, digit d < 2 ^ width) (ds : List α) (i : Nat) :
    (positionalValue digit (2 ^ width) ds).testBit i =
      ((ds[i / width]?.map digit).getD 0).testBit (i % width) := by
  induction ds generalizing i with
  | nil => simp
  | cons d ds ih =>
    rw [positionalValue_cons, Nat.add_comm, Nat.testBit_two_pow_mul_add _ (hdigit d)]
    by_cases hi : i < width
    · simp [hi, Nat.div_eq_of_lt hi, Nat.mod_eq_of_lt hi]
    · obtain ⟨j, rfl⟩ := Nat.exists_eq_add_of_le (Nat.le_of_not_lt hi)
      simp [hwidth, ih j]

end Positional

/-! ## Comparison by scanning digits -/

section Scan

variable {α : Type} (digit : α → Nat)

def scanCompare : List α → List α → Ordering
  | x :: xs, y :: ys =>
    if digit x < digit y then .lt
    else if digit y < digit x then .gt
    else scanCompare xs ys
  | _, _ => .eq

variable {digit} {xs ys : List α} {i : Nat}

theorem scanCompare_self (xs : List α) : scanCompare digit xs xs = .eq := by
  induction xs with
  | nil => rfl
  | cons x xs ih => simp [scanCompare, ih]

variable {base j : Nat}

theorem scanCompare_reverse (hdigit : ∀ d, digit d < base) (hlength : xs.length = ys.length) :
    scanCompare digit xs ys =
      compare (positionalValue digit base xs.reverse)
        (positionalValue digit base ys.reverse) := by
  induction xs generalizing ys with
  | nil =>
    cases ys with
    | nil => rfl
    | cons y ys => simp at hlength
  | cons x xs ih =>
    cases ys with
    | nil => simp at hlength
    | cons y ys =>
      simp only [List.length_cons, Nat.add_right_cancel_iff] at hlength
      have hx := positionalValue_lt hdigit xs.reverse
      have hy := positionalValue_lt hdigit ys.reverse
      simp only [List.reverse_cons, positionalValue_append, List.length_reverse,
        positionalValue_cons, positionalValue_nil, Nat.mul_zero, Nat.add_zero,
        scanCompare] at hx hy ⊢
      rw [hlength] at hx ⊢
      -- a smaller leading digit outweighs every lower digit
      have hlead : ∀ {a b u v : Nat}, u < base ^ ys.length → a < b →
          u + base ^ ys.length * a < v + base ^ ys.length * b := by
        intro a b u v hu hab
        calc u + base ^ ys.length * a
            < base ^ ys.length + base ^ ys.length * a := by omega
          _ = base ^ ys.length * (a + 1) := by ring
          _ ≤ base ^ ys.length * b := Nat.mul_le_mul_left _ hab
          _ ≤ v + base ^ ys.length * b := Nat.le_add_left _ _
      rcases Nat.lt_trichotomy (digit x) (digit y) with hlt | heq | hgt
      · rw [if_pos hlt, eq_comm, Nat.compare_eq_lt]
        exact hlead hx hlt
      · rw [if_neg (by omega), if_neg (by omega), ih hlength, heq]
        simp only [Nat.compare_eq_ite_lt, Nat.add_lt_add_iff_right]
      · rw [if_neg (by omega), if_pos hgt, eq_comm, Nat.compare_eq_gt]
        exact hlead hy hgt

/-! ## Scanning from either end

The two scan directions are two orders on numerals of one length: the first
difference decides one, the last difference decides the other. -/

structure FirstDiff (xs ys : List α) (i : Nat) : Prop where
  before : ∀ j < i, xs[j]? = ys[j]?
  differ : xs[i]? ≠ ys[i]?

structure LastDiff (xs ys : List α) (i : Nat) : Prop where
  after : ∀ j, i < j → xs[j]? = ys[j]?
  differ : xs[i]? ≠ ys[i]?

variable (digit) in
def digitAt (xs : List α) (i : Nat) : Nat := (xs[i]?.map digit).getD 0

variable (digit) in
/-- The first and the last position where the numerals differ order them alike. -/
def SameOrderAtEnds (xs ys : List α) : Prop :=
  ∀ i j, FirstDiff xs ys i → LastDiff xs ys j →
    (digitAt digit xs i < digitAt digit ys i ↔ digitAt digit xs j < digitAt digit ys j)

theorem exists_firstDiff (h : xs ≠ ys) : ∃ i, FirstDiff xs ys i := by
  classical
  have hex : ∃ i : Nat, xs[i]? ≠ ys[i]? := by
    by_contra hall
    simp only [not_exists, ne_eq, not_not] at hall
    exact h (List.ext_getElem? hall)
  exact ⟨Nat.find hex, fun j hj => not_not.mp (Nat.find_min hex hj), Nat.find_spec hex⟩

theorem exists_lastDiff (h : xs ≠ ys) : ∃ i, LastDiff xs ys i := by
  classical
  -- Beyond both lists there is no difference, so the differences are bounded.
  have hbound : ∀ i, xs[i]? ≠ ys[i]? → i ≤ max xs.length ys.length := by
    intro i hi
    by_contra hgt
    exact hi (by rw [List.getElem?_eq_none (by omega), List.getElem?_eq_none (by omega)])
  obtain ⟨i, hi⟩ := exists_firstDiff h
  refine ⟨Nat.findGreatest (fun i => xs[i]? ≠ ys[i]?) (max xs.length ys.length), ?_,
    Nat.findGreatest_spec (P := fun i => xs[i]? ≠ ys[i]?) (hbound i hi.differ) hi.differ⟩
  intro j hj
  by_contra hdiffer
  exact Nat.findGreatest_is_greatest hj (hbound j hdiffer) hdiffer

theorem FirstDiff.unique (hi : FirstDiff xs ys i) (hj : FirstDiff xs ys j) : i = j := by
  rcases Nat.lt_trichotomy i j with hlt | heq | hgt
  · exact absurd (hj.before i hlt) hi.differ
  · exact heq
  · exact absurd (hi.before j hgt) hj.differ

theorem LastDiff.unique (hi : LastDiff xs ys i) (hj : LastDiff xs ys j) : i = j := by
  rcases Nat.lt_trichotomy i j with hlt | heq | hgt
  · exact absurd (hi.after j hlt) hj.differ
  · exact heq
  · exact absurd (hj.after i hgt) hi.differ

theorem SameOrderAtEnds.of_diffs (hi : FirstDiff xs ys i) (hj : LastDiff xs ys j)
    (h : digitAt digit xs i < digitAt digit ys i ↔ digitAt digit xs j < digitAt digit ys j) :
    SameOrderAtEnds digit xs ys := by
  intro i' j' hi' hj'
  rw [hi'.unique hi, hj'.unique hj]
  exact h

theorem FirstDiff.scanCompare_eq_lt_iff (hinj : Function.Injective digit)
    (hlength : xs.length = ys.length) (h : FirstDiff xs ys i) :
    scanCompare digit xs ys = .lt ↔ digitAt digit xs i < digitAt digit ys i := by
  induction xs generalizing ys i with
  | nil =>
    obtain rfl := List.length_eq_zero_iff.mp hlength.symm
    exact absurd rfl h.differ
  | cons x xs ih =>
    cases ys with
    | nil => cases hlength
    | cons y ys =>
      cases i with
      | zero =>
        have hne : digit x ≠ digit y := fun heq => h.differ (by rw [hinj heq]; rfl)
        rcases Nat.lt_or_gt_of_ne hne with hlt | hgt
        · simp [scanCompare, digitAt, hlt]
        · simp [scanCompare, digitAt, hgt, hgt.le]
      | succ i =>
        obtain rfl : x = y := by simpa using h.before 0 (Nat.succ_pos i)
        have htail : FirstDiff xs ys i :=
          ⟨fun j hj => h.before (j + 1) (Nat.succ_lt_succ hj), h.differ⟩
        rw [scanCompare, if_neg (lt_irrefl _), if_neg (lt_irrefl _),
          ih (Nat.succ.inj hlength) htail]
        rfl

theorem LastDiff.value_lt_iff (hdigit : ∀ d, digit d < base) (hinj : Function.Injective digit)
    (hlength : xs.length = ys.length) (h : LastDiff xs ys i) :
    positionalValue digit base xs < positionalValue digit base ys ↔
      digitAt digit xs i < digitAt digit ys i := by
  induction xs generalizing ys i with
  | nil =>
    obtain rfl := List.length_eq_zero_iff.mp hlength.symm
    exact absurd rfl h.differ
  | cons x xs ih =>
    cases ys with
    | nil => cases hlength
    | cons y ys =>
      have hlength := Nat.succ.inj hlength
      cases i with
      | zero =>
        obtain rfl : xs = ys := List.ext_getElem? fun j => h.after (j + 1) (Nat.succ_pos j)
        simp [digitAt]
      | succ i =>
        have htail : LastDiff xs ys i :=
          ⟨fun j hj => h.after (j + 1) (Nat.succ_lt_succ hj), h.differ⟩
        have hne : positionalValue digit base xs ≠ positionalValue digit base ys :=
          fun heq => h.differ
            (by rw [positionalValue_injective hdigit hinj hlength heq]; rfl)
        refine Iff.trans ?_ (ih hlength htail)
        rw [positionalValue_cons, positionalValue_cons]
        have hx := hdigit x
        have hy := hdigit y
        -- The upper digits differ, so they outweigh the lowest one.
        rcases Nat.lt_or_gt_of_ne hne with hlt | hgt
        · have := Nat.mul_le_mul_left base (Nat.succ_le_of_lt hlt)
          rw [Nat.mul_succ] at this
          omega
        · have := Nat.mul_le_mul_left base (Nat.succ_le_of_lt hgt)
          rw [Nat.mul_succ] at this
          omega

/-- A scan from the least significant digit is the numeric order exactly where the
first and the last difference agree. -/
theorem scanCompare_lt_iff_value_lt_iff (hdigit : ∀ d, digit d < base)
    (hinj : Function.Injective digit) (hlength : xs.length = ys.length) :
    (scanCompare digit xs ys = .lt ↔
        positionalValue digit base xs < positionalValue digit base ys) ↔
      SameOrderAtEnds digit xs ys := by
  constructor
  · intro hagree i j hi hj
    rw [← hi.scanCompare_eq_lt_iff hinj hlength, hagree, hj.value_lt_iff hdigit hinj hlength]
  · intro hends
    by_cases heq : xs = ys
    · subst heq
      simp [scanCompare_self]
    · obtain ⟨i, hi⟩ := exists_firstDiff heq
      obtain ⟨j, hj⟩ := exists_lastDiff heq
      rw [hi.scanCompare_eq_lt_iff hinj hlength, hj.value_lt_iff hdigit hinj hlength]
      exact hends i j hi hj

end Scan

end HcsCoin.Foundation
