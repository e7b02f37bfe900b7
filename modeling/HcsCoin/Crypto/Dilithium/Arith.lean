import HcsCoin.Foundation.Butterfly
import HcsCoin.Foundation.Ensures
import Mathlib.Data.ZMod.Basic
import Mathlib.GroupTheory.GroupAction.Ring
import Mathlib.Tactic.Linarith

/-!
# Arithmetic modulo Q in dilithium.c

Signed operations of the C code are operations on `Int` that fail when the
result does not fit the type.  The argument range in which Montgomery reduction
is exact is checked in the same way, so that a computation that returns has
kept to it.  Each function comes with a judgement that says what residue it
computes and how far the result can be from zero; the transform and its inverse
are butterfly networks over the residues.
-/

namespace HcsCoin.Dilithium

open Foundation

inductive Fault where
  /-- A signed operation does not fit its type. -/
  | overflow
  /-- An argument of `dil_montgomery_reduce` outside `[-2^31 Q, 2^31 Q]`. -/
  | reduction
  /-- A rejection loop has not ended after as many rounds as the model allows. -/
  | timeout
  deriving DecidableEq

abbrev Exec := Except Fault

def int32 (x : Int) : Exec Int :=
  if -2 ^ 31 ≤ x ∧ x < 2 ^ 31 then pure x else throw .overflow

def int64 (x : Int) : Exec Int :=
  if -2 ^ 63 ≤ x ∧ x < 2 ^ 63 then pure x else throw .overflow

def signMask (a x : Int) : Int := if a < 0 then x else 0

def DIL_Q : Int := 8380417
def DIL_QINV : Int := 58728449

/-! ## Reductions -/

def dilMontgomeryReduce (a : Int) : Exec Int := do
  if |a| > 2 ^ 31 * DIL_Q then throw .reduction
  let t := (a % 2 ^ 32 * DIL_QINV).bmod (2 ^ 32)
  pure ((← int64 (a - (← int64 (t * DIL_Q)))) >>> (32 : Nat))

def dilReduce32 (a : Int) : Exec Int := do
  let t := (← int32 (a + 2 ^ 22)) >>> (23 : Nat)
  int32 (a - (← int32 (t * DIL_Q)))

def dilCaddq (a : Int) : Exec Int := int32 (a + signMask a DIL_Q)

/-! ## The twiddle table -/

/-- The loop of `dil_powmod`; an exponent of 32 bits is zero after 32 halvings. -/
def powmodLoop : (fuel : Nat) → (r b exp : Nat) → Nat
  | 0, r, _, _ => r
  | fuel + 1, r, b, exp =>
    if exp = 0 then r
    else powmodLoop fuel (if exp % 2 = 1 then r * b % 8380417 else r) (b * b % 8380417) (exp / 2)

def dilPowmod (base exp : Nat) : Nat := powmodLoop 32 1 (base % 8380417) exp

def dilBrv8 (x : UInt8) : UInt8 :=
  let x := ((x &&& 0x55) <<< 1) ||| ((x >>> 1) &&& 0x55)
  let x := ((x &&& 0x33) <<< 2) ||| ((x >>> 2) &&& 0x33)
  (x <<< 4) ||| (x >>> 4)

def dilZetas (k : Nat) : Int :=
  if k = 0 then 0
  else
    let t : Int := (dilPowmod 1753 (dilBrv8 (.ofNat k)).toNat * 2 ^ 32 % 8380417 : Nat)
    if t > DIL_Q / 2 then t - DIL_Q else t

example : dilZetas 1 = 25847 ∧ dilZetas 2 = -2608894 := by decide

/-! ## The transform -/

abbrev Poly := Vector Int 256

scoped instance neZeroN : NeZero 256 := ⟨by decide⟩

def nttButterfly (zeta u v : Int) : Exec (Int × Int) := do
  let t ← dilMontgomeryReduce (← int64 (zeta * v))
  pure (← int32 (u + t), ← int32 (u - t))

def invnttButterfly (zeta u v : Int) : Exec (Int × Int) := do
  let sum ← int32 (u + v)
  let difference ← int32 (u - v)
  pure (sum, ← dilMontgomeryReduce (← int64 (zeta * difference)))

def blockLoop (next : Nat → Nat) (f : Nat → Int → Int → Exec (Int × Int)) (len : Nat)
    (s : Nat × Poly) (start : Nat) : Exec (Nat × Poly) := do
  let k := next s.1
  let a ← (List.range' start len).foldlM
    (fun a j => modifyPair (f k) a (.ofNat 256 j) (.ofNat 256 (j + len))) s.2
  pure (k, a)

def levelLoop (next : Nat → Nat) (f : Nat → Int → Int → Exec (Int × Int))
    (s : Nat × Poly) (len : Nat) : Exec (Nat × Poly) :=
  (List.range' 0 (256 / (2 * len)) (2 * len)).foldlM (blockLoop next f len) s

def dilNtt (a : Poly) : Exec Poly := do
  let s ← [128, 64, 32, 16, 8, 4, 2, 1].foldlM
    (levelLoop (· + 1) fun k => nttButterfly (dilZetas k)) (0, a)
  pure s.2

def dilInvnttTomont (a : Poly) : Exec Poly := do
  let s ← [1, 2, 4, 8, 16, 32, 64, 128].foldlM
    (levelLoop (· - 1) fun k => invnttButterfly (-dilZetas k)) (256, a)
  tabulate 256 fun j => do dilMontgomeryReduce (← int64 (41978 * s.2[j]))

/-! ## Residues and bounds -/

abbrev Zq := ZMod 8380417

def montInv : Zq := 8265825

theorem montInv_mul : (2 ^ 32 : Zq) * montInv = 1 := by decide

variable {x A y C u v zeta : Int} {k k' t : Nat}

theorem int32_eq (h : -2 ^ 31 ≤ x ∧ x < 2 ^ 31) : int32 x = .ok x := if_pos h

theorem int64_eq (h : -2 ^ 63 ≤ x ∧ x < 2 ^ 63) : int64 x = .ok x := if_pos h

theorem intCast_eq_of_dvd {a b : Int} (h : DIL_Q ∣ b - a) : (a : Zq) = b :=
  (ZMod.intCast_eq_intCast_iff_dvd_sub a b 8380417).mpr h

/-- The multiple of `Q` that Montgomery reduction takes away makes the argument
divisible by `2 ^ 32`. -/
theorem dvd_sub_bmod (a : Int) :
    (2 ^ 32 : Int) ∣ a - (a % 2 ^ 32 * DIL_QINV).bmod (2 ^ 32) * DIL_Q := by
  have hbmod : (2 ^ 32 : Int) ∣ a % 2 ^ 32 * DIL_QINV - (a % 2 ^ 32 * DIL_QINV).bmod (2 ^ 32) :=
    Int.dvd_self_sub_bmod
  have hmod : (2 ^ 32 : Int) ∣ a - a % 2 ^ 32 := Int.dvd_self_sub_emod
  have hunit : (2 ^ 32 : Int) ∣ 1 - DIL_QINV * DIL_Q := by decide
  have hsplit : a - (a % 2 ^ 32 * DIL_QINV).bmod (2 ^ 32) * DIL_Q =
      (a - a % 2 ^ 32) + (1 - DIL_QINV * DIL_Q) * (a % 2 ^ 32) +
        (a % 2 ^ 32 * DIL_QINV - (a % 2 ^ 32 * DIL_QINV).bmod (2 ^ 32)) * DIL_Q := by
    ring
  rw [hsplit]
  exact ((hmod.add (hunit.mul_right _)).add (hbmod.mul_right _))

theorem bmod_bounds (x : Int) : -2 ^ 31 ≤ x.bmod (2 ^ 32) ∧ x.bmod (2 ^ 32) < 2 ^ 31 := by
  have hlow := Int.le_bmod (x := x) (m := 2 ^ 32) (by decide)
  have hhigh := Int.bmod_lt (x := x) (m := 2 ^ 32) (by decide)
  exact ⟨hlow, hhigh⟩

variable {E : Fault → Prop} {a : Poly} {B : Int} {f : Nat → Int → Int → Exec (Int × Int)}
  {s : Fin 8} {index : Fin 256 → Nat} {next : Nat → Nat}

theorem dilMontgomeryReduce_ensures {a : Int} (ha : |a| ≤ 2 ^ 31 * DIL_Q) :
    Ensures E (dilMontgomeryReduce a) fun t =>
      (t : Zq) = a * montInv ∧ 2 ^ 32 * |t| ≤ |a| + 2 ^ 31 * DIL_Q := by
  obtain ⟨r, hr⟩ := dvd_sub_bmod a
  obtain ⟨hlow, hhigh⟩ := bmod_bounds (a % 2 ^ 32 * DIL_QINV)
  rw [dilMontgomeryReduce, if_neg (not_lt.mpr ha)]
  generalize (a % 2 ^ 32 * DIL_QINV).bmod (2 ^ 32) = t at hr hlow hhigh
  simp only [DIL_Q] at ha hr ⊢
  rw [abs_le] at ha
  rw [int64_eq (by omega), ok_bind, int64_eq (by omega), ok_bind]
  have hshift : (a - t * 8380417) >>> (32 : Nat) = r := by
    rw [Int.shiftRight_eq_div_pow, hr]
    omega
  rw [hshift]
  refine Ensures.pure ⟨?_, ?_⟩
  · have hcast : (a : Zq) = 2 ^ 32 * r := by
      have hzero : (8380417 : Zq) = 0 := by decide
      have := congrArg (Int.cast : Int → Zq) hr
      push_cast at this
      linear_combination this + t * hzero
    rw [hcast]
    linear_combination -(r : Zq) * montInv_mul
  · rcases abs_cases r with ⟨h, -⟩ | ⟨h, -⟩ <;> rcases abs_cases a with ⟨h', h''⟩ | ⟨h', h''⟩ <;>
      rw [h, h'] <;> omega

theorem dilReduce32_ensures {a : Int} (ha : |a| < 2 ^ 31 - 2 ^ 22) :
    Ensures E (dilReduce32 a) fun t => (t : Zq) = a ∧ |t| ≤ 6283008 := by
  rw [abs_lt] at ha
  rw [dilReduce32, int32_eq (by omega), ok_bind, Int.shiftRight_eq_div_pow]
  simp only [DIL_Q]
  rw [int32_eq (by omega), ok_bind]
  refine Ensures.of_eq_ok (int32_eq (by omega)) ⟨intCast_eq_of_dvd ?_, ?_⟩
  · exact ⟨(a + 2 ^ 22) / 2 ^ 23, by rw [DIL_Q]; push_cast; ring⟩
  · rw [abs_le]
    omega

theorem dilCaddq_ensures {a : Int} (ha : |a| < DIL_Q) :
    Ensures E (dilCaddq a) fun t => (t : Zq) = a ∧ 0 ≤ t ∧ t < DIL_Q := by
  rw [abs_lt] at ha
  rw [dilCaddq, signMask]
  simp only [DIL_Q] at ha ⊢
  split
  · refine Ensures.of_eq_ok (int32_eq (by omega)) ⟨intCast_eq_of_dvd ⟨-1, ?_⟩, by omega, by omega⟩
    rw [DIL_Q]
    ring
  · refine Ensures.of_eq_ok (int32_eq (by omega)) ⟨?_, by omega, by omega⟩
    rw [add_zero]

/-! ## The schedule of the transforms -/

def low (s : Fin 8) (i : Fin 256) : Bool := !i.val.testBit s

def partner (s : Fin 8) (i : Fin 256) : Fin 256 :=
  ⟨i.val ^^^ 2 ^ s.val, Nat.xor_lt_two_pow (n := 8) i.isLt
    (Nat.pow_lt_pow_right (by decide) s.isLt)⟩

/-- The index into the table for the pair of `i` on the way forward and on the way
back. -/
def forwardIndex (s : Fin 8) (i : Fin 256) : Nat := 2 ^ (7 - s.val) + i.val / 2 ^ (s.val + 1)

def backwardIndex (s : Fin 8) (i : Fin 256) : Nat := 2 ^ (8 - s.val) - 1 - i.val / 2 ^ (s.val + 1)

theorem partner_facts : ∀ (s : Fin 8) (i : Fin 256),
    partner s (partner s i) = i ∧ low s (partner s i) = !low s i ∧
      backwardIndex s (partner s i) = backwardIndex s i ∧
      forwardIndex s (partner s i) = forwardIndex s i ∧
      (low s i = true → i.val + 2 ^ s.val = (partner s i).val) := by
  decide +kernel

theorem zetas_mirror : ∀ (s : Fin 8) (b : Fin (2 ^ (7 - s.val))),
    (dilZetas (2 ^ (7 - s.val) + b.val) : Zq) * montInv *
      (-dilZetas (2 ^ (8 - s.val) - 1 - b.val) * montInv) = 1 := by
  decide +kernel

theorem block_lt (s : Fin 8) (i : Fin 256) : i.val / 2 ^ (s.val + 1) < 2 ^ (7 - s.val) := by
  rw [Nat.div_lt_iff_lt_mul (Nat.two_pow_pos _), ← Nat.pow_add,
    show 7 - s.val + (s.val + 1) = 8 by omega]
  exact i.isLt

def layer (s : Fin 8) : ButterflyLayer (Fin 256) Zq where
  partner := partner s
  low := low s
  zeta i := dilZetas (forwardIndex s i) * montInv
  eta i := -dilZetas (backwardIndex s i) * montInv
  partner_partner i := (partner_facts s i).1
  low_partner i := (partner_facts s i).2.1
  eta_partner i := by rw [(partner_facts s i).2.2.1]
  zeta_mul_eta i := zetas_mirror s ⟨i.val / 2 ^ (s.val + 1), block_lt s i⟩

def rounds (next : Nat → Nat) (len : Nat) : Nat → List Nat → List (Nat × Nat)
  | _, [] => []
  | k, start :: starts =>
    (List.range' start len).map (fun j => (next k, j)) ++ rounds next len (next k) starts

def levelStarts (s : Fin 8) : List Nat :=
  List.range' 0 (256 / (2 * 2 ^ s.val)) (2 * 2 ^ s.val)

theorem forward_rounds : ∀ s : Fin 8,
    rounds (· + 1) (2 ^ s.val) (2 ^ (7 - s.val) - 1) (levelStarts s) =
      ((List.finRange 256).filter (low s)).map (fun i => (forwardIndex s i, i.val)) ∧
    (levelStarts s).foldl (fun k _ => k + 1) (2 ^ (7 - s.val) - 1) = 2 ^ (8 - s.val) - 1 := by
  decide +kernel

theorem backward_rounds : ∀ s : Fin 8,
    rounds (· - 1) (2 ^ s.val) (2 ^ (8 - s.val)) (levelStarts s) =
      ((List.finRange 256).filter (low s)).map (fun i => (backwardIndex s i, i.val)) ∧
    (levelStarts s).foldl (fun k _ => k - 1) (2 ^ (8 - s.val)) = 2 ^ (7 - s.val) := by
  decide +kernel

theorem blockLoops_eq (next : Nat → Nat) (f : Nat → Int → Int → Exec (Int × Int)) (len : Nat)
    (starts : List Nat) (k : Nat) (a : Poly) :
    starts.foldlM (blockLoop next f len) (k, a) =
      (rounds next len k starts).foldlM
          (fun a r => modifyPair (f r.1) a (.ofNat 256 r.2) (.ofNat 256 (r.2 + len))) a >>=
        fun a => pure (starts.foldl (fun k _ => next k) k, a) := by
  induction starts generalizing k a with
  | nil => rfl
  | cons start starts ih =>
    rw [List.foldlM_cons, rounds, List.foldlM_append, List.foldlM_map, blockLoop]
    simp only [bind_assoc, pure_bind]
    exact bind_congr fun a => ih (next k) a

theorem disjointRounds_level (s : Fin 8) :
    DisjointRounds id (partner s) ((List.finRange 256).filter (low s)) := by
  have hne : ∀ i j, low s i = true → low s j = true → i ≠ partner s j := by
    intro i j hi hj heq
    rw [heq, (partner_facts s j).2.1, hj] at hi
    exact Bool.false_ne_true hi
  refine ⟨fun i hi => ?_, ?_⟩
  · have hlow := (List.mem_filter.mp hi).2
    exact hne i i hlow hlow
  · refine (List.nodup_finRange 256).filter _ |>.imp_of_mem fun {i j} hi hj hij => ?_
    have hi := (List.mem_filter.mp hi).2
    have hj := (List.mem_filter.mp hj).2
    refine ⟨hij, hne i j hi hj, (hne j i hj hi).symm, fun heq => hij ?_⟩
    rw [← (partner_facts s i).1, heq, (partner_facts s j).1]

/-- What holds of every butterfly of a level on the entries before it holds of the
entries after it. -/
theorem levelLoop_ensures {P : Fin 256 → Int → Int → Prop}
    (hrounds : rounds next (2 ^ s.val) k (levelStarts s) =
        ((List.finRange 256).filter (low s)).map (fun i => (index i, i.val)) ∧
      (levelStarts s).foldl (fun k _ => next k) k = k')
    (hf : ∀ i, low s i = true → Ensures E (f (index i) a[i] a[partner s i]) fun r => P i r.1 r.2) :
    Ensures E (levelLoop next f (k, a) (2 ^ s.val)) fun r =>
      r.1 = k' ∧ ∀ i, low s i = true → P i r.2[i] r.2[partner s i] := by
  have hround : ∀ i ∈ (List.finRange 256).filter (low s), ∀ a : Poly,
      modifyPair (f (index i)) a (.ofNat 256 i.val) (.ofNat 256 (i.val + 2 ^ s.val)) =
        modifyPair (f (index i)) a i (partner s i) := by
    intro i hi a
    rw [(partner_facts s i).2.2.2.2 (List.mem_filter.mp hi).2, Fin.ofNat_val_eq_self,
      Fin.ofNat_val_eq_self]
  rw [levelLoop, ← levelStarts, blockLoops_eq, hrounds.2, hrounds.1, List.foldlM_map,
    foldlM_congr hround]
  have hloop := Ensures.pairLoop (E := E) (f := fun i => f (index i)) (a := a) (P := P)
    (disjointRounds_level s) fun i hi => hf i (List.mem_filter.mp hi).2
  refine hloop.bind fun b hb => ?_
  refine Ensures.pure ⟨rfl, fun i hi => ?_⟩
  exact hb.1 i (List.mem_filter.mpr ⟨List.mem_finRange i, hi⟩)

/-! ## The transforms as networks -/

def Bounded (B : Int) (a : Poly) : Prop := ∀ i : Fin 256, |a[i]| ≤ B

def residues (a : Poly) (i : Fin 256) : Zq := (a[i] : Zq)

theorem abs_dilZetas_le (k : Nat) : |dilZetas k| ≤ 4190208 := by
  rw [dilZetas]
  split
  · decide
  · have h := Nat.mod_lt (dilPowmod 1753 (dilBrv8 (.ofNat k)).toNat * 2 ^ 32)
      (show 8380417 > 0 by decide)
    generalize dilPowmod 1753 (dilBrv8 (.ofNat k)).toNat * 2 ^ 32 % 8380417 = t at h
    dsimp only
    split <;>
      simp only [DIL_Q] at * <;>
      exact abs_le.mpr ⟨by omega, by omega⟩

theorem abs_mul_le (hx : |x| ≤ A) (hy : |y| ≤ B) : |x * y| ≤ A * B := by
  rw [abs_mul]
  exact mul_le_mul hx hy (abs_nonneg y) ((abs_nonneg x).trans hx)

theorem reduceProduct_ensures (hx : |x| ≤ A) (hy : |y| ≤ B) (hAB : A * B ≤ 2 ^ 31 * DIL_Q)
    (hC : A * B + 2 ^ 31 * DIL_Q < 2 ^ 32 * (C + 1)) :
    Ensures E (int64 (x * y) >>= dilMontgomeryReduce) fun t =>
      (t : Zq) = x * montInv * y ∧ |t| ≤ C := by
  have hproduct := abs_mul_le hx hy
  have hbounds := abs_le.mp (hproduct.trans hAB)
  rw [DIL_Q] at hbounds
  rw [int64_eq (by omega)]
  refine (dilMontgomeryReduce_ensures (hproduct.trans hAB)).mono fun t ht => ⟨?_, ?_⟩
  · rw [ht.1]
    push_cast
    ring
  · have := ht.2
    omega

theorem nttButterfly_ensures (hzeta : |zeta| ≤ 4190208) (hu : |u| ≤ B) (hv : |v| ≤ B)
    (hB : B + DIL_Q < 2 ^ 31) :
    Ensures E (nttButterfly zeta u v) fun r =>
      ((r.1 : Zq) = u + zeta * montInv * v ∧ (r.2 : Zq) = u - zeta * montInv * v) ∧
        |r.1| ≤ B + DIL_Q ∧ |r.2| ≤ B + DIL_Q := by
  rw [DIL_Q] at hB
  rw [nttButterfly, ← bind_assoc]
  have hv : |v| ≤ 2 ^ 31 := by omega
  refine (reduceProduct_ensures (C := 6285312) hzeta hv (by decide) (by decide)).bind fun t ht => ?_
  have htb := abs_le.mp ht.2
  have hub := abs_le.mp hu
  rw [int32_eq (by omega), int32_eq (by omega), ok_bind, ok_bind, DIL_Q]
  refine Ensures.pure ⟨⟨?_, ?_⟩, abs_le.mpr ⟨?_, ?_⟩, abs_le.mpr ⟨?_, ?_⟩⟩
  · push_cast
    rw [ht.1]
  · push_cast
    rw [ht.1]
  all_goals
    dsimp only
    omega

theorem invnttButterfly_ensures (hzeta : |zeta| ≤ 4190208) (hu : |u| ≤ B) (hv : |v| ≤ B)
    (hlow : 6285312 ≤ 2 * B) (hB : 2 * B < 2 ^ 31) :
    Ensures E (invnttButterfly zeta u v) fun r =>
      ((r.1 : Zq) = u + v ∧ (r.2 : Zq) = zeta * montInv * (u - v)) ∧
        |r.1| ≤ 2 * B ∧ |r.2| ≤ 2 * B := by
  have hub := abs_le.mp hu
  have hvb := abs_le.mp hv
  have hdiff : |u - v| ≤ 2 ^ 31 := abs_le.mpr ⟨by omega, by omega⟩
  rw [invnttButterfly, int32_eq (by omega), int32_eq (by omega), ok_bind, ok_bind, ← bind_assoc]
  refine (reduceProduct_ensures (C := 6285312) hzeta hdiff (by decide) (by decide)).bind fun t ht =>
    Ensures.pure ?_
  have htb := abs_le.mp ht.2
  refine ⟨⟨?_, ?_⟩, abs_le.mpr ⟨?_, ?_⟩, abs_le.mpr ⟨?_, ?_⟩⟩
  · push_cast
    rfl
  · rw [ht.1]
    push_cast
    rfl
  all_goals
    dsimp only
    omega

theorem forall_of_pairs {P : Fin 256 → Prop} (h : ∀ i, low s i = true → P i ∧ P (partner s i))
    (i : Fin 256) : P i := by
  cases hlow : low s i with
  | true => exact (h i hlow).1
  | false =>
    have hpartner : low s (partner s i) = true := by
      rw [(partner_facts s i).2.1, hlow]
      rfl
    have := (h (partner s i) hpartner).2
    rwa [(partner_facts s i).1] at this

theorem high_partner {i : Fin 256} (h : low s i = true) : low s (partner s i) = false := by
  rw [(partner_facts s i).2.1, h]
  rfl

theorem level_ensures {T : Fin 256 → Zq}
    (hrounds : rounds next (2 ^ s.val) k (levelStarts s) =
        ((List.finRange 256).filter (low s)).map (fun i => (index i, i.val)) ∧
      (levelStarts s).foldl (fun k _ => next k) k = k')
    (hf : ∀ i, low s i = true → Ensures E (f (index i) a[i] a[partner s i]) fun r =>
      ((r.1 : Zq) = T i ∧ (r.2 : Zq) = T (partner s i)) ∧ |r.1| ≤ C ∧ |r.2| ≤ C) :
    Ensures E (levelLoop next f (k, a) (2 ^ s.val)) fun r =>
      r.1 = k' ∧ residues r.2 = T ∧ Bounded C r.2 := by
  refine (levelLoop_ensures (P := fun i x y =>
    ((x : Zq) = T i ∧ (y : Zq) = T (partner s i)) ∧ |x| ≤ C ∧ |y| ≤ C) hrounds hf).mono ?_
  rintro r ⟨hk, hr⟩
  refine ⟨hk, funext (forall_of_pairs (s := s) fun i hi => (hr i hi).1), ?_⟩
  exact forall_of_pairs (s := s) fun i hi => (hr i hi).2

theorem nttLevel_ensures (s : Fin 8) (ha : Bounded B a) (hB : B + DIL_Q < 2 ^ 31) :
    Ensures E (levelLoop (· + 1) (fun k => nttButterfly (dilZetas k)) (2 ^ (7 - s.val) - 1, a)
        (2 ^ s.val)) fun r =>
      r.1 = 2 ^ (8 - s.val) - 1 ∧ residues r.2 = (layer s).forward (residues a) ∧
        Bounded (B + DIL_Q) r.2 := by
  refine level_ensures (forward_rounds s) fun i hi => ?_
  refine (nttButterfly_ensures (abs_dilZetas_le _) (ha i) (ha (partner s i)) hB).mono ?_
  rintro r ⟨⟨h₁, h₂⟩, hbounds⟩
  refine ⟨⟨h₁.trans ((layer s).forward_of_low hi (residues a)).symm, h₂.trans ?_⟩, hbounds⟩
  rw [(layer s).forward_of_high (high_partner hi) (residues a)]
  dsimp only [layer, residues]
  rw [(partner_facts s i).1, (partner_facts s i).2.2.2.1]

theorem invnttLevel_ensures (s : Fin 8)
    (ha : Bounded B a) (hlow : 6285312 ≤ 2 * B) (hB : 2 * B < 2 ^ 31) :
    Ensures E (levelLoop (· - 1) (fun k => invnttButterfly (-dilZetas k)) (2 ^ (8 - s.val), a)
        (2 ^ s.val)) fun r =>
      r.1 = 2 ^ (7 - s.val) ∧ residues r.2 = (layer s).backward (residues a) ∧
        Bounded (2 * B) r.2 := by
  refine level_ensures (backward_rounds s) fun i hi => ?_
  have hzeta : |(-dilZetas (backwardIndex s i))| ≤ 4190208 := by
    rw [abs_neg]
    exact abs_dilZetas_le _
  refine (invnttButterfly_ensures hzeta (ha i) (ha (partner s i)) hlow hB).mono ?_
  rintro r ⟨⟨h₁, h₂⟩, hbounds⟩
  refine ⟨⟨h₁.trans ((layer s).backward_of_low hi (residues a)).symm, h₂.trans ?_⟩, hbounds⟩
  rw [(layer s).backward_of_high (high_partner hi) (residues a)]
  dsimp only [layer, residues]
  rw [(partner_facts s i).1, (partner_facts s i).2.2.1]
  push_cast
  rfl

def layersBelow : Nat → List (ButterflyLayer (Fin 256) Zq)
  | 0 => []
  | t + 1 => layer (.ofNat 8 t) :: layersBelow t

def lensBelow : Nat → List Nat
  | 0 => []
  | t + 1 => 2 ^ t :: lensBelow t

def ntt : (Fin 256 → Zq) →ₗ[Zq] Fin 256 → Zq := ButterflyNetwork.forward (layersBelow 8)

def invntt : (Fin 256 → Zq) →ₗ[Zq] Fin 256 → Zq :=
  (41978 * montInv : Zq) • ButterflyNetwork.backward (layersBelow 8)

theorem ntt_invntt (x : Fin 256 → Zq) : ntt (invntt x) = (2 ^ 32 : Zq) • x := by
  have hscale : (41978 * montInv : Zq) * 2 ^ 8 = 2 ^ 32 := by decide
  rw [invntt, LinearMap.smul_apply, map_smul, ntt, ButterflyNetwork.forward_backward, smul_smul]
  exact congrArg (· • x) hscale

theorem nttLevels_ensures (ht : t ≤ 8) (ha : Bounded B a) (hB : B + t * DIL_Q < 2 ^ 31) :
    Ensures E ((lensBelow t).foldlM (levelLoop (· + 1) fun k => nttButterfly (dilZetas k))
        (2 ^ (8 - t) - 1, a)) fun r =>
      residues r.2 = ButterflyNetwork.forward (layersBelow t) (residues a) ∧
        Bounded (B + t * DIL_Q) r.2 := by
  induction t generalizing a B with
  | zero => exact Ensures.pure ⟨rfl, by simpa using ha⟩
  | succ t ih =>
    rw [lensBelow, List.foldlM_cons]
    have hlevel : (Fin.ofNat 8 t).val = t := Nat.mod_eq_of_lt ht
    have hstart : 8 - (t + 1) = 7 - t := by omega
    rw [hstart]
    push_cast at hB
    have hQ : (0 : Int) ≤ t * DIL_Q := by rw [DIL_Q]; omega
    have hfirst := nttLevel_ensures (E := E) (.ofNat 8 t) ha (by linarith)
    rw [hlevel] at hfirst
    refine hfirst.bind ?_
    rintro ⟨k, b⟩ ⟨hk, hb, hbound⟩
    dsimp only at hk hb hbound
    rw [hk]
    refine (ih (by omega) hbound (by linarith)).mono ?_
    rintro r ⟨hr, hrbound⟩
    refine ⟨by rw [hr, hb]; rfl, ?_⟩
    have hsum : B + DIL_Q + t * DIL_Q = B + (t + 1 : Nat) * DIL_Q := by push_cast; ring
    rwa [hsum] at hrbound

theorem invnttLevels_ensures (ht : t ≤ 8) (ha : Bounded B a) (hlow : 6285312 ≤ 2 * B)
    (hB : 2 ^ 8 * B < 2 ^ 31) :
    Ensures E ((lensBelow t).reverse.foldlM
        (levelLoop (· - 1) fun k => invnttButterfly (-dilZetas k)) (256, a)) fun r =>
      r.1 = 2 ^ (8 - t) ∧ residues r.2 = ButterflyNetwork.backward (layersBelow t) (residues a) ∧
        Bounded (2 ^ t * B) r.2 := by
  induction t with
  | zero => exact Ensures.pure ⟨rfl, rfl, by simpa using ha⟩
  | succ t ih =>
    rw [lensBelow, List.reverse_cons, List.foldlM_append]
    have hlevel : (Fin.ofNat 8 t).val = t := Nat.mod_eq_of_lt ht
    have hnext : 8 - (t + 1) = 7 - t := by omega
    rw [hnext]
    refine (ih (by omega)).bind ?_
    rintro ⟨k, b⟩ ⟨hk, hb, hbound⟩
    dsimp only at hk hb hbound
    rw [hk, List.foldlM_cons]
    have hpos : (1 : Int) ≤ 2 ^ t := one_le_pow₀ (by decide)
    have hpow : (2 ^ (t + 1) : Int) ≤ 2 ^ 8 := pow_le_pow_right₀ (by decide) ht
    have hB' : 2 * (2 ^ t * B) < 2 ^ 31 := by
      refine lt_of_le_of_lt ?_ hB
      rw [← mul_assoc, ← pow_succ']
      exact mul_le_mul_of_nonneg_right hpow (by omega)
    have hlow' : 6285312 ≤ 2 * (2 ^ t * B) := by nlinarith
    have hlast := invnttLevel_ensures (E := E) (.ofNat 8 t) hbound hlow' hB'
    rw [hlevel] at hlast
    refine hlast.bind ?_
    rintro r ⟨hr, hres, hrbound⟩
    refine Ensures.pure ⟨hr, by rw [hres, hb]; rfl, ?_⟩
    rwa [pow_succ', mul_assoc]

theorem dilNtt_ensures (ha : Bounded B a) (hB : B + 8 * DIL_Q < 2 ^ 31) :
    Ensures E (dilNtt a) fun r => residues r = ntt (residues a) ∧ Bounded (B + 8 * DIL_Q) r := by
  have hlens : [128, 64, 32, 16, 8, 4, 2, 1] = lensBelow 8 := by decide
  rw [dilNtt, hlens]
  exact (nttLevels_ensures (le_refl 8) ha hB).bind fun _ h => Ensures.pure h

theorem dilInvnttTomont_ensures (ha : Bounded B a)
    (hlow : 6285312 ≤ 2 * B) (hB : 2 ^ 8 * B < 2 ^ 31) :
    Ensures E (dilInvnttTomont a) fun r =>
      residues r = invntt (residues a) ∧ Bounded 4211197 r := by
  have hlens : [1, 2, 4, 8, 16, 32, 64, 128] = (lensBelow 8).reverse := by decide
  rw [dilInvnttTomont, hlens]
  refine (invnttLevels_ensures (le_refl 8) ha hlow hB).bind fun s hs => ?_
  have hscale : ∀ j : Fin 256, Ensures E (int64 (41978 * s.2[j]) >>= dilMontgomeryReduce)
      fun t => (t : Zq) = (41978 : Int) * montInv * s.2[j] ∧ |t| ≤ 4211197 :=
    fun j => reduceProduct_ensures (show |(41978 : Int)| ≤ 41978 by decide) (hs.2.2 j)
      (by rw [DIL_Q]; omega) (by rw [DIL_Q]; omega)
  have htable := Ensures.tabulate hscale
  refine htable.mono fun r hr => ⟨funext fun j => ?_, fun j => (hr j).2⟩
  have hj : residues r j = 41978 * montInv * residues s.2 j := by exact_mod_cast (hr j).1
  rw [hj, hs.2.1, invntt, LinearMap.smul_apply, Pi.smul_apply, smul_eq_mul]

-- later modules use the two maps through their laws only
attribute [irreducible] ntt invntt

end HcsCoin.Dilithium
