import HcsCoin.Crypto.Dilithium.Rounding
import Mathlib.Algebra.BigOperators.Fin

/-!
# Polynomials and vectors in dilithium.c

Every operation acts on the coefficients one by one.  The judgements give the
residues of the result and a bound on its coefficients; polynomials in the NTT
domain stay below `10 * Q`, which is small enough for their products.
-/

namespace HcsCoin.Dilithium

open Foundation

abbrev PolyVecL := Vector Poly 7
abbrev PolyVecK := Vector Poly 8

section Definitions

variable {n : Nat}

def polyMap (f : Int → Exec Int) (a : Poly) : Exec Poly := tabulate 256 fun j => f a[j]

def polyZip (f : Int → Int → Exec Int) (a b : Poly) : Exec Poly :=
  tabulate 256 fun j => f a[j] b[j]

def vecMap (f : Poly → Exec Poly) (v : Vector Poly n) : Exec (Vector Poly n) :=
  tabulate n fun i => f v[i]

def vecZip (f : Poly → Poly → Exec Poly) (u v : Vector Poly n) : Exec (Vector Poly n) :=
  tabulate n fun i => f u[i] v[i]

/-! ## Operations -/

def exceeds (bound t : Int) : Exec Bool := do
  let t ← int32 (t - signMask t (← int32 (2 * t)))
  pure (decide (bound ≤ t))

def dilPolyChknorm (bound : Int) (a : Poly) : Exec Bool := a.toList.anyM (exceeds bound)

def vecChknorm (v : Vector Poly n) (bound : Int) : Exec Bool := v.toList.anyM (dilPolyChknorm bound)

def dilPolyveclChknorm : PolyVecL → Int → Exec Bool := vecChknorm
def dilPolyveckChknorm : PolyVecK → Int → Exec Bool := vecChknorm

def dilPolyPointwise : Poly → Poly → Exec Poly :=
  polyZip fun x y => int64 (x * y) >>= dilMontgomeryReduce

def dilPolyveclNtt : PolyVecL → Exec PolyVecL := vecMap dilNtt
def dilPolyveckNtt : PolyVecK → Exec PolyVecK := vecMap dilNtt
def dilPolyveclInvntt : PolyVecL → Exec PolyVecL := vecMap dilInvnttTomont
def dilPolyveckInvntt : PolyVecK → Exec PolyVecK := vecMap dilInvnttTomont

def dilPolyveclPointwisePoly (a : Poly) : PolyVecL → Exec PolyVecL := vecMap (dilPolyPointwise a)
def dilPolyveckPointwisePoly (a : Poly) : PolyVecK → Exec PolyVecK := vecMap (dilPolyPointwise a)

def addPoly : Poly → Poly → Exec Poly := polyZip fun x y => int32 (x + y)
def subPoly : Poly → Poly → Exec Poly := polyZip fun x y => int32 (x - y)

def dilPolyveclPointwiseAcc (u v : PolyVecL) : Exec Poly := do
  let w ← dilPolyPointwise u[0] v[0]
  ([1, 2, 3, 4, 5, 6] : List (Fin 7)).foldlM
    (fun w i => do addPoly w (← dilPolyPointwise u[i] v[i])) w

def dilPolyveckAdd : PolyVecK → PolyVecK → Exec PolyVecK := vecZip addPoly
def dilPolyveckSub : PolyVecK → PolyVecK → Exec PolyVecK := vecZip subPoly
def dilPolyveclAdd : PolyVecL → PolyVecL → Exec PolyVecL := vecZip addPoly

def dilPolyReduce : Poly → Exec Poly := polyMap dilReduce32
def dilPolyveclReduce : PolyVecL → Exec PolyVecL := vecMap dilPolyReduce
def dilPolyveckReduce : PolyVecK → Exec PolyVecK := vecMap dilPolyReduce
def dilPolyveckCaddq : PolyVecK → Exec PolyVecK := vecMap (polyMap dilCaddq)

def vecSplit (f : Int → Exec (Int × Int)) (v : PolyVecK) : Exec (PolyVecK × PolyVecK) := do
  let r ← tabulate 8 fun i => tabulate 256 fun j => f v[i][j]
  pure (r.map (Vector.map Prod.fst), r.map (Vector.map Prod.snd))

def dilPolyveckPower2round : PolyVecK → Exec (PolyVecK × PolyVecK) := vecSplit dilPower2round
def dilPolyveckDecompose : PolyVecK → Exec (PolyVecK × PolyVecK) := vecSplit dilDecompose

def hintWeight (h : PolyVecK) : Int := (h.toList.map fun row => row.toList.sum).sum

def dilPolyveckMakeHint (v0 v1 : PolyVecK) : PolyVecK × Int :=
  let h := Vector.ofFn fun i => Vector.ofFn fun j => dilMakeHint v0[i][j] v1[i][j]
  (h, hintWeight h)

def dilPolyveckUseHint (u h : PolyVecK) : Exec PolyVecK :=
  tabulate 8 fun i => tabulate 256 fun j => dilUseHint u[i][j] h[i][j]

/-- `t = NTT^{-1}(A v)` for a vector in the NTT domain. -/
def multiplyMatrix (mat : Vector PolyVecL 8) (v : PolyVecL) : Exec PolyVecK :=
  tabulate 8 fun i => do
    let t ← dilPolyveclPointwiseAcc mat[i] v
    dilInvnttTomont (← dilPolyReduce t)

end Definitions

/-! ## Judgements -/

section Judgements

variable {E : Fault → Prop} {a b : Poly} {A B : Int}

theorem Bounded.mono (h : Bounded A a) (hAB : A ≤ B) : Bounded B a := fun j => (h j).trans hAB

variable {bound : Int} {u v : PolyVecL}

theorem exceeds_ensures {t : Int} (ht : |t| < 2 ^ 30) :
    Ensures E (exceeds bound t) (· = true ↔ bound ≤ |t|) := by
  have hbounds := abs_lt.mp ht
  rw [exceeds, int32_eq (by omega), ok_bind, signMask]
  by_cases hneg : t < 0
  · rw [if_pos hneg, int32_eq (by omega), ok_bind, abs_of_neg hneg]
    refine Ensures.pure ?_
    rw [decide_eq_true_eq]
    omega
  · rw [if_neg hneg, int32_eq (by omega), ok_bind, abs_of_nonneg (not_lt.mp hneg), sub_zero]
    exact Ensures.pure decide_eq_true_iff

theorem dilPolyChknorm_ensures (ha : Bounded A a) (hA : A < 2 ^ 30) :
    Ensures E (dilPolyChknorm bound a) (· = true ↔ ∃ j : Fin 256, bound ≤ |a[j]|) := by
  have hentry : ∀ t ∈ a.toList, Ensures E (exceeds bound t) (· = true ↔ bound ≤ |t|) := by
    intro t ht
    obtain ⟨j, hj, rfl⟩ := List.mem_iff_getElem.mp ht
    rw [Vector.getElem_toList]
    exact exceeds_ensures ((ha ⟨j, by simpa using hj⟩).trans_lt hA)
  refine (Ensures.anyM hentry).mono fun r hr => hr.trans ⟨?_, ?_⟩
  · rintro ⟨t, ht, hbound⟩
    obtain ⟨j, hj, rfl⟩ := List.mem_iff_getElem.mp ht
    exact ⟨⟨j, by simpa using hj⟩, by simpa using hbound⟩
  · rintro ⟨j, hbound⟩
    exact ⟨a[j], by simp, hbound⟩

theorem vecChknorm_ensures {n : Nat} {v : Vector Poly n} (hv : ∀ i : Fin n, Bounded A v[i])
    (hA : A < 2 ^ 30) :
    Ensures E (vecChknorm v bound)
      (· = false ↔ ∀ (i : Fin n) (j : Fin 256), |v[i][j]| < bound) := by
  have hentry : ∀ a ∈ v.toList,
      Ensures E (dilPolyChknorm bound a) (· = true ↔ ∃ j : Fin 256, bound ≤ |a[j]|) := by
    intro a ha
    obtain ⟨i, hi, rfl⟩ := List.mem_iff_getElem.mp ha
    rw [Vector.getElem_toList]
    exact dilPolyChknorm_ensures (hv ⟨i, by simpa using hi⟩) hA
  refine (Ensures.anyM hentry).mono fun r hr => ?_
  rw [← Bool.not_eq_true, hr]
  constructor
  · intro hnone i j
    by_contra hbound
    exact hnone ⟨v[i], by simp, j, not_lt.mp hbound⟩
  · rintro hall ⟨a, ha, j, hbound⟩
    obtain ⟨i, hi, rfl⟩ := List.mem_iff_getElem.mp ha
    rw [Vector.getElem_toList] at hbound
    exact absurd (hall ⟨i, by simpa using hi⟩ j) (not_lt.mpr hbound)

def product (x y : Fin 256 → Zq) : Fin 256 → Zq := montInv • (x * y)

theorem dilPolyPointwise_ensures (ha : Bounded A a) (hb : Bounded B b)
    (hAB : A * B ≤ 2 ^ 31 * DIL_Q) :
    Ensures E (dilPolyPointwise a b) fun r =>
      residues r = product (residues a) (residues b) ∧ Bounded DIL_Q r := by
  refine (Ensures.tabulate fun j => reduceProduct_ensures (ha j) (hb j) hAB ?_).mono fun r hr =>
    ⟨funext fun j => (hr j).1.trans ?_, fun j => (hr j).2⟩
  · rw [DIL_Q] at hAB ⊢
    omega
  · rw [product, Pi.smul_apply, Pi.mul_apply, smul_eq_mul, mul_comm (a[j] : Zq), mul_assoc]
    rfl

theorem polyZip_ensures {f : Int → Int → Exec Int} {r : Zq → Zq → Zq} {C : Int}
    (hf : ∀ x y : Int, |x| ≤ A → |y| ≤ B → Ensures E (f x y) fun t => (t : Zq) = r x y ∧ |t| ≤ C)
    (ha : Bounded A a) (hb : Bounded B b) :
    Ensures E (polyZip f a b) fun c =>
      residues c = (fun j => r (residues a j) (residues b j)) ∧ Bounded C c := by
  have hentry : ∀ j : Fin 256, Ensures E (f a[j] b[j]) fun t => (t : Zq) = r a[j] b[j] ∧ |t| ≤ C :=
    fun j => hf a[j] b[j] (ha j) (hb j)
  exact (Ensures.tabulate hentry).mono fun c hc => ⟨funext fun j => (hc j).1, fun j => (hc j).2⟩

theorem addPoly_ensures (ha : Bounded A a) (hb : Bounded B b) (hAB : A + B < 2 ^ 31) :
    Ensures E (addPoly a b) fun c => residues c = residues a + residues b ∧ Bounded (A + B) c := by
  refine polyZip_ensures (r := (· + ·)) (fun x y hx hy => ?_) ha hb
  have hsum := (abs_add_le x y).trans (add_le_add hx hy)
  have hbounds := abs_le.mp hsum
  exact Ensures.of_eq_ok (int32_eq (by omega)) ⟨Int.cast_add x y, hsum⟩

theorem subPoly_ensures (ha : Bounded A a) (hb : Bounded B b) (hAB : A + B < 2 ^ 31) :
    Ensures E (subPoly a b) fun c => residues c = residues a - residues b ∧ Bounded (A + B) c := by
  refine polyZip_ensures (r := (· - ·)) (fun x y hx hy => ?_) ha hb
  have hdiff := (abs_sub x y).trans (add_le_add hx hy)
  have hbounds := abs_le.mp hdiff
  exact Ensures.of_eq_ok (int32_eq (by omega)) ⟨Int.cast_sub x y, hdiff⟩

theorem dilPolyReduce_ensures (ha : Bounded A a) (hA : A < 2 ^ 31 - 2 ^ 22) :
    Ensures E (dilPolyReduce a) fun c => residues c = residues a ∧ Bounded 6283008 c := by
  have hentry : ∀ j : Fin 256,
      Ensures E (dilReduce32 a[j]) fun t => (t : Zq) = a[j] ∧ |t| ≤ 6283008 :=
    fun j => dilReduce32_ensures ((ha j).trans_lt hA)
  exact (Ensures.tabulate hentry).mono fun c hc => ⟨funext fun j => (hc j).1, fun j => (hc j).2⟩

def vecResidues {n : Nat} (v : Vector Poly n) (i : Fin n) : Fin 256 → Zq := residues v[i]

def rowProduct (u v : Fin 7 → Fin 256 → Zq) : Fin 256 → Zq := ∑ i : Fin 7, product (u i) (v i)

theorem accLoop_ensures (hu : ∀ i : Fin 7, Bounded DIL_Q u[i])
    (hv : ∀ i : Fin 7, Bounded (10 * DIL_Q) v[i]) {is : List (Fin 7)} {k : Nat}
    (hk : k + is.length ≤ 7) {w : Poly} (hw : Bounded (k * DIL_Q) w) :
    Ensures E (is.foldlM (fun w i => do addPoly w (← dilPolyPointwise u[i] v[i])) w) fun r =>
      residues r =
          residues w + (is.map fun i => product (residues u[i]) (residues v[i])).sum ∧
        Bounded ((k + is.length : Nat) * DIL_Q) r := by
  induction is generalizing w k with
  | nil => exact Ensures.pure ⟨by simp, hw⟩
  | cons i is ih =>
    rw [List.length_cons] at hk ⊢
    have hfits : k * DIL_Q + DIL_Q < 2 ^ 31 := by
      rw [DIL_Q]
      omega
    have hbound : k * DIL_Q + DIL_Q = (k + 1 : Nat) * DIL_Q := by
      push_cast
      ring
    rw [List.foldlM_cons]
    have hstep : Ensures E (dilPolyPointwise u[i] v[i] >>= addPoly w) fun r =>
        residues r = residues w + product (residues u[i]) (residues v[i]) ∧
          Bounded ((k + 1 : Nat) * DIL_Q) r := by
      refine (dilPolyPointwise_ensures (hu i) (hv i) (by decide)).bind fun t ht => ?_
      rw [← ht.1, ← hbound]
      exact addPoly_ensures hw ht.2 hfits
    refine hstep.bind fun w' hw' => (ih (by omega) hw'.2).mono fun r hr => ⟨?_, ?_⟩
    · rw [hr.1, hw'.1, List.map_cons, List.sum_cons, add_assoc]
    · rw [← Nat.add_assoc, Nat.add_right_comm]
      exact hr.2

theorem dilPolyveclPointwiseAcc_ensures (hu : ∀ i : Fin 7, Bounded DIL_Q u[i])
    (hv : ∀ i : Fin 7, Bounded (10 * DIL_Q) v[i]) :
    Ensures E (dilPolyveclPointwiseAcc u v) fun w =>
      residues w = rowProduct (vecResidues u) (vecResidues v) ∧ Bounded (7 * DIL_Q) w := by
  refine (dilPolyPointwise_ensures (hu 0) (hv 0) (by decide)).bind fun w hw => ?_
  have hfirst : Bounded ((1 : Nat) * DIL_Q) w := by simpa using hw.2
  refine (accLoop_ensures hu hv (by decide) hfirst).mono fun r hr => ⟨?_, hr.2⟩
  rw [hr.1, hw.1, rowProduct, Fin.sum_univ_succ]
  rfl

theorem multiplyMatrix_ensures {mat : Vector PolyVecL 8}
    (hmat : ∀ (i : Fin 8) (j : Fin 7), Bounded DIL_Q mat[i][j])
    (hv : ∀ i : Fin 7, Bounded (10 * DIL_Q) v[i]) :
    Ensures E (multiplyMatrix mat v) fun t => ∀ i : Fin 8,
      residues t[i] = invntt (rowProduct (vecResidues mat[i]) (vecResidues v)) ∧
        Bounded 4211197 t[i] := by
  have hrow : ∀ i : Fin 8, Ensures E (do
      let t ← dilPolyveclPointwiseAcc mat[i] v
      dilInvnttTomont (← dilPolyReduce t)) fun t =>
        residues t = invntt (rowProduct (vecResidues mat[i]) (vecResidues v)) ∧
          Bounded 4211197 t := by
    intro i
    refine (dilPolyveclPointwiseAcc_ensures (hmat i) hv).bind fun t ht => ?_
    refine (dilPolyReduce_ensures ht.2 (by decide)).bind fun t' ht' => ?_
    rw [← ht.1, ← ht'.1]
    exact dilInvnttTomont_ensures ht'.2 (by decide) (by decide)
  exact Ensures.tabulate hrow

/-! ### Vectors -/

section Vectors

variable {n : Nat} {v : Vector Poly n}

theorem vecNtt_ensures (hv : ∀ i : Fin n, Bounded (2 * DIL_Q) v[i]) :
    Ensures E (vecMap dilNtt v) fun r => ∀ i : Fin n,
      residues r[i] = ntt (residues v[i]) ∧ Bounded (10 * DIL_Q) r[i] :=
  Ensures.tabulate fun i => dilNtt_ensures (hv i) (by decide)

theorem vecReduce_ensures (hv : ∀ i : Fin n, Bounded A v[i]) (hA : A < 2 ^ 31 - 2 ^ 22) :
    Ensures E (vecMap dilPolyReduce v) fun r => ∀ i : Fin n,
      residues r[i] = residues v[i] ∧ Bounded 6283008 r[i] :=
  Ensures.tabulate fun i => dilPolyReduce_ensures (hv i) hA

theorem vecCaddq_ensures (hv : ∀ i : Fin n, Bounded A v[i]) (hA : A < DIL_Q) :
    Ensures E (vecMap (polyMap dilCaddq) v) fun r => ∀ i : Fin n,
      residues r[i] = residues v[i] ∧ ∀ j : Fin 256, 0 ≤ r[i][j] ∧ r[i][j] < DIL_Q := by
  have hpoly : ∀ i : Fin n, Ensures E (polyMap dilCaddq v[i]) fun r =>
      residues r = residues v[i] ∧ ∀ j : Fin 256, 0 ≤ r[j] ∧ r[j] < DIL_Q := by
    intro i
    have hentry : ∀ j : Fin 256, Ensures E (dilCaddq v[i][j]) fun t =>
        (t : Zq) = v[i][j] ∧ 0 ≤ t ∧ t < DIL_Q :=
      fun j => dilCaddq_ensures ((hv i j).trans_lt hA)
    exact (Ensures.tabulate hentry).mono fun c hc => ⟨funext fun j => (hc j).1, fun j => (hc j).2⟩
  exact Ensures.tabulate hpoly

theorem challengeProduct_ensures {c : Poly} (hc : Bounded (10 * DIL_Q) c)
    (hv : ∀ i : Fin n, Bounded (10 * DIL_Q) v[i]) :
    Ensures E (vecMap (dilPolyPointwise c) v >>= vecMap dilInvnttTomont) fun r => ∀ i : Fin n,
      residues r[i] = invntt (product (residues c) (residues v[i])) ∧ Bounded 4211197 r[i] := by
  have hpointwise : ∀ i : Fin n, Ensures E (dilPolyPointwise c v[i]) fun r =>
      residues r = product (residues c) (residues v[i]) ∧ Bounded DIL_Q r :=
    fun i => dilPolyPointwise_ensures hc (hv i) (by decide)
  refine (Ensures.tabulate hpointwise).bind fun t ht => ?_
  have hinvntt : ∀ i : Fin n, Ensures E (dilInvnttTomont t[i]) fun r =>
      residues r = invntt (product (residues c) (residues v[i])) ∧ Bounded 4211197 r := by
    intro i
    rw [← (ht i).1]
    exact dilInvnttTomont_ensures (ht i).2 (by decide) (by decide)
  exact Ensures.tabulate hinvntt

theorem vecAdd_ensures {u : Vector Poly n} (hu : ∀ i : Fin n, Bounded A u[i])
    (hv : ∀ i : Fin n, Bounded B v[i]) (hAB : A + B < 2 ^ 31) :
    Ensures E (vecZip addPoly u v) fun r => ∀ i : Fin n,
      residues r[i] = residues u[i] + residues v[i] ∧ Bounded (A + B) r[i] :=
  Ensures.tabulate fun i => addPoly_ensures (hu i) (hv i) hAB

theorem vecSub_ensures {u : Vector Poly n} (hu : ∀ i : Fin n, Bounded A u[i])
    (hv : ∀ i : Fin n, Bounded B v[i]) (hAB : A + B < 2 ^ 31) :
    Ensures E (vecZip subPoly u v) fun r => ∀ i : Fin n,
      residues r[i] = residues u[i] - residues v[i] ∧ Bounded (A + B) r[i] :=
  Ensures.tabulate fun i => subPoly_ensures (hu i) (hv i) hAB

end Vectors

theorem vecSplit_ensures {f : Int → Exec (Int × Int)} {v : PolyVecK} {P : Int → Int → Int → Prop}
    (hf : ∀ (i : Fin 8) (j : Fin 256), Ensures E (f v[i][j]) fun r => P v[i][j] r.1 r.2) :
    Ensures E (vecSplit f v) fun r => ∀ (i : Fin 8) (j : Fin 256),
      P v[i][j] r.1[i][j] r.2[i][j] := by
  have hrows : ∀ i : Fin 8, Ensures E (tabulate 256 fun j => f v[i][j]) fun r =>
      ∀ j : Fin 256, P v[i][j] r[j].1 r[j].2 :=
    fun i => Ensures.tabulate (hf i)
  refine (Ensures.tabulate hrows).bind fun r hr => Ensures.pure fun i j => ?_
  simpa using hr i j

end Judgements

end HcsCoin.Dilithium
