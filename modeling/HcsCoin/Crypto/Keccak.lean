import Mathlib.Data.List.Nodup

/-!
# The two implementations of Keccak-f[1600]

`keccakf1600` of dilithium.c works with tables and nested loops, `KeccakF` of
sha3.cpp is unrolled.  Theta, rho, pi and chi of the two are the same map of the
state; they part in iota, where dilithium.c has a table of single bytes.
-/

namespace HcsCoin.Keccak

abbrev State := Vector UInt64 25

/-! ## dilithium.c -/

def keccakfRndc : List UInt8 :=
  [0x01, 0x82, 0x8a, 0x80, 0x8b, 0x01, 0x81, 0x09,
   0x8a, 0x88, 0x09, 0x0a, 0x8b, 0x8b, 0x81, 0x89,
   0x03, 0x02, 0x80, 0x0b, 0x0a, 0x8a, 0x82, 0x83]

def keccakfRotc : Vector Nat 24 :=
  #v[1, 3, 6, 10, 15, 21, 28, 36, 45, 55, 2, 14, 27, 41, 56, 8, 25, 43, 62, 18, 39, 61, 20, 44]

def keccakfPiln : Vector (Fin 25) 24 :=
  #v[10, 7, 11, 17, 18, 3, 5, 16, 8, 21, 24, 4, 15, 23, 19, 13, 12, 2, 20, 14, 22, 9, 6, 1]

def rol64 (x : UInt64) (s : Nat) : UInt64 := (x <<< .ofNat s) ||| (x >>> .ofNat (64 - s))

def xorAt (st : State) (i : Fin 25) (x : UInt64) : State := st.set i (st[i] ^^^ x)

def theta (st : State) : State :=
  let bc : Vector UInt64 5 := Vector.ofFn fun i =>
    st[i.val] ^^^ st[i.val + 5] ^^^ st[i.val + 10] ^^^ st[i.val + 15] ^^^ st[i.val + 20]
  [0, 1, 2, 3, 4].foldl
    (fun st i =>
      let t := bc[(i + 4) % 5] ^^^ rol64 bc[(i + 1) % 5] 1
      [0, 5, 10, 15, 20].foldl (fun st j => xorAt st (.ofNat 25 (j + i)) t) st) st

/-- One round of the loop: the old `st[j]` goes on in `t`. -/
def rhoPiStep (s : State × UInt64) (i : Fin 24) : State × UInt64 :=
  let j := keccakfPiln[i]
  (s.1.set j (rol64 s.2 keccakfRotc[i]), s.1[j])

def rhoPi (st : State) : State := ((List.finRange 24).foldl rhoPiStep (st, st[1])).1

def chiLoop (st : State) (j : Nat) : State :=
  let bc : Vector UInt64 5 := Vector.ofFn fun i => st[Fin.ofNat 25 (j + i)]
  [0, 1, 2, 3, 4].foldl
    (fun st i => xorAt st (.ofNat 25 (j + i)) (~~~bc[(i + 1) % 5] &&& bc[(i + 2) % 5])) st

def chi (st : State) : State := [0, 5, 10, 15, 20].foldl chiLoop st

def keccakf1600Round (st : State) (rndc : UInt64) : State := xorAt (chi (rhoPi (theta st))) 0 rndc

def keccakf1600 (st : State) : State :=
  (keccakfRndc.map UInt8.toUInt64).foldl keccakf1600Round st

/-! ## sha3.cpp -/

def RNDC : List UInt64 :=
  [0x0000000000000001, 0x0000000000008082, 0x800000000000808a, 0x8000000080008000,
   0x000000000000808b, 0x0000000080000001, 0x8000000080008081, 0x8000000000008009,
   0x000000000000008a, 0x0000000000000088, 0x0000000080008009, 0x000000008000000a,
   0x000000008000808b, 0x800000000000008b, 0x8000000000008089, 0x8000000000008003,
   0x8000000000008002, 0x8000000000000080, 0x000000000000800a, 0x800000008000000a,
   0x8000000080008081, 0x8000000000008080, 0x0000000080000001, 0x8000000080008008]

def rotl (x : UInt64) (s : Nat) : UInt64 :=
  let r := s % 64
  if r = 0 then x else (x <<< .ofNat r) ||| (x >>> .ofNat (64 - r))

def xorColumn (st : State) (t : UInt64) (i0 i1 i2 i3 i4 : Fin 25) : State :=
  xorAt (xorAt (xorAt (xorAt (xorAt st i0 t) i1 t) i2 t) i3 t) i4 t

def moveLane (s : State × UInt64) (k : Fin 25) (r : Nat) : State × UInt64 :=
  (s.1.set k (rotl s.2 r), s.1[k])

def chiRow (st : State) (i0 i1 i2 i3 i4 : Fin 25) : State :=
  let bc0 := st[i0]; let bc1 := st[i1]; let bc2 := st[i2]; let bc3 := st[i3]; let bc4 := st[i4]
  let st := st.set i0 (bc0 ^^^ (~~~bc1 &&& bc2))
  let st := st.set i1 (bc1 ^^^ (~~~bc2 &&& bc3))
  let st := st.set i2 (bc2 ^^^ (~~~bc3 &&& bc4))
  let st := st.set i3 (bc3 ^^^ (~~~bc4 &&& bc0))
  st.set i4 (bc4 ^^^ (~~~bc0 &&& bc1))

def unrolledTheta (st : State) : State :=
  let bc0 := st[0] ^^^ st[5] ^^^ st[10] ^^^ st[15] ^^^ st[20]
  let bc1 := st[1] ^^^ st[6] ^^^ st[11] ^^^ st[16] ^^^ st[21]
  let bc2 := st[2] ^^^ st[7] ^^^ st[12] ^^^ st[17] ^^^ st[22]
  let bc3 := st[3] ^^^ st[8] ^^^ st[13] ^^^ st[18] ^^^ st[23]
  let bc4 := st[4] ^^^ st[9] ^^^ st[14] ^^^ st[19] ^^^ st[24]
  let st := xorColumn st (bc4 ^^^ rotl bc1 1) 0 5 10 15 20
  let st := xorColumn st (bc0 ^^^ rotl bc2 1) 1 6 11 16 21
  let st := xorColumn st (bc1 ^^^ rotl bc3 1) 2 7 12 17 22
  let st := xorColumn st (bc2 ^^^ rotl bc4 1) 3 8 13 18 23
  xorColumn st (bc3 ^^^ rotl bc0 1) 4 9 14 19 24

def unrolledRhoPi (st : State) : State :=
  let s := moveLane (st, st[1]) 10 1
  let s := moveLane s 7 3
  let s := moveLane s 11 6
  let s := moveLane s 17 10
  let s := moveLane s 18 15
  let s := moveLane s 3 21
  let s := moveLane s 5 28
  let s := moveLane s 16 36
  let s := moveLane s 8 45
  let s := moveLane s 21 55
  let s := moveLane s 24 2
  let s := moveLane s 4 14
  let s := moveLane s 15 27
  let s := moveLane s 23 41
  let s := moveLane s 19 56
  let s := moveLane s 13 8
  let s := moveLane s 12 25
  let s := moveLane s 2 43
  let s := moveLane s 20 62
  let s := moveLane s 14 18
  let s := moveLane s 22 39
  let s := moveLane s 9 61
  let s := moveLane s 6 20
  s.1.set 1 (rotl s.2 44)

def unrolledChiIota (st : State) (rndc : UInt64) : State :=
  let bc0 := st[0]; let bc1 := st[1]; let bc2 := st[2]; let bc3 := st[3]; let bc4 := st[4]
  let st := st.set 0 (bc0 ^^^ (~~~bc1 &&& bc2) ^^^ rndc)
  let st := st.set 1 (bc1 ^^^ (~~~bc2 &&& bc3))
  let st := st.set 2 (bc2 ^^^ (~~~bc3 &&& bc4))
  let st := st.set 3 (bc3 ^^^ (~~~bc4 &&& bc0))
  let st := st.set 4 (bc4 ^^^ (~~~bc0 &&& bc1))
  let st := chiRow st 5 6 7 8 9
  let st := chiRow st 10 11 12 13 14
  let st := chiRow st 15 16 17 18 19
  chiRow st 20 21 22 23 24

def keccakFRound (st : State) (rndc : UInt64) : State :=
  unrolledChiIota (unrolledRhoPi (unrolledTheta st)) rndc

def keccakF (st : State) : State := RNDC.foldl keccakFRound st

/-! ## The rounds agree -/

variable (x : UInt64)

theorem rotl_eq_rol64 {s : Nat} (hs : 0 < s ∧ s < 64) : rotl x s = rol64 x s := by
  have hmod : s % 64 = s := Nat.mod_eq_of_lt hs.2
  rw [rotl, rol64, hmod, if_neg (by omega)]

variable (st : State)

theorem theta_eq : theta st = unrolledTheta st := by
  have hrotl : ∀ x : UInt64, rotl x 1 = rol64 x 1 := fun x => rotl_eq_rol64 x (by decide)
  simp only [theta, unrolledTheta, hrotl, xorColumn, List.foldl_cons, List.foldl_nil,
    Vector.getElem_ofFn]
  rfl

theorem rhoPiStep_eq (s : State × UInt64) (i : Fin 24) :
    rhoPiStep s i = moveLane s keccakfPiln[i] keccakfRotc[i] := by
  have hrot : ∀ i : Fin 24, 0 < keccakfRotc[i] ∧ keccakfRotc[i] < 64 := by decide
  rw [rhoPiStep, moveLane, rotl_eq_rol64 _ (hrot i)]

theorem rhoPi_eq : rhoPi st = unrolledRhoPi st := by
  have hstep : rhoPiStep = fun s i => moveLane s keccakfPiln[i] keccakfRotc[i] :=
    funext fun s => funext (rhoPiStep_eq s)
  rw [rhoPi, hstep]
  rfl

theorem chiRow_eq {i0 i1 i2 i3 i4 : Fin 25} (h : [i0, i1, i2, i3, i4].Nodup) :
    chiRow st i0 i1 i2 i3 i4 =
      xorAt (xorAt (xorAt (xorAt (xorAt st i0 (~~~st[i1] &&& st[i2])) i1 (~~~st[i2] &&& st[i3]))
        i2 (~~~st[i3] &&& st[i4])) i3 (~~~st[i4] &&& st[i0])) i4 (~~~st[i0] &&& st[i1]) := by
  simp only [List.nodup_cons, List.mem_cons, List.not_mem_nil, or_false, not_or] at h
  obtain ⟨⟨h01, h02, h03, h04⟩, ⟨h12, h13, h14⟩, ⟨h23, h24⟩, h34, -⟩ := h
  simp only [chiRow, xorAt, Fin.getElem_fin, Vector.getElem_set, Fin.val_inj, h01, h02, h03, h04,
    h12, h13, h14, h23, h24, h34, if_false]

theorem xorAt_chiRow {k i0 i1 i2 i3 i4 : Fin 25} (h : k ∉ [i0, i1, i2, i3, i4]) :
    xorAt (chiRow st i0 i1 i2 i3 i4) k x = chiRow (xorAt st k x) i0 i1 i2 i3 i4 := by
  simp only [List.mem_cons, List.not_mem_nil, or_false, not_or] at h
  obtain ⟨h0, h1, h2, h3, h4⟩ := h
  have hread : ∀ i : Fin 25, k ≠ i → (xorAt st k x)[i] = st[i] := by
    intro i hi
    rw [xorAt, Fin.getElem_fin, Vector.getElem_set_ne _ _ (Fin.val_ne_of_ne hi), Fin.getElem_fin]
  rw [chiRow, chiRow, hread _ h0, hread _ h1, hread _ h2, hread _ h3, hread _ h4]
  simp only [xorAt, Fin.getElem_fin, Vector.getElem_set, Fin.val_inj, Ne.symm h0, Ne.symm h1,
    Ne.symm h2, Ne.symm h3, Ne.symm h4, if_false]
  rw [Vector.set_comm _ _ (Fin.val_ne_of_ne (Ne.symm h4)),
    Vector.set_comm _ _ (Fin.val_ne_of_ne (Ne.symm h3)),
    Vector.set_comm _ _ (Fin.val_ne_of_ne (Ne.symm h2)),
    Vector.set_comm _ _ (Fin.val_ne_of_ne (Ne.symm h1)),
    Vector.set_comm _ _ (Fin.val_ne_of_ne (Ne.symm h0))]

theorem chiLoop_eq {j : Nat}
    (h : [Fin.ofNat 25 (j + 0), .ofNat 25 (j + 1), .ofNat 25 (j + 2), .ofNat 25 (j + 3),
      .ofNat 25 (j + 4)].Nodup) :
    chiLoop st j = chiRow st (.ofNat 25 (j + 0)) (.ofNat 25 (j + 1)) (.ofNat 25 (j + 2))
      (.ofNat 25 (j + 3)) (.ofNat 25 (j + 4)) := by
  rw [chiRow_eq st h]
  simp only [chiLoop, List.foldl_cons, List.foldl_nil, Vector.getElem_ofFn]

theorem chi_eq : chi st =
    chiRow (chiRow (chiRow (chiRow (chiRow st 0 1 2 3 4) 5 6 7 8 9) 10 11 12 13 14) 15 16 17 18 19)
      20 21 22 23 24 := by
  simp only [chi, List.foldl_cons, List.foldl_nil]
  rw [chiLoop_eq _ (by decide), chiLoop_eq _ (by decide), chiLoop_eq _ (by decide),
    chiLoop_eq _ (by decide), chiLoop_eq _ (by decide)]
  rfl

theorem xorAt_firstRow :
    xorAt (chiRow st 0 1 2 3 4) 0 x =
      ((((st.set 0 (st[0] ^^^ (~~~st[1] &&& st[2]) ^^^ x)).set 1 (st[1] ^^^ (~~~st[2] &&& st[3]))).set
        2 (st[2] ^^^ (~~~st[3] &&& st[4]))).set 3 (st[3] ^^^ (~~~st[4] &&& st[0]))).set
        4 (st[4] ^^^ (~~~st[0] &&& st[1])) := by
  have hne : ∀ i : Fin 25, i ≠ 0 → i.val ≠ (0 : Fin 25).val := fun i => Fin.val_ne_of_ne
  have hlane : (chiRow st 0 1 2 3 4)[(0 : Fin 25)] = st[0] ^^^ (~~~st[1] &&& st[2]) := by
    simp [chiRow]
  rw [xorAt, hlane, chiRow, Vector.set_comm _ _ (hne 4 (by decide)),
    Vector.set_comm _ _ (hne 3 (by decide)),
    Vector.set_comm _ _ (hne 2 (by decide)), Vector.set_comm _ _ (hne 1 (by decide)),
    Vector.set_set]
  rfl

variable (rndc : UInt64)

theorem chiIota_eq : xorAt (chi st) 0 rndc = unrolledChiIota st rndc := by
  rw [chi_eq, xorAt_chiRow _ _ (by decide), xorAt_chiRow _ _ (by decide),
    xorAt_chiRow _ _ (by decide), xorAt_chiRow _ _ (by decide), xorAt_firstRow]
  rfl

theorem keccakf1600Round_eq : keccakf1600Round st rndc = keccakFRound st rndc := by
  rw [keccakf1600Round, chiIota_eq, rhoPi_eq, theta_eq, keccakFRound]

theorem keccakf1600Round_inj {rndc rndc' : UInt64} :
    keccakf1600Round st rndc = keccakf1600Round st rndc' ↔ rndc = rndc' := by
  refine ⟨fun h => ?_, fun h => by rw [h]⟩
  have hlane := congrArg (fun st : State => st[0]) h
  simpa [keccakf1600Round, xorAt] using hlane

/-! ## The permutations -/

def keccakf1600Rounds (n : Nat) (st : State) : State :=
  ((keccakfRndc.map UInt8.toUInt64).take n).foldl keccakf1600Round st

def keccakFRounds (n : Nat) (st : State) : State := (RNDC.take n).foldl keccakFRound st

theorem foldl_take_eq_iff {σ α : Type} {round : σ → α → σ}
    (hround : ∀ s {a b}, round s a = round s b ↔ a = b) {as bs : List α}
    (hlength : as.length = bs.length) (s : σ) :
    (∀ n ≤ as.length, (as.take n).foldl round s = (bs.take n).foldl round s) ↔ as = bs := by
  induction as generalizing bs s with
  | nil => simp [List.length_eq_zero_iff.mp hlength.symm]
  | cons a as ih =>
    obtain ⟨b, bs, rfl⟩ := List.exists_of_length_succ bs hlength.symm
    have hlength' : as.length = bs.length := Nat.succ.inj hlength
    refine ⟨fun h => ?_, fun h n _ => by rw [h]⟩
    obtain rfl : a = b := (hround s).mp (h 1 (Nat.le_add_left 1 _))
    refine congrArg (a :: ·) ((ih hlength' (round s a)).mp fun n hn => ?_)
    exact h (n + 1) (Nat.succ_le_succ hn)

/-- The two pass through the same states if and only if the table of dilithium.c has the
constants of sha3.cpp; with its own table they part in the second round, whatever the
state. -/
theorem keccakf1600_agrees_iff (st : State) :
    (∀ rndc : List UInt64, rndc.length = 24 →
      ((∀ n ≤ 24, (rndc.take n).foldl keccakf1600Round st = keccakFRounds n st) ↔ rndc = RNDC)) ∧
    (∀ n ≤ 24, ((∀ m ≤ n, keccakf1600Rounds m st = keccakFRounds m st) ↔ n ≤ 1)) ∧
    keccakf1600 st = keccakf1600Rounds 24 st ∧ keccakF st = keccakFRounds 24 st := by
  have hround : keccakFRound = keccakf1600Round :=
    funext fun st => funext fun rndc => (keccakf1600Round_eq st rndc).symm
  have hsame : ∀ {as bs : List UInt64} (st : State), as.length = bs.length →
      ((∀ n ≤ as.length, (as.take n).foldl keccakf1600Round st =
        (bs.take n).foldl keccakFRound st) ↔ as = bs) := by
    intro as bs st hlength
    rw [hround]
    exact foldl_take_eq_iff keccakf1600Round_inj hlength st
  refine ⟨fun rndc hlength => ?_, fun n hn => ?_, rfl, rfl⟩
  · have hiff := @hsame rndc RNDC st hlength
    rwa [hlength] at hiff
  · have htables : ∀ n ≤ 24, ((keccakfRndc.map UInt8.toUInt64).take n = RNDC.take n ↔ n ≤ 1) := by
      decide
    have hlength : ((keccakfRndc.map UInt8.toUInt64).take n).length = n := by
      rw [List.length_take]
      exact Nat.min_eq_left hn
    have hlength' : (RNDC.take n).length = n := by
      rw [List.length_take]
      exact Nat.min_eq_left hn
    rw [← htables n hn, ← hsame st (hlength.trans hlength'.symm), hlength]
    refine forall₂_congr fun m hm => ?_
    rw [List.take_take, List.take_take, Nat.min_eq_left hm]
    rfl

theorem keccak_first_round_agrees :
    keccakf1600Rounds 1 (.replicate 25 0) = keccakFRounds 1 (.replicate 25 0) ∧
      RNDC.foldl keccakf1600Round (.replicate 25 0) = keccakF (.replicate 25 0) :=
  ⟨((keccakf1600_agrees_iff (.replicate 25 0)).2.1 1 (by decide)).mpr (Nat.le_refl 1) 1
      (Nat.le_refl 1),
    ((keccakf1600_agrees_iff (.replicate 25 0)).1 RNDC rfl).mpr rfl 24 (Nat.le_refl 24)⟩

set_option maxRecDepth 100000 in
theorem keccakf1600_ne_keccakF : keccakf1600 (.replicate 25 0) ≠ keccakF (.replicate 25 0) := by
  have hround : keccakf1600Round = keccakFRound := funext fun st => funext (keccakf1600Round_eq st)
  rw [keccakf1600, hround]
  decide +kernel

end HcsCoin.Keccak
