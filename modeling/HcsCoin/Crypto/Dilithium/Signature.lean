import HcsCoin.Crypto.Dilithium.Packing
import HcsCoin.Crypto.Dilithium.Poly

/-!
# The encoding of signatures in dilithium.c

A signature is the challenge seed, the packed response and the hint: a list of
the positions of its ones, padded with zeros, and for each polynomial where its
positions end.  Decoding is strict, so that a signature has one encoding only.
-/

namespace HcsCoin.Dilithium

open Foundation

def DIL_OMEGA : Nat := 75
def DIL_CTILDEBYTES : Nat := 64
def DIL_POLYZ_PACKEDBYTES : Nat := 640
def DILITHIUM_SIGNATUREBYTES : Nat := 4627

structure Signature where
  ctilde : Bytes
  z : PolyVecL
  h : PolyVecK

/-! ## Encoding -/

/-- The inner loop: the positions of the ones of a polynomial. -/
def packHintRow (row : Poly) (s : Bytes × Nat) : Bytes × Nat :=
  (List.finRange 256).foldl
    (fun s j => if row[j] ≠ 0 then (s.1.set s.2 (UInt8.ofFin j), s.2 + 1) else s) s

def packHintRows : List Poly → Nat → Bytes × Nat → Bytes × Nat
  | [], _, s => s
  | row :: rows, i, s =>
    let s := packHintRow row s
    packHintRows rows (i + 1) (s.1.set (DIL_OMEGA + i) (UInt8.ofNat s.2), s.2)

def packHint (h : PolyVecK) : Bytes :=
  (packHintRows h.toList 0 (List.replicate (DIL_OMEGA + 8) 0, 0)).1

def dilPackSig (s : Signature) : Exec Bytes := do
  let z ← packVec dilPolyzPack s.z
  pure (s.ctilde ++ (z ++ packHint s.h))

/-! ## Decoding -/

def unpackHintRow : Option UInt8 → Bytes → Poly → Option Poly
  | _, [], row => some row
  | previous, b :: bytes, row =>
    if previous.any (b ≤ ·) then none
    else unpackHintRow (some b) bytes (row.set b.toNat 1 b.toNat_lt)

def unpackHintRows (p : Bytes) : (n i k : Nat) → Option (List Poly × Nat)
  | 0, _, k => some ([], k)
  | n + 1, i, k =>
    let limit := (p.getD (DIL_OMEGA + i) 0).toNat
    if limit < k ∨ limit > DIL_OMEGA then none
    else do
      let row ← unpackHintRow none ((p.drop k).take (limit - k)) (.replicate 256 0)
      let (rows, k) ← unpackHintRows p n (i + 1) limit
      some (row :: rows, k)

def unpackHint (p : Bytes) : Option PolyVecK := do
  let (rows, k) ← unpackHintRows p 8 0 0
  if ((p.take DIL_OMEGA).drop k).any (· ≠ 0) then none
  else some (Vector.ofFn fun i => rows.getD i (.replicate 256 0))

def dilUnpackSig (sig : Bytes) : Exec (Option Signature) := do
  let z ← unpackVec dilPolyzUnpack DIL_POLYZ_PACKEDBYTES sig DIL_CTILDEBYTES
  pure ((unpackHint (sig.drop (DIL_CTILDEBYTES + 7 * DIL_POLYZ_PACKEDBYTES))).map fun h =>
    ⟨sig.take DIL_CTILDEBYTES, z, h⟩)

/-! ## The hint as lists of positions -/

def hintPositions (row : Poly) : Bytes :=
  ((List.finRange 256).filter fun j => row[j] ≠ 0).map fun j => UInt8.ofFin j

def rowOfPositions (bytes : Bytes) : Poly :=
  Vector.ofFn fun j => if UInt8.ofFin j ∈ bytes then 1 else 0

def hintLimits : Nat → List Bytes → Bytes
  | _, [] => []
  | k, row :: rows => UInt8.ofNat (k + row.length) :: hintLimits (k + row.length) rows

def hintBytes (rows : List Bytes) : Bytes :=
  rows.flatten ++ (List.replicate (DIL_OMEGA - rows.flatten.length) 0 ++ hintLimits 0 rows)

variable {m i k k' n : Nat}

theorem foldl_set (bytes done rest : Bytes) (hm : bytes.length ≤ m) :
    bytes.foldl (fun s b => (s.1.set s.2 b, s.2 + 1))
        (done ++ (List.replicate m 0 ++ rest), done.length) =
      (done ++ bytes ++ (List.replicate (m - bytes.length) 0 ++ rest), (done ++ bytes).length) := by
  induction bytes generalizing done m with
  | nil => simp
  | cons b bytes ih =>
    rw [List.length_cons] at hm
    obtain ⟨m, rfl⟩ : ∃ m', m = m' + 1 := ⟨m - 1, by omega⟩
    have hset : (done ++ (List.replicate (m + 1) 0 ++ rest)).set done.length b =
        (done ++ [b]) ++ (List.replicate m 0 ++ rest) := by
      simp [List.replicate_succ]
    have hlength : done.length + 1 = (done ++ [b]).length := by simp
    rw [List.foldl_cons, hset, hlength, ih (done ++ [b]) (by omega), List.append_assoc done,
      List.singleton_append, List.length_cons, Nat.add_sub_add_right]

theorem packHintRow_eq (row : Poly) (done rest : Bytes) (hm : (hintPositions row).length ≤ m) :
    packHintRow row (done ++ (List.replicate m 0 ++ rest), done.length) =
      (done ++ hintPositions row ++ (List.replicate (m - (hintPositions row).length) 0 ++ rest),
        (done ++ hintPositions row).length) := by
  rw [← foldl_set _ _ _ hm, hintPositions, List.foldl_map, List.foldl_filter, packHintRow]
  simp only [decide_eq_true_eq]

theorem set_limit (front zeros limits rest : Bytes) {x : UInt8}
    (h : front.length + zeros.length = DIL_OMEGA) :
    (front ++ (zeros ++ (limits ++ 0 :: rest))).set (DIL_OMEGA + limits.length) x =
      front ++ (zeros ++ ((limits ++ [x]) ++ rest)) := by
  rw [← h, Nat.add_assoc]
  simp

/-- After some polynomials their positions stand at the front and their limits at the
end. -/
theorem packHintRows_eq (rows : List Poly) (done limits : Bytes)
    (hfits : done.length + (rows.map hintPositions).flatten.length ≤ DIL_OMEGA) :
    (packHintRows rows limits.length
        (done ++ (List.replicate (DIL_OMEGA - done.length) 0 ++
          (limits ++ List.replicate rows.length 0)), done.length)).1 =
      done ++ (rows.map hintPositions).flatten ++
        (List.replicate (DIL_OMEGA - (done.length + (rows.map hintPositions).flatten.length)) 0 ++
          (limits ++ hintLimits done.length (rows.map hintPositions))) := by
  induction rows generalizing done limits with
  | nil => simp [packHintRows, hintLimits]
  | cons row rows ih =>
    rw [List.map_cons, List.flatten_cons, List.length_append] at hfits
    rw [packHintRows, packHintRow_eq row done _ (by omega)]
    have hzeros : DIL_OMEGA - done.length - (hintPositions row).length =
        DIL_OMEGA - (done ++ hintPositions row).length := by
      rw [List.length_append]
      omega
    have hlength : limits.length + 1 =
        (limits ++ [UInt8.ofNat (done ++ hintPositions row).length]).length := by simp
    have hfull : (done ++ hintPositions row).length +
        (List.replicate (DIL_OMEGA - (done ++ hintPositions row).length) (0 : UInt8)).length =
          DIL_OMEGA := by
      rw [List.length_replicate, List.length_append]
      omega
    dsimp only
    rw [List.length_cons, List.replicate_succ, hzeros, set_limit _ _ _ _ hfull, hlength,
      ih _ _ (by rw [List.length_append]; omega), List.map_cons, List.flatten_cons, hintLimits]
    simp [Nat.add_assoc]

variable {h : PolyVecK} {bytes p : Bytes} {rows : List Bytes} {row : Poly} {E : Fault → Prop}
  {out : Poly}

theorem packHint_eq (hweight : (h.toList.map hintPositions).flatten.length ≤ DIL_OMEGA) :
    packHint h = hintBytes (h.toList.map hintPositions) := by
  have hrows := packHintRows_eq h.toList [] [] (by simpa using hweight)
  simpa [packHint, hintBytes, List.replicate_add] using hrows

/-! ### Reading positions back -/

theorem unpackHintRow_eq_some_iff {previous : Option UInt8} :
    unpackHintRow previous bytes row = some out ↔
      (previous.toList ++ bytes).IsChain (· < ·) ∧
        out = bytes.foldl (fun row b => row.set b.toNat 1 b.toNat_lt) row := by
  induction bytes generalizing previous row with
  | nil => cases previous <;> simp [unpackHintRow, eq_comm]
  | cons b bytes ih =>
    rw [unpackHintRow]
    cases previous with
    | none =>
      rw [if_neg (by simp), ih]
      rfl
    | some a =>
      by_cases hab : b ≤ a
      · rw [if_pos (by simpa using hab)]
        have hnot : ¬ a < b := by simpa using hab
        simp [hnot]
      · rw [if_neg (by simpa using hab), ih]
        have hlt : a < b := by simpa using hab
        simp [hlt]

theorem ofFin_eq_iff (j : Fin 256) (b : UInt8) : UInt8.ofFin j = b ↔ b.toNat = j.val := by
  rw [← UInt8.toNat_inj, eq_comm]
  rfl

theorem foldl_set_eq_rowOfPositions (bytes : Bytes) :
    bytes.foldl (fun row b => row.set b.toNat 1 b.toNat_lt) (.replicate 256 0) =
      rowOfPositions bytes := by
  have hentry : ∀ (bytes : Bytes) (row : Poly) (j : Fin 256),
      (bytes.foldl (fun row b => row.set b.toNat 1 b.toNat_lt) row)[j] =
        if UInt8.ofFin j ∈ bytes then 1 else row[j] := by
    intro bytes
    induction bytes with
    | nil => simp
    | cons b bytes ih =>
      intro row j
      rw [List.foldl_cons, ih]
      by_cases hj : UInt8.ofFin j ∈ bytes
      · simp [hj]
      · simp [hj, ofFin_eq_iff, Vector.getElem_set]
  refine Vector.ext fun i hi => ?_
  rw [rowOfPositions, Vector.getElem_ofFn]
  refine (hentry bytes (.replicate 256 0) ⟨i, hi⟩).trans ?_
  simp only [vector_getElem_fin, Vector.getElem_replicate]

theorem pairwise_hintPositions (row : Poly) : (hintPositions row).Pairwise (· < ·) := by
  rw [hintPositions, List.pairwise_map]
  exact ((List.pairwise_lt_finRange 256).filter _).imp fun hij => hij

theorem ofFin_mem_hintPositions {j : Fin 256} : UInt8.ofFin j ∈ hintPositions row ↔ row[j] ≠ 0 := by
  rw [hintPositions, List.mem_map]
  constructor
  · rintro ⟨i, hi, hij⟩
    obtain rfl : i = j := Fin.ext ((ofFin_eq_iff i _).mp hij).symm
    simpa using (List.mem_filter.mp hi).2
  · intro hj
    exact ⟨j, List.mem_filter.mpr ⟨List.mem_finRange j, by simpa using hj⟩, rfl⟩

theorem hintPositions_rowOfPositions (h : bytes.Pairwise (· < ·)) :
    hintPositions (rowOfPositions bytes) = bytes := by
  refine (pairwise_hintPositions _).eq_of_mem_iff h fun b => ?_
  have hb : UInt8.ofFin b.toFin = b := rfl
  rw [← hb, ofFin_mem_hintPositions, rowOfPositions, vector_getElem_fin, Vector.getElem_ofFn]
  split <;> simp_all

theorem rowOfPositions_hintPositions (h : ∀ j : Fin 256, row[j] = 0 ∨ row[j] = 1) :
    rowOfPositions (hintPositions row) = row := by
  refine Vector.ext fun i hi => ?_
  rw [rowOfPositions, Vector.getElem_ofFn]
  by_cases hmem : UInt8.ofFin ⟨i, hi⟩ ∈ hintPositions row
  · rw [if_pos hmem]
    exact ((h ⟨i, hi⟩).resolve_left (ofFin_mem_hintPositions.mp hmem)).symm
  · rw [if_neg hmem]
    exact (not_not.mp (ofFin_mem_hintPositions.not.mp hmem)).symm

theorem unpackHintRow_zero_iff :
    unpackHintRow none bytes (.replicate 256 0) = some out ↔
      bytes.Pairwise (· < ·) ∧ out = rowOfPositions bytes := by
  rw [unpackHintRow_eq_some_iff, foldl_set_eq_rowOfPositions, List.isChain_iff_pairwise]
  rfl

/-- The positions of polynomials `i`, `i + 1`, ... stand in the hint from `k` to `k'`. -/
structure HintRows (p : Bytes) (i k k' : Nat) (rows : List Bytes) : Prop where
  increasing : ∀ row ∈ rows, row.Pairwise (· < ·)
  end_eq : k' = k + rows.flatten.length
  end_le : k' ≤ DIL_OMEGA
  positions : (p.drop k).take rows.flatten.length = rows.flatten
  limits : p.drop (DIL_OMEGA + i) = hintLimits k rows

theorem hintRows_cons_iff {row : Bytes} (hp : DIL_OMEGA + i < p.length) :
    HintRows p i k k' (row :: rows) ↔
      (k + row.length ≤ DIL_OMEGA ∧ p.getD (DIL_OMEGA + i) 0 = UInt8.ofNat (k + row.length)) ∧
        row.Pairwise (· < ·) ∧ (p.drop k).take row.length = row ∧
        HintRows p (i + 1) (k + row.length) k' rows := by
  have hdrop : p.drop (DIL_OMEGA + i) = p.getD (DIL_OMEGA + i) 0 :: p.drop (DIL_OMEGA + (i + 1)) := by
    rw [List.drop_eq_getElem_cons hp, List.getD_eq_getElem _ _ hp]
    rfl
  have htake : (p.drop k).take (row.length + rows.flatten.length) =
      (p.drop k).take row.length ++ (p.drop (k + row.length)).take rows.flatten.length := by
    rw [List.take_add, List.drop_drop]
  constructor
  · rintro ⟨hinc, hend, hle, hpos, hlim⟩
    rw [List.flatten_cons, List.length_append] at hend hpos
    rw [hdrop, hintLimits, List.cons.injEq] at hlim
    rw [htake] at hpos
    have hlength : ((p.drop k).take row.length).length = row.length := by
      rw [List.length_take, List.length_drop]
      omega
    obtain ⟨hfirst, hrest⟩ := List.append_inj hpos hlength
    obtain ⟨hrow, hrows⟩ := List.forall_mem_cons.mp hinc
    exact ⟨⟨by omega, hlim.1⟩, hrow, hfirst, hrows, by omega, hle, hrest, hlim.2⟩
  · rintro ⟨⟨hle', hlimit⟩, hrow, hfirst, hinc, hend, hle, hpos, hlim⟩
    refine ⟨?_, ?_, hle, ?_, ?_⟩
    · exact List.forall_mem_cons.mpr ⟨hrow, hinc⟩
    · rw [List.flatten_cons, List.length_append, hend, Nat.add_assoc]
    · rw [List.flatten_cons, List.length_append, htake, hfirst, hpos]
    · rw [hdrop, hintLimits, hlimit, hlim]

theorem unpackHintRows_eq_some_iff {out : List Poly} (hp : p.length = DIL_OMEGA + (i + n))
    (hk : k ≤ DIL_OMEGA) :
    unpackHintRows p n i k = some (out, k') ↔
      ∃ rows, rows.length = n ∧ HintRows p i k k' rows ∧ out = rows.map rowOfPositions := by
  induction n generalizing i k out with
  | zero =>
    rw [unpackHintRows, Option.some.injEq, Prod.mk.injEq]
    constructor
    · rintro ⟨rfl, rfl⟩
      refine ⟨[], rfl, ⟨?_, rfl, hk, rfl, ?_⟩, rfl⟩
      · exact fun row hrow => absurd hrow List.not_mem_nil
      · rw [hintLimits, List.drop_eq_nil_iff]
        omega
    · rintro ⟨rows, hlength, hrows, rfl⟩
      obtain rfl := List.length_eq_zero_iff.mp hlength
      exact ⟨rfl, hrows.end_eq.symm⟩
  | succ n ih =>
    have hlast : DIL_OMEGA + i < p.length := by omega
    rw [unpackHintRows]
    generalize hlimit : (p.getD (DIL_OMEGA + i) 0).toNat = limit
    by_cases hbad : limit < k ∨ limit > DIL_OMEGA
    · rw [if_pos hbad]
      refine iff_of_false nofun ?_
      rintro ⟨rows, hlength, hrows, -⟩
      obtain ⟨row, rows, rfl⟩ := List.exists_of_length_succ rows hlength
      obtain ⟨⟨hle, hbyte⟩, -⟩ := (hintRows_cons_iff hlast).mp hrows
      rw [hbyte, UInt8.toNat_ofNat', Nat.mod_eq_of_lt (by rw [DIL_OMEGA] at hle; omega)] at hlimit
      omega
    · rw [if_neg hbad]
      have hlength : ((p.drop k).take (limit - k)).length = limit - k := by
        rw [List.length_take, List.length_drop]
        omega
      constructor
      · intro h
        obtain ⟨row, hrow, h⟩ := Option.bind_eq_some_iff.mp h
        obtain ⟨⟨rest, k''⟩, hrest, h⟩ := Option.bind_eq_some_iff.mp h
        cases h
        obtain ⟨hincreasing, rfl⟩ := unpackHintRow_zero_iff.mp hrow
        obtain ⟨rows, hcount, hrows, rfl⟩ := (ih (by omega) (by omega)).mp hrest
        have hend : k + (limit - k) = limit := by omega
        refine ⟨(p.drop k).take (limit - k) :: rows, by rw [List.length_cons, hcount],
          (hintRows_cons_iff hlast).mpr ?_, rfl⟩
        rw [hlength, hend]
        refine ⟨⟨by omega, ?_⟩, hincreasing, rfl, hrows⟩
        rw [← hlimit, UInt8.ofNat_toNat]
      · rintro ⟨rows, hcount, hrows, rfl⟩
        obtain ⟨row, rows, rfl⟩ := List.exists_of_length_succ rows hcount
        obtain ⟨⟨hle, hbyte⟩, hincreasing, hfirst, hrows⟩ := (hintRows_cons_iff hlast).mp hrows
        rw [hbyte, UInt8.toNat_ofNat', Nat.mod_eq_of_lt (by rw [DIL_OMEGA] at hle; omega)] at hlimit
        subst hlimit
        have hrest := (ih (by omega) hle).mpr ⟨rows, by simpa using hcount, hrows, rfl⟩
        rw [Nat.add_sub_cancel_left, hfirst, unpackHintRow_zero_iff.mpr ⟨hincreasing, rfl⟩, hrest]
        rfl

/-! ## Round trips of the hint -/

theorem length_hintLimits (k : Nat) (rows : List Bytes) :
    (hintLimits k rows).length = rows.length := by
  induction rows generalizing k with
  | nil => rfl
  | cons row rows ih => rw [hintLimits, List.length_cons, ih, List.length_cons]

theorem length_hintBytes (hweight : rows.flatten.length ≤ DIL_OMEGA) :
    (hintBytes rows).length = DIL_OMEGA + rows.length := by
  rw [hintBytes, List.length_append, List.length_append, List.length_replicate, length_hintLimits]
  omega

theorem eq_hintBytes_iff (hp : p.length = DIL_OMEGA + rows.length)
    (hrows : ∀ row ∈ rows, row.Pairwise (· < ·)) (hweight : rows.flatten.length ≤ DIL_OMEGA) :
    p = hintBytes rows ↔ HintRows p 0 0 rows.flatten.length rows ∧
      (p.take DIL_OMEGA).drop rows.flatten.length =
        List.replicate (DIL_OMEGA - rows.flatten.length) 0 := by
  have hfront : (rows.flatten ++
      List.replicate (DIL_OMEGA - rows.flatten.length) (0 : UInt8)).length = DIL_OMEGA := by
    rw [List.length_append, List.length_replicate]
    omega
  constructor
  · rintro rfl
    rw [hintBytes, ← List.append_assoc, List.take_left' hfront, List.drop_left]
    refine ⟨⟨hrows, (Nat.zero_add _).symm, hweight, ?_, ?_⟩, rfl⟩
    · rw [List.drop_zero, List.append_assoc, List.take_left]
    · rw [Nat.add_zero, List.drop_left' hfront]
  · rintro ⟨⟨-, -, -, hpositions, hlimits⟩, hpadding⟩
    have hmin : min rows.flatten.length DIL_OMEGA = rows.flatten.length := Nat.min_eq_left hweight
    calc p = p.take DIL_OMEGA ++ p.drop DIL_OMEGA := (List.take_append_drop _ _).symm
      _ = (p.take DIL_OMEGA).take rows.flatten.length ++
            (p.take DIL_OMEGA).drop rows.flatten.length ++ p.drop DIL_OMEGA := by
          rw [List.take_append_drop rows.flatten.length]
      _ = hintBytes rows := by
          rw [hpadding, List.take_take, hmin, hintBytes, ← hlimits, List.append_assoc]
          exact congrArg (· ++ _) hpositions

theorem any_ne_zero_eq_false_iff (hlength : bytes.length = n) :
    bytes.any (· ≠ 0) = false ↔ bytes = List.replicate n 0 := by
  rw [List.eq_replicate_iff]
  simp [hlength]

theorem unpackHint_eq_some_iff (hp : p.length = DIL_OMEGA + 8) :
    unpackHint p = some h ↔
      ∃ rows : List Bytes, rows.length = 8 ∧ (∀ row ∈ rows, row.Pairwise (· < ·)) ∧
        rows.flatten.length ≤ DIL_OMEGA ∧ p = hintBytes rows ∧
        h.toList = rows.map rowOfPositions := by
  have hpadding : ∀ k ≤ DIL_OMEGA, ((p.take DIL_OMEGA).drop k).length = DIL_OMEGA - k := by
    intro k _
    rw [List.length_drop, List.length_take, hp]
    omega
  have hvector : ∀ rows : List Bytes, rows.length = 8 → (h.toList = rows.map rowOfPositions ↔
      (Vector.ofFn fun i : Fin 8 =>
        (rows.map rowOfPositions).getD i (.replicate 256 0)) = h) := by
    intro rows hrows
    have hlist : (Vector.ofFn fun i : Fin 8 =>
        (rows.map rowOfPositions).getD i (.replicate 256 0)).toList = rows.map rowOfPositions := by
      refine List.ext_getElem (by simp [hrows]) fun i hi hi' => ?_
      rw [Vector.getElem_toList, Vector.getElem_ofFn, List.getD_eq_getElem _ _ hi']
    rw [← Vector.toList_inj, hlist, eq_comm]
  rw [unpackHint]
  constructor
  · intro h
    obtain ⟨⟨out, k⟩, hout, h⟩ := Option.bind_eq_some_iff.mp h
    obtain ⟨rows, hcount, hrows, rfl⟩ := (unpackHintRows_eq_some_iff hp (Nat.zero_le _)).mp hout
    obtain rfl : k = rows.flatten.length := hrows.end_eq.trans (Nat.zero_add _)
    obtain ⟨hclean, heq⟩ := Option.ite_none_left_eq_some.mp h
    have hzeros := (any_ne_zero_eq_false_iff (hpadding _ hrows.end_le)).mp
      (Bool.eq_false_iff.mpr hclean)
    refine ⟨rows, hcount, hrows.increasing, hrows.end_le, ?_, ?_⟩
    · exact (eq_hintBytes_iff (by rw [hp, hcount]) hrows.increasing hrows.end_le).mpr
        ⟨hrows, hzeros⟩
    · exact (hvector rows hcount).mpr (Option.some.inj heq)
  · rintro ⟨rows, hcount, hincreasing, hweight, hbytes, hlist⟩
    obtain ⟨hrows, hzeros⟩ := (eq_hintBytes_iff (by rw [hp, hcount]) hincreasing hweight).mp hbytes
    refine Option.bind_eq_some_iff.mpr ⟨(rows.map rowOfPositions, rows.flatten.length), ?_, ?_⟩
    · exact (unpackHintRows_eq_some_iff hp (Nat.zero_le _)).mpr ⟨rows, hcount, hrows, rfl⟩
    · refine Option.ite_none_left_eq_some.mpr ⟨?_, congrArg some ((hvector rows hcount).mp hlist)⟩
      exact Bool.eq_false_iff.mp ((any_ne_zero_eq_false_iff (hpadding _ hweight)).mpr hzeros)

theorem packHint_unpackHint (hp : p.length = DIL_OMEGA + 8)
    (hh : unpackHint p = some h) : packHint h = p := by
  obtain ⟨rows, -, hincreasing, hweight, rfl, hlist⟩ := (unpackHint_eq_some_iff hp).mp hh
  have hrows : h.toList.map hintPositions = rows := by
    have hrow : ∀ row ∈ rows, (hintPositions ∘ rowOfPositions) row = id row := by
      intro row hrow
      rw [Function.comp_apply, hintPositions_rowOfPositions (hincreasing row hrow), id]
    rw [hlist, List.map_map, List.map_congr_left hrow, List.map_id]
  rw [packHint_eq (by rwa [hrows]), hrows]

def IsHint (h : PolyVecK) : Prop := ∀ (i : Fin 8) (j : Fin 256), h[i][j] = 0 ∨ h[i][j] = 1

theorem length_hintPositions (h : ∀ j : Fin 256, row[j] = 0 ∨ row[j] = 1) :
    ((hintPositions row).length : Int) = row.toList.sum := by
  have hcount : ∀ js : List (Fin 256),
      ((js.filter fun j => row[j] ≠ 0).length : Int) = (js.map fun j => row[j]).sum := by
    intro js
    induction js with
    | nil => rfl
    | cons j js ih =>
      rw [List.map_cons, List.sum_cons, ← ih, List.filter_cons]
      rcases h j with hj | hj
      · simp [hj]
      · simp [hj, Int.add_comm]
  have hlist : (List.finRange 256).map (fun j => row[j]) = row.toList := by
    refine List.ext_getElem (by simp) fun i hi hi' => ?_
    simp
  rw [hintPositions, List.length_map, hcount, hlist]

theorem length_flatten_hintPositions (hbits : IsHint h) :
    ((h.toList.map hintPositions).flatten.length : Int) = hintWeight h := by
  have hrow : ∀ row ∈ h.toList, ((hintPositions row).length : Int) = row.toList.sum := by
    intro row hrow
    obtain ⟨i, hi, rfl⟩ := List.mem_iff_getElem.mp hrow
    rw [Vector.getElem_toList]
    exact length_hintPositions (hbits ⟨i, by simpa using hi⟩)
  rw [hintWeight, ← List.map_congr_left hrow, List.length_flatten, List.map_map, Nat.cast_list_sum,
    List.map_map]
  rfl

theorem unpackHint_packHint (hbits : IsHint h) (hweight : hintWeight h ≤ DIL_OMEGA) :
    (packHint h).length = DIL_OMEGA + 8 ∧ unpackHint (packHint h) = some h := by
  rw [← length_flatten_hintPositions hbits] at hweight
  have hfits := Int.ofNat_le.mp hweight
  have hcount : (h.toList.map hintPositions).length = 8 := by
    rw [List.length_map, Vector.length_toList]
  have hlength : (packHint h).length = DIL_OMEGA + 8 := by
    rw [packHint_eq hfits, length_hintBytes hfits, hcount]
  refine ⟨hlength, (unpackHint_eq_some_iff hlength).mpr
    ⟨h.toList.map hintPositions, hcount, ?_, hfits, packHint_eq hfits, ?_⟩⟩
  · rintro row hrow
    obtain ⟨poly, -, rfl⟩ := List.mem_map.mp hrow
    exact pairwise_hintPositions poly
  · have hrow : ∀ row ∈ h.toList, (rowOfPositions ∘ hintPositions) row = id row := by
      intro row hrow
      obtain ⟨i, hi, rfl⟩ := List.mem_iff_getElem.mp hrow
      exact rowOfPositions_hintPositions (hbits ⟨i, by simpa using hi⟩)
    rw [List.map_map, List.map_congr_left hrow, List.map_id]

/-! ## Round trips of the signature -/

def ZInRange (z : PolyVecL) : Prop :=
  ∀ (i : Fin 7) (j : Fin 256), -2 ^ 19 < z[i][j] ∧ z[i][j] ≤ 2 ^ 19

theorem dilPackSig_ensures {s : Signature} (hctilde : s.ctilde.length = DIL_CTILDEBYTES)
    (hz : ZInRange s.z) (hbits : IsHint s.h) (hweight : hintWeight s.h ≤ DIL_OMEGA) :
    Ensures E (dilPackSig s) fun sig =>
      sig.length = DILITHIUM_SIGNATUREBYTES ∧ dilUnpackSig sig = .ok (some s) := by
  obtain ⟨hlength, hhint⟩ := unpackHint_packHint hbits hweight
  have hpack : ∀ i : Fin 7, Ensures E (dilPolyzPack s.z[i]) fun r =>
      r.length = DIL_POLYZ_PACKEDBYTES ∧ dilPolyzUnpack r = .ok s.z[i] := by
    intro i
    refine packOffset_ensures (by decide) (fun j => ?_) fun j => ?_
    · have := hz i j
      rw [DIL_GAMMA1]
      omega
    · have := hz i j
      omega
  refine (packVec_ensures hpack).bind fun z hz => Ensures.pure ⟨?_, ?_⟩
  · rw [List.length_append, List.length_append, hctilde, hz.1, hlength]
    rfl
  · have hdrop : (s.ctilde ++ (z ++ packHint s.h)).drop
        (DIL_CTILDEBYTES + 7 * DIL_POLYZ_PACKEDBYTES) = packHint s.h := by
      rw [← List.append_assoc]
      exact List.drop_left' (by rw [List.length_append, hctilde, hz.1])
    rw [dilUnpackSig, hdrop, hhint, ← hctilde, hz.2, List.take_left]
    rfl

theorem dilUnpackSig_ensures {sig : Bytes} (hlength : sig.length = DILITHIUM_SIGNATUREBYTES) :
    Ensures E (dilUnpackSig sig) fun r => ∀ s, r = some s → dilPackSig s = .ok sig := by
  have hunpack : ∀ block : Bytes, block.length = DIL_POLYZ_PACKEDBYTES →
      Ensures E (dilPolyzUnpack block) fun a => True ∧ dilPolyzPack a = .ok block := by
    intro block hblock
    refine (unpackOffset_ensures (by decide) (by decide) block).mono fun a ha => ⟨trivial, ?_⟩
    exact ha.2 hblock
  have hfits : DIL_CTILDEBYTES + 7 * DIL_POLYZ_PACKEDBYTES ≤ sig.length := by
    rw [hlength]
    decide
  refine (unpackVec_ensures hfits hunpack).bind fun z hz => Ensures.pure fun s hs => ?_
  obtain ⟨h, hh, rfl⟩ := Option.map_eq_some_iff.mp hs
  have hrest : (sig.drop (DIL_CTILDEBYTES + 7 * DIL_POLYZ_PACKEDBYTES)).length = DIL_OMEGA + 8 := by
    rw [List.length_drop, hlength]
    rfl
  rw [dilPackSig, hz.2, ok_bind, packHint_unpackHint hrest hh, slice]
  refine congrArg Except.ok ?_
  rw [← List.drop_drop, List.take_append_drop, List.take_append_drop]

/-- Accepted signatures have one encoding. -/
theorem signature_encoding_unique :
    (∀ (sig : Bytes) (s : Signature), sig.length = DILITHIUM_SIGNATUREBYTES →
      dilUnpackSig sig = .ok (some s) → dilPackSig s = .ok sig) ∧
    (∀ s : Signature, s.ctilde.length = DIL_CTILDEBYTES → ZInRange s.z → IsHint s.h →
      hintWeight s.h ≤ DIL_OMEGA →
        ∃ sig, dilPackSig s = .ok sig ∧ sig.length = DILITHIUM_SIGNATUREBYTES ∧
          dilUnpackSig sig = .ok (some s)) := by
  refine ⟨fun sig s hlength hs => ?_, fun s hctilde hz hbits hweight => ?_⟩
  · exact (dilUnpackSig_ensures (E := fun _ => True) hlength).apply hs s rfl
  · exact (dilPackSig_ensures hctilde hz hbits hweight).exists_ok

/-- Hints at two places of the first and one of the last polynomial. -/
def hintedSignature : Signature where
  ctilde := List.replicate 64 0
  z := .replicate 7 (.replicate 256 0)
  h := .ofFn fun i => .ofFn fun j => if (i.val, j.val) ∈ [(0, 3), (0, 9), (7, 0)] then 1 else 0

theorem hinted_signature_encoding :
    hintWeight hintedSignature.h = 3 ∧
      ∃ sig, dilUnpackSig sig = .ok (some hintedSignature) ∧ dilPackSig hintedSignature = .ok sig := by
  have hz : ZInRange hintedSignature.z := by simp [ZInRange, hintedSignature]
  have hbits : IsHint hintedSignature.h := by
    intro i j
    simp only [hintedSignature, vector_getElem_fin, Vector.getElem_ofFn]
    split <;> simp
  have hweight : hintWeight hintedSignature.h = 3 := by
    simp only [hintWeight, hintedSignature, Vector.toList_ofFn, List.map_ofFn, Function.comp_def]
    decide +kernel
  obtain ⟨sig, -, hlength, hsig⟩ := signature_encoding_unique.2 hintedSignature
    List.length_replicate hz hbits (hweight.trans_le (by decide))
  exact ⟨hweight, sig, hsig, signature_encoding_unique.1 sig hintedSignature hlength hsig⟩

end HcsCoin.Dilithium
