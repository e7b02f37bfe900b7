import HcsCoin.Script.Script

/-!
# Script numbers

`CScriptNum`: little-endian bytes with the sign in the top bit of the last byte.
Operands have at most four bytes, or five for lock times, so a 64-bit value
always has room for them; results are written back without that limit.
-/

namespace HcsCoin

open Foundation

namespace CScriptNum

def nDefaultMaxNumSize : Nat := 4

def setVch (vch : Bytes) : Int :=
  match vch.getLast? with
  | none => 0
  | some back =>
    if back &&& 0x80 ≠ 0 then -((leNat vch - 0x80 * 256 ^ (vch.length - 1) : Nat) : Int)
    else (leNat vch : Nat)

/-- The shortest encoding: the last byte is more than a sign, unless the byte before it has
its top bit set. -/
def isMinimal (vch : Bytes) : Bool :=
  match vch.reverse with
  | [] => true
  | [back] => back &&& 0x7f != 0
  | back :: before :: _ => back &&& 0x7f != 0 || before &&& 0x80 != 0

/-- The constructor that reads a stack element; `none` is the `scriptnum_error` it throws. -/
def ofVch (vch : Bytes) (fRequireMinimal : Bool) (nMaxNumSize : Nat) : Option Int :=
  if vch.length > nMaxNumSize then none
  else if fRequireMinimal && !isMinimal vch then none
  else some (setVch vch)

def getint (value : Int) : Int :=
  if value > 0x7fffffff then 0x7fffffff else if value < -0x80000000 then -0x80000000 else value

def absBytes : Nat → Nat → Bytes
  | 0, _ => []
  | rounds + 1, absvalue =>
    if absvalue = 0 then [] else UInt8.ofNat absvalue :: absBytes rounds (absvalue / 256)

def serialize (value : Int) : Bytes :=
  let neg := value < 0
  let result := absBytes 8 value.natAbs
  match result.getLast? with
  | none => []
  | some back =>
    if back &&& 0x80 ≠ 0 then result ++ [if neg then 0x80 else 0]
    else if neg then result.dropLast ++ [back ||| 0x80]
    else result

/-! ## Operands are small, results are short -/

variable {vch : Bytes} {value : Int} {nMaxNumSize : Nat} {back : UInt8} {n : Int} {rounds : Nat}

theorem ofVch_of_minimal (h : ofVch vch true nMaxNumSize = some n) :
    ofVch vch false nMaxNumSize = some n := by
  simp only [ofVch, Bool.true_and, Bool.false_and, Bool.false_eq_true, if_false] at h ⊢
  split at h
  · exact absurd h nofun
  · rename_i hsize
    rw [if_neg hsize]
    split at h
    · exact absurd h nofun
    · exact h

private theorem exists_snoc (h : vch ≠ []) : ∃ front back, vch = front ++ [back] :=
  ⟨_, _, (List.dropLast_append_getLast h).symm⟩

private theorem leNat_snoc (front : Bytes) (back : UInt8) :
    leNat (front ++ [back]) = leNat front + 256 ^ front.length * back.toNat := by
  simp [leNat, positionalValue_append]

private theorem byte_split : ∀ back : UInt8, (back &&& 0x7f).toNat < 128 ∧
    back.toNat = (back &&& 0x7f).toNat + if back &&& 0x80 ≠ 0 then 128 else 0 :=
  forall_byte (by decide +kernel)

theorem setVch_snoc (front : Bytes) (back : UInt8) : setVch (front ++ [back]) =
    if back &&& 0x80 ≠ 0 then -(leNat (front ++ [back &&& 0x7f]) : Int)
    else leNat (front ++ [back &&& 0x7f]) := by
  have hback := (byte_split back).2
  rw [setVch, List.getLast?_concat, leNat_snoc, leNat_snoc]
  simp only [List.length_append, List.length_singleton, Nat.add_sub_cancel]
  split
  · rename_i hneg
    rw [hback, if_pos hneg, Nat.mul_add, ← Nat.add_assoc, Nat.mul_comm _ 128, Nat.add_sub_cancel]
  · rename_i hpos
    rw [hback, if_neg hpos, Nat.add_zero]

theorem natAbs_setVch_snoc (front : Bytes) (back : UInt8) :
    (setVch (front ++ [back])).natAbs = leNat (front ++ [back &&& 0x7f]) := by
  rw [setVch_snoc]
  split
  · rw [Int.natAbs_neg, Int.natAbs_natCast]
  · rw [Int.natAbs_natCast]

theorem natAbs_setVch_lt {size : Nat} (h : vch.length ≤ size + 1) :
    (setVch vch).natAbs < 128 * 256 ^ size := by
  by_cases hnil : vch = []
  · rw [hnil]
    exact Nat.mul_pos (by decide) (Nat.pow_pos (by decide))
  · obtain ⟨front, back, rfl⟩ := exists_snoc hnil
    have hfront := leNat_lt front
    have hback : 256 ^ front.length * (back &&& 0x7f).toNat ≤ 256 ^ front.length * 127 :=
      Nat.mul_le_mul_left _ (Nat.le_of_lt_succ (byte_split back).1)
    have hsize : 256 ^ front.length ≤ 256 ^ size :=
      Nat.pow_le_pow_right (by decide) (by simpa using h)
    rw [natAbs_setVch_snoc, leNat_snoc]
    omega

theorem natAbs_ofVch_lt {fRequireMinimal : Bool}
    (h : ofVch vch fRequireMinimal (nMaxNumSize + 1) = some n) :
    n.natAbs < 128 * 256 ^ nMaxNumSize := by
  rw [ofVch] at h
  split at h
  · exact absurd h nofun
  · rename_i hsize
    split at h
    · exact absurd h nofun
    · cases h
      exact natAbs_setVch_lt (Nat.le_of_not_gt hsize)

theorem length_absBytes_le (rounds absvalue : Nat) : (absBytes rounds absvalue).length ≤ rounds := by
  induction rounds generalizing absvalue with
  | zero => rfl
  | succ rounds ih =>
    rw [absBytes]
    split
    · exact Nat.zero_le _
    · exact Nat.succ_le_succ (ih _)

theorem length_serialize_le (value : Int) : (serialize value).length ≤ 9 := by
  have hbytes := length_absBytes_le 8 value.natAbs
  rw [serialize]
  split
  · exact Nat.zero_le _
  · split
    · rw [List.length_append, List.length_singleton]
      omega
    · split
      · rw [List.length_append, List.length_dropLast, List.length_singleton]
        omega
      · omega

/-! ## Round trips -/

private theorem leNat_cons (x : UInt8) (xs : Bytes) :
    leNat (x :: xs) = x.toNat + 256 * leNat xs := rfl

theorem absBytes_spec {absvalue : Nat} (h : absvalue < 256 ^ rounds) :
    leNat (absBytes rounds absvalue) = absvalue ∧ (absBytes rounds absvalue).getLast? ≠ some 0 := by
  induction rounds generalizing absvalue with
  | zero => simp_all [absBytes, leNat]
  | succ rounds ih =>
    rw [absBytes]
    split
    · simp_all [leNat]
    · rename_i hne
      obtain ⟨hvalue, hlast⟩ := @ih (absvalue / 256) (by omega)
      rw [leNat_cons, hvalue, UInt8.toNat_ofNat', List.getLast?_cons]
      refine ⟨by omega, fun hzero => ?_⟩
      cases hrest : (absBytes rounds (absvalue / 256)).getLast? with
      | some back =>
        rw [hrest] at hzero
        exact hlast (hrest.trans hzero)
      | none =>
        rw [List.getLast?_eq_none_iff.mp hrest] at hvalue hzero
        have hbyte : absvalue % 2 ^ 8 = 0 := congrArg UInt8.toNat (Option.some.inj hzero)
        have hnil : leNat [] = 0 := rfl
        omega

/-- A byte string whose last byte is not zero is what the loop writes for its value. -/
theorem absBytes_leNat {xs : Bytes} (hlength : xs.length ≤ rounds) (hlast : xs.getLast? ≠ some 0) :
    absBytes rounds (leNat xs) = xs := by
  induction xs generalizing rounds with
  | nil => cases rounds <;> simp [absBytes, leNat]
  | cons x xs ih =>
    obtain _ | rounds := rounds
    · simp at hlength
    have hrest : xs.getLast? ≠ some 0 := by cases xs <;> simp_all
    have hxs := @ih rounds (by simpa using hlength) hrest
    have hvalue := leNat_cons x xs
    have hx := x.toNat_lt
    have hne : leNat (x :: xs) ≠ 0 := by
      intro hzero
      have hnil : xs = [] := by
        rw [← hxs, show leNat xs = 0 by omega]
        cases rounds <;> simp [absBytes]
      subst hnil
      refine hlast (congrArg some (UInt8.toNat_inj.mp ?_))
      exact (show x.toNat = 0 by omega)
    rw [absBytes, if_neg hne, show leNat (x :: xs) / 256 = leNat xs by omega, hxs]
    congr 1
    refine UInt8.toNat_inj.mp ?_
    rw [UInt8.toNat_ofNat']
    omega

/-- The magnitude `front ++ [back]` with its sign. -/
def signed (neg : Bool) (front : Bytes) (back : UInt8) : Bytes :=
  if back &&& 0x80 ≠ 0 then front ++ [back] ++ [if neg then 0x80 else 0]
  else front ++ [if neg then back ||| 0x80 else back]

theorem serialize_eq_signed {front : Bytes} (h : absBytes 8 value.natAbs = front ++ [back]) :
    serialize value = signed (value < 0) front back := by
  rw [serialize, signed, h, List.getLast?_concat]
  by_cases hneg : value < 0 <;> simp [hneg]

private theorem byte_signed (neg : Bool) (back : UInt8) :
    ((if neg then 0x80 else (0 : UInt8)) &&& 0x80 ≠ 0 ↔ neg = true) ∧
      (if neg then 0x80 else (0 : UInt8)) &&& 0x7f = 0 ∧
      (back &&& 0x80 = 0 → ((if neg then back ||| 0x80 else back) &&& 0x80 ≠ 0 ↔ neg = true) ∧
        (if neg then back ||| 0x80 else back) &&& 0x7f = back) := by
  revert back
  cases neg <;> exact forall_byte (by decide +kernel)

theorem setVch_signed (neg : Bool) (front : Bytes) (back : UInt8) :
    setVch (signed neg front back) =
      if neg then -(leNat (front ++ [back]) : Int) else leNat (front ++ [back]) := by
  obtain ⟨hsign, hzero, hback⟩ := byte_signed neg back
  rw [signed]
  split
  · rw [setVch_snoc, hzero, leNat_snoc (front ++ [back])]
    simp [hsign]
  · rename_i h
    obtain ⟨hsign, hback⟩ := hback (not_not.mp h)
    rw [setVch_snoc, hback]
    simp [hsign]

theorem isMinimal_snoc (front : Bytes) (back : UInt8) : isMinimal (front ++ [back]) = true ↔
    back &&& 0x7f ≠ 0 ∨ ∃ init before, front = init ++ [before] ∧ before &&& 0x80 ≠ 0 := by
  rcases List.eq_nil_or_concat front with rfl | ⟨init, before, rfl⟩
  · simp [isMinimal]
  · simp [isMinimal, List.concat_eq_append]

theorem isMinimal_signed (neg : Bool) (front : Bytes) (h : back ≠ 0) :
    isMinimal (signed neg front back) = true := by
  obtain ⟨-, -, hback⟩ := byte_signed neg back
  rw [signed]
  split
  · rename_i hsign
    exact (isMinimal_snoc _ _).mpr (Or.inr ⟨front, back, rfl, hsign⟩)
  · rename_i hsign
    refine (isMinimal_snoc _ _).mpr (Or.inl ?_)
    rwa [(hback (not_not.mp hsign)).2]

private theorem byte_resigned : ∀ back : UInt8,
    (back &&& 0x7f = 0 → back = if (back &&& 0x80 != 0) = true then 0x80 else 0) ∧
      (back &&& 0x7f) &&& 0x80 = 0 ∧
      back = if (back &&& 0x80 != 0) = true then back &&& 0x7f ||| 0x80 else back &&& 0x7f :=
  forall_byte (by decide +kernel)

/-- A minimal encoding is a magnitude without leading zeros and its sign. -/
theorem exists_signed (hne : vch ≠ []) (h : isMinimal vch = true) :
    ∃ neg front back, back ≠ 0 ∧ front.length + 1 ≤ vch.length ∧ vch = signed neg front back := by
  obtain ⟨front, back, rfl⟩ := exists_snoc hne
  obtain ⟨hzero, hclear, hsplit⟩ := byte_resigned back
  by_cases hback : back &&& 0x7f = 0
  · obtain ⟨init, before, rfl, hbefore⟩ :=
      ((isMinimal_snoc _ _).mp h).resolve_left fun hne => hne hback
    refine ⟨back &&& 0x80 != 0, init, before, ?_, by simp, ?_⟩
    · rintro rfl
      exact hbefore rfl
    · rw [signed, if_pos hbefore, ← hzero hback]
  · refine ⟨back &&& 0x80 != 0, front, back &&& 0x7f, hback, by simp, ?_⟩
    rw [signed, if_neg (not_not.mpr hclear), ← hsplit]

theorem setVch_serialize (h : value.natAbs < 256 ^ 8) :
    setVch (serialize value) = value ∧ isMinimal (serialize value) = true := by
  obtain ⟨hvalue, hlast⟩ := absBytes_spec h
  by_cases hnil : absBytes 8 value.natAbs = []
  · rw [hnil] at hvalue
    obtain rfl : value = 0 := Int.natAbs_eq_zero.mp hvalue.symm
    exact ⟨rfl, rfl⟩
  · obtain ⟨front, back, hbytes⟩ := exists_snoc hnil
    rw [hbytes, List.getLast?_concat] at hlast
    rw [serialize_eq_signed hbytes]
    refine ⟨?_, isMinimal_signed _ _ fun hzero => hlast (congrArg some hzero)⟩
    rw [setVch_signed, ← hbytes, hvalue]
    simp only [decide_eq_true_eq]
    split <;> omega

theorem serialize_setVch (hlength : vch.length ≤ 8) (h : isMinimal vch = true) :
    serialize (setVch vch) = vch := by
  by_cases hnil : vch = []
  · rw [hnil]
    rfl
  · obtain ⟨neg, front, back, hback, hfront, rfl⟩ := exists_signed hnil h
    have hbytes : absBytes 8 (leNat (front ++ [back])) = front ++ [back] :=
      absBytes_leNat (by simp; omega) (by simpa using hback)
    have hpos : 0 < leNat (front ++ [back]) := by
      rcases Nat.eq_zero_or_pos (leNat (front ++ [back])) with hzero | hpos
      · rw [hzero] at hbytes
        exact absurd hbytes (by simp [absBytes])
      · exact hpos
    have habs : (setVch (signed neg front back)).natAbs = leNat (front ++ [back]) := by
      rw [setVch_signed]
      split <;> omega
    have hsign : decide (setVch (signed neg front back) < 0) = neg := by
      rw [setVch_signed]
      cases neg
      · simp
      · simpa using hpos
    rw [serialize_eq_signed (habs ▸ hbytes), hsign]

/-- Every 64-bit number but the least one has at most eight bytes. -/
theorem length_serialize_le_eight (h : value.natAbs < 2 ^ 63) : (serialize value).length ≤ 8 := by
  obtain ⟨hvalue, -⟩ := @absBytes_spec 8 value.natAbs (by omega)
  have hlength := length_absBytes_le 8 value.natAbs
  by_cases hnil : absBytes 8 value.natAbs = []
  · rw [serialize, hnil]
    exact Nat.zero_le 8
  · obtain ⟨front, back, hbytes⟩ := exists_snoc hnil
    rw [serialize_eq_signed hbytes, signed]
    rw [hbytes, List.length_append, List.length_singleton] at hlength
    split
    · rename_i hsign
      have hback := (byte_split back).2
      rw [if_pos hsign] at hback
      rw [hbytes, leNat_snoc] at hvalue
      have hseven : front.length ≠ 7 := by
        intro hseven
        rw [hseven] at hvalue
        omega
      simp only [List.length_append, List.length_singleton]
      omega
    · rw [List.length_append, List.length_singleton]
      exact hlength

end CScriptNum

/-- Numbers are read back as they were written, and so are the pushes of a script below
`2 ^ 31` bytes. -/
theorem scriptNum_and_pushes_read_back :
    (∀ (n : Int64) (fRequireMinimal : Bool) (nMaxNumSize : Nat),
      (CScriptNum.serialize n.toInt).length ≤ nMaxNumSize → nMaxNumSize ≤ 8 →
        CScriptNum.ofVch (CScriptNum.serialize n.toInt) fRequireMinimal nMaxNumSize =
          some n.toInt) ∧
    (∀ n : Int64, n ≠ Int64.minValue → (CScriptNum.serialize n.toInt).length ≤ 8) ∧
    (∀ (vch : Bytes) (nMaxNumSize : Nat), vch.length ≤ 8 → vch.length ≤ nMaxNumSize →
      ((CScriptNum.ofVch vch true nMaxNumSize).isSome = true ↔
        CScriptNum.serialize (CScriptNum.setVch vch) = vch)) ∧
    ∀ items : List Bytes, (items.flatMap CScript.pushData).length < 2 ^ 31 →
      CScript.getOps (items.flatMap CScript.pushData) =
        some (items.map fun data => ((CScript.pushData data).headD 0, data)) ∧
      ∀ data ∈ items, (∃ n, data = [n] ∧ (1 ≤ n ∧ n ≤ 16 ∨ n = 0x81)) ∨
        checkMinimalPush data ((CScript.pushData data).headD 0) = true := by
  have habs (n : Int64) : n.toInt.natAbs < 256 ^ 8 := by
    have hlt := n.toInt_lt
    have hge := n.le_toInt
    omega
  refine ⟨fun n fRequireMinimal nMaxNumSize hsize _ => ?_, fun n hn => ?_,
    fun vch nMaxNumSize hlength hsize => ?_, fun items hsum => ?_⟩
  · obtain ⟨hvalue, hminimal⟩ := CScriptNum.setVch_serialize (habs n)
    simp [CScriptNum.ofVch, hvalue, hminimal, Nat.not_lt.mpr hsize]
  · refine CScriptNum.length_serialize_le_eight ?_
    have hlt := n.toInt_lt
    have hge := n.le_toInt
    have hmin : n.toInt ≠ -2 ^ 63 := fun h => hn (Int64.toInt_inj.mp h)
    omega
  · simp only [CScriptNum.ofVch, if_neg (Nat.not_lt.mpr hsize), Bool.true_and]
    constructor
    · intro haccept
      split at haccept
      · exact absurd haccept nofun
      · rename_i hminimal
        exact CScriptNum.serialize_setVch hlength (by simpa using hminimal)
    · intro hround
      have hvalue := @CScriptNum.natAbs_setVch_lt vch 7 hlength
      have hminimal := (CScriptNum.setVch_serialize (Nat.lt_trans hvalue (by decide))).2
      rw [hround] at hminimal
      simp [hminimal]
  · have hsize : ∀ data ∈ items, data.length < 2 ^ 32 := by
      intro data hdata
      have hle : (CScript.pushData data).length ≤ (items.flatMap CScript.pushData).length := by
        rw [List.length_flatMap]
        exact List.single_le_sum (by simp) _ (List.mem_map_of_mem hdata)
      simp only [CScript.pushData, List.length_append] at hle
      omega
    rw [CScript.getOps, if_neg (Nat.not_le.mpr hsum)]
    refine ⟨CScript.getOpsFrom_pushData hsize (Nat.le_refl _), fun data hdata => ?_⟩
    by_cases hown : ∃ n, data = [n] ∧ (1 ≤ n ∧ n ≤ 16 ∨ n = 0x81)
    · exact Or.inl hown
    · refine Or.inr (checkMinimalPush_pushData (hsize data hdata) fun n hn => ?_)
      exact ⟨fun h => hown ⟨n, hn, Or.inl h⟩, fun h => hown ⟨n, hn, Or.inr h⟩⟩

private theorem large_push {data : Bytes} (h : data.length = 2 ^ 31 - 5) :
    ([data].map List.length).sum < 2 ^ 32 ∧
      CScript.getOps ([data].flatMap CScript.pushData) = some [] ∧
      CScript.getOps ([data].flatMap CScript.pushData) ≠
        some ([data].map fun data => ((CScript.pushData data).headD 0, data)) := by
  have hlength : (CScript.pushData data).length = 2 ^ 31 := by
    simp [CScript.pushData, h, OP_PUSHDATA1]
  have hread : CScript.getOps ([data].flatMap CScript.pushData) = some [] := by
    rw [List.flatMap_singleton, CScript.getOps, if_pos hlength.ge]
  refine ⟨by simp [h], hread, ?_⟩
  rw [hread]
  simp

/-- One push that makes a script of `2 ^ 31` bytes is not read back. -/
theorem large_push_not_read_back :
    let items : List Bytes := [List.replicate (2 ^ 31 - 5) 0]
    (items.map List.length).sum < 2 ^ 32 ∧
      CScript.getOps (items.flatMap CScript.pushData) = some [] ∧
      CScript.getOps (items.flatMap CScript.pushData) ≠
        some (items.map fun data => ((CScript.pushData data).headD 0, data)) :=
  large_push List.length_replicate

end HcsCoin
