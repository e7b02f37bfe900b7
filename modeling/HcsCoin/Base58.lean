import HcsCoin.Foundation.Radix
import Mathlib.Data.List.DropRight

/-!
# Base58 strings

Strings are lists of bytes.  The digit vectors are kept with the last digit first, as the loops
over them run.  A failed assertion has no result.
-/

namespace HcsCoin

open Foundation

/-- The text `123456789ABCDEFGHJKLMNPQRSTUVWXYZabcdefghijkmnopqrstuvwxyz` with its terminator. -/
def pszBase58 : List UInt8 :=
  [49, 50, 51, 52, 53, 54, 55, 56, 57, 65, 66, 67, 68, 69, 70, 71, 72, 74, 75, 76, 77, 78, 80, 81,
    82, 83, 84, 85, 86, 87, 88, 89, 90, 97, 98, 99, 100, 101, 102, 103, 104, 105, 106, 107, 109,
    110, 111, 112, 113, 114, 115, 116, 117, 118, 119, 120, 121, 122, 0]

def mapBase58 : List Int :=
  [-1, -1, -1, -1, -1, -1, -1, -1, -1, -1, -1, -1, -1, -1, -1, -1,
    -1, -1, -1, -1, -1, -1, -1, -1, -1, -1, -1, -1, -1, -1, -1, -1,
    -1, -1, -1, -1, -1, -1, -1, -1, -1, -1, -1, -1, -1, -1, -1, -1,
    -1, 0, 1, 2, 3, 4, 5, 6, 7, 8, -1, -1, -1, -1, -1, -1,
    -1, 9, 10, 11, 12, 13, 14, 15, 16, -1, 17, 18, 19, 20, 21, -1,
    22, 23, 24, 25, 26, 27, 28, 29, 30, 31, 32, -1, -1, -1, -1, -1,
    -1, 33, 34, 35, 36, 37, 38, 39, 40, 41, 42, 43, -1, 44, 45, 46,
    47, 48, 49, 50, 51, 52, 53, 54, 55, 56, 57, -1, -1, -1, -1, -1] ++ List.replicate 128 (-1)

def isSpace (c : UInt8) : Bool :=
  c == 32 || c == 12 || c == 10 || c == 13 || c == 9 || c == 11

/-! ## The loops over the digits -/

def multiplyAdd (factor base length : Nat) : Nat → Nat → List Nat → List Nat × Nat × Nat
  | i, carry, [] => ([], carry, i)
  | i, carry, d :: ds =>
    if carry ≠ 0 ∨ i < length then
      let carry := carry + factor * d
      let rest := multiplyAdd factor base length (i + 1) (carry / base) ds
      (carry % base :: rest.1, rest.2)
    else (d :: ds, carry, i)

structure DigitVector where
  digits : List Nat
  length : Nat

/-- The body of both conversion loops with its assertion. -/
def appendDigit (factor base : Nat) (vector : DigitVector) (digit : Nat) : Option DigitVector :=
  let (digits, carry, i) := multiplyAdd factor base vector.length 0 digit vector.digits
  if carry = 0 then some ⟨digits, i⟩ else none

def encodeBase58 (input : List UInt8) : Option (List UInt8) := do
  let zeroes := (input.takeWhile (· == 0)).length
  let input := input.dropWhile (· == 0)
  let size := input.length * 138 / 100 + 1
  let b58 ← input.foldlM (fun b58 byte => appendDigit 256 58 b58 byte.toNat)
    ⟨List.replicate size 0, 0⟩
  let it := (b58.digits.reverse.drop (size - b58.length)).dropWhile (· == 0)
  let chars ← it.mapM fun d => pszBase58[d]?
  return List.replicate zeroes 49 ++ chars

def skipOnes (maxRetLen : Int) : Nat → List UInt8 → Option (Nat × List UInt8)
  | zeroes, [] => some (zeroes, [])
  | zeroes, c :: psz =>
    if c = 49 then
      if ((zeroes + 1 : Nat) : Int) > maxRetLen then none else skipOnes maxRetLen (zeroes + 1) psz
    else some (zeroes, c :: psz)

/-- The characters up to the first white space.  The inner result fails where the code returns
false. -/
def decodeCharacters (maxRetLen : Int) (zeroes : Nat) :
    DigitVector → List UInt8 → Option (Option (DigitVector × List UInt8))
  | b256, [] => some (some (b256, []))
  | b256, c :: psz =>
    if isSpace c then some (some (b256, c :: psz))
    else do
      let carry ← mapBase58[c.toNat]?
      if carry = -1 then return none
      else
        let b256 ← appendDigit 58 256 b256 carry.toNat
        if ((b256.length + zeroes : Nat) : Int) > maxRetLen then return none
        else decodeCharacters maxRetLen zeroes b256 psz

def decodeBase58CString (psz : List UInt8) (maxRetLen : Int) : Option (Option (List UInt8)) :=
  match skipOnes maxRetLen 0 (psz.dropWhile isSpace) with
  | none => some none
  | some (zeroes, psz) => do
    let size := psz.length * 733 / 1000 + 1
    match ← decodeCharacters maxRetLen zeroes ⟨List.replicate size 0, 0⟩ psz with
    | none => return none
    | some (b256, psz) =>
      if psz.dropWhile isSpace ≠ [] then return none
      else return some (List.replicate zeroes 0 ++
        (b256.digits.reverse.drop (size - b256.length)).map UInt8.ofNat)

def decodeBase58 (str : List UInt8) (maxRetLen : Int) : Option (Option (List UInt8)) :=
  if 0 ∈ str then some none else decodeBase58CString str maxRetLen

/-! ## Conversion steps -/

structure DigitVector.Holds (vector : DigitVector) (base size v : Nat) : Prop where
  digits : vector.digits = toDigits base size v
  fits : v < base ^ size
  length : vector.length = (base.digits v).length

variable {base factor size v zeroes ones : Nat} {vector : DigitVector} {s cs rest str : List UInt8}
  {maxRetLen : Int}

theorem holds_zero (hbase : 0 < base) (size : Nat) :
    DigitVector.Holds ⟨List.replicate size 0, 0⟩ base size 0 :=
  ⟨(toDigits_zero base size).symm, Nat.pow_pos hbase, by simp⟩

theorem multiplyAdd_toDigits {length : Nat} (hbase : 1 < base) {i carry : Nat}
    (hlength : length - i ≤ size) (hv : (base.digits v).length ≤ length - i)
    (hfits : carry + factor * v < base ^ size) :
    multiplyAdd factor base length i carry (toDigits base size v) =
      (toDigits base size (carry + factor * v), 0,
        i + max (length - i) (base.digits (carry + factor * v)).length) := by
  induction size generalizing i carry v with
  | zero =>
    have hzero : carry + factor * v = 0 := by simpa using hfits
    rw [hzero]
    have hcarry : carry = 0 := by omega
    simp [multiplyAdd, toDigits, hcarry, Nat.le_zero.1 hlength]
  | succ size ih =>
    have hsplit : carry + factor * v = carry + factor * (v % base) + base * (factor * (v / base)) := by
      conv_lhs => rw [← Nat.mod_add_div v base]
      ring
    have hmod : (carry + factor * v) % base = (carry + factor * (v % base)) % base := by
      rw [hsplit, Nat.add_mul_mod_self_left]
    have hdiv : (carry + factor * v) / base =
        (carry + factor * (v % base)) / base + factor * (v / base) := by
      rw [hsplit, Nat.add_mul_div_left _ _ (by omega)]
    by_cases hrun : carry ≠ 0 ∨ i < length
    · have hrest : (base.digits (v / base)).length ≤ length - (i + 1) := by
        rcases Nat.eq_zero_or_pos v with rfl | hpos
        · simp
        · rw [length_digits_div hbase hpos.ne'] at hv
          omega
      have hsmall : (carry + factor * v) / base < base ^ size :=
        Nat.div_lt_of_lt_mul (by rwa [← pow_succ'])
      rw [hdiv] at hsmall
      have hcount : i + 1 + max (length - (i + 1)) (base.digits ((carry + factor * v) / base)).length
          = i + max (length - i) (base.digits (carry + factor * v)).length := by
        rcases Nat.eq_zero_or_pos (carry + factor * v) with hzero | hpos
        · have hcarry : carry = 0 := by omega
          simp only [hcarry, ne_eq, not_true_eq_false, false_or] at hrun
          simp [hzero]
          omega
        · rw [length_digits_div hbase hpos.ne']
          omega
      rw [toDigits, multiplyAdd, if_pos hrun]
      simp only [ih (by omega) hrest hsmall]
      rw [← hdiv, ← hmod, hcount, toDigits]
    · simp only [ne_eq, not_or, not_not, not_lt] at hrun
      have hv0 : v = 0 := by
        have hnil : (base.digits v).length = 0 := by omega
        exact Nat.digits_eq_nil_iff_eq_zero.1 (List.length_eq_zero_iff.1 hnil)
      rw [toDigits, multiplyAdd, if_neg (by simpa using hrun)]
      simp [hv0, hrun.1, toDigits, Nat.sub_eq_zero_of_le hrun.2]

theorem appendDigit_holds {digit : Nat} (hbase : 1 < base) (hfactor : 0 < factor)
    (h : vector.Holds base size v) (hfits : factor * v + digit < base ^ size) :
    ∃ vector', appendDigit factor base vector digit = some vector' ∧
      vector'.Holds base size (factor * v + digit) := by
  have hle : v ≤ digit + factor * v := Nat.le_add_left_of_le (Nat.le_mul_of_pos_left v hfactor)
  rw [Nat.add_comm] at hfits ⊢
  have hrun := multiplyAdd_toDigits (i := 0) hbase
    (show vector.length - 0 ≤ size by rw [h.length]; exact (Nat.digits_length_le_iff hbase v).2 h.fits)
    (by rw [h.length]; omega) hfits
  refine ⟨⟨toDigits base size (digit + factor * v), (base.digits (digit + factor * v)).length⟩, ?_,
    rfl, hfits, rfl⟩
  have hmono := Nat.le_length_digits_le base _ _ hle
  rw [appendDigit, h.digits, hrun, h.length]
  simp [hmono]

theorem foldlM_appendDigit (hbase : 1 < base) (hfactor : 0 < factor)
    (h : vector.Holds base size v) {ds : List Nat} (hfits : numeral factor v ds < base ^ size) :
    ∃ vector', ds.foldlM (appendDigit factor base) vector = some vector' ∧
      vector'.Holds base size (numeral factor v ds) := by
  induction ds generalizing v vector with
  | nil => exact ⟨vector, rfl, h⟩
  | cons d ds ih =>
    obtain ⟨next, hnext, hholds⟩ := appendDigit_holds hbase hfactor h
      (Nat.lt_of_le_of_lt (le_numeral hfactor _ ds) hfits)
    obtain ⟨last, hlast, hholds⟩ := ih hholds hfits
    exact ⟨last, by simp [hnext, hlast], hholds⟩

/-! ## Characters -/

def base58Char (d : Nat) : UInt8 := pszBase58.getD d 0

def base58Value (c : UInt8) : Int := mapBase58.getD c.toNat (-1)

theorem getElem?_mapBase58 (c : UInt8) : mapBase58[c.toNat]? = some (base58Value c) := by
  have hlength : mapBase58.length = 256 := by decide +kernel
  have hc : c.toNat < mapBase58.length := hlength ▸ c.toNat_lt
  rw [base58Value, List.getD_eq_getElem _ _ hc, List.getElem?_eq_getElem hc]

theorem base58Char_spec {d : Nat} (hd : d < 58) : pszBase58[d]? = some (base58Char d) ∧
    base58Value (base58Char d) = d ∧ base58Char d ≠ 0 := by
  have htable : ∀ d : Fin 58, pszBase58[d.val]? = some (base58Char d) ∧
      base58Value (base58Char d) = d.val ∧ base58Char d ≠ 0 := by
    decide
  exact htable ⟨d, hd⟩

theorem base58Value_spec : ∀ {c : UInt8}, base58Value c ≠ -1 →
    (base58Value c).toNat < 58 ∧ base58Char (base58Value c).toNat = c ∧ isSpace c = false ∧
      ((base58Value c).toNat = 0 → c = 49) := by
  refine @(forall_byte ?_)
  decide +kernel

theorem base58Value_ne : ∀ {c : UInt8}, c ∈ pszBase58.take 58 → base58Value c ≠ -1 := by
  have htable : ∀ c ∈ pszBase58.take 58, base58Value c ≠ -1 := by decide +kernel
  exact @htable

/-! ## Encoding -/

def bytesOf (zeroes v : Nat) : List UInt8 := spell 256 UInt8.ofNat zeroes v

def base58Of (zeroes v : Nat) : List UInt8 := spell 58 base58Char zeroes v

theorem exists_bytesOf (b : List UInt8) : ∃ zeroes v, b = bytesOf zeroes v := by
  have hmap : b = (b.map UInt8.toNat).map UInt8.ofNat := by simp [Function.comp_def]
  rw [hmap]
  refine exists_spell (by decide) ?_
  simpa using fun c _ => c.toNat_lt

theorem exists_base58Of (hs : ∀ c ∈ s, base58Value c ≠ -1) : ∃ zeroes v, s = base58Of zeroes v := by
  have hmap : s = (s.map fun c => (base58Value c).toNat).map base58Char := by
    rw [List.map_map]
    conv_lhs => rw [← List.map_id s]
    exact List.map_congr_left fun c hc => (base58Value_spec (hs c hc)).2.1.symm
  rw [hmap]
  refine exists_spell (by decide) fun d hd => ?_
  obtain ⟨c, hc, rfl⟩ := List.mem_map.1 hd
  exact (base58Value_spec (hs c hc)).1

theorem length_bytesOf (zeroes v : Nat) :
    (bytesOf zeroes v).length = zeroes + (Nat.digits 256 v).length := by
  simp [bytesOf, spell]

theorem base58Of_eq_nil_iff : base58Of zeroes v = [] ↔ (bytesOf zeroes v).length = 0 := by
  simp [length_bytesOf, base58Of, spell, Nat.digits_eq_nil_iff_eq_zero]

theorem encodeBase58_bytesOf (zeroes v : Nat) :
    encodeBase58 (bytesOf zeroes v) = some (base58Of zeroes v) := by
  have hlow : ∀ d ∈ (Nat.digits 256 v).reverse, d < 256 := fun d hd =>
    Nat.digits_lt_base (by decide) (List.mem_reverse.1 hd)
  have hhead : ∀ c ∈ ((Nat.digits 256 v).reverse.map UInt8.ofNat).head?, (c == 0) = false := by
    intro c hc
    rw [List.head?_map, Option.mem_map] at hc
    obtain ⟨d, hd, rfl⟩ := hc
    have hlt := hlow d (List.mem_of_mem_head? hd)
    have hne := head_reverse_digits_ne hd
    simpa [← UInt8.toNat_inj, Nat.mod_eq_of_lt hlt] using hne
  obtain ⟨htake, hdrop⟩ := span_append
    (show ∀ c ∈ List.replicate zeroes (UInt8.ofNat 0), (c == 0) = true by simp) hhead
  have hfits : v < 58 ^ ((Nat.digits 256 v).length * 138 / 100 + 1) :=
    lt_pow_of_ratio (by decide) (by norm_num) (by decide)
      (Nat.lt_base_pow_length_digits (by decide : 1 < 256))
  obtain ⟨b58, hb58, hholds⟩ := foldlM_appendDigit (show 1 < 58 by decide)
    (show 0 < 256 by decide) (holds_zero (by decide) _)
    (show numeral 256 0 (Nat.digits 256 v).reverse < _ by rw [numeral_reverse_digits]; exact hfits)
  rw [numeral_reverse_digits] at hholds
  have hbytes : ((Nat.digits 256 v).reverse.map UInt8.ofNat).map UInt8.toNat =
      (Nat.digits 256 v).reverse := by
    rw [List.map_map]
    conv_rhs => rw [← List.map_id (Nat.digits 256 v).reverse]
    refine List.map_congr_left fun d hd => ?_
    simp [Nat.mod_eq_of_lt (hlow d hd)]
  have hloop : ((Nat.digits 256 v).reverse.map UInt8.ofNat).foldlM
      (fun b58 byte => appendDigit 256 58 b58 byte.toNat)
      ⟨List.replicate ((Nat.digits 256 v).length * 138 / 100 + 1) 0, 0⟩ = some b58 := by
    rw [← List.foldlM_map, hbytes, hb58]
  have hit : (b58.digits.reverse.drop ((Nat.digits 256 v).length * 138 / 100 + 1 - b58.length)).dropWhile
      (· == 0) = (Nat.digits 58 v).reverse := by
    rw [hholds.digits, hholds.length, drop_reverse_toDigits (by decide) hholds.fits]
    exact (span_append (List.forall_mem_nil _) fun d hd => by
      simpa using head_reverse_digits_ne hd).2
  rw [encodeBase58, bytesOf, spell, htake, hdrop]
  simp only [List.length_replicate, List.length_map, List.length_reverse, hloop, hit,
    some_bind]
  rw [mapM_eq_some_map fun d hd =>
    (base58Char_spec (Nat.digits_lt_base (by decide) (List.mem_reverse.1 hd))).1]
  rfl

/-! ## Decoding -/

theorem skipOnes_eq (maxRetLen : Int) (zeroes : Nat) (psz : List UInt8) :
    skipOnes maxRetLen zeroes psz =
      if 0 < (psz.takeWhile (· == 49)).length ∧
          ((zeroes + (psz.takeWhile (· == 49)).length : Nat) : Int) > maxRetLen then none
      else some (zeroes + (psz.takeWhile (· == 49)).length, psz.dropWhile (· == 49)) := by
  induction psz generalizing zeroes with
  | nil => simp [skipOnes]
  | cons c psz ih =>
    by_cases hc : c = 49
    · have hsum : zeroes + 1 + (psz.takeWhile (· == 49)).length =
          zeroes + ((psz.takeWhile (· == 49)).length + 1) := by omega
      rw [skipOnes, if_pos hc, ih, hsum]
      simp only [hc, List.takeWhile_cons, List.dropWhile_cons, beq_self_eq_true, if_true,
        List.length_cons]
      split_ifs <;> first | rfl | omega
    · simp [skipOnes, hc]

theorem decodeCharacters_eq {b256 : DigitVector} (h : b256.Holds 256 size v)
    (hcs : ∀ c ∈ cs, base58Value c ≠ -1) (hrest : ∀ c ∈ rest.head?, base58Value c = -1)
    (hfits : numeral 58 v (cs.map fun c => (base58Value c).toNat) < 256 ^ size) :
    ∃ last : DigitVector, last.Holds 256 size (numeral 58 v (cs.map fun c => (base58Value c).toNat)) ∧
      decodeCharacters maxRetLen zeroes b256 (cs ++ rest) =
        if (cs ≠ [] ∧ ((last.length + zeroes : Nat) : Int) > maxRetLen) ∨
            ∃ c ∈ rest.head?, isSpace c = false then some none
        else some (some (last, rest)) := by
  induction cs generalizing v b256 with
  | nil =>
    refine ⟨b256, h, ?_⟩
    cases rest with
    | nil => simp [decodeCharacters]
    | cons c rest =>
      have hvalue : base58Value c = -1 := hrest c rfl
      cases hspace : isSpace c <;>
        simp [decodeCharacters, hspace, getElem?_mapBase58, hvalue]
  | cons c cs ih =>
    simp only [List.mem_cons, forall_eq_or_imp] at hcs
    obtain ⟨hlt, -, hspace, -⟩ := base58Value_spec hcs.1
    obtain ⟨next, hnext, hholds⟩ := appendDigit_holds (by decide) (by decide) h
      (Nat.lt_of_le_of_lt (le_numeral (by decide) _ _) hfits)
    obtain ⟨last, hlast, hloop⟩ := ih hholds hcs.2 hfits
    refine ⟨last, hlast, ?_⟩
    -- the length grows, so that a limit passed once stays passed
    have hmono : next.length ≤ last.length := by
      rw [hholds.length, hlast.length]
      exact Nat.le_length_digits_le _ _ _ (le_numeral (by decide) _ _)
    rw [List.cons_append, decodeCharacters, hspace]
    simp only [Bool.false_eq_true, if_false, getElem?_mapBase58, some_bind, hcs.1, hnext, hloop]
    have hend : cs = [] → last.length = next.length := by
      rintro rfl
      rw [hlast.length, hholds.length]
      rfl
    by_cases hnextLimit : ((next.length + zeroes : Nat) : Int) > maxRetLen
    · have hlimit : ((last.length + zeroes : Nat) : Int) > maxRetLen := by omega
      rw [if_pos hnextLimit, if_pos (.inl ⟨List.cons_ne_nil c cs, hlimit⟩)]
      rfl
    · have hiff : (cs ≠ [] ∧ ((last.length + zeroes : Nat) : Int) > maxRetLen) ↔
          (c :: cs ≠ [] ∧ ((last.length + zeroes : Nat) : Int) > maxRetLen) := by
        refine and_congr_left fun hlimit => iff_of_true ?_ (List.cons_ne_nil c cs)
        intro hnil
        rw [hend hnil] at hlimit
        exact hnextLimit hlimit
      rw [if_neg hnextLimit]
      simp only [hiff]

structure Base58Parts (str : List UInt8) (ones : Nat) (cs rest : List UInt8) : Prop where
  split : str.dropWhile isSpace = List.replicate ones 49 ++ (cs ++ rest)
  head : ∀ c ∈ (cs ++ rest).head?, c ≠ 49
  characters : ∀ c ∈ cs, base58Value c ≠ -1
  last : ∀ c ∈ rest.head?, base58Value c = -1

theorem exists_base58Parts (str : List UInt8) : ∃ ones cs rest, Base58Parts str ones cs rest := by
  let body := str.dropWhile isSpace
  let digits := body.dropWhile (· == 49)
  refine ⟨(body.takeWhile (· == 49)).length, digits.takeWhile (base58Value · ≠ -1),
    digits.dropWhile (base58Value · ≠ -1), ?_, ?_, ?_, ?_⟩
  · have hones : body.takeWhile (· == 49) = List.replicate (body.takeWhile (· == 49)).length 49 :=
      List.eq_replicate_of_mem fun c hc => by simpa using List.mem_takeWhile_imp hc
    rw [← hones, List.takeWhile_append_dropWhile, List.takeWhile_append_dropWhile]
  · intro c hc
    rw [List.takeWhile_append_dropWhile] at hc
    have hhead := List.head?_dropWhile_not (· == 49) body
    rw [Option.mem_def.1 hc] at hhead
    simpa using hhead
  · intro c hc
    simpa using List.mem_takeWhile_imp hc
  · intro c hc
    have hhead := List.head?_dropWhile_not (base58Value · ≠ -1) digits
    rw [Option.mem_def.1 hc] at hhead
    simpa using hhead

def valueOf (cs : List UInt8) : Nat := numeral 58 0 (cs.map fun c => (base58Value c).toNat)

theorem decodeBase58_eq (h : Base58Parts str ones cs rest) (hnul : 0 ∉ str) (maxRetLen : Int) :
    decodeBase58 str maxRetLen =
      if (0 < ones ∧ (ones : Int) > maxRetLen) ∨
          (cs ≠ [] ∧ ((bytesOf ones (valueOf cs)).length : Int) > maxRetLen) ∨
          rest.dropWhile isSpace ≠ [] then some none
      else some (some (bytesOf ones (valueOf cs))) := by
  obtain ⟨htake, hdrop⟩ := span_append
    (show ∀ c ∈ List.replicate ones (49 : UInt8), (c == 49) = true by simp)
    fun c hc => by simpa using h.head c hc
  have hdigits : ∀ d ∈ cs.map fun c => (base58Value c).toNat, d < 58 := by
    intro d hd
    obtain ⟨c, hc, rfl⟩ := List.mem_map.1 hd
    exact (base58Value_spec (h.characters c hc)).1
  have hfits : valueOf cs < 256 ^ ((cs ++ rest).length * 733 / 1000 + 1) := by
    refine lt_pow_of_ratio (a := 58) (by decide) (by decide +kernel) (by decide) ?_
    refine Nat.lt_of_lt_of_le (numeral_lt (m := 0) hdigits (by decide)) ?_
    exact Nat.pow_le_pow_right (by decide) (by simp)
  obtain ⟨last, hlast, hloop⟩ := @decodeCharacters_eq _ _ ones _ _ maxRetLen _
    (holds_zero (by decide) _) h.characters h.last hfits
  have hbytes : (bytesOf ones (valueOf cs)).length = last.length + ones := by
    rw [length_bytesOf, hlast.length, valueOf, Nat.add_comm]
  rw [decodeBase58, if_neg hnul, decodeBase58CString, skipOnes_eq, h.split, htake, hdrop,
    List.length_replicate, Nat.zero_add]
  by_cases hones : 0 < ones ∧ (ones : Int) > maxRetLen
  · rw [if_pos hones, if_pos (.inl hones)]
  rw [if_neg hones]
  simp only [Option.bind_eq_bind, hloop, hbytes]
  by_cases hlimit : cs ≠ [] ∧ ((last.length + ones : Nat) : Int) > maxRetLen
  · rw [if_pos (.inl hlimit), if_pos (.inr (.inl hlimit))]
    rfl
  simp only [hlimit, hones, false_or]
  by_cases hrest : rest.dropWhile isSpace = []
  · have hspace : ¬ ∃ c ∈ rest.head?, isSpace c = false := by
      rintro ⟨c, hc, hspace⟩
      rw [List.dropWhile_eq_nil_iff.1 hrest c (List.mem_of_mem_head? hc)] at hspace
      exact absurd hspace (by decide)
    rw [if_neg hspace, if_neg (by simpa using hrest)]
    simp only [Option.bind_some, hrest, ne_eq, not_true_eq_false, if_false]
    rw [hlast.digits, hlast.length, drop_reverse_toDigits (by decide) hlast.fits]
    rfl
  · rw [if_pos hrest]
    split_ifs with hspace
    · rfl
    · rw [Option.bind_some]
      exact if_pos hrest

/-! ## Round trips -/

def trimmed (str : List UInt8) : List UInt8 := (str.dropWhile isSpace).rdropWhile isSpace

theorem Base58Parts.base58Of_eq (h : Base58Parts str ones cs rest) :
    base58Of ones (valueOf cs) = List.replicate ones 49 ++ cs := by
  have hchars : (cs.map fun c => (base58Value c).toNat).map base58Char = cs := by
    rw [List.map_map]
    conv_rhs => rw [← List.map_id cs]
    exact List.map_congr_left fun c hc => (base58Value_spec (h.characters c hc)).2.1
  rw [base58Of, valueOf, spell_cons (by decide), hchars]
  · rfl
  · intro d hd
    obtain ⟨c, hc, rfl⟩ := List.mem_map.1 hd
    exact (base58Value_spec (h.characters c hc)).1
  · intro d hd
    rw [List.head?_map, Option.mem_map] at hd
    obtain ⟨c, hc, rfl⟩ := hd
    intro hzero
    refine h.head c ?_ ((base58Value_spec (h.characters c (List.mem_of_mem_head? hc))).2.2.2 hzero)
    rw [List.head?_append, Option.mem_def.1 hc]
    rfl

theorem base58Value_of_mem {c : UInt8} (hc : c ∈ base58Of zeroes v) : base58Value c ≠ -1 := by
  obtain ⟨d, hd, rfl⟩ : ∃ d < 58, base58Char d = c := by
    rcases List.mem_append.1 hc with hc | hc
    · exact ⟨0, by decide, (List.eq_of_mem_replicate hc).symm⟩
    · obtain ⟨d, hd, rfl⟩ := List.mem_map.1 hc
      exact ⟨d, Nat.digits_lt_base (by decide) (List.mem_reverse.1 hd), rfl⟩
  rw [(base58Char_spec hd).2.1]
  omega

theorem base58Parts_base58Of (zeroes v : Nat) :
    ∃ cs, Base58Parts (base58Of zeroes v) zeroes cs [] ∧ valueOf cs = v ∧
      base58Of zeroes v = List.replicate zeroes 49 ++ cs := by
  have hlow : ∀ d ∈ (Nat.digits 58 v).reverse, d < 58 := fun d hd =>
    Nat.digits_lt_base (by decide) (List.mem_reverse.1 hd)
  refine ⟨(Nat.digits 58 v).reverse.map base58Char, ⟨?_, ?_, ?_, by simp⟩, ?_, rfl⟩
  · rw [List.append_nil]
    refine List.dropWhile_eq_self_iff.2 fun hpos => ?_
    rw [(base58Value_spec (base58Value_of_mem (List.getElem_mem hpos))).2.2.1]
    decide
  · intro c hc
    rw [List.append_nil, List.head?_map, Option.mem_map] at hc
    obtain ⟨d, hd, rfl⟩ := hc
    intro hone
    have hvalue := (base58Char_spec (hlow d (List.mem_of_mem_head? hd))).2.1
    rw [hone, show base58Value 49 = 0 from rfl] at hvalue
    exact head_reverse_digits_ne hd (by omega)
  · exact fun c hc => @base58Value_of_mem v 0 c (List.mem_append_right _ hc)
  · have hdigits : ((Nat.digits 58 v).reverse.map base58Char).map (fun c => (base58Value c).toNat) =
        (Nat.digits 58 v).reverse := by
      rw [List.map_map]
      conv_rhs => rw [← List.map_id (Nat.digits 58 v).reverse]
      refine List.map_congr_left fun d hd => ?_
      simp [(base58Char_spec (hlow d hd)).2.1]
    rw [valueOf, hdigits, numeral_reverse_digits]

theorem decodeBase58_base58Of (zeroes v : Nat) (maxRetLen : Int) :
    decodeBase58 (base58Of zeroes v) maxRetLen =
      if base58Of zeroes v ≠ [] ∧ ((bytesOf zeroes v).length : Int) > maxRetLen then some none
      else some (some (bytesOf zeroes v)) := by
  obtain ⟨cs, hparts, hvalue, hsplit⟩ := base58Parts_base58Of zeroes v
  have hnul : 0 ∉ base58Of zeroes v := fun h => base58Value_of_mem h rfl
  rw [decodeBase58_eq hparts hnul, hvalue]
  refine if_congr ?_ rfl rfl
  have hnil : cs = [] ↔ (Nat.digits 256 v).length = 0 := by
    have hcs : cs = (Nat.digits 58 v).reverse.map base58Char :=
      (List.append_cancel_left hsplit).symm
    simp [hcs, Nat.digits_eq_nil_iff_eq_zero]
  simp only [ne_eq, base58Of_eq_nil_iff, length_bytesOf, hnil, List.dropWhile_nil,
    not_true_eq_false, or_false]
  omega

theorem encodeBase58_of_decodeBase58 {d : List UInt8}
    (h : decodeBase58 s maxRetLen = some (some d)) : encodeBase58 d = some (trimmed s) := by
  have hnul : 0 ∉ s := fun hnul => by simp [decodeBase58, hnul] at h
  obtain ⟨ones, cs, rest, hparts⟩ := exists_base58Parts s
  rw [decodeBase58_eq hparts hnul] at h
  split_ifs at h with hrejected
  · simp at h
  simp only [not_or, not_not] at hrejected
  have hrest := List.dropWhile_eq_nil_iff.1 hrejected.2.2
  obtain rfl : bytesOf ones (valueOf cs) = d := by simpa using h
  have hhead : ∀ c ∈ (List.replicate ones 49 ++ cs).reverse.head?, isSpace c = false := by
    intro c hc
    have hmem := List.mem_reverse.1 (List.mem_of_mem_head? hc)
    rw [← hparts.base58Of_eq] at hmem
    exact (base58Value_spec (base58Value_of_mem hmem)).2.2.1
  rw [encodeBase58_bytesOf, hparts.base58Of_eq, trimmed, hparts.split, ← List.append_assoc,
    List.rdropWhile, List.reverse_append,
    (span_append (fun c hc => hrest c (List.mem_reverse.1 hc)) hhead).2, List.reverse_reverse]

theorem decodeBase58_ne_none (s : List UInt8) (maxRetLen : Int) :
    decodeBase58 s maxRetLen ≠ none := by
  by_cases hnul : 0 ∈ s
  · simp [decodeBase58, hnul]
  · obtain ⟨ones, cs, rest, hparts⟩ := exists_base58Parts s
    rw [decodeBase58_eq hparts hnul]
    split_ifs <;> simp

/-- Encoding and decoding are inverse, no assertion fails, and only the length of the result
is limited. -/
theorem base58_round_trip (maxRetLen : Int) :
    (∀ b : List UInt8, (b.length : Int) ≤ maxRetLen →
      ∃ s, encodeBase58 b = some s ∧ decodeBase58 s maxRetLen = some (some b)) ∧
    (∀ s d : List UInt8, decodeBase58 s maxRetLen = some (some d) →
      encodeBase58 d = some (trimmed s)) ∧
    (∀ s : List UInt8, (∀ c ∈ s, c ∈ pszBase58.take 58) → (s = [] → 0 ≤ maxRetLen) →
      ∃ d, encodeBase58 d = some s ∧
        (decodeBase58 s maxRetLen = some none ↔ (d.length : Int) > maxRetLen)) ∧
    (∀ b : List UInt8, encodeBase58 b ≠ none) ∧
    (∀ s : List UInt8, decodeBase58 s maxRetLen ≠ none) := by
  refine ⟨fun b hb => ?_, fun s d h => encodeBase58_of_decodeBase58 h, fun s hs hempty => ?_,
    fun b => ?_, fun s => decodeBase58_ne_none s maxRetLen⟩
  · obtain ⟨zeroes, v, rfl⟩ := exists_bytesOf b
    refine ⟨_, encodeBase58_bytesOf zeroes v, ?_⟩
    rw [decodeBase58_base58Of, if_neg]
    exact fun h => absurd h.2 (not_lt.2 hb)
  · obtain ⟨zeroes, v, rfl⟩ := exists_base58Of fun c hc => base58Value_ne (hs c hc)
    refine ⟨_, encodeBase58_bytesOf zeroes v, ?_⟩
    rw [decodeBase58_base58Of]
    split_ifs with h
    · simp [h.2]
    · simp only [Option.some.injEq, reduceCtorEq, false_iff, not_lt]
      by_contra! hlimit
      have hnil : base58Of zeroes v = [] := by
        by_contra hne
        exact h ⟨hne, hlimit⟩
      rw [base58Of_eq_nil_iff.1 hnil] at hlimit
      exact absurd (hempty hnil) (not_le.2 hlimit)
  · obtain ⟨zeroes, v, rfl⟩ := exists_bytesOf b
    rw [encodeBase58_bytesOf]
    simp

theorem base58_round_trip_short :
    (∃ s, encodeBase58 [0, 97] = some s ∧ decodeBase58 s 2 = some (some [0, 97])) ∧
    encodeBase58 [0, 97] = some (trimmed [32, 49, 50, 103, 32]) ∧
    ∃ d, encodeBase58 d = some [49, 50, 103] ∧
      (decodeBase58 [49, 50, 103] 2 = some none ↔ (d.length : Int) > 2) := by
  have h := base58_round_trip 2
  exact ⟨h.1 [0, 97] (by decide), h.2.1 _ _ (by decide),
    h.2.2.1 [49, 50, 103] (by decide +kernel) (by decide)⟩

/-- The empty string is accepted under a negative limit. -/
theorem decodeBase58_empty_negative :
    (∀ c ∈ ([] : List UInt8), c ∈ pszBase58.take 58) ∧ encodeBase58 [] = some [] ∧
      ((([] : List UInt8).length : Int) > -1) ∧ decodeBase58 [] (-1) = some (some []) := by
  decide +kernel

end HcsCoin
