import HcsCoin.Consensus.TxCheck

/-!
# Compressed outputs

`compressor.cpp`: six script forms are stored as an id and 20 or 32 bytes, every
other script as its length shifted past the ids; an amount is stored with up to
nine trailing zeros taken out.

Parsing and decompressing public keys belongs to the elliptic-curve library, so
the two functions are a parameter.
-/

namespace HcsCoin

open Foundation Foundation.Decoder

/-- `CPubKey::IsFullyValid` and `CPubKey::Decompress`; a decompressed key has 65 bytes. -/
structure PubKeyOps where
  isFullyValid : Bytes → Bool
  decompress : Bytes → Option Bytes
  decompress_size : ∀ {key full : Bytes}, decompress key = some full → full.length = 65

/-- A key that is a point of the curve is restored from its first coordinate and the parity of
the second. -/
def PubKeyOps.Inverts (ops : PubKeyOps) : Prop :=
  ∀ x y : Bytes, x.length = 32 → y.length = 32 → ops.isFullyValid (0x04 :: (x ++ y)) = true →
    ops.decompress ((0x02 ||| (y.getD 31 0 &&& 0x01)) :: x) = some (0x04 :: (x ++ y))

/-! ## Scripts -/

def isToKeyID (script : Bytes) : Option Bytes :=
  if script.length = 25 ∧ script[0]? = some OP_DUP ∧ script[1]? = some OP_HASH160 ∧
      script[2]? = some 20 ∧ script[23]? = some OP_EQUALVERIFY ∧
      script[24]? = some OP_CHECKSIG then some (slice script 3 20)
  else none

def isToScriptID (script : Bytes) : Option Bytes :=
  if script.length = 23 ∧ script[0]? = some OP_HASH160 ∧ script[1]? = some 20 ∧
      script[22]? = some OP_EQUAL then some (slice script 2 20)
  else none

def isToPubKey (ops : PubKeyOps) (script : Bytes) : Option Bytes :=
  if script.length = 35 ∧ script[0]? = some 33 ∧ script[34]? = some OP_CHECKSIG ∧
      (script[1]? = some 0x02 ∨ script[1]? = some 0x03) then some (slice script 1 33)
  else if script.length = 67 ∧ script[0]? = some 65 ∧ script[66]? = some OP_CHECKSIG ∧
      script[1]? = some 0x04 then
    -- a key that is not fully valid would not be compressible
    if ops.isFullyValid (slice script 1 65) then some (slice script 1 65) else none
  else none

def compressPubKey (pubkey : Bytes) : Option Bytes :=
  if pubkey.getD 0 0 = 0x02 ∨ pubkey.getD 0 0 = 0x03 then
    some (pubkey.getD 0 0 :: slice pubkey 1 32)
  else if pubkey.getD 0 0 = 0x04 then
    some ((0x04 ||| (pubkey.getD 64 0 &&& 0x01)) :: slice pubkey 1 32)
  else none

def compressScript (ops : PubKeyOps) (script : Bytes) : Option Bytes :=
  match isToKeyID script with
  | some keyID => some (0x00 :: keyID)
  | none =>
    match isToScriptID script with
    | some scriptID => some (0x01 :: scriptID)
    | none => (isToPubKey ops script).bind compressPubKey

def getSpecialScriptSize (nSize : Nat) : Nat :=
  if nSize = 0 ∨ nSize = 1 then 20
  else if nSize = 2 ∨ nSize = 3 ∨ nSize = 4 ∨ nSize = 5 then 32
  else 0

/-- `none` where the script is left as it is. -/
def decompressScript (ops : PubKeyOps) (nSize : Nat) (data : Bytes) : Option Bytes :=
  match nSize with
  | 0x00 => some ([OP_DUP, OP_HASH160, 20] ++ (data ++ [OP_EQUALVERIFY, OP_CHECKSIG]))
  | 0x01 => some ([OP_HASH160, 20] ++ (data ++ [OP_EQUAL]))
  | 0x02 | 0x03 => some ([33, UInt8.ofNat nSize] ++ (data ++ [OP_CHECKSIG]))
  | 0x04 | 0x05 =>
    (ops.decompress (UInt8.ofNat (nSize - 2) :: data)).map fun pubkey =>
      [65] ++ (pubkey ++ [OP_CHECKSIG])
  | _ => none

def nSpecialScripts : Nat := 6

def serScript (ops : PubKeyOps) (script : Bytes) : Bytes :=
  match compressScript ops script with
  | some compr => compr
  | none => writeVarInt 4 ((script.length + nSpecialScripts) % 2 ^ 32) ++ script

/-- `script` is what the target holds before it is read into. -/
def unserScript (ops : PubKeyOps) (script : Bytes) : Reader Bytes := do
  let nSize ← readVarInt (2 ^ 32 - 1)
  if nSize < nSpecialScripts then
    let vch ← readBytes (getSpecialScriptSize nSize)
    pure ((decompressScript ops nSize vch).getD script)
  else if nSize - nSpecialScripts > MAX_SCRIPT_SIZE then
    -- overly long script, replaced by a short invalid one
    let _ ← readBytes (nSize - nSpecialScripts)
    pure (script ++ [OP_RETURN])
  else readBytes (nSize - nSpecialScripts)

/-! ## Amounts -/

/-- The loop that takes out trailing zeros, `rounds` more of them at most. -/
def stripZeros : Nat → Nat → Nat → Nat × Nat
  | 0, n, e => (n, e)
  | rounds + 1, n, e => if n % 10 = 0 then stripZeros rounds (n / 10) (e + 1) else (n, e)

def compressAmount (n : Nat) : Nat :=
  if n = 0 then 0
  else
    let (n, e) := stripZeros 9 n 0
    if e < 9 then (1 + (n / 10 * 9 + n % 10 - 1) * 10 + e) % 2 ^ 64
    else (1 + (n - 1) * 10 + 9) % 2 ^ 64

def appendZeros : Nat → Nat → Nat
  | n, 0 => n
  | n, e + 1 => appendZeros (n * 10 % 2 ^ 64) e

def decompressAmount (x : Nat) : Nat :=
  if x = 0 then 0
  else
    let x := x - 1
    let e := x % 10
    let x := x / 10
    appendZeros (if e < 9 then x / 9 * 10 + (x % 9 + 1) else x + 1) e

def serAmount (val : Int64) : Bytes := writeVarInt 8 (compressAmount val.toUInt64.toNat)

def unserAmount : Reader Int64 := do
  let v ← readVarInt (2 ^ 64 - 1)
  pure (UInt64.ofNat (decompressAmount v)).toInt64

def serTxOutCompressed (ops : PubKeyOps) (txout : CTxOut) : Bytes :=
  serAmount txout.nValue ++ serScript ops txout.scriptPubKey

def unserTxOutCompressed (ops : PubKeyOps) (txout : CTxOut) : Reader CTxOut := do
  let nValue ← unserAmount
  let scriptPubKey ← unserScript ops txout.scriptPubKey
  pure ⟨nValue, scriptPubKey⟩

/-! ## Amounts come back -/

theorem stripZeros_spec (rounds : Nat) {n e : Nat} (hn : n ≠ 0) :
    (stripZeros rounds n e).1 ≠ 0 ∧ e ≤ (stripZeros rounds n e).2 ∧
      (stripZeros rounds n e).2 ≤ e + rounds ∧
      (stripZeros rounds n e).1 * 10 ^ ((stripZeros rounds n e).2 - e) = n ∧
      ((stripZeros rounds n e).2 < e + rounds → (stripZeros rounds n e).1 % 10 ≠ 0) := by
  induction rounds generalizing n e with
  | zero => exact ⟨hn, Nat.le_refl e, Nat.le_refl e, by simp [stripZeros], by simp [stripZeros]⟩
  | succ rounds ih =>
    rw [stripZeros]
    split
    case isTrue hzero =>
      obtain ⟨hpos, hle, hmost, hvalue, hdigit⟩ := @ih (n / 10) (e + 1) (by omega)
      refine ⟨hpos, by omega, by omega, ?_, fun h => hdigit (by omega)⟩
      have hexp : (stripZeros rounds (n / 10) (e + 1)).2 - e =
          (stripZeros rounds (n / 10) (e + 1)).2 - (e + 1) + 1 := by omega
      rw [hexp, Nat.pow_succ, ← Nat.mul_assoc, hvalue]
      omega
    case isFalse hdigit => exact ⟨hn, Nat.le_refl e, by omega, by simp, fun _ => hdigit⟩

theorem appendZeros_eq {n e : Nat} (h : n * 10 ^ e < 2 ^ 64) : appendZeros n e = n * 10 ^ e := by
  induction e generalizing n with
  | zero => simp [appendZeros]
  | succ e ih =>
    rw [Nat.pow_succ', ← Nat.mul_assoc] at h
    have hfits : n * 10 < 2 ^ 64 :=
      Nat.lt_of_le_of_lt (Nat.le_mul_of_pos_right _ (Nat.pow_pos (by decide))) h
    rw [appendZeros, Nat.mod_eq_of_lt hfits, ih h, Nat.pow_succ', ← Nat.mul_assoc]

theorem decompressAmount_compressAmount {n : Nat} (h : n ≤ 2 ^ 60) :
    decompressAmount (compressAmount n) = n ∧ compressAmount n ≤ 2 ^ 64 - 1 := by
  refine ⟨?_, ?_⟩
  · by_cases hn : n = 0
    · subst hn
      rfl
    · obtain ⟨hpos, -, hmost, hvalue, hdigit⟩ := @stripZeros_spec 9 n 0 hn
      rw [compressAmount, if_neg hn]
      generalize hstrip : stripZeros 9 n 0 = out at hpos hmost hvalue hdigit
      obtain ⟨m, e⟩ := out
      dsimp only at hpos hmost hvalue hdigit ⊢
      rw [Nat.sub_zero] at hvalue
      have hm : m ≤ n := by
        rw [← hvalue]
        exact Nat.le_mul_of_pos_right _ (Nat.pow_pos (by decide))
      have hback : appendZeros m e = n := by rw [appendZeros_eq (by rw [hvalue]; omega), hvalue]
      split
      case isTrue hlt =>
        have hd := hdigit (by omega)
        rw [Nat.mod_eq_of_lt (by omega), decompressAmount, if_neg (by omega)]
        have hx : 1 + (m / 10 * 9 + m % 10 - 1) * 10 + e - 1 =
            (m / 10 * 9 + m % 10 - 1) * 10 + e := by omega
        dsimp only
        have he : ((m / 10 * 9 + m % 10 - 1) * 10 + e) % 10 = e := by omega
        have hq : ((m / 10 * 9 + m % 10 - 1) * 10 + e) / 10 = m / 10 * 9 + m % 10 - 1 := by omega
        rw [hx, he, hq, if_pos hlt]
        have hn' : (m / 10 * 9 + m % 10 - 1) / 9 * 10 + ((m / 10 * 9 + m % 10 - 1) % 9 + 1) = m := by
          omega
        rw [hn', hback]
      case isFalse hge =>
        rw [Nat.mod_eq_of_lt (by omega), decompressAmount, if_neg (by omega)]
        dsimp only
        have he : (1 + (m - 1) * 10 + 9 - 1) % 10 = e := by omega
        have hq : (1 + (m - 1) * 10 + 9 - 1) / 10 + 1 = m := by omega
        rw [he, if_neg hge, hq, hback]
  · rw [compressAmount]
    split
    · exact Nat.zero_le _
    · dsimp only
      split <;> omega

theorem decodes_unserAmount {val : Int64} (h : moneyRange val.toInt = true) :
    Decodes unserAmount (serAmount val) val := by
  obtain ⟨hnonneg, hmost⟩ := (moneyRange_iff _).mp h
  have hvalue : (val.toUInt64.toNat : Int) = val.toInt := by
    have htoInt : val.toInt = val.toBitVec.toInt := rfl
    have hlt := val.toBitVec.isLt
    rw [htoInt, BitVec.toInt_eq_toNat_cond] at hnonneg ⊢
    split at hnonneg
    case isTrue hlow => rw [if_pos hlow]; rfl
    case isFalse hhigh => omega
  have hsmall : val.toUInt64.toNat ≤ 2 ^ 60 := by
    rw [MAX_MONEY, COIN] at hmost
    omega
  obtain ⟨hback, hfits⟩ := decompressAmount_compressAmount hsmall
  refine (decodes_readVarInt (by decide) (by decide) hfits).last ?_
  rw [hback]
  simpa using Decodes.pure val

/-! ## Scripts come back -/

variable {script : Bytes} {ops : PubKeyOps}

private theorem eq_frame {front back : Bytes} {count : Nat}
    (hlength : script.length = front.length + (count + back.length))
    (hfront : ∀ entry ∈ front.zipIdx, script[entry.2]? = some entry.1)
    (hback : ∀ entry ∈ back.zipIdx (front.length + count), script[entry.2]? = some entry.1) :
    script = front ++ (slice script front.length count ++ back) := by
  have hslice : (slice script front.length count).length = count := slice_length (by omega)
  apply List.ext_getElem?
  intro i
  rcases Nat.lt_or_ge i front.length with hi | hi
  case inl =>
    rw [List.getElem?_append_left hi, List.getElem?_eq_getElem hi]
    exact hfront (front[i], i) (List.mk_mem_zipIdx_iff_getElem?.mpr (List.getElem?_eq_getElem hi))
  case inr =>
    obtain ⟨i, rfl⟩ := Nat.exists_eq_add_of_le hi
    rw [List.getElem?_append_right hi, Nat.add_sub_cancel_left]
    rcases Nat.lt_or_ge i count with hi | hi
    case inl => rw [List.getElem?_append_left (by omega), getElem?_slice _ hi]
    case inr =>
      obtain ⟨i, rfl⟩ := Nat.exists_eq_add_of_le hi
      rw [List.getElem?_append_right (by omega), hslice, Nat.add_sub_cancel_left, ← Nat.add_assoc]
      rcases Nat.lt_or_ge i back.length with hi | hi
      case inl =>
        rw [List.getElem?_eq_getElem hi]
        refine hback (back[i], front.length + count + i) ?_
        rw [List.mk_mem_zipIdx_iff_le_and_getElem?_sub, Nat.add_sub_cancel_left]
        exact ⟨Nat.le_add_right _ _, List.getElem?_eq_getElem hi⟩
      case inr => rw [List.getElem?_eq_none hi, List.getElem?_eq_none (by omega)]

/-- A compressed script: an id, the data its size is known from, and the way back. -/
structure Special (ops : PubKeyOps) (script : Bytes) (id : UInt8) (data : Bytes) : Prop where
  id_lt : id.toNat < nSpecialScripts
  size_eq : data.length = getSpecialScriptSize id.toNat
  back : decompressScript ops id.toNat data = some script

theorem isToKeyID_special (ops : PubKeyOps) {keyID : Bytes}
    (h : isToKeyID script = some keyID) : Special ops script 0x00 keyID := by
  rw [isToKeyID] at h
  split at h
  case isTrue hform =>
    obtain ⟨hlength, h0, h1, h2, h23, h24⟩ := hform
    obtain rfl := Option.some.inj h
    have hframe := @eq_frame script [OP_DUP, OP_HASH160, 20] [OP_EQUALVERIFY, OP_CHECKSIG] 20
      hlength (by simp [h0, h1, h2]) (by simp [h23, h24])
    exact ⟨by decide, slice_length (by omega), congrArg some hframe.symm⟩
  case isFalse => cases h

theorem isToScriptID_special (ops : PubKeyOps) {scriptID : Bytes}
    (h : isToScriptID script = some scriptID) : Special ops script 0x01 scriptID := by
  rw [isToScriptID] at h
  split at h
  case isTrue hform =>
    obtain ⟨hlength, h0, h1, h22⟩ := hform
    obtain rfl := Option.some.inj h
    have hframe := @eq_frame script [OP_HASH160, 20] [OP_EQUAL] 20 hlength (by simp [h0, h1])
      (by simp [h22])
    exact ⟨by decide, slice_length (by omega), congrArg some hframe.symm⟩
  case isFalse => cases h

private theorem slice_add (bs : Bytes) (offset a b : Nat) :
    slice bs offset (a + b) = slice bs offset a ++ slice bs (offset + a) b := by
  rw [slice, slice, slice, List.take_add, List.drop_drop]

private theorem slice_slice {bs : Bytes} {offset count start size : Nat}
    (h : start + size ≤ count) :
    slice (slice bs offset count) start size = slice bs (offset + start) size := by
  rw [slice, slice, slice, List.drop_take, List.drop_drop, List.take_take,
    Nat.min_eq_left (by omega)]

private theorem getD_slice {bs : Bytes} {offset count i : Nat} (hi : i < count) {x : UInt8}
    (h : bs[offset + i]? = some x) : (slice bs offset count).getD i 0 = x := by
  rw [List.getD_eq_getElem?_getD, getElem?_slice _ hi, h]
  rfl

private theorem and_one_cases (b : UInt8) : b &&& 0x01 = 0 ∨ b &&& 0x01 = 1 := by
  rw [← UInt8.toNat_inj, ← UInt8.toNat_inj, UInt8.toNat_and]
  change b.toNat &&& 1 = 0 ∨ b.toNat &&& 1 = 1
  rw [Nat.and_one_is_mod]
  omega

theorem isToPubKey_special (hops : ops.Inverts) {pubkey compr : Bytes}
    (h : isToPubKey ops script = some pubkey) (hcompr : compressPubKey pubkey = some compr) :
    ∃ id data, compr = id :: data ∧ Special ops script id data := by
  rw [isToPubKey] at h
  split at h
  case isTrue hform =>
    obtain ⟨hlength, h0, h34, h1⟩ := hform
    obtain rfl := Option.some.inj h
    have hdata : slice (slice script 1 33) 1 32 = slice script 2 32 := slice_slice (by decide)
    -- the two compressed headers are their own ids
    have hheader : ∀ id : UInt8, id = 0x02 ∨ id = 0x03 → script[1]? = some id →
        compr = id :: slice script 2 32 ∧ Special ops script id (slice script 2 32) := by
      intro id hid hscript
      have hfirst : (slice script 1 33).getD 0 0 = id := getD_slice (by decide) hscript
      rw [compressPubKey, hfirst, if_pos hid, hdata] at hcompr
      have hframe := @eq_frame script [33, id] [OP_CHECKSIG] 32 hlength (by simp [h0, hscript])
        (by simp [h34])
      refine ⟨(Option.some.inj hcompr).symm, ?_⟩
      rcases hid with rfl | rfl
      · exact ⟨by decide, slice_length (by omega), congrArg some hframe.symm⟩
      · exact ⟨by decide, slice_length (by omega), congrArg some hframe.symm⟩
    rcases h1 with h1 | h1
    · exact ⟨_, _, hheader 0x02 (.inl rfl) h1⟩
    · exact ⟨_, _, hheader 0x03 (.inr rfl) h1⟩
  case isFalse =>
    split at h
    case isFalse => cases h
    case isTrue hform =>
      obtain ⟨hlength, h0, h66, h1⟩ := hform
      split at h
      case isFalse => cases h
      case isTrue hvalid =>
        obtain rfl := Option.some.inj h
        have hpubkey : slice script 1 65 = 0x04 :: (slice script 2 32 ++ slice script 34 32) := by
          have hfirst : slice script 1 1 = [0x04] := by
            rw [slice, List.take_one, List.head?_drop, h1]
            rfl
          rw [show 65 = 1 + (32 + 32) from rfl, slice_add, slice_add, hfirst]
          rfl
        rw [hpubkey] at hvalid hcompr
        have hback := hops _ _ (slice_length (by omega)) (slice_length (by omega)) hvalid
        have hlast : (0x04 :: (slice script 2 32 ++ slice script 34 32)).getD 64 0 =
            (slice script 34 32).getD 31 0 := by
          rw [List.getD_cons_succ, List.getD_append_right _ _ _ _ (by rw [slice_length] <;> omega),
            slice_length (by omega)]
        have hx : slice (0x04 :: (slice script 2 32 ++ slice script 34 32)) 1 32 =
            slice script 2 32 := by
          rw [← hpubkey, slice_slice (by decide)]
        have hframe := @eq_frame script [65] [OP_CHECKSIG] 65 hlength (by simp [h0]) (by simp [h66])
        rw [List.length_singleton, hpubkey] at hframe
        rw [compressPubKey, List.getD_cons_zero, if_neg (by decide), if_pos rfl, hlast, hx] at hcompr
        refine ⟨_, _, (Option.some.inj hcompr).symm, ?_⟩
        rcases and_one_cases ((slice script 34 32).getD 31 0) with heven | hodd
        · rw [heven] at hback ⊢
          refine ⟨by decide, slice_length (by omega), ?_⟩
          exact (congrArg (Option.map _) hback).trans (congrArg some hframe.symm)
        · rw [hodd] at hback ⊢
          refine ⟨by decide, slice_length (by omega), ?_⟩
          exact (congrArg (Option.map _) hback).trans (congrArg some hframe.symm)

theorem compressScript_special (hops : ops.Inverts) {compr : Bytes}
    (h : compressScript ops script = some compr) :
    ∃ id data, compr = id :: data ∧ Special ops script id data := by
  rw [compressScript] at h
  split at h
  case h_1 keyID hkey => exact ⟨_, _, (Option.some.inj h).symm, isToKeyID_special ops hkey⟩
  case h_2 =>
    split at h
    case h_1 scriptID hscript =>
      exact ⟨_, _, (Option.some.inj h).symm, isToScriptID_special ops hscript⟩
    case h_2 =>
      obtain ⟨pubkey, hpubkey, hcompr⟩ := Option.bind_eq_some_iff.mp h
      exact isToPubKey_special hops hpubkey hcompr

theorem decodes_unserScript (hops : ops.Inverts)
    (h : script.length ≤ MAX_SCRIPT_SIZE) (old : Bytes) :
    Decodes (unserScript ops old) (serScript ops script) script := by
  rw [serScript]
  split
  case h_1 compr hcompr =>
    obtain ⟨id, data, rfl, hspecial⟩ := compressScript_special hops hcompr
    have hid := hspecial.id_lt
    rw [nSpecialScripts] at hid
    refine (@decodes_readVarInt_byte _ id (by omega)).step rfl ?_
    rw [if_pos hspecial.id_lt, ← hspecial.size_eq]
    refine (decodes_readBytes data).last ?_
    rw [hspecial.back]
    exact Decodes.pure script
  case h_2 =>
    rw [MAX_SCRIPT_SIZE] at h
    have hsize : (script.length + nSpecialScripts) % 2 ^ 32 = script.length + 6 :=
      Nat.mod_eq_of_lt (by rw [nSpecialScripts]; omega)
    rw [hsize]
    refine (decodes_readVarInt (by decide) (by decide) (by omega)).step rfl ?_
    rw [if_neg (by rw [nSpecialScripts]; omega),
      if_neg (by rw [nSpecialScripts, MAX_SCRIPT_SIZE]; omega)]
    exact decodes_readBytes script

theorem decodes_unserTxOutCompressed (hops : ops.Inverts) {txout : CTxOut}
    (hvalue : moneyRange txout.nValue.toInt = true)
    (hscript : txout.scriptPubKey.length ≤ MAX_SCRIPT_SIZE) (old : CTxOut) :
    Decodes (unserTxOutCompressed ops old) (serTxOutCompressed ops txout) txout :=
  (decodes_unserAmount hvalue).bind
    ((decodes_unserScript hops hscript old.scriptPubKey).last (Decodes.pure txout))

end HcsCoin
