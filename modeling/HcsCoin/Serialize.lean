import HcsCoin.Uint256

/-!
# Stream serialization

The formats of `serialize.h` that blocks, transactions and index records are
made of: fixed-width little-endian integers, `CompactSize`, `VARINT` and
vectors.  An exception thrown while reading is an `Except.error`.
-/

namespace HcsCoin

open Foundation

def MAX_SIZE : Nat := 0x02000000

inductive ReadError where
  | endOfData
  | nonCanonicalCompactSize
  | compactSizeTooLarge
  | compactSizeExceedsLimitOfType
  | varIntTooLarge
  | superfluousWitnessRecord
  | unknownTransactionOptionalData
  | indexesOverflowed16Bits
  deriving DecidableEq, Repr

abbrev Reader := Decoder ReadError

/-! ## Fixed-width integers and blobs -/

def readBytes (count : Nat) : Reader Bytes := Decoder.take .endOfData count

def readLE (width : Nat) : Reader Nat := do
  let bs ← readBytes width
  pure (leNat bs)

def serUInt32 (x : UInt32) : Bytes := leBytes 4 x.toNat
def serUInt64 (x : UInt64) : Bytes := leBytes 8 x.toNat
def serInt32 (x : Int32) : Bytes := serUInt32 x.toUInt32
def serInt64 (x : Int64) : Bytes := serUInt64 x.toUInt64

def readUInt8 : Reader UInt8 := do
  let n ← readLE 1
  pure (UInt8.ofNat n)

def readUInt32 : Reader UInt32 := do
  let n ← readLE 4
  pure (UInt32.ofNat n)

def readUInt64 : Reader UInt64 := do
  let n ← readLE 8
  pure (UInt64.ofNat n)

def readInt32 : Reader Int32 := do
  let x ← readUInt32
  pure x.toInt32

def readInt64 : Reader Int64 := do
  let x ← readUInt64
  pure x.toInt64

def BaseBlob.ofBytes (width : Nat) (bs : Bytes) : BaseBlob width :=
  if h : bs.length = width then ⟨bs, h⟩ else BaseBlob.null

def readUint256 : Reader Uint256 := do
  let bs ← readBytes 32
  pure (BaseBlob.ofBytes 32 bs)

/-! ## CompactSize -/

def writeCompactSize (nSize : Nat) : Bytes :=
  if nSize < 253 then leBytes 1 nSize
  else if nSize ≤ 0xffff then 253 :: leBytes 2 nSize
  else if nSize ≤ 0xffffffff then 254 :: leBytes 4 nSize
  else 255 :: leBytes 8 nSize

/-- The tail of `ReadCompactSize`: the size was read with `width` bytes and must
not have fitted a shorter form. -/
def readCompactSizeWide (width least : Nat) : Reader Nat := do
  let nSizeRet ← readLE width
  if nSizeRet < least then Decoder.throw .nonCanonicalCompactSize else pure nSizeRet

def readCompactSizeRest (chSize : Nat) : Reader Nat :=
  if chSize < 253 then pure chSize
  else if chSize = 253 then readCompactSizeWide 2 253
  else if chSize = 254 then readCompactSizeWide 4 0x10000
  else readCompactSizeWide 8 0x100000000

def readCompactSize (rangeCheck : Bool) : Reader Nat := do
  let chSize ← readLE 1
  let nSizeRet ← readCompactSizeRest chSize
  if rangeCheck && decide (nSizeRet > MAX_SIZE) then Decoder.throw .compactSizeTooLarge
  else pure nSizeRet

/-! ## VARINT -/

/-- The digit loop of `WriteVarInt`.  `room` is the length of the buffer `tmp`;
the digits computed so far are in `tmp`, and the buffer is sent backwards. -/
def writeVarIntLoop : Nat → Nat → Bytes → Bytes
  | 0, _, tmp => tmp
  | room + 1, n, tmp =>
    let digit := UInt8.ofNat (n % 128) ||| (if tmp.isEmpty then 0x00 else 0x80)
    if n ≤ 0x7f then digit :: tmp else writeVarIntLoop room (n / 128 - 1) (digit :: tmp)

def writeVarInt (size n : Nat) : Bytes := writeVarIntLoop ((size * 8 + 6) / 7) n []

def readVarIntLoop (max : Nat) : Nat → Bytes → Except ReadError (Nat × Bytes)
  | _, [] => .error .endOfData
  | n, chData :: rest =>
    if n > max / 128 then .error .varIntTooLarge
    else
      let n := n * 128 + chData.toNat % 128
      if chData.toNat ≥ 128 then
        if n = max then .error .varIntTooLarge else readVarIntLoop max (n + 1) rest
      else .ok (n, rest)

variable {n : Nat} {α : Type} {ser : α → Bytes} {v : List α}

theorem readVarIntLoop_selfDelimiting (max : Nat) {bs : Bytes} {x : Nat}
    {rest : Bytes} (h : readVarIntLoop max n bs = .ok (x, rest)) :
    ∃ used, bs = used ++ rest ∧ ∀ more, readVarIntLoop max n (used ++ more) = .ok (x, more) := by
  induction bs generalizing n with
  | nil => simp [readVarIntLoop] at h
  | cons chData tail ih =>
    simp only [readVarIntLoop] at h
    split at h
    · cases h
    next hroom =>
      split at h
      next hmore =>
        split at h
        · cases h
        next hmax =>
          obtain ⟨used, rfl, hused⟩ := ih h
          refine ⟨chData :: used, rfl, fun more => ?_⟩
          simp only [List.cons_append, readVarIntLoop, if_neg hroom, if_pos hmore, if_neg hmax]
          exact hused more
      next hlast =>
        simp only [Except.ok.injEq, Prod.mk.injEq] at h
        obtain ⟨rfl, rfl⟩ := h
        refine ⟨[chData], rfl, fun more => ?_⟩
        simp only [List.cons_append, List.nil_append, readVarIntLoop, if_neg hroom, if_neg hlast]

def readVarInt (max : Nat) : Reader Nat where
  run := readVarIntLoop max 0
  selfDelimiting := readVarIntLoop_selfDelimiting max

/-! ## Vectors -/

def serVector {α : Type} (ser : α → Bytes) (v : List α) : Bytes :=
  writeCompactSize v.length ++ v.flatMap ser

def readVector {α : Type} (read : Reader α) : Reader (List α) := do
  let n ← readCompactSize true
  read.readMany n

def serByteVector (v : Bytes) : Bytes := writeCompactSize v.length ++ v

def readByteVector : Reader Bytes := do
  let n ← readCompactSize true
  readBytes n

/-! ## Round trips -/

open Decoder

theorem decodes_readBytes (bs : Bytes) : Decodes (readBytes bs.length) bs bs := Decodes.take _ rfl

theorem decodes_readLE (width : Nat) (h : n < 256 ^ width) :
    Decodes (readLE width) (leBytes width n) n := by
  have hbytes : Decodes (readBytes width) (leBytes width n) (leBytes width n) :=
    Decodes.take _ (leBytes_length width n)
  refine hbytes.last ?_
  rw [leNat_leBytes_of_lt h]
  exact Decodes.pure n

theorem decodes_readLE_one (x : UInt8) : Decodes (readLE 1) [x] x.toNat := by
  simpa [leBytes] using decodes_readLE 1 x.toNat_lt

theorem decodes_readUInt8 (x : UInt8) : Decodes readUInt8 [x] x := by
  refine (decodes_readLE_one x).last ?_
  simpa using Decodes.pure x

theorem decodes_readUInt32 (x : UInt32) : Decodes readUInt32 (serUInt32 x) x := by
  refine (decodes_readLE 4 x.toNat_lt).last ?_
  simpa using Decodes.pure x

theorem decodes_readUInt64 (x : UInt64) : Decodes readUInt64 (serUInt64 x) x := by
  refine (decodes_readLE 8 x.toNat_lt).last ?_
  simpa using Decodes.pure x

theorem decodes_readInt32 (x : Int32) : Decodes readInt32 (serInt32 x) x :=
  (decodes_readUInt32 x.toUInt32).last (Decodes.pure x)

theorem decodes_readInt64 (x : Int64) : Decodes readInt64 (serInt64 x) x :=
  (decodes_readUInt64 x.toUInt64).last (Decodes.pure x)

theorem BaseBlob.ofBytes_mData {width : Nat} (a : BaseBlob width) :
    BaseBlob.ofBytes width a.mData = a := by
  simp [BaseBlob.ofBytes, a.size_eq]

theorem decodes_readUint256 (a : Uint256) : Decodes readUint256 a.mData a := by
  have hbytes : Decodes (readBytes 32) a.mData a.mData := Decodes.take _ a.size_eq
  refine hbytes.last ?_
  rw [BaseBlob.ofBytes_mData]
  exact Decodes.pure a

theorem decodes_readCompactSizeWide (width : Nat) {least : Nat} (h : n < 256 ^ width)
    (hleast : least ≤ n) :
    Decodes (readCompactSizeWide width least) (leBytes width n) n := by
  refine (decodes_readLE width h).last ?_
  rw [if_neg (Nat.not_lt.mpr hleast)]
  exact Decodes.pure n

theorem writeCompactSize_announces (h : n < 2 ^ 64) :
    ∃ (chSize : Nat) (first second : Bytes), writeCompactSize n = first ++ second ∧
      Decodes (readLE 1) first chSize ∧ Decodes (readCompactSizeRest chSize) second n := by
  unfold writeCompactSize
  split
  next hsmall =>
    refine ⟨n, _, [], (List.append_nil _).symm, decodes_readLE 1 (by omega), ?_⟩
    rw [readCompactSizeRest, if_pos hsmall]
    exact Decodes.pure n
  next h253 =>
    split
    next h16 =>
      exact ⟨253, [253], _, rfl, decodes_readLE_one 253,
        decodes_readCompactSizeWide 2 (by omega) (by omega)⟩
    next h16 =>
      split
      next h32 =>
        exact ⟨254, [254], _, rfl, decodes_readLE_one 254,
          decodes_readCompactSizeWide 4 (by omega) (by omega)⟩
      next h32 =>
        exact ⟨255, [255], _, rfl, decodes_readLE_one 255,
          decodes_readCompactSizeWide 8 (by omega) (by omega)⟩

/-- `ReadCompactSize` inverts `WriteCompactSize` on every size its range check
lets through. -/
theorem decodes_readCompactSize {rangeCheck : Bool} (h64 : n < 2 ^ 64)
    (hrange : rangeCheck = true → n ≤ MAX_SIZE) :
    Decodes (readCompactSize rangeCheck) (writeCompactSize n) n := by
  obtain ⟨chSize, first, second, hsplit, hfirst, hsecond⟩ := writeCompactSize_announces h64
  refine hfirst.step hsplit (hsecond.last ?_)
  rw [if_neg]
  · exact Decodes.pure n
  · simp only [Bool.and_eq_true, decide_eq_true_eq, not_and, Nat.not_lt]
    exact hrange

theorem readCompactSize_tooLarge (h64 : n < 2 ^ 64) (h : MAX_SIZE < n) (rest : Bytes) :
    (readCompactSize true).run (writeCompactSize n ++ rest) = .error .compactSizeTooLarge := by
  obtain ⟨chSize, first, second, hsplit, hfirst, hsecond⟩ := writeCompactSize_announces h64
  rw [hsplit, List.append_assoc, readCompactSize, run_bind_of_ok (hfirst _),
    run_bind_of_ok (hsecond _), if_pos (by simpa using h)]
  rfl

variable {β : Type} {max : Nat} {read : Reader α} {x : α}

theorem readVector_tooLarge {read : Reader β} (h64 : v.length < 2 ^ 64) (h : MAX_SIZE < v.length)
    (rest : Bytes) :
    (readVector read).run (serVector ser v ++ rest) = .error .compactSizeTooLarge := by
  rw [serVector, List.append_assoc]
  exact run_bind_of_error (readCompactSize_tooLarge h64 h _)

theorem toNat_varIntDigit (n : Nat) (tmp : Bytes) :
    (UInt8.ofNat (n % 128) ||| (if tmp.isEmpty then 0x00 else 0x80)).toNat =
      n % 128 + if tmp = [] then 0 else 128 := by
  have hlow : (UInt8.ofNat (n % 128)).toNat = n % 128 := by
    rw [UInt8.toNat_ofNat']
    omega
  cases tmp with
  | nil => simpa using hlow
  | cons b tmp =>
    simp only [List.isEmpty_cons, Bool.false_eq_true, if_false, reduceCtorEq]
    rw [UInt8.toNat_or, hlow, Nat.or_comm]
    change 2 ^ 7 * 1 ||| n % 128 = _
    rw [← Nat.two_pow_add_eq_or_of_lt (by omega)]
    omega

theorem readVarIntLoop_digit (tmp rest : Bytes) (hmax : n ≤ max)
    (hlt : tmp ≠ [] → n < max) :
    readVarIntLoop max (n / 128)
        ((UInt8.ofNat (n % 128) ||| (if tmp.isEmpty then 0x00 else 0x80)) :: (tmp ++ rest)) =
      if tmp = [] then .ok (n, rest) else readVarIntLoop max (n + 1) (tmp ++ rest) := by
  have hdiv : ¬ n / 128 > max / 128 := Nat.not_lt.mpr (Nat.div_le_div_right hmax)
  rw [readVarIntLoop, if_neg hdiv, toNat_varIntDigit]
  by_cases htmp : tmp = []
  · subst htmp
    have hvalue : n / 128 * 128 + n % 128 = n := by omega
    simp [hvalue, Nat.mod_lt]
  · have hvalue : n / 128 * 128 + (n % 128 + 128) % 128 = n := by omega
    simp only [htmp, if_false, hvalue]
    rw [if_pos (by omega), if_neg (hlt htmp).ne]

/-- Reading the digits of `n` leaves `ReadVarInt` with `n` when they were the
last ones and with `n + 1` before the digits written earlier otherwise. -/
theorem readVarIntLoop_writeVarIntLoop {room : Nat} (tmp rest : Bytes)
    (hroom : n < 128 ^ (room + 1)) (hmax : n ≤ max) (hlt : tmp ≠ [] → n < max) :
    readVarIntLoop max 0 (writeVarIntLoop (room + 1) n tmp ++ rest) =
      if tmp = [] then .ok (n, rest) else readVarIntLoop max (n + 1) (tmp ++ rest) := by
  induction room generalizing n tmp with
  | zero =>
    have hdigit := readVarIntLoop_digit tmp rest hmax hlt
    rw [writeVarIntLoop, if_pos (by omega)]
    rwa [show n / 128 = 0 by omega] at hdigit
  | succ room ih =>
    have hdigit := readVarIntLoop_digit tmp rest hmax hlt
    rw [writeVarIntLoop]
    split
    next hle => rwa [show n / 128 = 0 by omega] at hdigit
    next hgt =>
      rw [pow_succ] at hroom
      rw [ih _ (by omega) (by omega) (fun _ => by omega), if_neg (by simp),
        show n / 128 - 1 + 1 = n / 128 by omega]
      exact hdigit

theorem decodes_readVarInt {size : Nat} (hsize : 0 < size) (hmax : max < 2 ^ (8 * size))
    (h : n ≤ max) : Decodes (readVarInt max) (writeVarInt size n) n := by
  intro rest
  obtain ⟨room, hroom⟩ : ∃ room, (size * 8 + 6) / 7 = room + 1 := ⟨(size * 8 + 6) / 7 - 1, by omega⟩
  have hpow : 2 ^ (8 * size) ≤ 128 ^ (room + 1) := by
    rw [show (128 : Nat) = 2 ^ 7 by norm_num, ← pow_mul]
    exact Nat.pow_le_pow_right (by norm_num) (by omega)
  change readVarIntLoop max 0 (writeVarIntLoop _ n [] ++ rest) = _
  rw [hroom, readVarIntLoop_writeVarIntLoop [] rest (h.trans_lt (hmax.trans_le hpow)) h
    (by simp), if_pos rfl]

theorem decodes_readVarInt_byte {x : UInt8} (h : x.toNat < 128) :
    Decodes (readVarInt max) [x] x.toNat := by
  intro rest
  change readVarIntLoop max 0 (x :: rest) = _
  rw [readVarIntLoop, if_neg (Nat.not_lt_zero _)]
  dsimp only
  rw [if_neg (Nat.not_le.mpr h), Nat.mod_eq_of_lt h, Nat.zero_mul, Nat.zero_add]

theorem decodes_readVector_map {read : Reader β} (view : α → β) (hsize : v.length ≤ MAX_SIZE)
    (h : ∀ x ∈ v, Decodes read (ser x) (view x)) :
    Decodes (readVector read) (serVector ser v) (v.map view) :=
  (decodes_readCompactSize (hsize.trans_lt (by decide)) fun _ => hsize).bind
    (Decodes.readMany h)

theorem decodes_readVector (hsize : v.length ≤ MAX_SIZE) (h : ∀ x ∈ v, Decodes read (ser x) x) :
    Decodes (readVector read) (serVector ser v) v := by
  simpa using decodes_readVector_map id hsize h

theorem decodes_readByteVector {v : Bytes} (hsize : v.length ≤ MAX_SIZE) :
    Decodes readByteVector (serByteVector v) v :=
  (decodes_readCompactSize (hsize.trans_lt (by decide)) fun _ => hsize).bind
    (decodes_readBytes v)

/-! ## What the vector readers return -/

theorem yields_readCompactSize : Yields (readCompactSize true) fun n => n ≤ MAX_SIZE := by
  refine (Yields.trivial _).bind fun chSize _ => (Yields.trivial _).bind fun n _ => ?_
  split
  · exact Yields.throw _
  next hok =>
    refine Yields.pure ?_
    simpa using hok

theorem yields_readVector {P : α → Prop} (h : Yields read P) :
    Yields (readVector read) fun v => v.length ≤ MAX_SIZE ∧ ∀ x ∈ v, P x := by
  refine yields_readCompactSize.bind fun n hn => ?_
  intro bs v rest hrun
  obtain ⟨hlength, hall⟩ := h.readMany n bs v rest hrun
  exact ⟨hlength ▸ hn, hall⟩

theorem yields_readByteVector : Yields readByteVector fun v => v.length ≤ MAX_SIZE := by
  refine yields_readCompactSize.bind fun n hn => ?_
  intro bs v rest hrun
  exact (Yields.take ReadError.endOfData n bs v rest hrun) ▸ hn

/-! ## Sizes -/

theorem length_le_length_serByteVector (v : Bytes) : v.length ≤ (serByteVector v).length := by
  rw [serByteVector, List.length_append]
  exact Nat.le_add_left _ _

theorem length_ser_le_flatMap (ser : α → Bytes) (hx : x ∈ v) :
    (ser x).length ≤ (v.flatMap ser).length := by
  induction v with
  | nil => exact absurd hx List.not_mem_nil
  | cons y v ih =>
    rw [List.flatMap_cons, List.length_append]
    rcases List.mem_cons.mp hx with rfl | hmem
    · exact Nat.le_add_right _ _
    · exact (ih hmem).trans (Nat.le_add_left _ _)

theorem length_ser_le_serVector (ser : α → Bytes) (hx : x ∈ v) :
    (ser x).length ≤ (serVector ser v).length := by
  rw [serVector, List.length_append]
  exact (length_ser_le_flatMap ser hx).trans (Nat.le_add_left _ _)

theorem length_le_length_serVector (hpos : ∀ x, 0 < (ser x).length)
    (v : List α) : v.length ≤ (serVector ser v).length := by
  have hflat : v.length ≤ (v.flatMap ser).length := by
    induction v with
    | nil => exact Nat.le_refl _
    | cons x v ih =>
      rw [List.flatMap_cons, List.length_append, List.length_cons, Nat.add_comm]
      exact Nat.add_le_add (hpos x) ih
  rw [serVector, List.length_append]
  exact hflat.trans (Nat.le_add_left _ _)

theorem writeCompactSize_length_pos (n : Nat) : 0 < (writeCompactSize n).length := by
  rw [writeCompactSize]
  split
  · simp
  · split
    · simp
    · split <;> simp

end HcsCoin
