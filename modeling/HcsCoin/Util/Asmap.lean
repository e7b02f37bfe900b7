import HcsCoin.Foundation.ClassCode
import HcsCoin.Foundation.Codec

/-!
# Mapping of addresses to autonomous systems

The bytecode of `util/asmap.cpp`: a trie over the bits of an address, written as
instructions of a varying number of bits.  `Interpret` follows one path through
it, `SanityCheckAsmap` goes over the whole string once.  A string that passes the
check is the encoding of one trie, and interpreting it is looking an address up
in that trie.

`none` stands for `assert(false)` or a read outside of a span.
-/

namespace HcsCoin.Asmap

open Foundation

/-! ## Decoding -/

def INVALID : Nat := 0xFFFFFFFF

def consumeBitLE (bytes : Bytes) (bitpos : Nat) : Option (Bool × Nat) :=
  bytes[bitpos / 8]?.map fun byte => (byte.toNat.testBit (bitpos % 8), bitpos + 1)

/-- `bitpos` is an 8-bit counter. -/
def consumeBitBE (bytes : Bytes) (bitpos : Nat) : Option (Bool × Nat) :=
  bytes[bitpos / 8]?.map fun byte => (byte.toNat.testBit (7 - bitpos % 8), (bitpos + 1) % 2 ^ 8)

/-- The inner loop of `DecodeBits`, with the number of bits that are left. -/
def decodeMantissa (data : Bytes) : Nat → Nat → Nat → Option (Nat × Nat)
  | 0, val, bitpos => some (val, bitpos)
  | left + 1, val, bitpos =>
    if bitpos ≥ data.length * 8 then some (INVALID, bitpos)
    else (consumeBitLE data bitpos).bind fun bit =>
      decodeMantissa data left (val + bit.1.toNat <<< left) bit.2

def decodeClasses (data : Bytes) : List Nat → Nat → Nat → Option (Nat × Nat)
  | [], _, bitpos => some (INVALID, bitpos)
  | [size], val, bitpos => decodeMantissa data size val bitpos
  | size :: sizes, val, bitpos =>
    if bitpos ≥ data.length * 8 then some (INVALID, bitpos)
    else (consumeBitLE data bitpos).bind fun bit =>
      if bit.1 then decodeClasses data sizes (val + 1 <<< size) bit.2
      else decodeMantissa data size val bit.2

/-- The value, or `INVALID`, and the position after it. -/
def decodeBits (data : Bytes) (minval : Nat) (bitSizes : List Nat) (bitpos : Nat) :
    Option (Nat × Nat) :=
  decodeClasses data bitSizes minval bitpos

inductive Instruction where
  | ret
  | jump
  | match_
  | default
  deriving DecidableEq

/-- The conversion of a number to an instruction; other values are none of the four. -/
def instructionOf : Nat → Option Instruction
  | 0 => some .ret
  | 1 => some .jump
  | 2 => some .match_
  | 3 => some .default
  | _ => none

def TYPE_BIT_SIZES : List Nat := [0, 0, 1]
def ASN_BIT_SIZES : List Nat := [15, 16, 17, 18, 19, 20, 21, 22, 23, 24]
def MATCH_BIT_SIZES : List Nat := [1, 2, 3, 4, 5, 6, 7, 8]
def JUMP_BIT_SIZES : List Nat :=
  [5, 6, 7, 8, 9, 10, 11, 12, 13, 14, 15, 16, 17, 18, 19, 20, 21, 22, 23, 24, 25, 26, 27, 28, 29,
    30]

def decodeType (data : Bytes) (bitpos : Nat) : Option (Option Instruction × Nat) :=
  (decodeBits data 0 TYPE_BIT_SIZES bitpos).map fun r => (instructionOf r.1, r.2)

def decodeASN (data : Bytes) : Nat → Option (Nat × Nat) := decodeBits data 1 ASN_BIT_SIZES

def decodeMatch (data : Bytes) : Nat → Option (Nat × Nat) := decodeBits data 2 MATCH_BIT_SIZES

def decodeJump (data : Bytes) : Nat → Option (Nat × Nat) := decodeBits data 17 JUMP_BIT_SIZES

def matchLength (pattern : Nat) : Nat := pattern.size - 1

/-! ## Interpret -/

def matchBits (ip : Bytes) (pattern : Nat) : Nat → Nat → Option (Bool × Nat)
  | 0, ipBit => some (true, ipBit)
  | left + 1, ipBit =>
    (consumeBitBE ip ipBit).bind fun bit =>
      if bit.1 ≠ pattern.testBit left then some (false, bit.2)
      else matchBits ip pattern left bit.2

/-- The loop of `Interpret`.  Every round reads at least one bit of the map, so as many rounds as
there are bits are enough. -/
def interpretLoop (asmap ip : Bytes) : Nat → Nat → Nat → Nat → Option Nat
  | 0, _, _, _ => none
  | rounds + 1, pos, ipBit, defaultAsn =>
    if pos < asmap.length * 8 then
      (decodeType asmap pos).bind fun opcode =>
        match opcode.1 with
        | some .ret =>
          (decodeASN asmap opcode.2).bind fun asn =>
            if asn.1 = INVALID then none else some asn.1
        | some .jump =>
          (decodeJump asmap opcode.2).bind fun jump =>
            if jump.1 = INVALID then none
            else if ipBit = ip.length * 8 % 2 ^ 8 then none
            else if jump.1 ≥ asmap.length * 8 - jump.2 then none
            else (consumeBitBE ip ipBit).bind fun bit =>
              interpretLoop asmap ip rounds (if bit.1 then jump.2 + jump.1 else jump.2) bit.2
                defaultAsn
        | some .match_ =>
          (decodeMatch asmap opcode.2).bind fun pattern =>
            if pattern.1 = INVALID then none
            else if ((ip.length * 8 % 2 ^ 8 : Nat) : Int) - ipBit < matchLength pattern.1 then
              none
            else (matchBits ip pattern.1 (matchLength pattern.1) ipBit).bind fun matched =>
              if matched.1 then interpretLoop asmap ip rounds pattern.2 matched.2 defaultAsn
              else some defaultAsn
        | some .default =>
          (decodeASN asmap opcode.2).bind fun asn =>
            if asn.1 = INVALID then none
            else interpretLoop asmap ip rounds asn.2 ipBit asn.1
        | none => none
    else none

def interpret (asmap ip : Bytes) : Option Nat := interpretLoop asmap ip (asmap.length * 8) 0 0 0

/-! ## SanityCheckAsmap -/

def paddingClear (asmap : Bytes) : Nat → Nat → Option Bool
  | 0, _ => some true
  | left + 1, pos =>
    (consumeBitLE asmap pos).bind fun bit =>
      if bit.1 then some false else paddingClear asmap left bit.2

/-- The loop of `SanityCheckAsmap`.  The pending jumps are a stack of positions in the map, kept in
32 bits, each with the number of address bits that are left after the jump. -/
def sanityLoop (asmap : Bytes) :
    Nat → Nat → Nat → List (Nat × Nat) → Instruction → Bool → Option Bool
  | 0, _, _, _, _, _ => none
  | rounds + 1, pos, bits, jumps, prevopcode, hadIncompleteMatch =>
    if pos = asmap.length * 8 then some false
    else if jumps.head?.any fun back => pos ≥ back.1 then some false
    else
      (decodeType asmap pos).bind fun opcode =>
        match opcode.1 with
        | some .ret =>
          if prevopcode = .default then some false
          else (decodeASN asmap opcode.2).bind fun asn =>
            if asn.1 = INVALID then some false
            else match jumps with
              | [] =>
                if asmap.length * 8 - asn.2 > 7 then some false
                else paddingClear asmap (asmap.length * 8 - asn.2) asn.2
              | back :: jumps =>
                if asn.2 ≠ back.1 then some false
                else sanityLoop asmap rounds asn.2 back.2 jumps .jump hadIncompleteMatch
        | some .jump =>
          (decodeJump asmap opcode.2).bind fun jump =>
            if jump.1 = INVALID then some false
            else if jump.1 > asmap.length * 8 - jump.2 then some false
            else if bits = 0 then some false
            else if jumps.head?.any fun back => (jump.2 + jump.1) % 2 ^ 32 ≥ back.1 then
              some false
            else sanityLoop asmap rounds jump.2 (bits - 1)
              (((jump.2 + jump.1) % 2 ^ 32, bits - 1) :: jumps) .jump hadIncompleteMatch
        | some .match_ =>
          (decodeMatch asmap opcode.2).bind fun pattern =>
            if pattern.1 = INVALID then some false
            else if matchLength pattern.1 < 8 &&
                (hadIncompleteMatch && prevopcode == .match_) then some false
            else if bits < matchLength pattern.1 then some false
            else sanityLoop asmap rounds pattern.2 (bits - matchLength pattern.1) jumps .match_
              (matchLength pattern.1 < 8)
        | some .default =>
          if prevopcode = .default then some false
          else (decodeASN asmap opcode.2).bind fun asn =>
            if asn.1 = INVALID then some false
            else sanityLoop asmap rounds asn.2 bits jumps .default hadIncompleteMatch
        | none => some false

def sanityCheckAsmap (asmap : Bytes) (bits : Nat) : Option Bool :=
  sanityLoop asmap (asmap.length * 8 + 1) 0 bits [] .jump false

/-! ## Tries -/

inductive Trie where
  /-- All addresses from here on have this number. -/
  | leaf (asn : Nat)
  | branch (zero one : Trie)
  /-- Addresses that go on with these bits are looked up below, the others have the default. -/
  | matching (pattern : List Bool) (below : Trie)
  | default (asn : Nat) (below : Trie)
  deriving DecidableEq

namespace Trie

def lookup : Trie → Nat → List Bool → Nat
  | .leaf asn, _, _ => asn
  | .branch _ _, defaultAsn, [] => defaultAsn
  | .branch zero one, defaultAsn, bit :: ip =>
    if bit then one.lookup defaultAsn ip else zero.lookup defaultAsn ip
  | .matching pattern below, defaultAsn, ip =>
    if pattern <+: ip then below.lookup defaultAsn (ip.drop pattern.length) else defaultAsn
  | .default asn below, _, ip => below.lookup asn ip

def depth : Trie → Nat
  | .leaf _ => 0
  | .branch zero one => max zero.depth one.depth + 1
  | .matching pattern below => pattern.length + below.depth
  | .default _ below => below.depth

def encode : Trie → List Bool
  | .leaf asn => false :: classEncode ASN_BIT_SIZES (asn - 1)
  | .branch zero one =>
    true :: false :: (classEncode JUMP_BIT_SIZES (zero.encode.length - 17) ++
      (zero.encode ++ one.encode))
  | .matching pattern below =>
    true :: true :: false :: (classEncode MATCH_BIT_SIZES (bitsValue (true :: pattern) - 2) ++
      below.encode)
  | .default asn below =>
    true :: true :: true :: (classEncode ASN_BIT_SIZES (asn - 1) ++ below.encode)

def Encodable : Trie → Prop
  | .leaf asn => 1 ≤ asn ∧ asn - 1 < classCapacity ASN_BIT_SIZES
  | .branch zero one =>
    (17 ≤ zero.encode.length ∧ zero.encode.length - 17 < classCapacity JUMP_BIT_SIZES) ∧
      zero.Encodable ∧ one.Encodable
  | .matching pattern below => (1 ≤ pattern.length ∧ pattern.length ≤ 8) ∧ below.Encodable
  | .default asn below => (1 ≤ asn ∧ asn - 1 < classCapacity ASN_BIT_SIZES) ∧ below.Encodable

end Trie

def bitsLE (data : Bytes) : List Bool :=
  (List.range (data.length * 8)).map fun i => (data.getD (i / 8) 0).toNat.testBit (i % 8)

def bitsBE (data : Bytes) : List Bool :=
  (List.range (data.length * 8)).map fun i => (data.getD (i / 8) 0).toNat.testBit (7 - i % 8)

/-- The string is the encoding of the trie, filled up to whole bytes. -/
structure Denotes (asmap : Bytes) (trie : Trie) : Prop where
  encodable : trie.Encodable
  padded : ∃ padding ≤ 7, bitsLE asmap = trie.encode ++ List.replicate padding false

/-! ## The decoders -/

section Decoders

variable {data : Bytes} {pos : Nat}

@[simp] theorem length_bitsLE (data : Bytes) : (bitsLE data).length = data.length * 8 := by
  rw [bitsLE, List.length_map, List.length_range]

@[simp] theorem length_bitsBE (data : Bytes) : (bitsBE data).length = data.length * 8 := by
  rw [bitsBE, List.length_map, List.length_range]

theorem exists_consumeBitLE (hpos : pos < data.length * 8) :
    ∃ bit, consumeBitLE data pos = some (bit, pos + 1) ∧
      (bitsLE data).drop pos = bit :: (bitsLE data).drop (pos + 1) := by
  have hbyte : pos / 8 < data.length := Nat.div_lt_of_lt_mul (by omega)
  refine ⟨(data.getD (pos / 8) 0).toNat.testBit (pos % 8), ?_, ?_⟩
  · rw [consumeBitLE, List.getD_eq_getElem?_getD, List.getElem?_eq_getElem hbyte]
    rfl
  · rw [List.drop_eq_getElem_cons (by rw [length_bitsLE]; exact hpos)]
    simp [bitsLE]

theorem exists_consumeBitBE (hsmall : data.length * 8 < 2 ^ 8) (hpos : pos < data.length * 8) :
    ∃ bit, consumeBitBE data pos = some (bit, pos + 1) ∧
      (bitsBE data).drop pos = bit :: (bitsBE data).drop (pos + 1) := by
  have hbyte : pos / 8 < data.length := Nat.div_lt_of_lt_mul (by omega)
  refine ⟨(data.getD (pos / 8) 0).toNat.testBit (7 - pos % 8), ?_, ?_⟩
  · rw [consumeBitBE, List.getD_eq_getElem?_getD, List.getElem?_eq_getElem hbyte,
      Option.map_some, Nat.mod_eq_of_lt (by omega : pos + 1 < 2 ^ 8)]
    rfl
  · rw [List.drop_eq_getElem_cons (by rw [length_bitsBE]; exact hpos)]
    simp [bitsBE]

/-- A decoder that was given a position in the map: it stays in the map, and what it accepts is the
code word of the value. -/
structure Decoded (data : Bytes) (code : Nat → List Bool) (capacity base pos : Nat)
    (r : Nat × Nat) : Prop where
  le : pos ≤ r.2
  inside : r.2 ≤ data.length * 8
  word : r.1 ≠ INVALID → ∃ x < capacity, r.1 = base + x ∧
    (bitsLE data).drop pos = code x ++ (bitsLE data).drop r.2

theorem exists_decodeMantissa (width val : Nat) (hpos : pos ≤ data.length * 8) :
    ∃ r, decodeMantissa data width val pos = some r ∧
      Decoded data (lowBits width) (2 ^ width) val pos r := by
  induction width generalizing val pos with
  | zero => exact ⟨_, rfl, le_rfl, hpos, fun _ => ⟨0, Nat.one_pos, rfl, rfl⟩⟩
  | succ width ih =>
    rw [decodeMantissa]
    split
    case isTrue => exact ⟨_, rfl, le_rfl, hpos, fun h => absurd rfl h⟩
    case isFalse hlt =>
      obtain ⟨bit, hbit, hdrop⟩ := exists_consumeBitLE (not_le.mp hlt)
      obtain ⟨r, hr, hdecoded⟩ := ih (val + bit.toNat <<< width) (not_le.mp hlt)
      rw [hbit, Option.bind_some]
      refine ⟨r, hr, (Nat.le_succ pos).trans hdecoded.le, hdecoded.inside, fun hvalid => ?_⟩
      obtain ⟨x, hx, hval, hword⟩ := hdecoded.word hvalid
      refine ⟨2 ^ width * bit.toNat + x, ?_, ?_, ?_⟩
      · rw [Nat.pow_succ]
        cases bit <;> simp <;> omega
      · rw [hval, Nat.shiftLeft_eq, Nat.mul_comm, Nat.add_assoc]
      · rw [hdrop, hword, lowBits_succ_add hx]
        rfl

theorem exists_decodeClasses (widths : List Nat) (val : Nat) (hpos : pos ≤ data.length * 8) :
    ∃ r, decodeClasses data widths val pos = some r ∧
      Decoded data (classEncode widths) (classCapacity widths) val pos r := by
  induction widths generalizing val pos with
  | nil => exact ⟨_, rfl, le_rfl, hpos, fun h => absurd rfl h⟩
  | cons width widths ih =>
    cases widths with
    | nil =>
      obtain ⟨r, hr, hdecoded⟩ := exists_decodeMantissa width val hpos
      have hcap : classCapacity [width] = 2 ^ width := List.sum_singleton
      rw [hcap]
      exact ⟨r, hr, hdecoded⟩
    | cons next widths =>
      have hcap : classCapacity (width :: next :: widths) =
          2 ^ width + classCapacity (next :: widths) := rfl
      rw [decodeClasses]
      split
      case isTrue => exact ⟨_, rfl, le_rfl, hpos, fun h => absurd rfl h⟩
      case isFalse hlt =>
        obtain ⟨bit, hbit, hdrop⟩ := exists_consumeBitLE (not_le.mp hlt)
        rw [hbit, Option.bind_some]
        cases bit with
        | true =>
          obtain ⟨r, hr, hdecoded⟩ := ih (val + 1 <<< width) (not_le.mp hlt)
          refine ⟨r, hr, (Nat.le_succ pos).trans hdecoded.le, hdecoded.inside, fun hvalid => ?_⟩
          obtain ⟨x, hx, hval, hword⟩ := hdecoded.word hvalid
          refine ⟨2 ^ width + x, by omega, ?_, ?_⟩
          · rw [hval, Nat.shiftLeft_eq, Nat.one_mul, Nat.add_assoc]
          · rw [hdrop, hword, classEncode_add]
            rfl
        | false =>
          obtain ⟨r, hr, hdecoded⟩ := exists_decodeMantissa width val (not_le.mp hlt)
          refine ⟨r, hr, (Nat.le_succ pos).trans hdecoded.le, hdecoded.inside, fun hvalid => ?_⟩
          obtain ⟨x, hx, hval, hword⟩ := hdecoded.word hvalid
          refine ⟨x, by omega, hval, ?_⟩
          rw [hdrop, hword, classEncode_of_lt hx]
          rfl
      · nofun

end Decoders

/-! ## Parsing -/

def Instruction.bits : Instruction → List Bool
  | .ret => [false]
  | .jump => [true, false]
  | .match_ => [true, true, false]
  | .default => [true, true, true]

section Parsing

variable {asmap ip : Bytes} {pos : Nat}

theorem exists_decodeType (hpos : pos ≤ asmap.length * 8) :
    ∃ opcode next, decodeType asmap pos = some (opcode, next) ∧ next ≤ asmap.length * 8 ∧
      ∀ op, opcode = some op →
        pos < next ∧ (bitsLE asmap).drop pos = op.bits ++ (bitsLE asmap).drop next := by
  obtain ⟨r, hr, hdecoded⟩ := @exists_decodeClasses asmap pos TYPE_BIT_SIZES 0 hpos
  refine ⟨instructionOf r.1, r.2, ?_, hdecoded.inside, fun op hop => ?_⟩
  · rw [decodeType, decodeBits, hr]
    rfl
  · have hvalid : r.1 ≠ INVALID := by
      intro hinvalid
      rw [hinvalid] at hop
      cases hop
    obtain ⟨x, hx, hval, hword⟩ := hdecoded.word hvalid
    have hop' : instructionOf x = some op := by rw [← hop, hval, Nat.zero_add]
    have hbits : classEncode TYPE_BIT_SIZES x = op.bits := by
      have hall : ∀ x < classCapacity TYPE_BIT_SIZES, ∀ op, instructionOf x = some op →
          classEncode TYPE_BIT_SIZES x = op.bits := by
        intro x hx op hop
        have hcases : x = 0 ∨ x = 1 ∨ x = 2 ∨ x = 3 := by
          change x < 4 at hx
          omega
        obtain rfl | rfl | rfl | rfl := hcases <;> cases hop <;> decide
      exact hall x hx op hop'
    rw [hbits] at hword
    refine ⟨?_, hword⟩
    have hlength := congrArg List.length hword
    have hbitsPos : 0 < op.bits.length := by cases op <;> decide
    have hinside := hdecoded.inside
    rw [List.length_append, List.length_drop, List.length_drop, length_bitsLE] at hlength
    omega

/-- The instructions from a position on make up a trie, and end at another one. -/
inductive Parses (asmap : Bytes) : Nat → Trie → Nat → Prop where
  | ret {pos args asn next : Nat} (htype : decodeType asmap pos = some (some .ret, args))
      (hasn : decodeASN asmap args = some (asn, next)) (hvalid : asn ≠ INVALID) :
      Parses asmap pos (.leaf asn) next
  | jump {pos args jump next last : Nat} {zero one : Trie}
      (htype : decodeType asmap pos = some (some .jump, args))
      (hjump : decodeJump asmap args = some (jump, next)) (hvalid : jump ≠ INVALID)
      (hzero : Parses asmap next zero (next + jump)) (hone : Parses asmap (next + jump) one last) :
      Parses asmap pos (.branch zero one) last
  | match_ {pos args pattern next last : Nat} {below : Trie}
      (htype : decodeType asmap pos = some (some .match_, args))
      (hpattern : decodeMatch asmap args = some (pattern, next)) (hvalid : pattern ≠ INVALID)
      (hbelow : Parses asmap next below last) :
      Parses asmap pos (.matching (lowBits (matchLength pattern) pattern) below) last
  | default {pos args asn next last : Nat} {below : Trie}
      (htype : decodeType asmap pos = some (some .default, args))
      (hasn : decodeASN asmap args = some (asn, next)) (hvalid : asn ≠ INVALID)
      (hbelow : Parses asmap next below last) :
      Parses asmap pos (.default asn below) last

variable {next : Nat} {op : Instruction}

theorem decodeType_spec (hpos : pos ≤ asmap.length * 8)
    (h : decodeType asmap pos = some (some op, next)) :
    pos < next ∧ next ≤ asmap.length * 8 ∧
      (bitsLE asmap).drop pos = op.bits ++ (bitsLE asmap).drop next := by
  obtain ⟨opcode, next', hdecode, hinside, hword⟩ := exists_decodeType hpos
  obtain ⟨rfl, rfl⟩ := Prod.mk.inj (Option.some.inj (hdecode.symm.trans h))
  exact ⟨(hword op rfl).1, hinside, (hword op rfl).2⟩

theorem decode_spec (hpos : pos ≤ asmap.length * 8) {args base x : Nat} {widths : List Nat}
    (htype : decodeType asmap pos = some (some op, args))
    (h : decodeBits asmap base widths args = some (x, next)) (hvalid : x ≠ INVALID) :
    (pos < next ∧ next ≤ asmap.length * 8) ∧ (base ≤ x ∧ x - base < classCapacity widths) ∧
      (bitsLE asmap).drop pos =
        op.bits ++ (classEncode widths (x - base) ++ (bitsLE asmap).drop next) := by
  obtain ⟨hlt, hargs, hop⟩ := decodeType_spec hpos htype
  obtain ⟨r, hr, hdecoded⟩ := @exists_decodeClasses asmap args widths base hargs
  obtain rfl := Option.some.inj (hr.symm.trans h)
  obtain ⟨y, hy, heq, hword⟩ := hdecoded.word hvalid
  have heq' : x = base + y := heq
  rw [heq', Nat.add_sub_cancel_left, hop, hword]
  exact ⟨⟨hlt.trans_le hdecoded.le, hdecoded.inside⟩, ⟨Nat.le_add_right _ _, hy⟩, rfl⟩

-- No value comes near the 32 bits it is kept in, or the mark for errors.
example : 17 + classCapacity JUMP_BIT_SIZES < INVALID ∧ 1 + classCapacity ASN_BIT_SIZES < INVALID ∧
    2 + classCapacity MATCH_BIT_SIZES < INVALID := by
  decide

theorem Parses.encode {trie : Trie} {last : Nat} (h : Parses asmap pos trie last)
    (hpos : pos ≤ asmap.length * 8) :
    (pos < last ∧ last ≤ asmap.length * 8) ∧ trie.Encodable ∧
      (bitsLE asmap).drop pos = trie.encode ++ (bitsLE asmap).drop last := by
  induction h with
  | ret htype hasn hvalid =>
    obtain ⟨hnext, hasn, hword⟩ := decode_spec hpos htype hasn hvalid
    exact ⟨hnext, hasn, hword⟩
  | @jump pos args jump next last zero one htype hjump hvalid _ _ ihzero ihone =>
    obtain ⟨⟨hlt, hnext⟩, hjump, hword⟩ := decode_spec hpos htype hjump hvalid
    obtain ⟨⟨hlt', htarget⟩, hzeroOk, hzero⟩ := ihzero hnext
    obtain ⟨⟨hlt'', hlast⟩, honeOk, hone⟩ := ihone htarget
    have hlength : zero.encode.length = jump := by
      have heq := congrArg List.length hzero
      rw [List.length_append, List.length_drop, List.length_drop, length_bitsLE] at heq
      omega
    refine ⟨⟨by omega, hlast⟩, ⟨hlength ▸ hjump, hzeroOk, honeOk⟩, ?_⟩
    rw [hword, hzero, hone, Trie.encode, hlength]
    simp [Instruction.bits]
  | @match_ pos args pattern next last below htype hpattern hvalid _ ih =>
    obtain ⟨⟨hlt, hnext⟩, ⟨hmin, hcap⟩, hword⟩ := decode_spec hpos htype hpattern hvalid
    obtain ⟨⟨hlt', hlast⟩, hbelowOk, hbelow⟩ := ih hnext
    have hsize : 2 ≤ pattern.size ∧ pattern.size ≤ 9 := by
      have hcap' : pattern - 2 < 510 := hcap
      refine ⟨Nat.lt_size.mpr (by omega), Nat.size_le.mpr ?_⟩
      omega
    refine ⟨⟨by omega, hlast⟩, ⟨?_, hbelowOk⟩, ?_⟩
    · rw [length_lowBits, matchLength]
      omega
    · rw [hword, hbelow, Trie.encode, matchLength, bitsValue_size (by omega)]
      simp [Instruction.bits]
  | @default pos args asn next last below htype hasn hvalid _ ih =>
    obtain ⟨⟨hlt, hnext⟩, hasn, hword⟩ := decode_spec hpos htype hasn hvalid
    obtain ⟨⟨hlt', hlast⟩, hbelowOk, hbelow⟩ := ih hnext
    refine ⟨⟨hlt.trans hlt', hlast⟩, ⟨hasn, hbelowOk⟩, ?_⟩
    rw [hword, hbelow, Trie.encode]
    simp [Instruction.bits]

end Parsing

/-! ## Interpreting a trie -/

section Interpreting

variable {asmap ip : Bytes} {pos ipBit : Nat}

theorem exists_matchBits (hsmall : ip.length * 8 < 2 ^ 8) (pattern : Nat) {left : Nat}
    (hleft : ipBit + left ≤ ip.length * 8) :
    ∃ next, matchBits ip pattern left ipBit =
        some (decide (lowBits left pattern <+: (bitsBE ip).drop ipBit), next) ∧
      (lowBits left pattern <+: (bitsBE ip).drop ipBit → next = ipBit + left) := by
  induction left generalizing ipBit with
  | zero =>
    refine ⟨ipBit, ?_, fun _ => rfl⟩
    simp [matchBits, lowBits]
  | succ left ih =>
    obtain ⟨bit, hbit, hdrop⟩ := exists_consumeBitBE hsmall (show ipBit < ip.length * 8 by omega)
    rw [matchBits, hbit, Option.bind_some, lowBits, hdrop]
    dsimp only
    by_cases heq : bit = pattern.testBit left
    case pos =>
      obtain ⟨next, hmatch, hnext⟩ := @ih (ipBit + 1) (by omega)
      rw [if_neg (not_not_intro heq), hmatch, heq]
      simp only [List.cons_prefix_cons, true_and]
      exact ⟨next, rfl, fun h => (hnext h).trans (by omega)⟩
    case neg =>
      rw [if_pos heq]
      refine ⟨ipBit + 1, ?_, fun h => absurd (List.cons_prefix_cons.mp h).1.symm heq⟩
      simp [List.cons_prefix_cons, Ne.symm heq]

theorem Parses.interpretLoop_eq (hsmall : ip.length * 8 < 2 ^ 8) {trie : Trie} {last : Nat}
    (h : Parses asmap pos trie last) (hlast : last ≤ asmap.length * 8)
    (hdepth : ipBit + trie.depth ≤ ip.length * 8) {rounds : Nat} (hpos : pos ≤ asmap.length * 8)
    (hrounds : asmap.length * 8 - pos ≤ rounds) (defaultAsn : Nat) :
    interpretLoop asmap ip rounds pos ipBit defaultAsn =
      some (trie.lookup defaultAsn ((bitsBE ip).drop ipBit)) := by
  have hend : ip.length * 8 % 2 ^ 8 = ip.length * 8 := Nat.mod_eq_of_lt hsmall
  induction h generalizing ipBit rounds defaultAsn with
  | @ret pos args asn next htype hasn hvalid =>
    obtain ⟨⟨hlt, hnext⟩, -⟩ := decode_spec hpos htype hasn hvalid
    obtain _ | rounds := rounds
    · omega
    rw [interpretLoop, if_pos (by omega), htype, Option.bind_some]
    dsimp only
    rw [hasn, Option.bind_some, if_neg hvalid]
    rfl
  | @jump pos args jump next last zero one htype hjump hvalid hzero hone ihzero ihone =>
    obtain ⟨⟨hlt, hnext⟩, -⟩ := decode_spec hpos htype hjump hvalid
    obtain ⟨⟨hlt', htarget⟩, -⟩ := hzero.encode hnext
    obtain ⟨⟨hlt'', -⟩, -⟩ := hone.encode htarget
    obtain _ | rounds := rounds
    · omega
    rw [Trie.depth] at hdepth
    obtain ⟨bit, hbit, hdrop⟩ := exists_consumeBitBE hsmall (show ipBit < ip.length * 8 by omega)
    rw [interpretLoop, if_pos (by omega), htype, Option.bind_some]
    dsimp only
    rw [hjump, Option.bind_some]
    dsimp only
    rw [if_neg hvalid, hend, if_neg (by omega), if_neg (by omega), hbit, Option.bind_some, hdrop,
      Trie.lookup]
    cases bit with
    | true => exact ihone hlast (by omega) htarget (by omega) defaultAsn
    | false => exact ihzero htarget (by omega) hnext (by omega) defaultAsn
  | @match_ pos args pattern next last below htype hpattern hvalid hbelow ih =>
    obtain ⟨⟨hlt, hnext⟩, -⟩ := decode_spec hpos htype hpattern hvalid
    obtain _ | rounds := rounds
    · omega
    rw [Trie.depth, length_lowBits] at hdepth
    obtain ⟨ipNext, hmatch, hipNext⟩ := exists_matchBits hsmall pattern
      (show ipBit + matchLength pattern ≤ ip.length * 8 by omega)
    rw [interpretLoop, if_pos (by omega), htype, Option.bind_some]
    dsimp only
    rw [hpattern, Option.bind_some]
    dsimp only
    rw [if_neg hvalid, hend, if_neg (by omega), hmatch, Option.bind_some, Trie.lookup,
      length_lowBits, List.drop_drop]
    dsimp only
    split
    case isTrue hfits =>
      have hfits' := of_decide_eq_true hfits
      rw [if_pos hfits', hipNext hfits']
      exact ih hlast (by omega) hnext (by omega) defaultAsn
    case isFalse hdiffers => rw [if_neg fun hfits => hdiffers (decide_eq_true hfits)]
  | @default pos args asn next last below htype hasn hvalid hbelow ih =>
    obtain ⟨⟨hlt, hnext⟩, -⟩ := decode_spec hpos htype hasn hvalid
    obtain _ | rounds := rounds
    · omega
    rw [interpretLoop, if_pos (by omega), htype, Option.bind_some]
    dsimp only
    rw [hasn, Option.bind_some]
    dsimp only
    rw [if_neg hvalid]
    exact ih hlast hdepth hnext (by omega) asn

end Interpreting

/-! ## The check -/

section Checking

variable {asmap : Bytes} {pos bits : Nat} {jumps : List (Nat × Nat)} {prevopcode : Instruction}
  {hadIncompleteMatch : Bool}

theorem paddingClear_eq_true {left : Nat} (hleft : pos + left = asmap.length * 8)
    (h : paddingClear asmap left pos = some true) :
    (bitsLE asmap).drop pos = List.replicate left false := by
  induction left generalizing pos with
  | zero => exact List.drop_eq_nil_of_le (by rw [length_bitsLE]; omega)
  | succ left ih =>
    obtain ⟨bit, hbit, hdrop⟩ := exists_consumeBitLE (show pos < asmap.length * 8 by omega)
    rw [paddingClear, hbit, Option.bind_some] at h
    cases bit with
    | true => cases h
    | false => rw [hdrop, List.replicate_succ, ih (by omega) h]

/-- What is left to be checked after a trie that ends at `last`. -/
def Continues (asmap : Bytes) (rounds last : Nat) : List (Nat × Nat) → Prop
  | [] => ∃ padding ≤ 7, (bitsLE asmap).drop last = List.replicate padding false
  | back :: jumps => last = back.1 ∧ ∃ rounds' < rounds, ∃ prevopcode hadIncompleteMatch,
      sanityLoop asmap rounds' last back.2 jumps prevopcode hadIncompleteMatch = some true

variable {rounds : Nat}

theorem Continues.mono {rounds' last : Nat} (hle : rounds ≤ rounds')
    (h : Continues asmap rounds last jumps) : Continues asmap rounds' last jumps := by
  cases jumps with
  | nil => exact h
  | cons back jumps =>
    obtain ⟨heq, rounds'', hlt, hrest⟩ := h
    exact ⟨heq, rounds'', hlt.trans_le hle, hrest⟩

private theorem of_ite_false {c : Prop} [Decidable c] {rest : Option Bool}
    (h : (if c then some false else rest) = some true) : ¬ c ∧ rest = some true := by
  split at h
  · cases h
  · exact ⟨‹_›, h⟩

theorem sanityLoop_eq_true
    (h : sanityLoop asmap (rounds + 1) pos bits jumps prevopcode hadIncompleteMatch = some true) :
    (∃ args asn next, decodeType asmap pos = some (some .ret, args) ∧
      decodeASN asmap args = some (asn, next) ∧ asn ≠ INVALID ∧
      ((jumps = [] ∧ asmap.length * 8 - next ≤ 7 ∧
        paddingClear asmap (asmap.length * 8 - next) next = some true) ∨
      ∃ back rest, jumps = back :: rest ∧ next = back.1 ∧
        sanityLoop asmap rounds next back.2 rest .jump hadIncompleteMatch = some true)) ∨
    (∃ args jump next, decodeType asmap pos = some (some .jump, args) ∧
      decodeJump asmap args = some (jump, next) ∧ jump ≠ INVALID ∧
      jump ≤ asmap.length * 8 - next ∧ bits ≠ 0 ∧
      sanityLoop asmap rounds next (bits - 1) (((next + jump) % 2 ^ 32, bits - 1) :: jumps) .jump
        hadIncompleteMatch = some true) ∨
    (∃ args pattern next, decodeType asmap pos = some (some .match_, args) ∧
      decodeMatch asmap args = some (pattern, next) ∧ pattern ≠ INVALID ∧
      matchLength pattern ≤ bits ∧
      sanityLoop asmap rounds next (bits - matchLength pattern) jumps .match_
        (matchLength pattern < 8) = some true) ∨
    ∃ args asn next, decodeType asmap pos = some (some .default, args) ∧
      decodeASN asmap args = some (asn, next) ∧ asn ≠ INVALID ∧
      sanityLoop asmap rounds next bits jumps .default hadIncompleteMatch = some true := by
  rw [sanityLoop] at h
  obtain ⟨-, h⟩ := of_ite_false h
  obtain ⟨-, h⟩ := of_ite_false h
  obtain ⟨⟨opcode, args⟩, htype, h⟩ := Option.bind_eq_some_iff.mp h
  rcases opcode with - | (- | - | - | -) <;> dsimp only at h
  case none => cases h
  case some.ret =>
    obtain ⟨-, h⟩ := of_ite_false h
    obtain ⟨⟨asn, next⟩, hasn, h⟩ := Option.bind_eq_some_iff.mp h
    obtain ⟨hvalid, h⟩ := of_ite_false h
    refine .inl ⟨args, asn, next, htype, hasn, hvalid, ?_⟩
    cases jumps with
    | nil =>
      obtain ⟨hle, h⟩ := of_ite_false h
      exact .inl ⟨rfl, not_lt.mp hle, h⟩
    | cons back rest =>
      obtain ⟨heq, h⟩ := of_ite_false h
      exact .inr ⟨back, rest, rfl, not_not.mp heq, h⟩
  case some.jump =>
    obtain ⟨⟨jump, next⟩, hjump, h⟩ := Option.bind_eq_some_iff.mp h
    obtain ⟨hvalid, h⟩ := of_ite_false h
    obtain ⟨hle, h⟩ := of_ite_false h
    obtain ⟨hbits, h⟩ := of_ite_false h
    obtain ⟨-, h⟩ := of_ite_false h
    exact .inr (.inl ⟨args, jump, next, htype, hjump, hvalid, not_lt.mp hle, hbits, h⟩)
  case some.match_ =>
    obtain ⟨⟨pattern, next⟩, hpattern, h⟩ := Option.bind_eq_some_iff.mp h
    obtain ⟨hvalid, h⟩ := of_ite_false h
    obtain ⟨-, h⟩ := of_ite_false h
    obtain ⟨hle, h⟩ := of_ite_false h
    exact .inr (.inr (.inl ⟨args, pattern, next, htype, hpattern, hvalid, not_lt.mp hle, h⟩))
  case some.default =>
    obtain ⟨-, h⟩ := of_ite_false h
    obtain ⟨⟨asn, next⟩, hasn, h⟩ := Option.bind_eq_some_iff.mp h
    obtain ⟨hvalid, h⟩ := of_ite_false h
    exact .inr (.inr (.inr ⟨args, asn, next, htype, hasn, hvalid, h⟩))

/-- What the check goes over before it returns true is a trie for the bits that are left, and after
it what is at the next pending jump. -/
theorem exists_parses_of_sanityLoop (hsize : asmap.length * 8 < 2 ^ 32)
    (hpos : pos ≤ asmap.length * 8)
    (h : sanityLoop asmap rounds pos bits jumps prevopcode hadIncompleteMatch = some true) :
    ∃ trie last, Parses asmap pos trie last ∧ trie.depth ≤ bits ∧
      Continues asmap rounds last jumps := by
  induction rounds using Nat.strong_induction_on generalizing pos bits jumps prevopcode
    hadIncompleteMatch with
  | _ rounds ih =>
    cases rounds with
    | zero => cases h
    | succ rounds =>
      obtain ⟨args, asn, next, htype, hasn, hvalid, hrest⟩ |
          ⟨args, jump, next, htype, hjump, hvalid, hle, hbits, hrest⟩ |
          ⟨args, pattern, next, htype, hpattern, hvalid, hle, hrest⟩ |
          ⟨args, asn, next, htype, hasn, hvalid, hrest⟩ := sanityLoop_eq_true h
      · obtain ⟨⟨-, hnext⟩, -⟩ := decode_spec hpos htype hasn hvalid
        refine ⟨_, next, .ret htype hasn hvalid, Nat.zero_le _, ?_⟩
        obtain ⟨rfl, hseven, hclear⟩ | ⟨back, rest, rfl, heq, hnextLoop⟩ := hrest
        · exact ⟨_, hseven, paddingClear_eq_true (by omega) hclear⟩
        · exact ⟨heq, rounds, Nat.lt_succ_self _, _, _, hnextLoop⟩
      · -- the left subtree ends at the pending jump, where the right one begins
        obtain ⟨⟨-, hnext⟩, -⟩ := decode_spec hpos htype hjump hvalid
        rw [Nat.mod_eq_of_lt (show next + jump < 2 ^ 32 by omega)] at hrest
        obtain ⟨zero, last, hzero, hzeroDepth, rfl, rounds', hlt, prev, had, hone⟩ :=
          ih rounds (Nat.lt_succ_self _) hnext hrest
        obtain ⟨one, last, hone, honeDepth, hcontinues⟩ :=
          ih rounds' (hlt.trans (Nat.lt_succ_self _)) (by omega) hone
        refine ⟨.branch zero one, last, .jump htype hjump hvalid hzero hone, ?_,
          hcontinues.mono (by omega)⟩
        rw [Trie.depth]
        omega
      · obtain ⟨⟨-, hnext⟩, -⟩ := decode_spec hpos htype hpattern hvalid
        obtain ⟨below, last, hbelow, hdepth, hcontinues⟩ :=
          ih rounds (Nat.lt_succ_self _) hnext hrest
        refine ⟨_, last, .match_ htype hpattern hvalid hbelow, ?_, hcontinues.mono (Nat.le_succ _)⟩
        rw [Trie.depth, length_lowBits]
        omega
      · obtain ⟨⟨-, hnext⟩, -⟩ := decode_spec hpos htype hasn hvalid
        obtain ⟨below, last, hbelow, hdepth, hcontinues⟩ :=
          ih rounds (Nat.lt_succ_self _) hnext hrest
        exact ⟨_, last, .default htype hasn hvalid hbelow, hdepth, hcontinues.mono (Nat.le_succ _)⟩

end Checking

/-! ## One string, one trie -/

variable {trie trie' : Trie}

theorem Trie.encode_append_inj {rest rest' : List Bool} (h : trie.Encodable)
    (h' : trie'.Encodable) (heq : trie.encode ++ rest = trie'.encode ++ rest') :
    trie = trie' ∧ rest = rest' := by
  induction trie generalizing trie' rest rest' with
  | leaf asn =>
    cases trie' <;> simp only [encode, List.cons_append, List.cons.injEq, List.append_assoc,
      reduceCtorEq, true_and, false_and] at heq
    case leaf asn' =>
      obtain ⟨hasn, hrest⟩ := classEncode_append_inj h.2 h'.2 heq
      obtain rfl : asn = asn' := by
        have hmin := h.1
        have hmin' := h'.1
        omega
      exact ⟨rfl, hrest⟩
  | branch zero one ihzero ihone =>
    cases trie' <;> simp only [encode, List.cons_append, List.cons.injEq, List.append_assoc,
      reduceCtorEq, true_and, false_and, and_false] at heq
    case branch zero' one' =>
      obtain ⟨-, hzero⟩ := classEncode_append_inj h.1.2 h'.1.2 heq
      obtain ⟨rfl, hone⟩ := ihzero h.2.1 h'.2.1 hzero
      obtain ⟨rfl, hrest⟩ := ihone h.2.2 h'.2.2 hone
      exact ⟨rfl, hrest⟩
  | matching pattern below ih =>
    cases trie' <;> simp only [encode, List.cons_append, List.cons.injEq, List.append_assoc,
      reduceCtorEq, true_and, false_and, and_false] at heq
    case matching pattern' below' =>
      have hrange : ∀ {pattern : List Bool}, 1 ≤ pattern.length ∧ pattern.length ≤ 8 →
          2 ≤ bitsValue (true :: pattern) ∧
            bitsValue (true :: pattern) - 2 < classCapacity MATCH_BIT_SIZES := by
        intro pattern hlength
        obtain ⟨hlt, hbits⟩ := lowBits_bitsValue pattern
        have hvalue := bitsValue_leading hlt
        rw [hbits] at hvalue
        have hlow := Nat.pow_le_pow_right (show 0 < 2 by decide) hlength.1
        have hhigh := Nat.pow_le_pow_right (show 0 < 2 by decide) hlength.2
        change 2 ≤ _ ∧ _ < 510
        omega
      obtain ⟨hmin, hcap⟩ := hrange h.1
      obtain ⟨hmin', hcap'⟩ := hrange h'.1
      obtain ⟨hvalue, hbelow⟩ := classEncode_append_inj hcap hcap' heq
      obtain rfl := @bitsValue_leading_injective pattern pattern' (by omega)
      obtain ⟨rfl, hrest⟩ := ih h.2 h'.2 hbelow
      exact ⟨rfl, hrest⟩
  | default asn below ih =>
    cases trie' <;> simp only [encode, List.cons_append, List.cons.injEq, List.append_assoc,
      reduceCtorEq, true_and, false_and, and_false] at heq
    case default asn' below' =>
      obtain ⟨hasn, hbelow⟩ := classEncode_append_inj h.1.2 h'.1.2 heq
      obtain rfl : asn = asn' := by
        have hmin := h.1.1
        have hmin' := h'.1.1
        omega
      obtain ⟨rfl, hrest⟩ := ih h.2 h'.2 hbelow
      exact ⟨rfl, hrest⟩

theorem Denotes.unique {asmap : Bytes} (h : Denotes asmap trie) (h' : Denotes asmap trie') :
    trie = trie' := by
  obtain ⟨padding, -, hbits⟩ := h.padded
  obtain ⟨padding', -, hbits'⟩ := h'.padded
  exact (Trie.encode_append_inj h.encodable h'.encodable (hbits.symm.trans hbits')).1

/-- A map that passes the check denotes one trie, no deeper than the addresses have bits, and
interpreting it is looking addresses up there. -/
theorem interpret_eq_lookup (asmap : Bytes) (hsize : asmap.length < 2 ^ 29) (b : Nat)
    (hbytes : 8 ∣ b) (hbits : b < 256) (h : sanityCheckAsmap asmap b = some true) :
    ∃ trie, Denotes asmap trie ∧ (∀ trie', Denotes asmap trie' → trie' = trie) ∧
      ∀ ip : Bytes, ip.length = b / 8 → interpret asmap ip = some (trie.lookup 0 (bitsBE ip)) := by
  obtain ⟨trie, last, hparses, hdepth, padding, hpadding, hrest⟩ :=
    exists_parses_of_sanityLoop (show asmap.length * 8 < 2 ^ 32 by omega) (Nat.zero_le _) h
  obtain ⟨⟨-, hlast⟩, hencodable, hencoded⟩ := hparses.encode (Nat.zero_le _)
  have hdenotes : Denotes asmap trie := by
    refine ⟨hencodable, padding, hpadding, ?_⟩
    rw [← hrest]
    exact hencoded
  refine ⟨trie, hdenotes, fun trie' h' => h'.unique hdenotes, fun ip hip => ?_⟩
  have hlength : ip.length * 8 = b := by
    rw [hip]
    exact Nat.div_mul_cancel hbytes
  exact hparses.interpretLoop_eq (by omega) hlast (by omega) (Nat.zero_le _) le_rfl 0

theorem interpret_eq_lookup_halves :
    sanityCheckAsmap [1, 0, 0, 0, 0, 2] 8 = some true ∧
      (interpret [1, 0, 0, 0, 0, 2] [0x7f], interpret [1, 0, 0, 0, 0, 2] [0x80]) =
        (some 1, some 2) ∧
      ∃ trie, Denotes [1, 0, 0, 0, 0, 2] trie ∧ ∀ ip : Bytes, ip.length = 1 →
        interpret [1, 0, 0, 0, 0, 2] ip = some (trie.lookup 0 (bitsBE ip)) := by
  have hcheck : sanityCheckAsmap [1, 0, 0, 0, 0, 2] 8 = some true := by decide
  obtain ⟨trie, hdenotes, -, hlookup⟩ :=
    interpret_eq_lookup [1, 0, 0, 0, 0, 2] (by decide) 8 (by decide) (by decide) hcheck
  exact ⟨hcheck, by decide, trie, hdenotes, hlookup⟩

end HcsCoin.Asmap
