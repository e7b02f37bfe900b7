import HcsCoin.Crypto.Dilithium.Rounding
import HcsCoin.Foundation.Digits

/-!
# Packing in dilithium.c

Coefficients are written as fixed-width integers, least significant bit first,
through a 64-bit accumulator.  Packed bytes and packed values are the digits of
one number in two bases, which gives the round trips.  The hint of a signature
is written as lists of positions.
-/

namespace HcsCoin.Dilithium

open Foundation

/-! ## Bit packing -/

structure BitWriter where
  acc : Nat := 0
  accbits : Nat := 0
  out : Bytes := []

def drain (acc : Nat) (out : Bytes) : Nat → BitWriter
  | accbits + 8 => drain (acc >>> 8) (out ++ [UInt8.ofNat (acc &&& 0xff)]) accbits
  | accbits => ⟨acc, accbits, out⟩

def bitMask (bits : Nat) : Nat := if bits = 32 then 0xFFFFFFFF else 2 ^ bits - 1

def packStep (bits : Nat) (w : BitWriter) (val : Nat) : BitWriter :=
  drain (w.acc ||| ((val &&& bitMask bits) <<< w.accbits) % 2 ^ 64) w.out (w.accbits + bits)

def dilPackBits (vals : List Nat) (bits : Nat) : Bytes :=
  let w := vals.foldl (packStep bits) {}
  if w.accbits ≠ 0 then w.out ++ [UInt8.ofNat (w.acc &&& 0xff)] else w.out

structure BitReader where
  acc : Nat := 0
  accbits : Nat := 0
  pos : Nat := 0

/-- `while (accbits < bits)`; each round adds bits, so `bits` rounds are enough. -/
def refill (input : Bytes) (bits : Nat) : (fuel : Nat) → BitReader → BitReader
  | 0, r => r
  | fuel + 1, r =>
    if r.accbits < bits then
      refill input bits fuel
        ⟨r.acc ||| ((input.getD r.pos 0).toNat <<< r.accbits) % 2 ^ 64, r.accbits + 8, r.pos + 1⟩
    else r

def unpackLoop (input : Bytes) (bits : Nat) : Nat → BitReader → List Nat
  | 0, _ => []
  | n + 1, r =>
    let r := refill input bits bits r
    (r.acc &&& bitMask bits) :: unpackLoop input bits n ⟨r.acc >>> bits, r.accbits - bits, r.pos⟩

def dilUnpackBits (input : Bytes) (n bits : Nat) : List Nat := unpackLoop input bits n {}

variable {bits : Nat} {input : Bytes} {E : Fault → Prop} {r : BitReader} {offset : Int}

theorem and_bitMask (hbits : bits ≤ 32) (x : Nat) : x &&& bitMask bits = x % 2 ^ bits := by
  rw [bitMask]
  split
  case isTrue h =>
    subst h
    exact Nat.and_two_pow_sub_one_eq_mod x 32
  case isFalse h => exact Nat.and_two_pow_sub_one_eq_mod x bits

variable {k acc accbits length value : Nat} {w : BitWriter} {a : Poly}

theorem or_shiftLeft {a b : Nat} (ha : a < 2 ^ k) : a ||| b <<< k = a + 2 ^ k * b := by
  rw [Nat.or_comm, ← Nat.shiftLeft_add_eq_or_of_lt ha, Nat.shiftLeft_eq]
  ring

/-- Bits put above those the accumulator holds are kept, as long as there is room for them. -/
theorem accumulate {x : Nat} (hacc : acc < 2 ^ accbits) (hx : x < 2 ^ k)
    (hroom : k + accbits ≤ 64) : acc ||| (x <<< accbits) % 2 ^ 64 = acc + 2 ^ accbits * x := by
  have hfits : x <<< accbits < 2 ^ 64 := by
    rw [Nat.shiftLeft_eq]
    calc x * 2 ^ accbits < 2 ^ k * 2 ^ accbits :=
          Nat.mul_lt_mul_of_pos_right hx (Nat.two_pow_pos _)
      _ = 2 ^ (k + accbits) := (pow_add 2 k accbits).symm
      _ ≤ 2 ^ 64 := Nat.pow_le_pow_right (by decide) hroom
  rw [Nat.mod_eq_of_lt hfits, or_shiftLeft hacc]

/-! ### Writing -/

/-- The bytes written and the bits held back are the number written so far. -/
structure BitWriter.Holds (w : BitWriter) (value length : Nat) : Prop where
  value_eq : leNat w.out + 256 ^ w.out.length * w.acc = value
  length_eq : 8 * w.out.length + w.accbits = length
  acc_lt : w.acc < 2 ^ w.accbits

theorem lowByte (x : Nat) : leNat [UInt8.ofNat (x &&& 0xff)] = x % 256 := by
  have hand : x &&& 0xff = x % 256 := Nat.and_two_pow_sub_one_eq_mod x 8
  simp [leNat, hand]

theorem drain_holds {out : Bytes} (h : BitWriter.Holds ⟨acc, accbits, out⟩ value length) :
    (drain acc out accbits).Holds value length ∧ (drain acc out accbits).accbits < 8 := by
  induction accbits using Nat.strong_induction_on generalizing acc out with
  | _ accbits ih =>
    by_cases hsmall : accbits < 8
    · have hstop : drain acc out accbits = ⟨acc, accbits, out⟩ := by
        rw [drain]
        omega
      rw [hstop]
      exact ⟨h, hsmall⟩
    · obtain ⟨rest, rfl⟩ : ∃ rest, accbits = rest + 8 := ⟨accbits - 8, by omega⟩
      obtain ⟨hvalue, hlength, hacc⟩ := h
      dsimp only at hvalue hlength hacc
      rw [drain]
      refine ih rest (by omega) ⟨?_, ?_, ?_⟩ <;> dsimp only
      · rw [leNat_append, lowByte, List.length_append, List.length_singleton, pow_succ,
          Nat.shiftRight_eq_div_pow, ← hvalue]
        have hsplit : 256 * (acc / 2 ^ 8) + acc % 256 = acc := Nat.div_add_mod acc 256
        rw [Nat.add_assoc, Nat.mul_assoc, ← Nat.mul_add, Nat.add_comm (acc % 256), hsplit]
      · rw [List.length_append, List.length_singleton]
        omega
      · rw [Nat.shiftRight_eq_div_pow, Nat.div_lt_iff_lt_mul (by decide), ← pow_add]
        exact hacc

theorem packStep_acc (hbits : bits ≤ 32) (hacc : w.acc < 2 ^ w.accbits) (hw : w.accbits < 8)
    (val : Nat) :
    w.acc ||| ((val &&& bitMask bits) <<< w.accbits) % 2 ^ 64 =
      w.acc + 2 ^ w.accbits * (val % 2 ^ bits) := by
  rw [and_bitMask hbits]
  -- seven bits and a value of at most 32 bits fit the accumulator
  exact accumulate hacc (Nat.mod_lt val (Nat.two_pow_pos bits)) (by omega)

theorem packStep_holds (hbits : bits ≤ 32) (h : w.Holds value length) (hw : w.accbits < 8)
    (val : Nat) :
    (packStep bits w val).Holds (value + 2 ^ length * (val % 2 ^ bits)) (length + bits) ∧
      (packStep bits w val).accbits < 8 := by
  obtain ⟨hvalue, hlength, hacc⟩ := h
  refine drain_holds ⟨?_, ?_, ?_⟩ <;> dsimp only
  · rw [packStep_acc hbits hacc hw, ← hvalue, ← hlength, pow_add, pow_mul]
    ring
  · omega
  · rw [packStep_acc hbits hacc hw, pow_add]
    have hlow : val % 2 ^ bits < 2 ^ bits := Nat.mod_lt val (Nat.two_pow_pos bits)
    calc w.acc + 2 ^ w.accbits * (val % 2 ^ bits)
        < 2 ^ w.accbits * (val % 2 ^ bits + 1) := by linarith
      _ ≤ 2 ^ w.accbits * 2 ^ bits := Nat.mul_le_mul_left _ hlow

theorem foldl_packStep_holds (hbits : bits ≤ 32) (vals : List Nat) :
    (vals.foldl (packStep bits) {}).Holds (positionalValue (· % 2 ^ bits) (2 ^ bits) vals)
        (bits * vals.length) ∧
      (vals.foldl (packStep bits) {}).accbits < 8 := by
  induction vals using List.reverseRecOn with
  | nil => exact ⟨⟨rfl, rfl, Nat.one_pos⟩, Nat.zero_lt_succ 7⟩
  | append_singleton vals val ih =>
    rw [List.foldl_append, positionalValue_append, List.length_append]
    have hstep := packStep_holds hbits ih.1 ih.2 val
    rw [pow_mul] at hstep
    simpa [mul_add] using hstep

/-- What is written is the number whose digits are the values, as many bytes as its
bits need. -/
theorem dilPackBits_eq (hbits : bits ≤ 32) (vals : List Nat) :
    dilPackBits vals bits = leBytes ((bits * vals.length + 7) / 8)
      (positionalValue (· % 2 ^ bits) (2 ^ bits) vals) := by
  obtain ⟨⟨hvalue, hlength, hacc⟩, hsmall⟩ := foldl_packStep_holds hbits vals
  rw [dilPackBits]
  generalize vals.foldl (packStep bits) {} = w at *
  split
  case isTrue hrest =>
    have hbyte : w.acc < 2 ^ 8 := hacc.trans (Nat.pow_lt_pow_right (by decide) hsmall)
    have hcount : (bits * vals.length + 7) / 8 = w.out.length + 1 := by omega
    refine (leBytes_leNat ?_).symm.trans (congrArg (leBytes _) ?_)
    · rw [hcount, List.length_append, List.length_singleton]
    · rw [leNat_append, lowByte, Nat.mod_eq_of_lt (show w.acc < 256 from hbyte), hvalue]
  case isFalse hrest =>
    have hzero : w.accbits = 0 := not_not.mp hrest
    have hcount : (bits * vals.length + 7) / 8 = w.out.length := by omega
    rw [hzero, pow_zero, Nat.lt_one_iff] at hacc
    rw [hacc, mul_zero, add_zero] at hvalue
    rw [hcount, ← hvalue, leBytes_leNat rfl]

/-! ### Reading -/

/-- The bits held are those of the input from bit `start` on, up to the next byte. -/
structure BitReader.Holds (r : BitReader) (input : Bytes) (start : Nat) : Prop where
  acc_eq : r.acc = leNat input / 2 ^ start % 2 ^ r.accbits
  pos_eq : 8 * r.pos = start + r.accbits

section
variable (hbits : bits ≤ 32)
include hbits

variable {start n : Nat}

theorem BitReader.Holds.refill_acc (h : r.Holds input start) (hmore : r.accbits < bits) :
    r.acc ||| ((input.getD r.pos 0).toNat <<< r.accbits) % 2 ^ 64 =
      r.acc + 2 ^ r.accbits * (input.getD r.pos 0).toNat := by
  refine accumulate ?_ (input.getD r.pos 0).toNat_lt (by omega)
  rw [h.acc_eq]
  exact Nat.mod_lt _ (Nat.two_pow_pos _)

theorem refill_holds (fuel : Nat) (h : r.Holds input start) (hr : r.accbits < bits + 8) :
    (refill input bits fuel r).Holds input start ∧
      (bits ≤ r.accbits + fuel → bits ≤ (refill input bits fuel r).accbits) ∧
      (refill input bits fuel r).accbits < bits + 8 := by
  induction fuel generalizing r with
  | zero => exact ⟨h, id, hr⟩
  | succ fuel ih =>
    rw [refill]
    split
    case isFalse hfull => exact ⟨h, fun _ => not_lt.mp hfull, hr⟩
    case isTrue hmore =>
      have hbyte : (input.getD r.pos 0).toNat = leNat input / 2 ^ start / 2 ^ r.accbits % 2 ^ 8 := by
        rw [toNat_getD_eq, Nat.div_div_eq_div_mul, ← pow_add, ← h.pos_eq, pow_mul]
        rfl
      have hnext : BitReader.Holds ⟨r.acc + 2 ^ r.accbits * (input.getD r.pos 0).toNat,
          r.accbits + 8, r.pos + 1⟩ input start := by
        refine ⟨?_, ?_⟩ <;> dsimp only
        · rw [hbyte, h.acc_eq, pow_add, Nat.mod_mul]
        · rw [Nat.mul_add, h.pos_eq, Nat.add_assoc]
      rw [h.refill_acc hbits hmore]
      obtain ⟨hholds, hfull, hfew⟩ := ih hnext (Nat.add_lt_add_right hmore 8)
      exact ⟨hholds, fun h => hfull (by dsimp only; omega), hfew⟩

omit hbits in
theorem BitReader.Holds.consume (h : r.Holds input start) (hfull : bits ≤ r.accbits) :
    BitReader.Holds ⟨r.acc >>> bits, r.accbits - bits, r.pos⟩ input (start + bits) := by
  obtain ⟨hacc, hpos⟩ := h
  refine ⟨?_, ?_⟩ <;> dsimp only
  · have hsplit : 2 ^ r.accbits = 2 ^ bits * 2 ^ (r.accbits - bits) := by
      rw [← pow_add, Nat.add_sub_cancel' hfull]
    rw [Nat.shiftRight_eq_div_pow, hacc, hsplit, Nat.mod_mul_right_div_self,
      Nat.div_div_eq_div_mul, ← pow_add]
  · omega

theorem unpackLoop_eq (h : r.Holds input start) (hr : r.accbits < 8) :
    unpackLoop input bits n r = toDigits (2 ^ bits) n (leNat input / 2 ^ start) := by
  induction n generalizing r start with
  | zero => rfl
  | succ n ih =>
    obtain ⟨hholds, hfull, hfew⟩ := refill_holds hbits bits h (by omega)
    have hfull := hfull (Nat.le_add_left bits r.accbits)
    rw [unpackLoop, toDigits]
    generalize refill input bits bits r = r' at *
    have hmask : r'.acc % 2 ^ bits = leNat input / 2 ^ start % 2 ^ bits := by
      rw [hholds.acc_eq, Nat.mod_mod_of_dvd _ (Nat.pow_dvd_pow 2 hfull)]
    rw [and_bitMask hbits, hmask]
    refine congrArg (_ :: ·) ?_
    rw [Nat.div_div_eq_div_mul, ← pow_add]
    exact ih (hholds.consume hfull) (by dsimp only; omega)

omit hbits in
theorem BitReader.holds_start (input : Bytes) : BitReader.Holds {} input 0 :=
  ⟨by simp [Nat.mod_one], rfl⟩

theorem dilUnpackBits_eq (input : Bytes) (n : Nat) :
    dilUnpackBits input n bits = toDigits (2 ^ bits) n (leNat input) := by
  have h := unpackLoop_eq hbits (n := n) (BitReader.holds_start input) (by decide)
  rwa [pow_zero, Nat.div_one] at h

/-- The reader when it has returned `k` values. -/
def readerAfter (input : Bytes) (bits : Nat) : (k : Nat) → BitReader
  | 0 => {}
  | k + 1 =>
    let r := refill input bits bits (readerAfter input bits k)
    ⟨r.acc >>> bits, r.accbits - bits, r.pos⟩

omit hbits in
theorem unpackLoop_readerAfter (input : Bytes) (n k : Nat) :
    unpackLoop input bits n (readerAfter input bits k) = (List.range' k n).map fun i =>
      (refill input bits bits (readerAfter input bits i)).acc &&& bitMask bits := by
  induction n generalizing k with
  | zero => rfl
  | succ n ih =>
    rw [unpackLoop, List.range'_succ, List.map_cons]
    exact congrArg (_ :: ·) (ih (k + 1))

theorem readerAfter_holds (input : Bytes) (k : Nat) :
    (readerAfter input bits k).Holds input (bits * k) ∧ (readerAfter input bits k).accbits < 8 := by
  induction k with
  | zero => exact ⟨BitReader.holds_start input, Nat.zero_lt_succ 7⟩
  | succ k ih =>
    obtain ⟨hholds, hfull, hfew⟩ := refill_holds hbits bits ih.1 (by omega)
    exact ⟨hholds.consume (hfull (Nat.le_add_left _ _)), by rw [readerAfter]; dsimp only; omega⟩

/-! ### Round trips -/

theorem dilUnpackBits_dilPackBits (vals : List Nat) :
    dilUnpackBits (dilPackBits vals bits) vals.length bits = vals.map (· % 2 ^ bits) := by
  have hdigit : ∀ v, v % 2 ^ bits < 2 ^ bits := fun v => Nat.mod_lt v (Nat.two_pow_pos bits)
  have hfits : positionalValue (· % 2 ^ bits) (2 ^ bits) vals <
      256 ^ ((bits * vals.length + 7) / 8) := by
    refine (positionalValue_lt hdigit vals).trans_le ?_
    rw [← pow_mul, show 256 = 2 ^ 8 from rfl, ← pow_mul]
    exact Nat.pow_le_pow_right (by decide) (by omega)
  rw [dilUnpackBits_eq hbits, dilPackBits_eq hbits, leNat_leBytes_of_lt hfits,
    toDigits_positionalValue hdigit]

theorem dilPackBits_dilUnpackBits (hlength : 8 * input.length = bits * n) :
    dilPackBits (dilUnpackBits input n bits) bits = input := by
  have hcount : (bits * n + 7) / 8 = input.length := by omega
  have hfits : leNat input < (2 ^ bits) ^ n := by
    rw [← pow_mul, ← hlength, pow_mul]
    exact leNat_lt input
  have hdigits : ∀ d ∈ toDigits (2 ^ bits) n (leNat input), d % 2 ^ bits = id d :=
    fun d hd => Nat.mod_eq_of_lt (mem_toDigits_lt (Nat.two_pow_pos bits) hd)
  rw [dilPackBits_eq hbits, dilUnpackBits_eq hbits, length_toDigits, hcount,
    positionalValue_congr hdigits, positionalValue_toDigits, Nat.mod_eq_of_lt hfits,
    leBytes_leNat rfl]

end

/-- Packing and unpacking undo each other up to the bits that are kept, and the accumulators,
here before every step of the two loops, take in what is shifted into them without losing a bit
over their 64. -/
theorem unpackBits_packBits_roundTrip (hbits : bits ≤ 32) :
    (∀ vals : List Nat,
      dilUnpackBits (dilPackBits vals bits) vals.length bits = vals.map (· % 2 ^ bits) ∧
        (dilPackBits vals bits).length = (vals.length * bits + 7) / 8) ∧
    (∀ (n : Nat) (input : Bytes), 8 ∣ n * bits → input.length = n * bits / 8 →
      dilPackBits (dilUnpackBits input n bits) bits = input) ∧
    (∀ (vals : List Nat) (val : Nat),
      let w := vals.foldl (packStep bits) {}
      w.acc ||| ((val &&& bitMask bits) <<< w.accbits) % 2 ^ 64 =
        w.acc + 2 ^ w.accbits * (val % 2 ^ bits)) ∧
    ∀ input : Bytes,
      (∀ n, dilUnpackBits input n bits = (List.range n).map fun k =>
        (refill input bits bits (readerAfter input bits k)).acc &&& bitMask bits) ∧
      ∀ k rounds,
        let r := refill input bits rounds (readerAfter input bits k)
        r.accbits < bits →
          r.acc ||| ((input.getD r.pos 0).toNat <<< r.accbits) % 2 ^ 64 =
            r.acc + 2 ^ r.accbits * (input.getD r.pos 0).toNat := by
  refine ⟨fun vals => ⟨dilUnpackBits_dilPackBits hbits vals, ?_⟩, fun n input hdvd hlength => ?_,
    fun vals val => ?_, fun input => ⟨fun n => ?_, fun k rounds => ?_⟩⟩
  · rw [dilPackBits_eq hbits, leBytes_length, Nat.mul_comm]
  · exact dilPackBits_dilUnpackBits hbits (by rw [hlength, Nat.mul_div_cancel' hdvd, Nat.mul_comm])
  · obtain ⟨hholds, hsmall⟩ := foldl_packStep_holds hbits vals
    exact packStep_acc hbits hholds.acc_lt hsmall val
  · rw [List.range_eq_range']
    exact unpackLoop_readerAfter input n 0
  · obtain ⟨hholds, hsmall⟩ := readerAfter_holds hbits input k
    exact (refill_holds hbits rounds hholds (by omega)).1.refill_acc hbits

theorem unpackBits_packBits_roundTrip_ten :
    dilUnpackBits (dilPackBits [1023, 2053] 10) 2 10 = [1023, 5] :=
  ((unpackBits_packBits_roundTrip (by decide)).1 [1023, 2053]).1

/-! ## Polynomials -/

def DIL_GAMMA1 : Int := 2 ^ 19

def uint32 (x : Int) : Nat := (x % 2 ^ 32).toNat

def packPlain (bits : Nat) (a : Poly) : Bytes := dilPackBits (a.map uint32).toList bits

def unpackPlain (bits : Nat) (input : Bytes) : Poly :=
  let v := dilUnpackBits input 256 bits
  Vector.ofFn fun i => (v.getD i 0 : Nat)

def packOffset (offset : Int) (bits : Nat) (a : Poly) : Exec Bytes := do
  let v ← tabulate 256 fun i => do pure (uint32 (← int32 (offset - a[i])))
  pure (dilPackBits v.toList bits)

def unpackOffset (offset : Int) (bits : Nat) (input : Bytes) : Exec Poly :=
  let v := dilUnpackBits input 256 bits
  tabulate 256 fun i => int32 (offset - (v.getD i 0 : Nat))

def dilPolyt1Pack : Poly → Bytes := packPlain 10
def dilPolyt1Unpack : Bytes → Poly := unpackPlain 10
def dilPolyw1Pack : Poly → Bytes := packPlain 4
def dilPolyetaPack : Poly → Exec Bytes := packOffset 2 3
def dilPolyetaUnpack : Bytes → Exec Poly := unpackOffset 2 3
def dilPolyt0Pack : Poly → Exec Bytes := packOffset (2 ^ 12) 13
def dilPolyt0Unpack : Bytes → Exec Poly := unpackOffset (2 ^ 12) 13
def dilPolyzPack : Poly → Exec Bytes := packOffset DIL_GAMMA1 20
def dilPolyzUnpack : Bytes → Exec Poly := unpackOffset DIL_GAMMA1 20

theorem uint32_of_lt {x : Int} (hbits : bits ≤ 32) (hx : 0 ≤ x ∧ x < 2 ^ bits) :
    (uint32 x : Int) = x ∧ uint32 x % 2 ^ bits = uint32 x := by
  have hpow : (2 ^ bits : Int) ≤ 2 ^ 32 := pow_le_pow_right₀ (by decide) hbits
  have hmod : (uint32 x : Int) = x := by
    rw [uint32, Int.emod_eq_of_lt hx.1 (hx.2.trans_le hpow), Int.toNat_of_nonneg hx.1]
  refine ⟨hmod, Nat.mod_eq_of_lt ?_⟩
  have : (uint32 x : Int) < (2 ^ bits : Nat) := by
    rw [hmod]
    exact_mod_cast hx.2
  exact_mod_cast this

section Values

variable {bits : Nat} {v : Vector Nat 256}

theorem length_packValues (hbits : bits ≤ 32) : (dilPackBits v.toList bits).length = 32 * bits := by
  rw [dilPackBits_eq hbits, leBytes_length, Vector.length_toList]
  omega

theorem unpackValues_packValues (hbits : bits ≤ 32) (hv : ∀ i : Fin 256, v[i] % 2 ^ bits = v[i]) :
    dilUnpackBits (dilPackBits v.toList bits) 256 bits = v.toList := by
  have h := dilUnpackBits_dilPackBits hbits v.toList
  rw [Vector.length_toList] at h
  rw [h]
  refine List.ext_getElem (by simp) fun i hi _ => ?_
  rw [List.getElem_map, Vector.getElem_toList]
  exact hv ⟨i, by simpa using hi⟩

theorem getD_toList (v : Vector Nat 256) (i : Fin 256) : v.toList.getD i 0 = v[i] := by simp

theorem unpackValues_lt (hbits : bits ≤ 32) (input : Bytes) (i : Nat) :
    (dilUnpackBits input 256 bits).getD i 0 < 2 ^ bits := by
  rw [dilUnpackBits_eq hbits, List.getD_eq_getElem?_getD]
  by_cases hi : i < 256
  · rw [getElem?_toDigits _ hi]
    exact Nat.mod_lt _ (Nat.two_pow_pos bits)
  · rw [List.getElem?_eq_none (by simpa using hi)]
    exact Nat.two_pow_pos bits

theorem toList_ofFn_unpackBits (hbits : bits ≤ 32) (input : Bytes) :
    (Vector.ofFn fun i : Fin 256 => (dilUnpackBits input 256 bits).getD i 0).toList =
      dilUnpackBits input 256 bits := by
  have hlength : (dilUnpackBits input 256 bits).length = 256 := by
    rw [dilUnpackBits_eq hbits, length_toDigits]
  refine List.ext_getElem (by simp [hlength]) fun i hi hi' => ?_
  simp [hi']

end Values

theorem packPlain_spec (hbits : bits ≤ 32) (ha : ∀ i : Fin 256, 0 ≤ a[i] ∧ a[i] < 2 ^ bits) :
    (packPlain bits a).length = 32 * bits ∧ unpackPlain bits (packPlain bits a) = a := by
  refine ⟨length_packValues hbits, ?_⟩
  have hvals : ∀ i : Fin 256, (a.map uint32)[i] % 2 ^ bits = (a.map uint32)[i] := by
    intro i
    simpa using (uint32_of_lt hbits (ha i)).2
  rw [unpackPlain, packPlain, unpackValues_packValues hbits hvals]
  refine Vector.ext fun i hi => ?_
  have hi' := getD_toList (a.map uint32) ⟨i, hi⟩
  rw [Vector.getElem_ofFn, hi']
  simpa using (uint32_of_lt hbits (ha ⟨i, hi⟩)).1

theorem packOffset_ensures (hbits : bits < 32)
    (ha : ∀ i : Fin 256, 0 ≤ offset - a[i] ∧ offset - a[i] < 2 ^ bits)
    (hint : ∀ i : Fin 256, -2 ^ 31 ≤ a[i] ∧ a[i] < 2 ^ 31) :
    Ensures E (packOffset offset bits a) fun r =>
      r.length = 32 * bits ∧ unpackOffset offset bits r = .ok a := by
  have hpow : (2 ^ bits : Int) ≤ 2 ^ 31 := pow_le_pow_right₀ (by decide) (by omega)
  have hentry : ∀ i : Fin 256, Ensures E (do pure (uint32 (← int32 (offset - a[i]))))
      fun x => x = uint32 (offset - a[i]) := by
    intro i
    have := ha i
    rw [int32_eq (by omega), ok_bind]
    exact Ensures.pure rfl
  refine (Ensures.tabulate hentry).bind fun v hv => Ensures.pure ⟨length_packValues hbits.le, ?_⟩
  have hvals : ∀ i : Fin 256, v[i] % 2 ^ bits = v[i] := by
    intro i
    rw [hv i]
    exact (uint32_of_lt hbits.le (ha i)).2
  rw [unpackOffset, unpackValues_packValues hbits.le hvals, tabulate_eq_ok_iff]
  intro i
  rw [getD_toList, hv i, (uint32_of_lt hbits.le (ha i)).1, sub_sub_cancel, int32_eq (hint i)]

theorem unpackOffset_ensures (hbits : bits ≤ 20) (hoffset : 0 ≤ offset ∧ offset ≤ 2 ^ 20)
    (input : Bytes) : Ensures E (unpackOffset offset bits input) fun a =>
      (∀ i : Fin 256, 0 ≤ offset - a[i] ∧ offset - a[i] < 2 ^ bits) ∧
        (input.length = 32 * bits → packOffset offset bits a = .ok input) := by
  have hpow : (2 ^ bits : Int) ≤ 2 ^ 20 := pow_le_pow_right₀ (by decide) hbits
  have hlt : ∀ i : Nat, ((dilUnpackBits input 256 bits).getD i 0 : Int) < 2 ^ bits := by
    intro i
    exact_mod_cast unpackValues_lt (hbits.trans (by decide)) input i
  have hentry : ∀ i : Fin 256,
      Ensures E (int32 (offset - (dilUnpackBits input 256 bits).getD i 0)) fun x =>
        offset - x = (dilUnpackBits input 256 bits).getD i 0 := by
    intro i
    have := hlt i
    exact Ensures.of_eq_ok (int32_eq (by omega)) (by omega)
  refine (Ensures.tabulate hentry).mono fun a ha => ⟨fun i => ?_, fun hlength => ?_⟩
  · rw [ha i]
    exact ⟨Int.natCast_nonneg _, hlt i⟩
  · have hvals : (tabulate 256 fun i : Fin 256 => do
        pure (uint32 (← int32 (offset - a[i]))) : Exec (Vector Nat 256)) =
          .ok (Vector.ofFn fun i => (dilUnpackBits input 256 bits).getD i 0) := by
      rw [tabulate_eq_ok_iff]
      intro i
      have := hlt i
      have hval := (uint32_of_lt (hbits.trans (by decide)) ⟨Int.natCast_nonneg _, hlt i⟩).1
      rw [ha i, int32_eq (by omega), ok_bind, Nat.cast_inj.mp hval, vector_getElem_fin,
        Vector.getElem_ofFn]
      rfl
    rw [packOffset, hvals, ok_bind, toList_ofFn_unpackBits (hbits.trans (by decide)),
      dilPackBits_dilUnpackBits (hbits.trans (by decide)) (by omega)]
    rfl

theorem unpackOffset_bounded {B : Int} (hbits : bits ≤ 20) (hoffset : 0 ≤ offset ∧ offset ≤ 2 ^ 20)
    (hB : offset ≤ B ∧ 2 ^ bits ≤ B + offset + 1) (input : Bytes) :
    Ensures E (unpackOffset offset bits input) (Bounded B) := by
  refine (unpackOffset_ensures hbits hoffset input).mono fun a ha j => ?_
  have := ha.1 j
  rw [abs_le]
  omega

/-! ## Vectors of polynomials -/

section Vectors

variable {n : Nat}

def packVec (pack : Poly → Exec Bytes) (v : Vector Poly n) : Exec Bytes := do
  let blocks ← tabulate n fun i => pack v[i]
  pure blocks.toList.flatten

def unpackVec (unpack : Bytes → Exec Poly) (size : Nat) (input : Bytes) (offset : Nat) :
    Exec (Vector Poly n) :=
  tabulate n fun i => unpack (slice input (offset + i * size) size)

variable {E : Fault → Prop} {pack : Poly → Exec Bytes} {unpack : Bytes → Exec Poly} {size : Nat}

theorem packVec_ensures {v : Vector Poly n}
    (hpack : ∀ i : Fin n, Ensures E (pack v[i]) fun r => r.length = size ∧ unpack r = .ok v[i]) :
    Ensures E (packVec pack v) fun r => r.length = n * size ∧
      ∀ front rest, unpackVec unpack size (front ++ (r ++ rest)) front.length = .ok v := by
  refine (Ensures.tabulate hpack).bind fun blocks hblocks => Ensures.pure ?_
  have hsize : ∀ block ∈ blocks.toList, block.length = size := by
    intro block hblock
    obtain ⟨i, hi, rfl⟩ := List.mem_iff_getElem.mp hblock
    rw [Vector.getElem_toList]
    exact (hblocks ⟨i, by simpa using hi⟩).1
  have hlength : blocks.toList.flatten.length = n * size := by
    rw [length_flatten_of_size hsize, Vector.length_toList]
  refine ⟨hlength, fun front rest => ?_⟩
  rw [unpackVec, tabulate_eq_ok_iff]
  intro i
  have hin : i * size + size ≤ n * size := by
    rw [← Nat.succ_mul]
    exact Nat.mul_le_mul_right size i.isLt
  rw [slice_append_right, slice_append_left (by omega),
    slice_flatten (by simp) hsize, Vector.getElem_toList]
  exact (hblocks i).2

theorem unpackVec_ensures {P : Poly → Prop} {input : Bytes} {offset : Nat}
    (hlength : offset + n * size ≤ input.length)
    (hunpack : ∀ block : Bytes, block.length = size →
      Ensures E (unpack block) fun a => P a ∧ pack a = .ok block) :
    Ensures E (unpackVec unpack size input offset : Exec (Vector Poly n)) fun v =>
      (∀ i : Fin n, P v[i]) ∧ packVec pack v = .ok (slice input offset (n * size)) := by
  have hblock : ∀ i : Fin n, (slice input (offset + i * size) size).length = size := by
    intro i
    refine slice_length ?_
    have : i * size + size ≤ n * size := by
      rw [← Nat.succ_mul]
      exact Nat.mul_le_mul_right size i.isLt
    omega
  refine (Ensures.tabulate fun i => hunpack _ (hblock i)).mono fun v hv => ⟨fun i => (hv i).1, ?_⟩
  have hblocks : (tabulate n fun i => pack v[i]) =
      .ok (Vector.ofFn fun i : Fin n => slice input (offset + i * size) size) := by
    rw [tabulate_eq_ok_iff]
    intro i
    rw [(hv i).2, vector_getElem_fin, Vector.getElem_ofFn]
  rw [packVec, hblocks, ok_bind, ← flatten_slices, Vector.toList_ofFn, List.ofFn_eq_map,
    ← List.map_coe_finRange_eq_range, List.map_map]
  rfl

end Vectors

end HcsCoin.Dilithium
