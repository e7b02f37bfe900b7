import HcsCoin.Foundation.BitStream
import HcsCoin.Serialize

/-!
# Streams of bits

The bit writer and the bit reader of `streams.h`.  Both cut their bits at the boundaries of
bytes, and the reader takes back what the writer has put into them at every offset.
-/

namespace HcsCoin

open Foundation

inductive StreamException
  | outOfRange
  | undefinedShift
  | failure (e : ReadError)
  deriving DecidableEq

/-! ## Writing -/

structure BitStreamWriter where
  ostream : Bytes
  buffer : Nat
  offset : Nat
  offset_lt : offset < 8

namespace BitStreamWriter

def onto (ostream : Bytes) : BitStreamWriter := ⟨ostream, 0, 0, by decide⟩

def flush (w : BitStreamWriter) : BitStreamWriter :=
  if w.offset = 0 then w else onto (w.ostream ++ [UInt8.ofNat w.buffer])

def fill (w : BitStreamWriter) (data nbits : Nat) : Nat :=
  (w.buffer ||| (((data <<< (64 - nbits)) % 2 ^ 64) >>> (64 - 8 + w.offset))) % 256

def writeStep (w : BitStreamWriter) (data nbits : Nat) : BitStreamWriter :=
  if hfull : w.offset + min (8 - w.offset) nbits = 8 then
    onto (w.ostream ++ [UInt8.ofNat (w.fill data nbits)])
  else ⟨w.ostream, w.fill data nbits, w.offset + min (8 - w.offset) nbits, by
    have := w.offset_lt
    omega⟩

def writeLoop (w : BitStreamWriter) (data nbits : Nat) : BitStreamWriter :=
  if hnbits : nbits = 0 then w
  else
    have : nbits - min (8 - w.offset) nbits < nbits := by
      have := w.offset_lt
      omega
    writeLoop (w.writeStep data nbits) data (nbits - min (8 - w.offset) nbits)
termination_by nbits

def write (w : BitStreamWriter) (data nbits : Nat) : Except StreamException BitStreamWriter :=
  if nbits > 64 then .error .outOfRange else .ok (w.writeLoop data nbits)

end BitStreamWriter

/-! ## Reading -/

structure BitStreamReader where
  istream : Bytes
  buffer : Nat
  offset : Nat
  offset_le : offset ≤ 8

namespace BitStreamReader

def of (istream : Bytes) : BitStreamReader := ⟨istream, 0, 8, by decide⟩

def refill (r : BitStreamReader) : Except ReadError { r : BitStreamReader // r.offset < 8 } :=
  if h : r.offset = 8 then
    match readUInt8.run r.istream with
    | .error e => .error e
    | .ok (buffer, istream) => .ok ⟨⟨istream, buffer.toNat, 0, by decide⟩, Nat.zero_lt_succ 7⟩
  else .ok ⟨r, Nat.lt_of_le_of_ne r.offset_le h⟩

def shiftIn (r : BitStreamReader) (data bits : Nat) : Nat :=
  (data <<< bits) % 2 ^ 64 ||| ((r.buffer <<< r.offset) % 256) >>> (8 - bits)

def skip (r : BitStreamReader) (bits : Nat) (h : r.offset + bits ≤ 8) : BitStreamReader :=
  { r with offset := r.offset + bits, offset_le := h }

def readLoop (r : BitStreamReader) (data nbits : Nat) : Except ReadError (Nat × BitStreamReader) :=
  if hnbits : nbits = 0 then .ok (data, r)
  else
    match r.refill with
    | .error e => .error e
    | .ok ⟨r, hr⟩ =>
      readLoop (r.skip (min (8 - r.offset) nbits) (by omega))
        (r.shiftIn data (min (8 - r.offset) nbits)) (nbits - min (8 - r.offset) nbits)
termination_by nbits

def read (r : BitStreamReader) (nbits : Nat) : Except StreamException (Nat × BitStreamReader) :=
  if nbits > 64 then .error .outOfRange
  else
    match r.readLoop 0 nbits with
    | .error e => .error (.failure e)
    | .ok result => .ok result

end BitStreamReader

/-! ## Bits of a writer -/

namespace BitStreamWriter

def bits (w : BitStreamWriter) : List Bool :=
  bytesBits w.ostream ++ lowBits w.offset (w.buffer >>> (8 - w.offset))

/-- Nothing stands below the bits already written. -/
def Clean (w : BitStreamWriter) : Prop :=
  w.buffer < 256 ∧ ∀ i < 8 - w.offset, w.buffer.testBit i = false

theorem clean_onto (ostream : Bytes) : (onto ostream).Clean := by simp [Clean, onto]

theorem bits_onto (ostream : Bytes) : (onto ostream).bits = bytesBits ostream := by
  simp [bits, onto, lowBits]

variable {data nbits : Nat}

theorem testBit_fill (w : BitStreamWriter) {i : Nat} (hi : i < 8) (hnbits : nbits ≤ 64) :
    (w.fill data nbits).testBit i = (w.buffer.testBit i ||
      (decide (i + w.offset < 8) && decide (8 ≤ i + w.offset + nbits) &&
        data.testBit (i + w.offset + nbits - 8))) := by
  have hmod := Nat.testBit_mod_two_pow
    (w.buffer ||| (((data <<< (64 - nbits)) % 2 ^ 64) >>> (64 - 8 + w.offset))) 8 i
  rw [fill, show (256 : Nat) = 2 ^ 8 from rfl, hmod, Nat.testBit_or, Nat.testBit_shiftRight,
    Nat.testBit_mod_two_pow, Nat.testBit_shiftLeft]
  have hbelow : 64 - 8 + w.offset + i < 64 ↔ i + w.offset < 8 := by omega
  have habove : 64 - 8 + w.offset + i ≥ 64 - nbits ↔ 8 ≤ i + w.offset + nbits := by omega
  have hindex : 64 - 8 + w.offset + i - (64 - nbits) = i + w.offset + nbits - 8 := by omega
  simp only [hi, decide_true, Bool.true_and, hbelow, habove, hindex, Bool.and_assoc]

variable {w : BitStreamWriter}

theorem bits_writeStep (hw : w.Clean) (hnbits : nbits ≤ 64) :
    (w.writeStep data nbits).Clean ∧
      (w.writeStep data nbits).bits = w.bits ++
        lowBits (min (8 - w.offset) nbits) (data >>> (nbits - min (8 - w.offset) nbits)) := by
  have hoffset := w.offset_lt
  generalize hcount : min (8 - w.offset) nbits = count
  have hnext : lowBits (w.offset + count) (w.fill data nbits >>> (8 - w.offset - count)) =
      lowBits w.offset (w.buffer >>> (8 - w.offset)) ++ lowBits count (data >>> (nbits - count)) := by
    rw [lowBits_add]
    congr 1
    · refine lowBits_congr fun i hi => ?_
      simp only [Nat.testBit_shiftRight]
      have habove : ¬ (8 - w.offset - count + (count + i) + w.offset < 8) := by omega
      rw [testBit_fill w (by omega) hnbits]
      simp only [habove, decide_false, Bool.false_and, Bool.or_false]
      congr 1
      omega
    · refine lowBits_congr fun i hi => ?_
      simp only [Nat.testBit_shiftRight]
      have hbelow : 8 - w.offset - count + i + w.offset < 8 := by omega
      have hfrom : 8 ≤ 8 - w.offset - count + i + w.offset + nbits := by omega
      rw [testBit_fill w (by omega) hnbits, hw.2 _ (by omega)]
      simp only [hbelow, hfrom, decide_true, Bool.true_and, Bool.false_or]
      congr 1
      omega
  have hlt : w.fill data nbits < 256 := Nat.mod_lt _ (by decide)
  simp only [writeStep, hcount]
  split_ifs with hfull
  · refine ⟨clean_onto _, ?_⟩
    have hbyte : lowBits 8 (UInt8.ofNat (w.fill data nbits)).toNat =
        lowBits (w.offset + count) (w.fill data nbits >>> (8 - w.offset - count)) := by
      rw [UInt8.toNat_ofNat', Nat.mod_eq_of_lt hlt, hfull, show 8 - w.offset - count = 0 by omega,
        Nat.shiftRight_zero]
    rw [bits_onto, bytesBits_append, bytesBits_cons, hbyte, hnext, bits]
    simp [bytesBits]
  · refine ⟨⟨hlt, fun i hi => ?_⟩, ?_⟩
    · have hi : i < 8 - (w.offset + count) := hi
      have hfrom : ¬ (8 ≤ i + w.offset + nbits) := by omega
      rw [testBit_fill w (by omega) hnbits, hw.2 i (by omega)]
      simp [hfrom]
    · rw [bits, bits, List.append_assoc, ← hnext, Nat.sub_sub]

theorem bits_writeLoop (hw : w.Clean) (hnbits : nbits ≤ 64) :
    (w.writeLoop data nbits).Clean ∧ (w.writeLoop data nbits).bits = w.bits ++ lowBits nbits data := by
  induction nbits using Nat.strongRecOn generalizing w with
  | ind nbits ih =>
    rw [writeLoop]
    split_ifs with hzero
    · simp [hw, hzero, lowBits]
    · have hoffset := w.offset_lt
      obtain ⟨hclean, hbits⟩ := @bits_writeStep data nbits w hw hnbits
      obtain ⟨hlast, hrest⟩ := ih (nbits - min (8 - w.offset) nbits) (by omega) hclean (by omega)
      refine ⟨hlast, ?_⟩
      rw [hrest, hbits, List.append_assoc, ← lowBits_add]
      congr 2
      omega

theorem write_spec (hw : w.Clean) (data : Nat) (hnbits : nbits ≤ 64) :
    ∃ w', w.write data nbits = .ok w' ∧ w'.Clean ∧ w'.bits = w.bits ++ lowBits nbits data :=
  ⟨_, if_neg (not_lt.2 hnbits), bits_writeLoop hw hnbits⟩

theorem bits_flush (hw : w.Clean) :
    ∃ padding < 8, bytesBits w.flush.ostream = w.bits ++ List.replicate padding false := by
  rw [flush]
  split_ifs with hzero
  · exact ⟨0, by decide, by simp [bits, hzero, lowBits]⟩
  · refine ⟨8 - w.offset, by omega, ?_⟩
    have hzeros : lowBits (8 - w.offset) w.buffer = List.replicate (8 - w.offset) false := by
      refine (lowBits_congr (y := 0) fun i hi => by simp [hw.2 i hi]).trans ?_
      generalize 8 - w.offset = n
      induction n with
      | zero => rfl
      | succ n ih => rw [lowBits, ih, List.replicate_succ, Nat.zero_testBit]
    have hsplit := lowBits_add w.offset (8 - w.offset) w.buffer
    rw [hzeros, Nat.add_sub_cancel' w.offset_lt.le] at hsplit
    simp only [onto, bytesBits_append, bytesBits_cons, UInt8.toNat_ofNat', Nat.mod_eq_of_lt hw.1]
    rw [hsplit, bits]
    simp [bytesBits]

end BitStreamWriter

/-! ## Bits of a reader -/

namespace BitStreamReader

def bits (r : BitStreamReader) : List Bool :=
  lowBits (8 - r.offset) r.buffer ++ bytesBits r.istream

theorem bits_of (istream : Bytes) : (of istream).bits = bytesBits istream := rfl

variable {r : BitStreamReader}

theorem refill_spec (hr : r.bits ≠ []) : ∃ r', r.refill = .ok r' ∧ r'.val.bits = r.bits := by
  rw [refill]
  split_ifs with hoffset
  · have hempty : lowBits (8 - r.offset) r.buffer = [] := by simp [hoffset, lowBits]
    cases histream : r.istream with
    | nil => simp [bits, hempty, histream, bytesBits] at hr
    | cons b istream =>
      have hread : readUInt8.run (b :: istream) = .ok (b, istream) := decodes_readUInt8 b istream
      refine ⟨_, by rw [hread], ?_⟩
      simp [bits, hempty, histream, bytesBits_cons]
  · exact ⟨_, rfl, rfl⟩

variable {bs rest : List Bool} {data nbits : Nat}

theorem bits_skip {count : Nat} (hcount : r.offset + count ≤ 8) (hbits : r.bits = bs ++ rest)
    (hle : count ≤ bs.length) (hdata : data < 2 ^ (64 - count)) :
    (r.skip count hcount).bits = bs.drop count ++ rest ∧
      r.shiftIn data count = data * 2 ^ count + bitsValue (bs.take count) := by
  have hsplit : r.bits = lowBits count (r.buffer >>> (8 - r.offset - count)) ++
      (r.skip count hcount).bits := by
    have hrest : 8 - (r.offset + count) = 8 - r.offset - count := by omega
    simp only [bits, skip, hrest]
    rw [← List.append_assoc, ← lowBits_add, show count + (8 - r.offset - count) = 8 - r.offset by omega]
  rw [hbits, ← List.take_append_drop count bs, List.append_assoc] at hsplit
  obtain ⟨hchunk, hskip⟩ := List.append_inj hsplit (by simp [hle])
  refine ⟨hskip.symm, ?_⟩
  have hvalue : ((r.buffer <<< r.offset) % 2 ^ 8) >>> (8 - count) = bitsValue (bs.take count) := by
    rw [hchunk, bitsValue_lowBits]
    refine Nat.eq_of_testBit_eq fun i => ?_
    have hbelow : 8 - count + i < 8 ↔ i < count := by omega
    have hfrom : 8 - count + i ≥ r.offset := by omega
    have hindex : 8 - count + i - r.offset = 8 - r.offset - count + i := by omega
    simp only [Nat.testBit_shiftRight, Nat.testBit_mod_two_pow, Nat.testBit_shiftLeft, hbelow, hfrom,
      hindex, decide_true, Bool.true_and]
  have hlt : bitsValue (bs.take count) < 2 ^ count := by
    have h := (lowBits_bitsValue (bs.take count)).1
    rwa [List.length_take, Nat.min_eq_left hle] at h
  have hfits : data * 2 ^ count < 2 ^ 64 := by
    calc data * 2 ^ count < 2 ^ (64 - count) * 2 ^ count :=
          Nat.mul_lt_mul_of_pos_right hdata (Nat.two_pow_pos count)
      _ = 2 ^ 64 := by rw [← pow_add, Nat.sub_add_cancel (by omega)]
  rw [shiftIn, show (256 : Nat) = 2 ^ 8 from rfl, hvalue, Nat.shiftLeft_eq, Nat.mod_eq_of_lt hfits,
    ← Nat.shiftLeft_eq, Nat.shiftLeft_add_eq_or_of_lt hlt]

theorem readLoop_spec (hbits : r.bits = bs ++ rest) (hlength : bs.length = nbits)
    (hdata : data < 2 ^ (64 - nbits)) (hnbits : nbits ≤ 64) :
    ∃ r', r.readLoop data nbits = .ok (data * 2 ^ nbits + bitsValue bs, r') ∧ r'.bits = rest := by
  induction nbits using Nat.strongRecOn generalizing r data bs with
  | ind nbits ih =>
    rw [readLoop]
    split_ifs with hzero
    · obtain rfl := List.length_eq_zero_iff.1 (hlength.trans hzero)
      exact ⟨r, by simp [hzero, bitsValue], by simpa using hbits⟩
    · obtain ⟨⟨r', hoffset⟩, hrefill, hsame⟩ := refill_spec (r := r) (by
        rintro hnil
        rw [hnil, eq_comm, List.append_eq_nil_iff] at hbits
        rw [hbits.1] at hlength
        exact hzero hlength.symm)
      have hcount : r'.offset + min (8 - r'.offset) nbits ≤ 8 := by omega
      obtain ⟨hskip, hshift⟩ := @bits_skip r' _ _ data _ hcount (hsame.trans hbits) (by omega)
        (Nat.lt_of_lt_of_le hdata (Nat.pow_le_pow_right (by decide) (by omega)))
      rw [hrefill]
      simp only [hshift]
      have hfits : data * 2 ^ min (8 - r'.offset) nbits + bitsValue (bs.take (min (8 - r'.offset) nbits))
          < 2 ^ (64 - (nbits - min (8 - r'.offset) nbits)) := by
        have hlt := append_bits_lt hdata (bs.take (min (8 - r'.offset) nbits))
        rw [List.length_take, Nat.min_eq_left (by omega)] at hlt
        refine Nat.lt_of_lt_of_le hlt (Nat.pow_le_pow_right (by decide) (by omega))
      obtain ⟨last, hlast, hrest⟩ := ih (nbits - min (8 - r'.offset) nbits) (by omega) hskip
        (by simp [hlength]) hfits (by omega)
      refine ⟨last, ?_, hrest⟩
      rw [hlast, ← hlength, append_bits data (by omega)]

theorem read_spec (hbits : r.bits = bs ++ rest) (hlength : bs.length = nbits)
    (hnbits : nbits ≤ 64) : ∃ r', r.read nbits = .ok (bitsValue bs, r') ∧ r'.bits = rest := by
  obtain ⟨r', hloop, hrest⟩ := readLoop_spec hbits hlength (Nat.two_pow_pos _) hnbits
  rw [Nat.zero_mul, Nat.zero_add] at hloop
  exact ⟨r', by rw [read, if_neg (not_lt.2 hnbits), hloop], hrest⟩

theorem read_one {b : Bool} (hbits : r.bits = b :: rest) :
    ∃ r', r.read 1 = .ok (b.toNat, r') ∧ r'.bits = rest := by
  obtain ⟨r', hread, hrest⟩ := @read_spec r [b] rest 1 hbits rfl (by decide)
  refine ⟨r', hread.trans ?_, hrest⟩
  cases b <;> rfl

theorem read_one_nil (hbits : r.bits = []) : r.read 1 = .error (.failure .endOfData) := by
  obtain ⟨hbuffer, hstream⟩ := List.append_eq_nil_iff.1 hbits
  have hoffset : r.offset = 8 := by
    have hlength := congrArg List.length hbuffer
    rw [length_lowBits, List.length_nil] at hlength
    have := r.offset_le
    omega
  have hempty : r.istream = [] := by
    have hlength := congrArg List.length hstream
    rw [length_bytesBits, List.length_nil] at hlength
    exact List.length_eq_zero_iff.1 (by omega)
  have hrefill : r.refill = .error .endOfData := by
    rw [refill, dif_pos hoffset, hempty]
    rfl
  rw [read, readLoop, hrefill]
  rfl

theorem bits_read_lt {r' : BitStreamReader} (h : r.read 1 = .ok (data, r')) :
    r'.bits.length < r.bits.length := by
  cases hbits : r.bits with
  | cons b rest =>
    obtain ⟨last, hread, hrest⟩ := read_one hbits
    rw [hread, Except.ok.injEq, Prod.mk.injEq] at h
    rw [← h.2, hrest]
    simp
  | nil =>
    rw [read_one_nil hbits] at h
    simp at h

end BitStreamReader

end HcsCoin
