import HcsCoin.Streams

/-!
# Golomb-Rice codes

The quotient in unary and the remainder in `P` bits.
-/

namespace HcsCoin

open Foundation

def writeOnes (w : BitStreamWriter) (q : Nat) : Except StreamException BitStreamWriter :=
  if _hq : q = 0 then .ok w
  else
    match w.write (2 ^ 64 - 1) (if q ≤ 64 then q else 64) with
    | .error e => .error e
    | .ok w => writeOnes w (q - if q ≤ 64 then q else 64)
termination_by q
decreasing_by split_ifs <;> omega

def golombRiceEncode (w : BitStreamWriter) (P x : Nat) : Except StreamException BitStreamWriter := do
  if P ≥ 64 then throw .undefinedShift
  let w ← writeOnes w (x >>> P)
  let w ← w.write 0 1
  w.write x P

def readOnes (r : BitStreamReader) (q : Nat) : Except StreamException (Nat × BitStreamReader) :=
  match h : r.read 1 with
  | .error e => .error e
  | .ok (bit, r) => if bit = 1 then readOnes r ((q + 1) % 2 ^ 64) else .ok (q, r)
termination_by r.bits.length
decreasing_by exact BitStreamReader.bits_read_lt h

def golombRiceDecode (r : BitStreamReader) (P : Nat) :
    Except StreamException (Nat × BitStreamReader) := do
  let (q, r) ← readOnes r 0
  let (rem, r) ← r.read P
  if P ≥ 64 then throw .undefinedShift
  return (((q <<< P) % 2 ^ 64 + rem) % 2 ^ 64, r)

/-! ## Codes -/

def golombRiceBits (P x : Nat) : List Bool :=
  List.replicate (x >>> P) true ++ false :: lowBits P x

variable {n P q : Nat} {w : BitStreamWriter} {r : BitStreamReader} {rest : List Bool}

theorem lowBits_ones (hn : n ≤ 64) : lowBits n (2 ^ 64 - 1) = List.replicate n true := by
  induction n with
  | zero => rfl
  | succ n ih =>
    rw [lowBits, ih (by omega), List.replicate_succ, Nat.testBit_two_pow_sub_one]
    simp [show n < 64 by omega]

theorem writeOnes_spec (hw : w.Clean) (q : Nat) :
    ∃ w', writeOnes w q = .ok w' ∧ w'.Clean ∧ w'.bits = w.bits ++ List.replicate q true := by
  induction q using Nat.strongRecOn generalizing w with
  | ind q ih =>
    rw [writeOnes]
    by_cases hq : q = 0
    · exact ⟨w, by simp [hq], hw, by simp [hq]⟩
    · have hnbits : (if q ≤ 64 then q else 64) ≤ 64 := by split_ifs <;> omega
      have hpos : q - (if q ≤ 64 then q else 64) < q := by split_ifs <;> omega
      have hle : (if q ≤ 64 then q else 64) ≤ q := by split_ifs <;> omega
      obtain ⟨next, hnext, hclean, hbits⟩ := BitStreamWriter.write_spec hw (2 ^ 64 - 1) hnbits
      obtain ⟨last, hlast, hcleanLast, hbitsLast⟩ := ih _ hpos hclean
      refine ⟨last, by simp only [dif_neg hq, hnext, hlast], hcleanLast, ?_⟩
      rw [hbitsLast, hbits, lowBits_ones hnbits, List.append_assoc, List.replicate_append_replicate,
        Nat.add_sub_cancel' hle]

theorem golombRiceEncode_spec (hw : w.Clean) (hP : P < 64) (x : Nat) :
    ∃ w', golombRiceEncode w P x = .ok w' ∧ w'.Clean ∧ w'.bits = w.bits ++ golombRiceBits P x := by
  obtain ⟨w₁, h₁, hclean₁, hbits₁⟩ := writeOnes_spec hw (x >>> P)
  obtain ⟨w₂, h₂, hclean₂, hbits₂⟩ := BitStreamWriter.write_spec hclean₁ 0 (show 1 ≤ 64 by decide)
  obtain ⟨w₃, h₃, hclean₃, hbits₃⟩ := BitStreamWriter.write_spec hclean₂ x hP.le
  refine ⟨w₃, ?_, hclean₃, ?_⟩
  · rw [golombRiceEncode, if_neg (not_le.2 hP)]
    simp only [bind, Except.bind, h₁, h₂, h₃]
  · rw [hbits₃, hbits₂, hbits₁, golombRiceBits]
    simp [lowBits]

theorem readOnes_eq {r' : BitStreamReader} {bit : Nat} (h : r.read 1 = .ok (bit, r')) :
    readOnes r q = if bit = 1 then readOnes r' ((q + 1) % 2 ^ 64) else .ok (q, r') := by
  rw [readOnes]
  split
  next e he => simp [h] at he
  next bit' r'' hok =>
    rw [h, Except.ok.injEq, Prod.mk.injEq] at hok
    rw [hok.1, hok.2]

theorem readOnes_spec (hbits : r.bits = List.replicate n true ++ false :: rest)
    (hq : q + n < 2 ^ 64) : ∃ r', readOnes r q = .ok (q + n, r') ∧ r'.bits = rest := by
  induction n generalizing r q with
  | zero =>
    obtain ⟨r', hread, hrest⟩ := BitStreamReader.read_one hbits
    refine ⟨r', ?_, hrest⟩
    rw [readOnes_eq hread]
    rfl
  | succ n ih =>
    obtain ⟨next, hread, hrest⟩ := BitStreamReader.read_one hbits
    obtain ⟨r', hr', hbits'⟩ := ih (q := q + 1) hrest (by omega)
    refine ⟨r', ?_, hbits'⟩
    rw [readOnes_eq hread, Bool.toNat_true, if_pos rfl, Nat.mod_eq_of_lt (by omega), hr',
      Nat.add_right_comm, Nat.add_assoc]

theorem golombRiceDecode_spec {x : Nat} (hP : P < 64) (hx : x < 2 ^ 64)
    (hbits : r.bits = golombRiceBits P x ++ rest) :
    ∃ r', golombRiceDecode r P = .ok (x, r') ∧ r'.bits = rest := by
  have hquotient : x >>> P < 2 ^ 64 := Nat.lt_of_le_of_lt (Nat.shiftRight_le x P) hx
  rw [golombRiceBits, List.append_assoc, List.cons_append] at hbits
  obtain ⟨r₁, h₁, hbits₁⟩ := readOnes_spec (q := 0) hbits (by omega)
  obtain ⟨r₂, h₂, hbits₂⟩ := BitStreamReader.read_spec hbits₁ (length_lowBits P x) hP.le
  have hvalue : ((x >>> P) <<< P) % 2 ^ 64 + x % 2 ^ P = x := by
    rw [Nat.shiftLeft_eq, Nat.shiftRight_eq_div_pow]
    have hsplit := Nat.div_add_mod' x (2 ^ P)
    rw [Nat.mod_eq_of_lt (by omega), hsplit]
  refine ⟨r₂, ?_, hbits₂⟩
  simp only [golombRiceDecode, bind, Except.bind, h₁, h₂, if_neg (not_le.2 hP), bitsValue_lowBits,
    Nat.zero_add, hvalue, Nat.mod_eq_of_lt hx]
  rfl

end HcsCoin
