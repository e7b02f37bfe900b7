import HcsCoin.Foundation.ClassCode
import HcsCoin.Foundation.Codec

/-!
# Streams of bits

The bits of byte strings, most significant bit first, and how numbers are cut from them.
-/

namespace HcsCoin.Foundation

theorem lowBits_add (m n x : Nat) : lowBits (m + n) x = lowBits m (x >>> n) ++ lowBits n x := by
  induction m with
  | zero => simp [lowBits]
  | succ m ih =>
    rw [Nat.add_right_comm, lowBits, ih, lowBits, Nat.testBit_shiftRight, Nat.add_comm n m]
    rfl

theorem bitsValue_concat (bs : List Bool) (b : Bool) :
    bitsValue (bs ++ [b]) = 2 * bitsValue bs + b.toNat := by
  simp [bitsValue, List.foldl_append]

theorem bitsValue_append (bs cs : List Bool) :
    bitsValue (bs ++ cs) = 2 ^ cs.length * bitsValue bs + bitsValue cs := by
  induction cs using List.reverseRecOn with
  | nil => simp [bitsValue]
  | append_singleton cs c ih =>
    rw [← List.append_assoc, bitsValue_concat, ih, bitsValue_concat, List.length_append,
      List.length_singleton, pow_succ]
    ring

theorem append_bits (data : Nat) {bs : List Bool} {count : Nat} (hle : count ≤ bs.length) :
    (data * 2 ^ count + bitsValue (bs.take count)) * 2 ^ (bs.length - count) +
      bitsValue (bs.drop count) = data * 2 ^ bs.length + bitsValue bs := by
  have hsplit := bitsValue_append (bs.take count) (bs.drop count)
  rw [List.take_append_drop, List.length_drop] at hsplit
  rw [hsplit, Nat.add_mul, Nat.mul_assoc, ← pow_add, Nat.add_sub_cancel' hle]
  ring

theorem append_bits_lt {data m : Nat} (hdata : data < 2 ^ m) (bs : List Bool) :
    data * 2 ^ bs.length + bitsValue bs < 2 ^ (m + bs.length) := by
  have hlt := (lowBits_bitsValue bs).1
  calc data * 2 ^ bs.length + bitsValue bs < data * 2 ^ bs.length + 2 ^ bs.length := by omega
    _ = (data + 1) * 2 ^ bs.length := by ring
    _ ≤ 2 ^ m * 2 ^ bs.length := Nat.mul_le_mul_right _ hdata
    _ = 2 ^ (m + bs.length) := by rw [pow_add]

theorem bitsValue_lowBits (n x : Nat) : bitsValue (lowBits n x) = x % 2 ^ n := by
  obtain ⟨hlt, hbits⟩ := lowBits_bitsValue (lowBits n x)
  rw [length_lowBits] at hlt hbits
  refine lowBits_injective hlt (Nat.mod_lt x (Nat.two_pow_pos n)) (hbits.trans ?_)
  exact lowBits_congr fun i hi => by simp [Nat.testBit_mod_two_pow, hi]

def bytesBits (bs : Bytes) : List Bool := bs.flatMap fun b => lowBits 8 b.toNat

theorem bytesBits_append (bs cs : Bytes) : bytesBits (bs ++ cs) = bytesBits bs ++ bytesBits cs := by
  simp [bytesBits]

theorem bytesBits_cons (b : UInt8) (bs : Bytes) :
    bytesBits (b :: bs) = lowBits 8 b.toNat ++ bytesBits bs := rfl

theorem length_bytesBits (bs : Bytes) : (bytesBits bs).length = 8 * bs.length := by
  induction bs with
  | nil => rfl
  | cons b bs ih =>
    simp only [bytesBits_cons, List.length_append, length_lowBits, ih, List.length_cons]
    ring

theorem exists_append_of_bytesBits {bs cs : Bytes} {rest : List Bool}
    (h : bytesBits bs = bytesBits cs ++ rest) : ∃ ds, bs = cs ++ ds ∧ bytesBits ds = rest := by
  induction cs generalizing bs with
  | nil => exact ⟨bs, rfl, h⟩
  | cons c cs ih =>
    cases bs with
    | nil =>
      have hlength := congrArg List.length h
      simp only [List.length_append, length_bytesBits, List.length_nil, List.length_cons] at hlength
      omega
    | cons b bs =>
      rw [bytesBits_cons, bytesBits_cons, List.append_assoc] at h
      obtain ⟨hbyte, hrest⟩ := List.append_inj h (by simp)
      obtain ⟨ds, rfl, hds⟩ := ih hrest
      have hbc := lowBits_injective b.toNat_lt c.toNat_lt hbyte
      exact ⟨ds, by rw [UInt8.toNat_inj.1 hbc, List.cons_append], hds⟩

end HcsCoin.Foundation
