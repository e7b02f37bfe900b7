import Mathlib.Data.List.Basic

/-!
# Absorbing a message block by block

A compression function folds the whole blocks of a message into a state and
leaves the bytes of an incomplete block pending.  The pending bytes may be put
back in front of whatever comes next, which is why a buffered hasher computes
the same state however its input is cut into pieces.
-/

namespace HcsCoin.Foundation

variable {S α : Type} (compress : S → List α → S) (size : Nat)

def absorb (s : S) (data : List α) : S × List α :=
  if 0 < size ∧ size ≤ data.length then
    absorb (compress s (data.take size)) (data.drop size)
  else (s, data)
termination_by data.length
decreasing_by
  rw [List.length_drop]
  omega

variable {compress size}

theorem absorb_of_lt {s : S} {data : List α} (h : data.length < size) :
    absorb compress size s data = (s, data) := by
  rw [absorb, if_neg (by omega)]

theorem absorb_block {s : S} {block : List α} (rest : List α) (hpos : 0 < size)
    (h : block.length = size) :
    absorb compress size s (block ++ rest) = absorb compress size (compress s block) rest := by
  rw [absorb, if_pos ⟨hpos, by rw [List.length_append]; omega⟩, ← h, List.take_left, List.drop_left]

theorem absorb_append (hpos : 0 < size) (s : S) (xs ys : List α) :
    absorb compress size s (xs ++ ys) =
      absorb compress size (absorb compress size s xs).1
        ((absorb compress size s xs).2 ++ ys) := by
  induction s, xs using absorb.induct compress size with
  | case1 s xs h ih =>
    have hlength : (xs.take size).length = size := by
      rw [List.length_take]
      omega
    rw [absorb.eq_1 compress size s xs, if_pos h, ← ih, ← absorb_block _ hpos hlength,
      ← List.append_assoc, List.take_append_drop]
  | case2 s xs h => rw [absorb.eq_1 compress size s xs, if_neg h]

variable (compress) in
theorem absorb_pending_length (hpos : 0 < size) (s : S) (data : List α) :
    (absorb compress size s data).2.length = data.length % size := by
  induction s, data using absorb.induct compress size with
  | case1 s data h ih =>
    rw [absorb, if_pos h, ih, List.length_drop]
    exact (Nat.mod_eq_sub_mod h.2).symm
  | case2 s data h => rw [absorb, if_neg h, Nat.mod_eq_of_lt (by omega)]

theorem absorb_congr {compress' : S → List α → S}
    (h : ∀ s block, block.length = size → compress s block = compress' s block)
    (s : S) (data : List α) : absorb compress size s data = absorb compress' size s data := by
  induction s, data using absorb.induct compress size with
  | case1 s data hblock ih =>
    have hlength : (data.take size).length = size := by
      rw [List.length_take]
      omega
    rw [absorb, if_pos hblock, ih, absorb.eq_1 compress' size s, if_pos hblock, h s _ hlength]
  | case2 s data hblock => rw [absorb, if_neg hblock, absorb, if_neg hblock]

theorem eq_absorb_of_count {T : Type} (out : S × List α → T) (loop : Nat → S → List α → T)
    (hpos : 0 < size) (hzero : ∀ s data, loop 0 s data = out (s, data))
    (hsucc : ∀ n s data, loop (n + 1) s data =
      loop n (compress s (data.take size)) (data.drop size)) (s : S) (data : List α) :
    loop (data.length / size) s data = out (absorb compress size s data) := by
  induction s, data using absorb.induct compress size with
  | case1 s data h ih =>
    rw [absorb, if_pos h, ← ih, List.length_drop, Nat.div_eq_sub_div hpos h.2, hsucc]
  | case2 s data h => rw [absorb, if_neg h, Nat.div_eq_of_lt (by omega), hzero]

end HcsCoin.Foundation
