import Mathlib.Data.List.Nodup

/-!
# Merkle trees built level by level

A level is hashed in pairs of neighbours, and the last element of a level of odd
size is paired with itself.  Repeating the end of a level therefore gives the
same next level.  Without two equal neighbours in a pair, and with a node hash
that has no collision on the pairs that occur, each level determines the one
below it.
-/

namespace HcsCoin.Foundation

variable {κ : Type*}

def siblingPairs : List κ → List (κ × κ)
  | [] => []
  | [x] => [(x, x)]
  | x :: y :: rest => (x, y) :: siblingPairs rest

def hashLevel (node : κ → κ → κ) (xs : List κ) : List κ :=
  (siblingPairs xs).map fun p => node p.1 p.2

def EqualSiblings : List κ → Prop
  | x :: y :: rest => x = y ∨ EqualSiblings rest
  | _ => False

/-- A list is hashed to the root `r` in `depth` levels without equal siblings, and all
pairs that are hashed satisfy `P`. -/
inductive HashesTo (node : κ → κ → κ) (P : κ × κ → Prop) : Nat → List κ → κ → Prop
  | root (r : κ) : HashesTo node P 0 [r] r
  | level {depth : Nat} {xs : List κ} {r : κ} (long : 1 < xs.length)
      (distinct : ¬ EqualSiblings xs) (pairs : ∀ p ∈ siblingPairs xs, P p)
      (rest : HashesTo node P depth (hashLevel node xs) r) : HashesTo node P (depth + 1) xs r

def NodeInjective (node : κ → κ → κ) (P Q : κ × κ → Prop) : Prop :=
  ∀ p q, P p → Q q → node p.1 p.2 = node q.1 q.2 → p = q

variable {node : κ → κ → κ} {P Q : κ × κ → Prop} {xs ys : List κ} {depth : Nat} {r : κ}

theorem HashesTo.mono (h : HashesTo node P depth xs r) (hPQ : ∀ p, P p → Q p) :
    HashesTo node Q depth xs r := by
  induction h with
  | root r => exact .root r
  | level hlong hdistinct hpairs _ ih =>
    exact .level hlong hdistinct (fun p hp => hPQ p (hpairs p hp)) ih

theorem siblingPairs_injective (hx : ¬ EqualSiblings xs)
    (hy : ¬ EqualSiblings ys) (h : siblingPairs xs = siblingPairs ys) : xs = ys := by
  induction xs using siblingPairs.induct generalizing ys with
  | case1 =>
    match ys, h with
    | [], _ => rfl
    | [y], h => simp [siblingPairs] at h
    | y :: z :: rest, h => simp [siblingPairs] at h
  | case2 x =>
    match ys, h with
    | [], h => simp [siblingPairs] at h
    | [y], h => simpa [siblingPairs] using h
    | y :: z :: rest, h =>
      -- a single element looks like a pair of equal ones
      simp only [siblingPairs, List.cons.injEq, Prod.mk.injEq] at h
      exact absurd (.inl (h.1.1.symm.trans h.1.2)) hy
  | case3 x x' xs ih =>
    match ys, h with
    | [], h => simp [siblingPairs] at h
    | [y], h =>
      simp only [siblingPairs, List.cons.injEq, Prod.mk.injEq] at h
      exact absurd (.inl (h.1.1.trans h.1.2.symm)) hx
    | y :: y' :: ys, h =>
      simp only [siblingPairs, List.cons.injEq, Prod.mk.injEq] at h
      obtain ⟨⟨rfl, rfl⟩, hrest⟩ := h
      rw [ih (mt .inr hx) (mt .inr hy) hrest]

theorem hashLevel_injective (hnode : NodeInjective node P Q)
    (hx : ¬ EqualSiblings xs) (hy : ¬ EqualSiblings ys) (hP : ∀ p ∈ siblingPairs xs, P p)
    (hQ : ∀ q ∈ siblingPairs ys, Q q) (h : hashLevel node xs = hashLevel node ys) : xs = ys := by
  refine siblingPairs_injective hx hy ?_
  rw [hashLevel, hashLevel] at h
  generalize siblingPairs xs = ps at h hP
  generalize siblingPairs ys = qs at h hQ
  induction ps generalizing qs with
  | nil => exact (List.map_eq_nil_iff.mp h.symm).symm
  | cons p ps ih =>
    cases qs with
    | nil => simp at h
    | cons q qs =>
      obtain ⟨hhead, htail⟩ := List.cons.inj h
      rw [hnode p q (hP p List.mem_cons_self) (hQ q List.mem_cons_self) hhead,
        ih (List.forall_mem_cons.mp hP).2 qs htail
          (List.forall_mem_cons.mp hQ).2]

theorem HashesTo.injective (hnode : NodeInjective node P Q) (hx : HashesTo node P depth xs r)
    (hy : HashesTo node Q depth ys r) : xs = ys := by
  induction hx generalizing ys with
  | root r =>
    cases hy
    rfl
  | level _ hdistinct hpairs _ ih =>
    cases hy with
    | level _ hdistinct' hpairs' hrest =>
      exact hashLevel_injective hnode hdistinct hdistinct' hpairs hpairs' (ih hrest)

theorem HashesTo.exists_level (depth more : Nat) (h : HashesTo node Q (depth + more + 1) ys r) :
    ∃ zs, HashesTo node Q depth zs r ∧ zs ≠ [] ∧ ∀ z ∈ zs, ∃ q, Q q ∧ z = node q.1 q.2 := by
  induction more generalizing ys with
  | zero =>
    cases h with
    | level hlong _ hpairs hrest =>
      refine ⟨_, hrest, ?_, fun z hz => ?_⟩
      · match ys, hlong with
        | _ :: _ :: _, _ => simp [hashLevel, siblingPairs]
      · obtain ⟨q, hq, rfl⟩ := List.mem_map.mp hz
        exact ⟨q, hpairs q hq, rfl⟩
  | succ more ih =>
    cases h with
    | level _ _ _ hrest => exact ih hrest

theorem HashesTo.leaves_eq {depth' : Nat} (hnode : NodeInjective node P Q)
    (hx : HashesTo node P depth xs r) (hy : HashesTo node Q depth' ys r)
    (hleaf : ∀ x ∈ xs, ∀ q, Q q → x ≠ node q.1 q.2)
    (hleaf' : ∀ y ∈ ys, ∀ p, P p → y ≠ node p.1 p.2) : xs = ys := by
  rcases Nat.lt_trichotomy depth depth' with hlt | rfl | hlt
  · obtain ⟨more, rfl⟩ := Nat.exists_eq_add_of_lt hlt
    obtain ⟨zs, hzs, hne, hnodes⟩ := hy.exists_level depth more
    obtain rfl := hx.injective hnode hzs
    obtain ⟨x, hmem⟩ := List.exists_mem_of_ne_nil xs hne
    obtain ⟨q, hq, heq⟩ := hnodes x hmem
    exact absurd heq (hleaf x hmem q hq)
  · exact hx.injective hnode hy
  · obtain ⟨more, rfl⟩ := Nat.exists_eq_add_of_lt hlt
    obtain ⟨zs, hzs, hne, hnodes⟩ := hx.exists_level depth' more
    obtain rfl := hzs.injective hnode hy
    obtain ⟨y, hmem⟩ := List.exists_mem_of_ne_nil zs hne
    obtain ⟨p, hp, heq⟩ := hnodes y hmem
    exact absurd heq (hleaf' y hmem p hp)

end HcsCoin.Foundation
