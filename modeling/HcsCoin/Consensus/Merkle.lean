import HcsCoin.Foundation.MerkleTree
import HcsCoin.Primitives.Block

/-!
# Merkle roots of a block

`ComputeMerkleRoot` hashes a list of leaves level by level, repeating the last
node of a level of odd size, and reports whether two equal siblings were met on
the way (the shape of a mutated transaction list).
-/

namespace HcsCoin

open Foundation

def sha256D64 (left right : Uint256) : Uint256 := hash256 (left.mData ++ right.mData)

/-- The next level; the last node of a level of odd size is its own sibling. -/
def merkleLevel : List Uint256 → List Uint256
  | [] => []
  | [node] => [sha256D64 node node]
  | left :: right :: rest => sha256D64 left right :: merkleLevel rest

def hasEqualSiblings : List Uint256 → Bool
  | left :: right :: rest => left == right || hasEqualSiblings rest
  | _ => false

/-- The loop of `ComputeMerkleRoot`, at most `rounds` levels of it. -/
def merkleLoop : Nat → List Uint256 → Bool → List Uint256 × Bool
  | 0, hashes, mutation => (hashes, mutation)
  | rounds + 1, hashes, mutation =>
    if hashes.length > 1 then
      merkleLoop rounds (merkleLevel hashes) (mutation || hasEqualSiblings hashes)
    else (hashes, mutation)

def computeMerkleRoot (hashes : List Uint256) : Uint256 × Bool :=
  let (top, mutation) := merkleLoop hashes.length hashes false
  (top.headD .null, mutation)

def blockMerkleRoot (block : CBlock) : Uint256 × Bool :=
  computeMerkleRoot (block.vtx.map CTransaction.getHash)

/-- The leaf of the first transaction is zero, also in a block without transactions. -/
def blockWitnessMerkleRoot (block : CBlock) : Uint256 :=
  (computeMerkleRoot (.null :: (block.vtx.drop 1).map CTransaction.getWitnessHash)).1

/-! ## The loop ends -/

theorem merkleLevel_length (hashes : List Uint256) :
    (merkleLevel hashes).length = (hashes.length + 1) / 2 := by
  fun_induction merkleLevel hashes with
  | case1 => rfl
  | case2 => simp
  | case3 left right rest ih =>
    simp only [List.length_cons, ih]
    omega

/-! ## What a root determines -/

theorem merkleLevel_eq_hashLevel (hashes : List Uint256) :
    merkleLevel hashes = hashLevel sha256D64 hashes := by
  fun_induction merkleLevel hashes with
  | case1 => rfl
  | case2 => rfl
  | case3 left right rest ih =>
    rw [ih]
    rfl

theorem hasEqualSiblings_iff (hashes : List Uint256) :
    hasEqualSiblings hashes = true ↔ EqualSiblings hashes := by
  fun_induction hasEqualSiblings hashes with
  | case1 left right rest ih => simp [EqualSiblings, ih]
  | case2 hashes hshort =>
    match hashes, hshort with
    | [], _ => simp [EqualSiblings]
    | [_], _ => simp [EqualSiblings]
    | left :: right :: rest, hshort => exact absurd rfl (hshort left right rest)

def merklePairs : Nat → List Uint256 → List (Uint256 × Uint256)
  | 0, _ => []
  | rounds + 1, hashes =>
    if hashes.length > 1 then siblingPairs hashes ++ merklePairs rounds (merkleLevel hashes)
    else []

def treePairs (hashes : List Uint256) : List (Uint256 × Uint256) :=
  merklePairs hashes.length hashes

variable {hashes : List Uint256} {mutation : Bool} {rounds : Nat}

theorem merkleLoop_mutation (h : (merkleLoop rounds hashes mutation).2 = false) :
    mutation = false := by
  induction rounds generalizing hashes mutation with
  | zero => exact h
  | succ rounds ih =>
    rw [merkleLoop] at h
    split at h
    case isTrue => exact (Bool.or_eq_false_iff.mp (ih h)).1
    case isFalse => exact h

theorem hashesTo_of_merkleLoop (hne : hashes ≠ []) (hrounds : hashes.length ≤ rounds + 1)
    (h : (merkleLoop rounds hashes mutation).2 = false) :
    ∃ depth r, HashesTo sha256D64 (· ∈ merklePairs rounds hashes) depth hashes r ∧
      (merkleLoop rounds hashes mutation).1 = [r] := by
  induction rounds generalizing hashes mutation with
  | zero =>
    obtain ⟨r, rfl⟩ := List.length_eq_one_iff.mp
      (Nat.le_antisymm hrounds (List.length_pos_iff.mpr hne))
    exact ⟨0, r, .root r, rfl⟩
  | succ rounds ih =>
    rw [merkleLoop] at h ⊢
    split at h
    case isTrue hlong =>
      have hlevel : merkleLevel hashes ≠ [] := by
        rw [← List.length_pos_iff, merkleLevel_length]
        omega
      obtain ⟨depth, r, hashes_to, htop⟩ := ih hlevel (by rw [merkleLevel_length]; omega) h
      have hdistinct : ¬ EqualSiblings hashes := by
        rw [← hasEqualSiblings_iff, Bool.not_eq_true]
        exact (Bool.or_eq_false_iff.mp (merkleLoop_mutation h)).2
      have hpairs : merklePairs (rounds + 1) hashes =
          siblingPairs hashes ++ merklePairs rounds (merkleLevel hashes) := by
        rw [merklePairs, if_pos hlong]
      rw [merkleLevel_eq_hashLevel] at hashes_to
      refine ⟨depth + 1, r, .level hlong hdistinct (fun p hp => ?_) (hashes_to.mono ?_), ?_⟩
      · rw [hpairs]
        exact List.mem_append_left _ hp
      · intro p hp
        rw [hpairs, merkleLevel_eq_hashLevel]
        exact List.mem_append_right _ hp
      · rw [if_pos hlong]
        exact htop
    case isFalse hshort =>
      obtain ⟨r, rfl⟩ := List.length_eq_one_iff.mp
        (Nat.le_antisymm (Nat.le_of_not_gt hshort) (List.length_pos_iff.mpr hne))
      exact ⟨0, r, .root r, rfl⟩

/-- Neither the pairs hashed for two lists of leaves nor their leaves with these pairs
collide. -/
structure TreesApart (xs ys : List Uint256) : Prop where
  pairs : NodeInjective sha256D64 (· ∈ treePairs xs) (· ∈ treePairs ys)
  left : ∀ x ∈ xs, ∀ q ∈ treePairs ys, x ≠ sha256D64 q.1 q.2
  right : ∀ y ∈ ys, ∀ p ∈ treePairs xs, y ≠ sha256D64 p.1 p.2

theorem eq_of_computeMerkleRoot_eq {xs ys : List Uint256} (hx : xs ≠ []) (hy : ys ≠ [])
    (hapart : TreesApart xs ys) (hmx : (computeMerkleRoot xs).2 = false)
    (hmy : (computeMerkleRoot ys).2 = false)
    (h : (computeMerkleRoot xs).1 = (computeMerkleRoot ys).1) : xs = ys := by
  obtain ⟨depth, r, hxs, hrx⟩ := hashesTo_of_merkleLoop hx (Nat.le_succ _) hmx
  obtain ⟨depth', r', hys, hry⟩ := hashesTo_of_merkleLoop hy (Nat.le_succ _) hmy
  change (merkleLoop xs.length xs false).1.headD .null =
    (merkleLoop ys.length ys false).1.headD .null at h
  rw [hrx, hry] at h
  obtain rfl : r = r' := h
  exact hxs.leaves_eq hapart.pairs hys hapart.left hapart.right

/-- Different lists with one root: one of them is reported as mutated. -/
theorem mutated_of_computeMerkleRoot_eq {xs ys : List Uint256} (hx : xs ≠ []) (hy : ys ≠ [])
    (hapart : TreesApart xs ys) (hne : xs ≠ ys)
    (h : (computeMerkleRoot xs).1 = (computeMerkleRoot ys).1) :
    (computeMerkleRoot xs).2 = true ∨ (computeMerkleRoot ys).2 = true := by
  by_contra hclean
  rw [not_or, Bool.not_eq_true, Bool.not_eq_true] at hclean
  exact hne (eq_of_computeMerkleRoot_eq hx hy hapart hclean.1 hclean.2 h)

section RepeatedLeaf

private def node12 : Uint256 :=
  .ofHex 0xff8f6e7ac7aa0bfc98af8be24ed6ae1ab243f64aaa065366b2215e697fddb64b
private def node33 : Uint256 :=
  .ofHex 0x7c38ce69386961b6ae58e23ff1baa4a5f404f5b272538419b083b33e15b5e610
private def root123 : Uint256 :=
  .ofHex 0xe9ffb584c62449f157c8be88257bd1eebb2d8ef824f5c86b43c4f8fd9e800d6a

private theorem sha256D64_12 : sha256D64 (.ofHex 1) (.ofHex 2) = node12 := by decide +kernel

private theorem sha256D64_33 : sha256D64 (.ofHex 3) (.ofHex 3) = node33 := by decide +kernel

private theorem sha256D64_root : sha256D64 node12 node33 = root123 := by decide +kernel

theorem mutated_of_repeated_leaf :
    (computeMerkleRoot [.ofHex 1, .ofHex 2, .ofHex 3]).2 = true ∨
      (computeMerkleRoot [.ofHex 1, .ofHex 2, .ofHex 3, .ofHex 3]).2 = true := by
  have hx : treePairs [.ofHex 1, .ofHex 2, .ofHex 3] =
      [(.ofHex 1, .ofHex 2), (.ofHex 3, .ofHex 3), (node12, node33)] := by
    simp [treePairs, merklePairs, siblingPairs, merkleLevel, sha256D64_12, sha256D64_33]
  have hy : treePairs [.ofHex 1, .ofHex 2, .ofHex 3, .ofHex 3] =
      [(.ofHex 1, .ofHex 2), (.ofHex 3, .ofHex 3), (node12, node33)] := by
    simp [treePairs, merklePairs, siblingPairs, merkleLevel, sha256D64_12, sha256D64_33]
  refine mutated_of_computeMerkleRoot_eq (by simp) (by simp) ⟨?_, ?_, ?_⟩ (by simp) ?_
  · intro p q hp hq h
    rw [hx] at hp
    rw [hy] at hq
    simp only [List.mem_cons, List.not_mem_nil, or_false] at hp hq
    rcases hp with rfl | rfl | rfl <;> rcases hq with rfl | rfl | rfl <;>
      simp only [sha256D64_12, sha256D64_33, sha256D64_root] at h <;>
      first | rfl | exact absurd h (by decide)
  · simp only [hy, List.forall_mem_cons, sha256D64_12, sha256D64_33, sha256D64_root]
    decide
  · simp only [hx, List.forall_mem_cons, sha256D64_12, sha256D64_33, sha256D64_root]
    decide
  · simp [computeMerkleRoot, merkleLoop, merkleLevel, sha256D64_12, sha256D64_33]

end RepeatedLeaf

end HcsCoin
