import HcsCoin.ArithUint256
import HcsCoin.Primitives.Block

/-!
# Block index entries

`CBlockIndex` of `chain.h`.  A pointer to an entry is the key the entry is
filed under, so functions that follow pointers take the memory as a partial
function `find`; a result `none` stands for a failed assertion or the use of a
pointer that leads nowhere.
-/

namespace HcsCoin

open Foundation ArithUint256

/-! ## Status bits -/

def BLOCK_VALID_TREE : UInt32 := 2
def BLOCK_VALID_TRANSACTIONS : UInt32 := 3
def BLOCK_VALID_MASK : UInt32 := 7
def BLOCK_HAVE_DATA : UInt32 := 8
def BLOCK_HAVE_UNDO : UInt32 := 16
def BLOCK_FAILED_VALID : UInt32 := 32
def BLOCK_OPT_WITNESS : UInt32 := 128

def SEQ_ID_INIT_FROM_DISK : Int32 := 1

structure CBlockIndex where
  phashBlock : Option Uint256 := none
  pprev : Option Uint256 := none
  pskip : Option Uint256 := none
  nHeight : Nat := 0
  nFile : Nat := 0
  nDataPos : UInt32 := 0
  nUndoPos : UInt32 := 0
  nChainWork : ArithUint256 := BaseUint.zero
  nTx : UInt32 := 0
  nStatus : UInt32 := 0
  nVersion : Int32 := 0
  hashMerkleRoot : Uint256 := .null
  nTime : UInt32 := 0
  nBits : UInt32 := 0
  nNonce : UInt32 := 0
  nSequenceId : Int32 := SEQ_ID_INIT_FROM_DISK
  nTimeMax : UInt32 := 0
  deriving DecidableEq

abbrev BlockHeap := Uint256 → Option CBlockIndex

namespace CBlockIndex

def ofHeader (block : CBlockHeader) : CBlockIndex :=
  { nVersion := block.nVersion
    hashMerkleRoot := block.hashMerkleRoot
    nTime := block.nTime
    nBits := block.nBits
    nNonce := block.nNonce }

def getBlockTime (b : CBlockIndex) : Int := b.nTime.toNat

/-- The entry `pprev` points to; `none` when the pointer is null or dangling. -/
def prev? (find : BlockHeap) (b : CBlockIndex) : Option CBlockIndex := b.pprev >>= find

def skip? (find : BlockHeap) (b : CBlockIndex) : Option CBlockIndex := b.pskip >>= find

def getBlockHash (b : CBlockIndex) : Option Uint256 := b.phashBlock

/-- The header fields an entry holds, over a given parent hash; a new `CBlockHeader`
has null quantum fields. -/
def headerOver (b : CBlockIndex) (hashPrevBlock : Uint256) : CBlockHeader :=
  { nVersion := b.nVersion
    hashPrevBlock := hashPrevBlock
    hashMerkleRoot := b.hashMerkleRoot
    nTime := b.nTime
    nBits := b.nBits
    nNonce := b.nNonce }

def prevHash (find : BlockHeap) (b : CBlockIndex) : Option Uint256 :=
  match b.pprev with
  | none => some BaseBlob.null
  | some p => (find p).bind getBlockHash

def getBlockHeader (find : BlockHeap) (b : CBlockIndex) : Option CBlockHeader := do
  let hashPrevBlock ← b.prevHash find
  some (b.headerOver hashPrevBlock)

def raiseValidity (b : CBlockIndex) (nUpTo : UInt32) : CBlockIndex :=
  if b.nStatus &&& BLOCK_FAILED_VALID ≠ 0 then b
  else if b.nStatus &&& BLOCK_VALID_MASK < nUpTo then
    { b with nStatus := (b.nStatus &&& ~~~BLOCK_VALID_MASK) ||| nUpTo }
  else b

end CBlockIndex

/-! ## Skip list -/

def invertLowestOne (n : Nat) : Nat := n &&& (n - 1)

def getSkipHeight (height : Nat) : Nat :=
  if height < 2 then 0
  else if height &&& 1 ≠ 0 then invertLowestOne (invertLowestOne (height - 1)) + 1
  else invertLowestOne height

/-- Whether the walk from `heightWalk` down to `height` follows `pskip`: not when
`pprev->pskip` is the better jump. -/
def followsSkip (height heightWalk : Nat) : Bool :=
  let heightSkip := getSkipHeight heightWalk
  let heightSkipPrev := getSkipHeight (heightWalk - 1)
  heightSkip == height ||
    (decide (heightSkip > height) &&
      !(decide (heightSkipPrev < heightSkip - 2) && decide (heightSkipPrev ≥ height)))

namespace CBlockIndex

/-- The loop of `GetAncestor`.  Every round lowers `heightWalk`, so as many rounds
as the starting height are enough. -/
def ancestorWalk (find : BlockHeap) (height : Nat) :
    Nat → Nat → CBlockIndex → Option CBlockIndex
  | 0, _, pindexWalk => some pindexWalk
  | rounds + 1, heightWalk, pindexWalk =>
    if heightWalk > height then
      if pindexWalk.pskip.isSome && followsSkip height heightWalk then do
        let next ← pindexWalk.skip? find
        ancestorWalk find height rounds (getSkipHeight heightWalk) next
      else do
        let next ← pindexWalk.prev? find
        ancestorWalk find height rounds (heightWalk - 1) next
    else some pindexWalk

/-- `some none` is the null pointer. -/
def getAncestor (find : BlockHeap) (b : CBlockIndex) (height : Int) :
    Option (Option CBlockIndex) :=
  if height > b.nHeight ∨ height < 0 then some none
  else (ancestorWalk find height.toNat b.nHeight b.nHeight b).map some

def buildSkip (find : BlockHeap) (b : CBlockIndex) : Option CBlockIndex :=
  match b.pprev with
  | none => some b
  | some p => do
    let prev ← find p
    let ancestor ← prev.getAncestor find (getSkipHeight b.nHeight)
    some { b with pskip := ancestor.bind getBlockHash }

def backBy (find : BlockHeap) : Nat → CBlockIndex → Option CBlockIndex
  | 0, b => some b
  | steps + 1, b => b.prev? find >>= backBy find steps

/-- An entry stands one above its parent, and its skip pointer leads to its
ancestor at the skip height. -/
structure Linked (find : BlockHeap) (b : CBlockIndex) : Prop where
  prev_height : b.nHeight ≠ 0 → ∃ prev, b.prev? find = some prev ∧ b.nHeight = prev.nHeight + 1
  skip_ancestor : b.pskip.isSome = true →
    b.skip? find = backBy find (b.nHeight - getSkipHeight b.nHeight) b

theorem backBy_add (find : BlockHeap) (m n : Nat) (b : CBlockIndex) :
    backBy find (m + n) b = backBy find m b >>= backBy find n := by
  induction m generalizing b with
  | zero => simp [backBy]
  | succ m ih =>
    rw [Nat.add_right_comm, backBy, backBy]
    cases b.prev? find with
    | none => rfl
    | some prev => exact ih prev

def Extends (find find' : BlockHeap) : Prop := ∀ p e, find p = some e → find' p = some e

variable {find find' : BlockHeap} {b e : CBlockIndex} {g : CBlockIndex → CBlockIndex} {steps : Nat}

theorem Extends.prev? (h : Extends find find')
    (hprev : b.prev? find = some e) : b.prev? find' = some e := by
  obtain ⟨p, hp, hfind⟩ := Option.bind_eq_some_iff.mp hprev
  exact Option.bind_eq_some_iff.mpr ⟨p, hp, h p e hfind⟩

theorem Extends.skip? (h : Extends find find')
    (hskip : b.skip? find = some e) : b.skip? find' = some e := by
  obtain ⟨p, hp, hfind⟩ := Option.bind_eq_some_iff.mp hskip
  exact Option.bind_eq_some_iff.mpr ⟨p, hp, h p e hfind⟩

theorem Extends.backBy (h : Extends find find') (hback : backBy find steps b = some e) :
    CBlockIndex.backBy find' steps b = some e := by
  induction steps generalizing b with
  | zero => exact hback
  | succ steps ih =>
    obtain ⟨prev, hprev, hback⟩ := Option.bind_eq_some_iff.mp hback
    exact Option.bind_eq_some_iff.mpr ⟨prev, h.prev? hprev, ih hback⟩

theorem Extends.prevHash (h : Extends find find')
    {hash : Uint256} (hprev : b.prevHash find = some hash) : b.prevHash find' = some hash := by
  rw [CBlockIndex.prevHash] at hprev ⊢
  cases hp : b.pprev with
  | none => simpa [hp] using hprev
  | some p =>
    simp only [hp] at hprev ⊢
    obtain ⟨e, hfind, hhash⟩ := Option.bind_eq_some_iff.mp hprev
    exact Option.bind_eq_some_iff.mpr ⟨e, h p e hfind, hhash⟩

theorem exists_find_of_backBy (hb : ∃ p, find p = some b) (hback : backBy find steps b = some e) :
    ∃ p, find p = some e := by
  induction steps generalizing b with
  | zero =>
    cases hback
    exact hb
  | succ steps ih =>
    obtain ⟨prev, hprev, hback⟩ := Option.bind_eq_some_iff.mp hback
    obtain ⟨p, -, hfind⟩ := Option.bind_eq_some_iff.mp hprev
    exact ih ⟨p, hfind⟩ hback

theorem Linked.exists_backBy (hheap : ∀ p e, find p = some e → e.Linked find) (hb : b.Linked find)
    (hsteps : steps ≤ b.nHeight) :
    ∃ e, backBy find steps b = some e ∧ e.nHeight = b.nHeight - steps ∧ e.Linked find := by
  induction steps generalizing b with
  | zero => exact ⟨b, rfl, rfl, hb⟩
  | succ steps ih =>
    obtain ⟨prev, hprev, hheight⟩ := hb.prev_height (by omega)
    obtain ⟨p, -, hfind⟩ := Option.bind_eq_some_iff.mp hprev
    obtain ⟨e, he, hle, hlinked⟩ := ih (hheap p prev hfind) (by omega)
    refine ⟨e, ?_, by omega, hlinked⟩
    rw [backBy, hprev]
    exact he

/-- A change to an entry that leaves its place in the block tree alone. -/
structure KeepsLinks (f : CBlockIndex → CBlockIndex) : Prop where
  hash : ∀ b, (f b).phashBlock = b.phashBlock
  prev : ∀ b, (f b).pprev = b.pprev
  skip : ∀ b, (f b).pskip = b.pskip
  height : ∀ b, (f b).nHeight = b.nHeight

theorem backBy_map (hg : KeepsLinks g) (hfind : ∀ p, find' p = (find p).map g) (steps : Nat)
    (b : CBlockIndex) : backBy find' steps (g b) = (backBy find steps b).map g := by
  induction steps generalizing b with
  | zero => rfl
  | succ steps ih =>
    rw [backBy, backBy, prev?, prev?, hg.prev]
    cases b.pprev with
    | none => rfl
    | some p =>
      simp only [some_bind, hfind]
      cases find p with
      | none => rfl
      | some prev => exact ih prev

theorem Linked.map (hg : KeepsLinks g) (hfind : ∀ p, find' p = (find p).map g)
    (hb : b.Linked find) : (g b).Linked find' := by
  constructor
  · intro hheight
    rw [hg.height] at hheight ⊢
    obtain ⟨prev, hprev, heq⟩ := hb.prev_height hheight
    obtain ⟨p, hp, hprev⟩ := Option.bind_eq_some_iff.mp hprev
    refine ⟨g prev, Option.bind_eq_some_iff.mpr ⟨p, by rw [hg.prev, hp], ?_⟩, ?_⟩
    · rw [hfind, hprev]
      rfl
    · rw [hg.height, heq]
  · intro hskip
    rw [hg.skip] at hskip
    rw [hg.height, backBy_map hg hfind, ← hb.skip_ancestor hskip, skip?, skip?, hg.skip]
    cases b.pskip with
    | none => rfl
    | some p => exact hfind p

theorem Linked.mono (hheap : ∀ p e, find p = some e → e.Linked find)
    (hext : Extends find find') (hb : b.Linked find) : b.Linked find' := by
  constructor
  · intro hheight
    obtain ⟨prev, hprev, heq⟩ := hb.prev_height hheight
    exact ⟨prev, hext.prev? hprev, heq⟩
  · intro hskip
    obtain ⟨e, hback, -⟩ := hb.exists_backBy hheap (Nat.sub_le _ (getSkipHeight b.nHeight))
    rw [hext.backBy hback]
    exact hext.skip? (by rw [hb.skip_ancestor hskip, hback])

end CBlockIndex

private theorem invertLowestOne_le (n : Nat) : invertLowestOne n ≤ n - 1 := Nat.and_le_right

theorem getSkipHeight_lt {height : Nat} (h : 0 < height) : getSkipHeight height < height := by
  have houter := invertLowestOne_le (invertLowestOne (height - 1))
  have hinner := invertLowestOne_le (height - 1)
  have heven := invertLowestOne_le height
  unfold getSkipHeight
  split
  · exact h
  · split <;> omega

private theorem le_getSkipHeight_of_followsSkip {height heightWalk : Nat}
    (h : followsSkip height heightWalk = true) : height ≤ getSkipHeight heightWalk := by
  simp only [followsSkip, Bool.or_eq_true, beq_iff_eq, Bool.and_eq_true, decide_eq_true_eq] at h
  omega

namespace CBlockIndex

variable {find : BlockHeap} {b : CBlockIndex}

theorem linked_of_parent {prev ancestor : CBlockIndex} {k : Uint256}
    (hprev : b.prev? find = some prev) (hheight : b.nHeight = prev.nHeight + 1)
    (hskip : b.pskip = some k) (hk : find k = some ancestor)
    (hback : backBy find (prev.nHeight - getSkipHeight (prev.nHeight + 1)) prev =
      some ancestor) : b.Linked find := by
  refine ⟨fun _ => ⟨prev, hprev, hheight⟩, fun _ => ?_⟩
  have hlt := getSkipHeight_lt (Nat.succ_pos prev.nHeight)
  rw [skip?, hskip, hheight, Nat.succ_sub (Nat.le_of_lt_succ hlt), backBy, hprev]
  exact hk.trans hback.symm

theorem ancestorWalk_eq_backBy (hheap : ∀ p e, find p = some e → e.Linked find)
    {height rounds : Nat} (hb : b.Linked find) (hrounds : b.nHeight ≤ rounds)
    (hheight : height ≤ b.nHeight) :
    ancestorWalk find height rounds b.nHeight b = backBy find (b.nHeight - height) b := by
  induction rounds generalizing b with
  | zero =>
    rw [ancestorWalk, show b.nHeight - height = 0 by omega]
    rfl
  | succ rounds ih =>
    rw [ancestorWalk]
    split
    next hgt =>
      split
      next hskip =>
        rw [Bool.and_eq_true] at hskip
        have hlow := le_getSkipHeight_of_followsSkip hskip.2
        have hlt := getSkipHeight_lt (by omega : 0 < b.nHeight)
        obtain ⟨e, he, hle, hlinked⟩ := hb.exists_backBy hheap
          (by omega : b.nHeight - getSkipHeight b.nHeight ≤ b.nHeight)
        have hle' : getSkipHeight b.nHeight = e.nHeight := by omega
        rw [hb.skip_ancestor hskip.1, he, hle',
          show b.nHeight - height = b.nHeight - e.nHeight + (e.nHeight - height) by omega,
          backBy_add, ← hle', he, hle']
        exact ih hlinked (by omega) (by omega)
      next =>
        obtain ⟨e, he, hle, hlinked⟩ := hb.exists_backBy hheap (by omega : 1 ≤ b.nHeight)
        have hprev : b.prev? find = some e := by simpa [backBy] using he
        rw [hprev, show b.nHeight - height = 1 + (b.nHeight - 1 - height) by omega,
          backBy_add, he, ← hle]
        exact ih hlinked (by omega) (by omega)
    next hle =>
      rw [show b.nHeight - height = 0 by omega]
      rfl

theorem getAncestor_eq (hheap : ∀ p e, find p = some e → e.Linked find) (hb : b.Linked find)
    {height : Nat} (hheight : height ≤ b.nHeight) :
    b.getAncestor find height = (backBy find (b.nHeight - height) b).map some := by
  rw [getAncestor, if_neg (by omega), Int.toNat_natCast,
    ancestorWalk_eq_backBy hheap hb le_rfl hheight]

end CBlockIndex

/-! ## Median time past -/

namespace CBlockIndex

def nMedianTimeSpan : Nat := 11

/-- The times of up to `n` blocks, from the one pointed to back. -/
def lastTimes (find : BlockHeap) : Nat → Option Uint256 → Option (List Int)
  | 0, _ | _, none => some []
  | n + 1, some p => do
    let b ← find p
    let times ← lastTimes find n b.pprev
    some (b.getBlockTime :: times)

def getMedianTimePast (find : BlockHeap) (b : CBlockIndex) : Option Int := do
  let times ← lastTimes find (nMedianTimeSpan - 1) b.pprev
  ((b.getBlockTime :: times).insertionSort (· ≤ ·))[(times.length + 1) / 2]?

/-- A tree of entries: they are filed under their hashes, and only the root has no parent. -/
structure Tree (find : BlockHeap) : Prop where
  hash : ∀ p b, find p = some b → b.phashBlock = some p
  linked : ∀ p b, find p = some b → b.Linked find
  root : ∀ p b, find p = some b → b.nHeight = 0 → b.pprev = none

variable {find : BlockHeap} {b : CBlockIndex}

theorem Tree.exists_lastTimes (htree : Tree find) (n : Nat) (hb : ∃ p, find p = some b) :
    ∃ times, lastTimes find n b.pprev = some times := by
  induction n generalizing b with
  | zero => exact ⟨[], rfl⟩
  | succ n ih =>
    obtain ⟨p, hp⟩ := hb
    cases hprev : b.pprev with
    | none => exact ⟨[], rfl⟩
    | some q =>
      have hheight : b.nHeight ≠ 0 := fun hzero => by
        rw [htree.root p b hp hzero] at hprev
        cases hprev
      obtain ⟨prev, hq, -⟩ := (htree.linked p b hp).prev_height hheight
      rw [prev?, hprev] at hq
      have hfind : find q = some prev := hq
      obtain ⟨times, htimes⟩ := ih ⟨q, hfind⟩
      refine ⟨prev.getBlockTime :: times, ?_⟩
      rw [lastTimes, hfind, some_bind, htimes]
      rfl

theorem Tree.exists_medianTimePast (htree : Tree find) (hb : ∃ p, find p = some b) :
    ∃ time, b.getMedianTimePast find = some time := by
  obtain ⟨times, htimes⟩ := htree.exists_lastTimes (nMedianTimeSpan - 1) hb
  have hlt : (times.length + 1) / 2 < ((b.getBlockTime :: times).insertionSort (· ≤ ·)).length := by
    rw [List.length_insertionSort, List.length_cons]
    omega
  rw [getMedianTimePast, htimes]
  exact ⟨_, List.getElem?_eq_getElem hlt⟩

end CBlockIndex

/-! ## Work -/

def getBitsProof (bits : UInt32) : Option ArithUint256 :=
  let bnTarget := setCompact bits
  if bnTarget.fNegative || bnTarget.fOverflow || bnTarget.value.equalTo 0 then
    some (ofUInt64 0)
  else do
    let quotient ← bnTarget.value.complement.div
      (bnTarget.value.add (ofUInt64 1))
    some (quotient.add (ofUInt64 1))

theorem getBitsProof_eq (bits : UInt32) :
    ∃ proof, getBitsProof bits = some proof ∧ proof.toNat =
      if (setCompact bits).fNegative ∨ (setCompact bits).fOverflow ∨
          (setCompact bits).value.toNat = 0 then 0
      else 2 ^ 256 / ((setCompact bits).value.toNat + 1) := by
  have hzero := equalTo_zero_iff (setCompact bits).value
  simp only [getBitsProof, Bool.or_eq_true, hzero, or_assoc]
  split
  case isTrue => exact ⟨_, rfl, toNat_ofUInt64 0⟩
  case isFalse hvalid =>
    have hlt := toNat_setCompact_succ_lt bits
    generalize (setCompact bits).value = target at hvalid hlt ⊢
    have hpos : target.toNat ≠ 0 := fun h => hvalid (.inr (.inr h))
    have hsucc : (target.add (ofUInt64 1)).toNat = target.toNat + 1 := by
      rw [BaseUint.toNat_add, toNat_ofUInt64, show (1 : UInt64).toNat = 1 from rfl,
        Nat.mod_eq_of_lt hlt]
    obtain ⟨quotient, hdiv, hquotient⟩ :=
      BaseUint.div_of_pos target.complement (by rw [hsucc]; exact Nat.succ_pos _)
    refine ⟨_, by rw [hdiv]; rfl, ?_⟩
    -- The quotient is that of `2 ^ 256 - (target + 1)`, so one is missing.
    have hsum : quotient.toNat + 1 = 2 ^ 256 / (target.toNat + 1) := by
      rw [hquotient, hsucc, BaseUint.toNat_complement, ← Nat.add_div_right _ (Nat.succ_pos _)]
      congr 1
      norm_num at hlt ⊢
      omega
    have hsmall : 2 ^ 256 / (target.toNat + 1) < 2 ^ 256 := Nat.div_lt_self (by norm_num) (by omega)
    rw [BaseUint.toNat_add, toNat_ofUInt64, show (1 : UInt64).toNat = 1 from rfl,
      hsum, Nat.mod_eq_of_lt hsmall]

theorem getBitsProof_isSome (bits : UInt32) : (getBitsProof bits).isSome = true := by
  obtain ⟨proof, hproof, -⟩ := getBitsProof_eq bits
  rw [hproof]
  rfl

/-- What the compact form keeps of a number, and what a target counts for.  Encoding drops the
bytes below the least exponent that fits, in order; decoding and encoding gives back the
canonical codes only; a larger valid target never counts for more. -/
theorem compact_targets (x y : ArithUint256) (n : UInt32) :
    (∃ e, x.toNat / 256 ^ e < 2 ^ 23 ∧ (∀ d < e, 2 ^ 23 ≤ x.toNat / 256 ^ d) ∧
      (setCompact (x.getCompact false)).value.toNat = x.toNat / 256 ^ e * 256 ^ e) ∧
    (x.toNat ≤ y.toNat → (setCompact (x.getCompact false)).value.toNat ≤
      (setCompact (y.getCompact false)).value.toNat) ∧
    ((setCompact n).value.getCompact false = n ↔ IsCanonicalCompact n) ∧
    ∃ proof, getBitsProof n = some proof ∧
      (proof.toNat =
        if (setCompact n).fNegative ∨ (setCompact n).fOverflow ∨
            (setCompact n).value.toNat = 0 then 0
        else 2 ^ 256 / ((setCompact n).value.toNat + 1)) ∧
      ∀ m larger, getBitsProof m = some larger →
        ¬ ((setCompact n).fNegative ∨ (setCompact n).fOverflow ∨ (setCompact n).value.toNat = 0) →
        (setCompact n).value.toNat ≤ (setCompact m).value.toNat →
        larger.toNat ≤ proof.toNat := by
  have hround (a : ArithUint256) := (setCompact_getCompact a).2.2
  obtain ⟨proof, hproof, hvalue⟩ := getBitsProof_eq n
  refine ⟨⟨compactFormat.scale x.toNat,
      compactFormat.mantissa_lt x.toNat,
      fun d hd => Foundation.TruncFormat.le_div_of_lt_scale hd, hround x⟩,
    fun hle => ?_, getCompact_setCompact_iff n, proof, hproof, hvalue, ?_⟩
  · rw [hround, hround]
    exact Foundation.TruncFormat.truncate_mono hle
  · intro m larger hlarger hvalid hle
    obtain ⟨proof', hproof', hvalue'⟩ := getBitsProof_eq m
    obtain rfl := Option.some.inj (hlarger.symm.trans hproof')
    rw [hvalue, if_neg hvalid, hvalue']
    split
    next => exact Nat.zero_le _
    next => exact Nat.div_le_div_left (Nat.succ_le_succ hle) (Nat.succ_pos _)

end HcsCoin
