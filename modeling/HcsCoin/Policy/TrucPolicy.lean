import HcsCoin.Foundation.Lineage
import HcsCoin.Primitives.Transaction

/-!
# TRUC policy

The rules of `policy/truc_policy.cpp` for transactions of version 3 in the
mempool: one parent or one child at most, of the same version.  They are checked
for one transaction at a time, against the mempool it is added to and against the
rest of its package, and together they keep the whole mempool within the rules.
-/

namespace HcsCoin

open Foundation Relation

def TRUC_VERSION : UInt32 := 3
def TRUC_DESCENDANT_LIMIT : Nat := 2
def TRUC_ANCESTOR_LIMIT : Nat := 2
def TRUC_MAX_VSIZE : Int := 10000
def TRUC_CHILD_MAX_VSIZE : Int := 1000

def CTransaction.spends (tx parent : CTransaction) : Bool :=
  tx.vin.any fun input => input.prevout.hash == parent.getHash

/-- The size is the sigop-adjusted virtual size. -/
structure CTxMemPoolEntry where
  tx : CTransaction
  vsize : Int
  deriving DecidableEq

abbrev CTxMemPool := List CTxMemPoolEntry

namespace CTxMemPoolEntry

def spends (child parent : CTxMemPoolEntry) : Bool := child.tx.spends parent.tx

def IsTRUC (entry : CTxMemPoolEntry) : Prop := entry.tx.version = TRUC_VERSION

end CTxMemPoolEntry

namespace CTxMemPool

variable (pool : CTxMemPool)

def getParents (tx : CTransaction) : List CTxMemPoolEntry := pool.filter (tx.spends ·.tx)

def getAncestors (entry : CTxMemPoolEntry) : List CTxMemPoolEntry :=
  entry :: collect CTxMemPoolEntry.spends pool [entry]

def getAncestorCount (entry : CTxMemPoolEntry) : Nat := (getAncestors pool entry).length

def getDescendants (entry : CTxMemPoolEntry) : List CTxMemPoolEntry :=
  pool.filter (entry ∈ getAncestors pool ·)

def getDescendantCount (entry : CTxMemPoolEntry) : Nat := (getDescendants pool entry).length

/-- The mempool without some transactions and their descendants. -/
def evict (txids : List Uint256) : CTxMemPool :=
  pool.filter fun entry => (getAncestors pool entry).all (·.tx.getHash ∉ txids)

end CTxMemPool

/-! ## The checks -/

namespace TrucPolicy

open CTxMemPool

def named (tx : CTransaction) : String :=
  "tx " ++ tx.getHash.getHex ++ " (wtxid=" ++ tx.getWitnessHash.getHex ++ ")"

def tooBig (kind : String) (tx : CTransaction) (vsize limit : Int) : String :=
  "version=3 " ++ kind ++ named tx ++ " is too big: " ++ toString vsize ++ " > " ++
    toString limit ++ " virtual bytes"

def tooManyAncestors (tx : CTransaction) : String := named tx ++ " would have too many ancestors"

def tooManyDescendants (tx : CTransaction) : String :=
  named tx ++ " would exceed descendant count limit"

def nonTRUCSpendsTRUC (tx parent : CTransaction) : String :=
  "non-version=3 " ++ named tx ++ " cannot spend from version=3 " ++ named parent

def trucSpendsNonTRUC (tx parent : CTransaction) : String :=
  "version=3 " ++ named tx ++ " cannot spend from non-version=3 " ++ named parent

/-- The parents themselves in place of their indexes, which only serve to find them.  The code
compares addresses, and the transactions of a package are different ones. -/
def findInPackageParents (package : List CTransaction) (ptx : CTransaction) : List CTransaction :=
  (package.takeWhile (· != ptx)).filter ptx.spends

structure ParentInfo where
  tx : CTransaction
  hasMempoolDescendant : Bool

def parentInfo (pool : CTxMemPool) : List CTxMemPoolEntry → List CTransaction → Option ParentInfo
  | mempoolParent :: _, _ =>
    some ⟨mempoolParent.tx, decide (getDescendantCount pool mempoolParent > 1)⟩
  | [], packageParent :: _ => some ⟨packageParent, false⟩
  | [], [] => none

def checkRelative (ptx parent packageTx : CTransaction) : Option String :=
  packageTx.vin.findSome? fun input =>
    if input.prevout.hash = parent.getHash then some (tooManyDescendants parent)
    else if input.prevout.hash = ptx.getHash then some (tooManyAncestors packageTx)
    else none

def packageTRUCChecks (pool : CTxMemPool) (ptx : CTransaction) (vsize : Int)
    (package : List CTransaction) (mempoolParents : List CTxMemPoolEntry) : Option String :=
  let inPackageParents := findInPackageParents package ptx
  if ptx.version = TRUC_VERSION then
    if ¬ vsize ≤ TRUC_MAX_VSIZE then some (tooBig "" ptx vsize TRUC_MAX_VSIZE)
    else if mempoolParents.length + inPackageParents.length + 1 > TRUC_ANCESTOR_LIMIT then
      some (tooManyAncestors ptx)
    else if mempoolParents.head?.any fun parent => decide (getAncestorCount pool parent +
        inPackageParents.length + 1 > TRUC_ANCESTOR_LIMIT) then some (tooManyAncestors ptx)
    else
      match parentInfo pool mempoolParents inPackageParents with
      | none => none
      | some parent =>
        if vsize > TRUC_CHILD_MAX_VSIZE then
          some (tooBig "child " ptx vsize TRUC_CHILD_MAX_VSIZE)
        else if parent.tx.version ≠ TRUC_VERSION then some (trucSpendsNonTRUC ptx parent.tx)
        else
          match (package.filter (· != ptx)).findSome? (checkRelative ptx parent.tx) with
          | some reason => some reason
          | none =>
            if parent.hasMempoolDescendant then some (tooManyDescendants parent.tx) else none
  else
    (mempoolParents.map (·.tx) ++ inPackageParents).findSome? fun parent =>
      if parent.version = TRUC_VERSION then some (nonTRUCSpendsTRUC ptx parent) else none

def checkInheritance (ptx parent : CTransaction) : Option String :=
  if ptx.version ≠ TRUC_VERSION ∧ parent.version = TRUC_VERSION then
    some (nonTRUCSpendsTRUC ptx parent)
  else if ptx.version = TRUC_VERSION ∧ parent.version ≠ TRUC_VERSION then
    some (trucSpendsNonTRUC ptx parent)
  else none

/-- The reason for a refusal, with the sibling whose eviction can be considered instead.  It is
the first descendant of the parent where that has only one. -/
def singleTRUCChecks (pool : CTxMemPool) (ptx : CTransaction)
    (mempoolParents : List CTxMemPoolEntry) (directConflicts : List Uint256) (vsize : Int) :
    Option (String × Option CTransaction) :=
  match mempoolParents.findSome? fun entry => checkInheritance ptx entry.tx with
  | some reason => some (reason, none)
  | none =>
    if ptx.version ≠ TRUC_VERSION then none
    else if vsize > TRUC_MAX_VSIZE then some (tooBig "" ptx vsize TRUC_MAX_VSIZE, none)
    else if mempoolParents.length + 1 > TRUC_ANCESTOR_LIMIT then
      some (tooManyAncestors ptx, none)
    else
      match mempoolParents with
      | [] => none
      | parentEntry :: _ =>
        if getAncestorCount pool parentEntry + 1 > TRUC_ANCESTOR_LIMIT then
          some (tooManyAncestors ptx, none)
        else if vsize > TRUC_CHILD_MAX_VSIZE then
          some (tooBig "child " ptx vsize TRUC_CHILD_MAX_VSIZE, none)
        else
          let descendants := (getDescendants pool parentEntry).filter (· ≠ parentEntry)
          let childWillBeReplaced := descendants.any (·.tx.getHash ∈ directConflicts)
          if getDescendantCount pool parentEntry + 1 > TRUC_DESCENDANT_LIMIT ∧
              ¬ childWillBeReplaced then
            let considerSiblingEviction := getDescendantCount pool parentEntry = 2 ∧
              descendants.head?.map (getAncestorCount pool) = some 2
            some (tooManyDescendants parentEntry.tx,
              if considerSiblingEviction then descendants.head?.map (·.tx) else none)
          else none

end TrucPolicy

/-! ## The rules -/

abbrev CTxMemPool.Child (pool : CTxMemPool) : CTxMemPoolEntry → CTxMemPoolEntry → Prop :=
  Among CTxMemPoolEntry.spends pool

structure TrucEntry (pool : CTxMemPool) (entry : CTxMemPoolEntry) : Prop where
  vsize_le : entry.vsize ≤ TRUC_MAX_VSIZE
  ancestor : ∀ a b, TransGen pool.Child entry a → TransGen pool.Child entry b → a = b
  descendant : ∀ a b, TransGen pool.Child a entry → TransGen pool.Child b entry → a = b
  parent : ∀ p, pool.Child entry p → p.IsTRUC ∧ entry.vsize ≤ TRUC_CHILD_MAX_VSIZE
  child : ∀ c, pool.Child c entry → c.IsTRUC

def TrucConsistent (pool : CTxMemPool) : Prop := ∀ entry ∈ pool, entry.IsTRUC → TrucEntry pool entry

section Rules

open CTxMemPool TrucPolicy
open CTxMemPoolEntry (spends)

variable {pool added : CTxMemPool} {entry new c : CTxMemPoolEntry}

theorem TrucConsistent.sublist (h : TrucConsistent pool) (hsub : added.Sublist pool) :
    TrucConsistent added := by
  intro entry hentry htruc
  have hchild : ∀ c p, Child added c p → pool.Child c p := fun _ _ hedge =>
    ⟨hsub.subset hedge.1, hsub.subset hedge.2.1, hedge.2.2⟩
  have hreach := TransGen.mono hchild
  obtain ⟨hsize, hancestor, hdescendant, hparent, hkid⟩ := h entry (hsub.subset hentry) htruc
  exact ⟨hsize, fun a b ha hb => hancestor a b (hreach _ _ ha) (hreach _ _ hb),
    fun a b ha hb => hdescendant a b (hreach _ _ ha) (hreach _ _ hb),
    fun p hp => hparent p (hchild _ _ hp), fun c hc => hkid c (hchild _ _ hc)⟩

/-- What the checks say of a new entry among all others: a child of version 3 is the only child of
its only parent, and there is nothing above or below the two. -/
structure Admitted (pool : CTxMemPool) (new : CTxMemPoolEntry) : Prop where
  vsize_le : new.IsTRUC → new.vsize ≤ TRUC_MAX_VSIZE
  version : ∀ p, pool.Child new p → (new.IsTRUC ↔ p.IsTRUC)
  alone : new.IsTRUC → ∀ p, pool.Child new p → new.vsize ≤ TRUC_CHILD_MAX_VSIZE ∧
    (∀ q, pool.Child new q → q = p) ∧ (∀ g, ¬ pool.Child p g) ∧
    (∀ c, pool.Child c p → c = new) ∧ ∀ c, ¬ pool.Child c new

theorem TrucConsistent.append (h : TrucConsistent pool)
    (horder : LatestFirst spends (added ++ pool))
    (hnew : ∀ new ∈ added, Admitted (added ++ pool) new) : TrucConsistent (added ++ pool) := by
  have hpool := horder.sublist (List.sublist_append_right added pool)
  -- entries that were there before are related only to such
  have hold : ∀ c p, Child (added ++ pool) c p → c ∉ added → pool.Child c p ∧ p ∉ added := by
    rintro c p ⟨hc, hp, hspends⟩ hnot
    have hc := (List.mem_append.mp hc).resolve_left hnot
    have hnp : p ∉ added := fun hp => (List.pairwise_append.mp horder.later).2.2 p hp c hc hspends
    exact ⟨⟨hc, (List.mem_append.mp hp).resolve_left hnp, hspends⟩, hnp⟩
  have hparents : ∀ e ∈ pool, e.IsTRUC → _ := fun e he htruc =>
    hpool.ancestor_unique_iff.mp (h e he htruc).ancestor
  have hchildren : ∀ e ∈ pool, e.IsTRUC → _ := fun e he htruc =>
    hpool.descendant_unique_iff.mp (h e he htruc).descendant
  intro e he htruc
  have hin : e ∉ added → e ∈ pool := (List.mem_append.mp he).resolve_left
  have hkid : ∀ c, Child (added ++ pool) c e → c.IsTRUC := fun c hc => by
    by_cases hadded : c ∈ added
    · exact ((hnew c hadded).version e hc).mpr htruc
    · obtain ⟨hc, -⟩ := hold c e hc hadded
      exact (h e hc.2.1 htruc).child c hc
  refine ⟨?_, horder.ancestor_unique_iff.mpr ⟨fun a b ha hb => ?_, fun a b ha hb => ?_⟩,
    horder.descendant_unique_iff.mpr ⟨fun a b ha hb => ?_, fun a b ha hb => ?_⟩, ?_, hkid⟩
  · by_cases hadded : e ∈ added
    · exact (hnew e hadded).vsize_le htruc
    · exact (h e (hin hadded) htruc).vsize_le
  · by_cases hadded : e ∈ added
    · exact ((hnew e hadded).alone htruc b hb).2.1 a ha
    · exact (hparents e (hin hadded) htruc).1 a b (hold e a ha hadded).1 (hold e b hb hadded).1
  · by_cases hadded : e ∈ added
    · exact ((hnew e hadded).alone htruc a ha).2.2.1 b hb
    · obtain ⟨ha, hnot⟩ := hold e a ha hadded
      exact (hparents e (hin hadded) htruc).2 a b ha (hold a b hb hnot).1
  · by_cases haddedA : a ∈ added
    · exact (((hnew a haddedA).alone (hkid a ha) e ha).2.2.2.1 b hb).symm
    by_cases haddedB : b ∈ added
    · exact ((hnew b haddedB).alone (hkid b hb) e hb).2.2.2.1 a ha
    obtain ⟨ha, -⟩ := hold a e ha haddedA
    exact (hchildren e ha.2.1 htruc).1 a b ha (hold b e hb haddedB).1
  · by_cases haddedA : a ∈ added
    · exact ((hnew a haddedA).alone (hkid a ha) e ha).2.2.2.2 b hb
    by_cases haddedB : b ∈ added
    · -- the parent of a new entry has no parent of its own
      have htrucB := ((hnew b haddedB).version a hb).mpr (hkid a ha)
      exact ((hnew b haddedB).alone htrucB a hb).2.2.1 e ha
    obtain ⟨ha, -⟩ := hold a e ha haddedA
    exact (hchildren e ha.2.1 htruc).2 a b ha (hold b a hb haddedB).1
  · intro p hp
    by_cases hadded : e ∈ added
    · exact ⟨((hnew e hadded).version p hp).mp htruc, ((hnew e hadded).alone htruc p hp).1⟩
    · exact (h e (hin hadded) htruc).parent p (hold e p hp hadded).1

/-! ## What the counts say -/

private theorem eq_of_length_le_one {α : Type} {xs : List α} (hlength : xs.length ≤ 1) {x y : α}
    (hx : x ∈ xs) (hy : y ∈ xs) : x = y := by
  match xs with
  | [] => cases hx
  | [z] => rw [List.mem_singleton.mp hx, List.mem_singleton.mp hy]

section
variable (horder : LatestFirst spends pool)
include horder

theorem not_child_of_getAncestorCount (hentry : entry ∈ pool)
    (hcount : getAncestorCount pool entry ≤ 1) (g : CTxMemPoolEntry) : ¬ pool.Child entry g := by
  intro hchild
  have hpos := List.length_pos_of_mem ((horder.mem_collect hentry).mpr (.single hchild))
  rw [getAncestorCount, getAncestors, List.length_cons] at hcount
  omega

theorem mem_getDescendants :
    c ∈ getDescendants pool entry ↔ c ∈ pool ∧ (c = entry ∨ TransGen pool.Child c entry) := by
  rw [getDescendants, List.mem_filter, decide_eq_true_iff, getAncestors, List.mem_cons,
    @eq_comm _ entry]
  exact and_congr_right fun hc => or_congr_right (horder.mem_collect hc)

theorem mem_others (hchild : pool.Child c entry) :
    c ∈ (getDescendants pool entry).filter (· ≠ entry) := by
  refine List.mem_filter.mpr
    ⟨(mem_getDescendants horder).mpr ⟨hchild.1, .inr (.single hchild)⟩, decide_eq_true ?_⟩
  rintro rfl
  exact horder.not_among_self c hchild

theorem length_others_lt (hentry : entry ∈ pool) :
    ((getDescendants pool entry).filter (· ≠ entry)).length < getDescendantCount pool entry :=
  List.length_filter_lt_length_iff_exists.mpr
    ⟨entry, (mem_getDescendants horder).mpr ⟨hentry, .inl rfl⟩, by simp⟩

theorem not_child_of_getDescendantCount (hcount : getDescendantCount pool entry ≤ 1)
    (c : CTxMemPoolEntry) : ¬ pool.Child c entry := by
  intro hchild
  have hpos := List.length_pos_of_mem (mem_others horder hchild)
  have hlt := length_others_lt horder hchild.2.1
  omega

end

/-! ## One transaction -/

theorem TrucConsistent.cons {rest parents : CTxMemPool} (h : TrucConsistent pool)
    (horder : LatestFirst spends (new :: pool)) (hsub : rest.Sublist pool)
    (hparents : ∀ p, p ∈ parents ↔ p ∈ pool ∧ new.spends p = true)
    (hversion : ∀ p ∈ parents, (new.IsTRUC ↔ p.IsTRUC))
    (halone : new.IsTRUC → new.vsize ≤ TRUC_MAX_VSIZE ∧ parents.length ≤ 1 ∧
      ∀ p ∈ parents, new.vsize ≤ TRUC_CHILD_MAX_VSIZE ∧ getAncestorCount pool p ≤ 1 ∧
        ∀ c ∈ rest, ¬ pool.Child c p) :
    TrucConsistent (new :: rest) := by
  have hpool := horder.sublist (List.sublist_cons_self new pool)
  have hlater : ∀ e ∈ new :: rest, ¬ e.spends new = true := fun e he =>
    horder.not_depends_head (List.cons_subset_cons new hsub.subset he)
  have hrest : ∀ c p, Child (new :: rest) c p → p ∈ rest := fun c p hc => by
    obtain rfl | hp := List.mem_cons.mp hc.2.1
    · exact absurd hc.2.2 (hlater c hc.1)
    · exact hp
  have hmem : ∀ p, Child (new :: rest) new p → p ∈ parents := fun p hp =>
    (hparents p).mpr ⟨hsub.subset (hrest new p hp), hp.2.2⟩
  refine @TrucConsistent.append rest [new] (h.sublist hsub) (horder.sublist (hsub.cons_cons new)) ?_
  intro e he
  obtain rfl := List.mem_singleton.mp he
  refine ⟨fun htruc => (halone htruc).1, fun p hp => hversion p (hmem p hp), fun htruc p hp => ?_⟩
  obtain ⟨-, hlength, halone⟩ := halone htruc
  obtain ⟨hsize, hcount, hchild⟩ := halone p (hmem p hp)
  have hp' := hrest e p hp
  refine ⟨hsize, fun q hq => eq_of_length_le_one hlength (hmem q hq) (hmem p hp), fun g hg => ?_,
    fun c hc => ?_, fun c hc => hlater c hc.1 hc.2.2⟩
  · exact not_child_of_getAncestorCount hpool (hsub.subset hp') hcount g
      ⟨hsub.subset hp', hsub.subset (hrest p g hg), hg.2.2⟩
  · obtain rfl | hc' := List.mem_cons.mp hc.1
    · rfl
    · exact absurd ⟨hsub.subset hc', hsub.subset hp', hc.2.2⟩ (hchild c hc')

theorem mem_evict {txids : List Uint256} (h : entry ∈ evict pool txids) :
    entry.tx.getHash ∉ txids := by
  have hall := (List.mem_filter.mp h).2
  rw [getAncestors, List.all_cons, Bool.and_eq_true] at hall
  exact of_decide_eq_true hall.1

variable {tx : CTransaction} {parents package : List CTxMemPoolEntry} {parent : CTransaction}
  {vsize : Int}

theorem checkInheritance_eq_none (h : checkInheritance tx parent = none) :
    tx.version = TRUC_VERSION ↔ parent.version = TRUC_VERSION := by
  rw [checkInheritance] at h
  split at h
  · cases h
  · split at h
    · cases h
    · tauto

theorem singleTRUCChecks_keeps (h : TrucConsistent pool) (horder : LatestFirst spends (new :: pool))
    (hparents : parents.Perm (getParents pool new.tx)) (conflicts : List Uint256) :
    match singleTRUCChecks pool new.tx parents conflicts new.vsize with
    | none => TrucConsistent (new :: evict pool conflicts)
    | some (_, some sibling) => TrucConsistent (new :: evict pool (sibling.getHash :: conflicts))
    | some (_, none) => True := by
  have hpool := horder.sublist (List.sublist_cons_self new pool)
  have hmem : ∀ p, p ∈ parents ↔ p ∈ pool ∧ new.spends p = true := fun p =>
    hparents.mem_iff.trans List.mem_filter
  rw [singleTRUCChecks.eq_def]
  cases hinherit : parents.findSome? fun entry =>
      checkInheritance new.tx entry.tx with
  | some reason => trivial
  | none =>
    have hversion : ∀ p ∈ parents, (new.IsTRUC ↔ p.IsTRUC) := fun p hp =>
      checkInheritance_eq_none (List.findSome?_eq_none_iff.mp hinherit p hp)
    have hkeeps : ∀ txids, (new.IsTRUC → new.vsize ≤ TRUC_MAX_VSIZE ∧ parents.length ≤ 1 ∧
        ∀ p ∈ parents, new.vsize ≤ TRUC_CHILD_MAX_VSIZE ∧ getAncestorCount pool p ≤ 1 ∧
          ∀ c ∈ evict pool txids, ¬ pool.Child c p) →
        TrucConsistent (new :: evict pool txids) := fun txids =>
      h.cons horder List.filter_sublist hmem hversion
    dsimp only
    by_cases htruc : new.tx.version = TRUC_VERSION
    case neg =>
      rw [if_pos htruc]
      exact hkeeps conflicts fun htruc' => absurd htruc' htruc
    rw [if_neg (not_not_intro htruc)]
    by_cases hsize : new.vsize > TRUC_MAX_VSIZE
    · rw [if_pos hsize]
      trivial
    rw [if_neg hsize]
    by_cases hlength : parents.length + 1 > TRUC_ANCESTOR_LIMIT
    · rw [if_pos hlength]
      trivial
    rw [if_neg hlength]
    have hone : parents.length ≤ 1 := by
      rw [TRUC_ANCESTOR_LIMIT] at hlength
      omega
    cases parents with
    | nil => exact hkeeps conflicts fun _ => ⟨not_lt.mp hsize, hone, fun p hp => by cases hp⟩
    | cons parent others =>
      obtain rfl : others = [] := List.length_eq_zero_iff.mp (by simpa using hone)
      have hparent : parent ∈ pool := ((hmem parent).mp List.mem_cons_self).1
      have htrucParent := (hversion parent List.mem_cons_self).mp htruc
      dsimp only
      by_cases hcount : getAncestorCount pool parent + 1 > TRUC_ANCESTOR_LIMIT
      · rw [if_pos hcount]
        trivial
      rw [if_neg hcount]
      by_cases hchild : new.vsize > TRUC_CHILD_MAX_VSIZE
      · rw [if_pos hchild]
        trivial
      rw [if_neg hchild]
      have hkeeps' : ∀ txids, (∀ c ∈ evict pool txids, ¬ pool.Child c parent) →
          TrucConsistent (new :: evict pool txids) := fun txids hc =>
        hkeeps txids fun _ => ⟨not_lt.mp hsize, hone, fun p hp => by
          obtain rfl := List.mem_singleton.mp hp
          rw [TRUC_ANCESTOR_LIMIT] at hcount
          exact ⟨not_lt.mp hchild, by omega, hc⟩⟩
      split_ifs with hlimit hconsider
      · -- the only other child is the sibling
        obtain ⟨htwo, hhead⟩ := hconsider
        obtain ⟨sibling, hsibling, -⟩ := Option.map_eq_some_iff.mp hhead
        rw [hsibling]
        refine hkeeps' _ fun c hc hchild => mem_evict hc ?_
        have hlt := length_others_lt hpool hparent
        rw [eq_of_length_le_one (by omega) (mem_others hpool hchild)
          (List.mem_of_mem_head? hsibling)]
        exact List.mem_cons_self
      · trivial
      · refine hkeeps' conflicts fun c hc hchild => ?_
        rw [not_and_or, not_not, TRUC_DESCENDANT_LIMIT] at hlimit
        obtain hlimit | hreplaced := hlimit
        · exact not_child_of_getDescendantCount hpool (by omega) c hchild
        · obtain ⟨d, hd, hconflict⟩ := List.any_eq_true.mp hreplaced
          obtain ⟨hd, hne⟩ := List.mem_filter.mp hd
          have hreach := ((mem_getDescendants hpool).mp hd).2.resolve_left (of_decide_eq_true hne)
          obtain rfl := (h parent hparent htrucParent).descendant c d (.single hchild) hreach
          exact mem_evict hc (of_decide_eq_true hconflict)

/-! ## A package -/

theorem checkRelative_eq_none {ptx other : CTransaction}
    (h : checkRelative ptx parent other = none) :
    ¬ other.spends parent = true ∧ ¬ other.spends ptx = true := by
  rw [checkRelative, List.findSome?_eq_none_iff] at h
  simp only [CTransaction.spends, List.any_eq_true, beq_iff_eq]
  refine ⟨fun ⟨input, hinput, heq⟩ => ?_, fun ⟨input, hinput, heq⟩ => ?_⟩
  · simpa [heq] using h input hinput
  · have hnone := h input hinput
    rw [if_pos heq] at hnone
    split at hnone <;> cases hnone

theorem packageTRUCChecks_eq_none {package : List CTransaction}
    (h : packageTRUCChecks pool tx vsize package parents = none)
    (htruc : tx.version = TRUC_VERSION) :
    vsize ≤ TRUC_MAX_VSIZE ∧
      (parents.map (·.tx) ++ findInPackageParents package tx).length ≤ 1 ∧
      (∀ p ∈ parents, getAncestorCount pool p ≤ 1 ∧ getDescendantCount pool p ≤ 1) ∧
      ∀ p ∈ parents.map (·.tx) ++ findInPackageParents package tx,
        vsize ≤ TRUC_CHILD_MAX_VSIZE ∧ p.version = TRUC_VERSION ∧
        ∀ other ∈ package, other ≠ tx → ¬ other.spends p = true ∧ ¬ other.spends tx = true := by
  rw [packageTRUCChecks] at h
  generalize findInPackageParents package tx = inPackage at h ⊢
  rw [if_pos htruc] at h
  cases hinfo : parentInfo pool parents inPackage with
  | none =>
    match parents, inPackage with
    | [], [] =>
      simp only [hinfo] at h
      split_ifs at h with hsize
      simpa using hsize
  | some parent =>
    cases hrelatives : (package.filter (· != tx)).findSome?
        (checkRelative tx parent.tx) with
    | some reason =>
      simp only [hinfo, hrelatives] at h
      split_ifs at h
    | none =>
      simp only [hinfo, hrelatives] at h
      split_ifs at h with hsize hlength hcount hchild hversion hdescendant
      rw [TRUC_ANCESTOR_LIMIT] at hlength hcount
      have hothers : ∀ other ∈ package, other ≠ tx →
          ¬ other.spends parent.tx = true ∧ ¬ other.spends tx = true := fun other hmem hne =>
        checkRelative_eq_none (List.findSome?_eq_none_iff.mp hrelatives other
          (List.mem_filter.mpr ⟨hmem, bne_iff_ne.mpr hne⟩))
      have hone : parents.map (·.tx) ++ inPackage = [parent.tx] ∧
          ∀ p ∈ parents, getAncestorCount pool p ≤ 1 ∧ getDescendantCount pool p ≤ 1 := by
        match parents, inPackage with
        | [p], [] =>
          obtain rfl := Option.some.inj hinfo
          simp_all
        | [], [q] =>
          obtain rfl := Option.some.inj hinfo
          simp
        | _ :: _ :: _, _ | [_], _ :: _ | [], _ :: _ :: _ =>
          simp only [List.length_cons] at hlength
          omega
      rw [hone.1]
      refine ⟨hsize, le_rfl, hone.2, fun p hp => ?_⟩
      obtain rfl := List.mem_singleton.mp hp
      exact ⟨not_lt.mp hchild, not_not.mp hversion, hothers⟩

theorem packageTRUCChecks_version {p : CTransaction} {package : List CTransaction}
    (h : packageTRUCChecks pool tx vsize package parents = none)
    (hp : p ∈ parents.map (·.tx) ++ findInPackageParents package tx) :
    tx.version = TRUC_VERSION ↔ p.version = TRUC_VERSION := by
  by_cases htruc : tx.version = TRUC_VERSION
  · exact iff_of_true htruc ((packageTRUCChecks_eq_none h htruc).2.2.2 p hp).2.1
  · rw [packageTRUCChecks, if_neg htruc] at h
    refine iff_of_false htruc fun hversion => ?_
    have hnone := List.findSome?_eq_none_iff.mp h p hp
    rw [if_pos hversion] at hnone
    cases hnone

theorem mem_findInPackageParents (horder : LatestFirst spends package.reverse)
    (hdistinct : (package.map (·.tx)).Nodup) (hnew : new ∈ package) (hentry : entry ∈ package)
    (hspends : new.spends entry = true) :
    entry.tx ∈ findInPackageParents (package.map (·.tx)) new.tx := by
  obtain ⟨before, after, rfl⟩ := List.append_of_mem hnew
  have hsorted := List.pairwise_append.mp (List.pairwise_reverse.mp horder.later)
  -- a parent stands before its child
  have hbefore : entry ∈ before := by
    obtain hbefore | hafter := List.mem_append.mp hentry
    · exact hbefore
    · obtain rfl | hafter := List.mem_cons.mp hafter
      · exact absurd hspends (horder.self entry (List.mem_reverse.mpr hentry))
      · exact absurd hspends ((List.pairwise_cons.mp hsorted.2.1).1 entry hafter)
  rw [List.map_append, List.nodup_append] at hdistinct
  refine List.mem_filter.mpr ⟨?_, hspends⟩
  rw [List.map_append, List.takeWhile_append_of_pos fun tx htx =>
    bne_iff_ne.mpr (hdistinct.2.2 tx htx new.tx (by simp))]
  exact List.mem_append_left _ (List.mem_map_of_mem hbefore)

theorem packageTRUCChecks_keeps (h : TrucConsistent pool)
    (horder : LatestFirst spends (package.reverse ++ pool))
    (hdistinct : ((package.reverse ++ pool).map (·.tx)).Nodup)
    (hchecks : ∀ e ∈ package, ∃ parents, parents.Perm (getParents pool e.tx) ∧
      packageTRUCChecks pool e.tx e.vsize (package.map (·.tx)) parents = none) :
    TrucConsistent (package.reverse ++ pool) := by
  have hpool := horder.sublist (List.sublist_append_right package.reverse pool)
  have hinj := List.inj_on_of_nodup_map hdistinct
  have hmem : ∀ {e}, e ∈ package.reverse ++ pool ↔ e ∈ package ∨ e ∈ pool := by simp
  have hlater : ∀ e ∈ pool, ∀ p ∈ package, ¬ e.spends p = true := fun e he p hp =>
    (List.pairwise_append.mp horder.later).2.2 p (List.mem_reverse.mpr hp) e he
  have hself := horder.not_among_self
  have hcandidate : ∀ new ∈ package, ∀ parents : List CTxMemPoolEntry,
      parents.Perm (getParents pool new.tx) → ∀ p, Child (package.reverse ++ pool) new p →
      (p ∈ pool → p ∈ parents) ∧
        p.tx ∈ parents.map (·.tx) ++ findInPackageParents (package.map (·.tx)) new.tx := by
    intro new hnew parents hparents p hp
    have hin : p ∈ pool → p ∈ parents := fun hpool =>
      hparents.mem_iff.mpr (List.mem_filter.mpr ⟨hpool, hp.2.2⟩)
    refine ⟨hin, ?_⟩
    obtain hpackage | hp' := hmem.mp hp.2.1
    · rw [List.map_append, List.map_reverse] at hdistinct
      exact List.mem_append_right _ (mem_findInPackageParents
        (horder.sublist (List.sublist_append_left _ _))
        (List.nodup_reverse.mp (List.nodup_append.mp hdistinct).1) hnew hpackage hp.2.2)
    · exact List.mem_append_left _ (List.mem_map_of_mem (hin hp'))
  -- a child of version 3 has no relatives but its parent in the package
  have hfacts : ∀ new ∈ package, new.IsTRUC → ∀ p, Child (package.reverse ++ pool) new p →
      new.vsize ≤ TRUC_CHILD_MAX_VSIZE ∧
      (∀ q, Child (package.reverse ++ pool) new q → q = p) ∧
      (p ∈ pool → getAncestorCount pool p ≤ 1 ∧ getDescendantCount pool p ≤ 1) ∧
      ∀ other ∈ package, other ≠ new → ¬ other.spends p = true ∧ ¬ other.spends new = true := by
    intro new hnew htruc p hp
    obtain ⟨parents, hparents, hnone⟩ := hchecks new hnew
    obtain ⟨-, hlength, hcounts, hparent⟩ := packageTRUCChecks_eq_none hnone htruc
    have hcand := hcandidate new hnew parents hparents
    obtain ⟨hsize, -, hothers⟩ := hparent p.tx (hcand p hp).2
    refine ⟨hsize, fun q hq => hinj hq.2.1 hp.2.1
      (eq_of_length_le_one hlength (hcand q hq).2 (hcand p hp).2),
      fun hp' => hcounts p ((hcand p hp).1 hp'), fun other hother hne => ?_⟩
    refine hothers other.tx (List.mem_map_of_mem hother) fun heq => hne ?_
    exact hinj (hmem.mpr (.inl hother)) (hmem.mpr (.inl hnew)) heq
  refine h.append horder fun new hnew => ?_
  rw [List.mem_reverse] at hnew
  obtain ⟨parents, hparents, hnone⟩ := hchecks new hnew
  have hversion : ∀ p, Child (package.reverse ++ pool) new p → (new.IsTRUC ↔ p.IsTRUC) :=
    fun p hp => packageTRUCChecks_version hnone (hcandidate new hnew parents hparents p hp).2
  refine ⟨fun htruc => (packageTRUCChecks_eq_none hnone htruc).1, hversion, fun htruc p hp => ?_⟩
  obtain ⟨hsize, hunique, hcounts, hothers⟩ := hfacts new hnew htruc p hp
  refine ⟨hsize, hunique, fun g hg => ?_, fun c hc => ?_, fun c hc => ?_⟩
  · obtain hpackage | hp' := hmem.mp hp.2.1
    · have hne : new ≠ p := fun heq => hself p (heq ▸ hp)
      exact ((hfacts p hpackage ((hversion p hp).mp htruc) g hg).2.2.2 new hnew hne).2 hp.2.2
    · obtain hg' | hg' := hmem.mp hg.2.1
      · exact hlater p hp' g hg' hg.2.2
      · exact not_child_of_getAncestorCount hpool hp' (hcounts hp').1 g ⟨hp', hg', hg.2.2⟩
  · obtain hc' | hc' := hmem.mp hc.1
    · by_contra hne
      exact (hothers c hc' hne).1 hc.2.2
    · obtain hp' | hp' := hmem.mp hp.2.1
      · exact absurd hc.2.2 (hlater c hc' p hp')
      · exact absurd ⟨hc', hp', hc.2.2⟩ (not_child_of_getDescendantCount hpool (hcounts hp').2 c)
  · obtain hc' | hc' := hmem.mp hc.1
    · by_cases hne : c = new
      · exact hself new (hne ▸ hc)
      · exact (hothers c hc' hne).2 hc.2.2
    · exact hlater c hc' new hnew hc.2.2

/-- From a mempool within the rules the checks lead to one within the rules.  The transactions of a
package stand after those they spend from, and are in the mempool neither themselves nor as what
an entry spends from. -/
theorem trucChecks_keep_consistency (h : TrucConsistent pool) :
    (∀ (new : CTxMemPoolEntry) (parents : List CTxMemPoolEntry) (conflicts : List Uint256),
      LatestFirst spends (new :: pool) → parents.Perm (getParents pool new.tx) →
      match singleTRUCChecks pool new.tx parents conflicts new.vsize with
      | none => TrucConsistent (new :: evict pool conflicts)
      | some (_, some sibling) => TrucConsistent (new :: evict pool (sibling.getHash :: conflicts))
      | some (_, none) => True) ∧
    ∀ package : List CTxMemPoolEntry, LatestFirst spends (package.reverse ++ pool) →
      ((package.reverse ++ pool).map (·.tx)).Nodup →
      (∀ e ∈ package, ∃ parents, parents.Perm (getParents pool e.tx) ∧
        packageTRUCChecks pool e.tx e.vsize (package.map (·.tx)) parents = none) →
      TrucConsistent (package.reverse ++ pool) :=
  ⟨fun _ _ conflicts horder hparents => singleTRUCChecks_keeps h horder hparents conflicts,
    fun _ horder hdistinct hchecks => packageTRUCChecks_keeps h horder hdistinct hchecks⟩

private def trucEntry (prevout : COutPoint) (vsize : Int) : CTxMemPoolEntry :=
  ⟨⟨[⟨prevout, [], 0, []⟩], [⟨5000, []⟩], TRUC_VERSION, 0⟩, vsize⟩

private def trucParent : CTxMemPoolEntry := trucEntry ⟨.null, 0⟩ 10000

private def trucChild : CTxMemPoolEntry := trucEntry ⟨trucParent.tx.getHash, 0⟩ 1000

/-- A child enters where its parent is, and both enter as a package next to another entry. -/
theorem trucChecks_keep_consistency_pair :
    TrucConsistent (trucChild :: evict [trucParent] []) ∧
      TrucConsistent [trucChild, trucParent, trucEntry ⟨.null, 1⟩ 500] := by
  have henters : ∀ {pool}, TrucConsistent pool → ∀ new parents, LatestFirst spends (new :: pool) →
      parents.Perm (getParents pool new.tx) →
      singleTRUCChecks pool new.tx parents [] new.vsize = none →
      TrucConsistent (new :: evict pool []) := by
    intro pool h new parents horder hparents hnone
    have hkeeps := (trucChecks_keep_consistency h).1 new parents [] horder hparents
    rwa [hnone] at hkeeps
  have hfirst := fun new => henters (nofun : TrucConsistent []) new []
  refine ⟨henters (hfirst trucParent ⟨?_, ?_⟩ .rfl ?_) trucChild [trucParent] ⟨?_, ?_⟩ ?_ ?_,
    (trucChecks_keep_consistency (hfirst (trucEntry ⟨.null, 1⟩ 500) ⟨?_, ?_⟩ .rfl ?_)).2
      [trucParent, trucChild] ⟨?_, ?_⟩ ?_ fun e he => ⟨[], ?_⟩⟩
  case refine_14 =>
    revert e
    decide +kernel
  all_goals decide +kernel

end Rules

end HcsCoin
