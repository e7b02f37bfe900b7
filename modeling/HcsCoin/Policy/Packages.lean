import HcsCoin.Consensus.TxCheck
import HcsCoin.Policy.TrucPolicy

/-!
# Packages

The context-free checks of `policy/packages.cpp` on a list of transactions that
are submitted together.
-/

namespace HcsCoin

def MAX_PACKAGE_COUNT : UInt32 := 25
def MAX_PACKAGE_WEIGHT : UInt32 := 404000

inductive PackageValidationResult where
  | unset
  | policy
  | tx
  | mempoolError
  deriving DecidableEq

def CTransaction.weight (tx : CTransaction) : Nat :=
  (serializeTransaction false tx).length * (WITNESS_SCALE_FACTOR - 1) +
    (serializeTransaction true tx).length

def getTransactionWeight (tx : CTransaction) : Int32 := Int32.ofNat tx.weight

def CTransaction.spentOutpoints (tx : CTransaction) : Finset COutPoint :=
  (tx.vin.map (·.prevout)).toFinset

def packageTxids (txns : List CTransaction) : Finset Uint256 := (txns.map (·.getHash)).toFinset

def isTopoSortedPackage (laterTxids : Finset Uint256) : List CTransaction → Bool
  | [] => true
  | tx :: txns =>
    if tx.vin.any (·.prevout.hash ∈ laterTxids) then false
    else isTopoSortedPackage (laterTxids.erase tx.getHash) txns

def isConsistentFrom (inputsSeen : Finset COutPoint) : List CTransaction → Bool
  | [] => true
  | tx :: txns =>
    if tx.vin.isEmpty then false
    else if tx.vin.any (·.prevout ∈ inputsSeen) then false
    else isConsistentFrom (inputsSeen ∪ tx.spentOutpoints) txns

def isConsistentPackage (txns : List CTransaction) : Bool := isConsistentFrom ∅ txns

/-- The sum starts from the literal `0`, so that `std::accumulate` keeps it in an `int`. -/
def totalPackageWeight (txns : List CTransaction) : Int32 :=
  txns.foldl (fun sum tx => (sum.toInt64 + (getTransactionWeight tx).toInt64).toInt32) 0

def isWellFormedPackage (txns : List CTransaction) :
    Except (PackageValidationResult × String) Unit :=
  let packageCount := UInt32.ofNat txns.length
  let laterTxids := packageTxids txns
  if packageCount > MAX_PACKAGE_COUNT then .error (.policy, "package-too-many-transactions")
  else if packageCount > 1 ∧ (totalPackageWeight txns).toInt > MAX_PACKAGE_WEIGHT.toNat then
    .error (.policy, "package-too-large")
  else if laterTxids.card ≠ txns.length then .error (.policy, "package-contains-duplicates")
  else if !isTopoSortedPackage laterTxids txns then .error (.policy, "package-not-sorted")
  else if !isConsistentPackage txns then .error (.policy, "conflict-in-package")
  else .ok ()

def isChildWithParents (package : List CTransaction) : Bool :=
  if package.length < 2 then false
  else
    match package.getLast? with
    | none => false
    | some child =>
      let inputTxids := (child.vin.map (·.prevout.hash)).toFinset
      package.dropLast.all (·.getHash ∈ inputTxids)

def isChildWithParentsTree (package : List CTransaction) : Bool :=
  if !isChildWithParents package then false
  else
    let parentTxids := packageTxids package.dropLast
    package.dropLast.all fun ptx => ptx.vin.all (·.prevout.hash ∉ parentTxids)

/-! ## The loops -/

variable {tx child : CTransaction} {txns front : List CTransaction}

theorem any_mem_packageTxids_eq_false :
    tx.vin.any (·.prevout.hash ∈ packageTxids txns) = false ↔
      ∀ parent ∈ txns, tx.spends parent = false := by
  simp only [packageTxids, CTransaction.spends, List.any_eq_false, decide_eq_true_eq, List.mem_toFinset,
    List.mem_map, beq_iff_eq]
  constructor
  · intro hnone parent hparent input hinput hhash
    exact hnone input hinput ⟨parent, hparent, hhash.symm⟩
  · rintro hnone input hinput ⟨parent, hparent, hhash⟩
    exact hnone parent hparent input hinput hhash.symm

/-- The set holds the packageTxids of the transactions still to come, this one included. -/
theorem isTopoSortedPackage_iff (hdistinct : (txns.map (·.getHash)).Nodup) :
    isTopoSortedPackage (packageTxids txns) txns = true ↔
      (∀ tx ∈ txns, tx.spends tx = false) ∧ txns.Pairwise fun tx later => tx.spends later = false := by
  induction txns with
  | nil => simp [isTopoSortedPackage]
  | cons tx txns ih =>
    rw [List.map_cons, List.nodup_cons] at hdistinct
    have herase : (packageTxids (tx :: txns)).erase tx.getHash = packageTxids txns := by
      rw [packageTxids, List.map_cons, List.toFinset_cons,
        Finset.erase_insert (by simpa using hdistinct.1), packageTxids]
    have hany := @any_mem_packageTxids_eq_false tx (tx :: txns)
    rw [List.forall_mem_cons] at hany
    rw [isTopoSortedPackage, herase, List.pairwise_cons, List.forall_mem_cons]
    cases hlater : tx.vin.any (·.prevout.hash ∈ packageTxids (tx :: txns)) with
    | true =>
      rw [if_pos rfl]
      refine iff_of_false nofun fun ⟨hself, hrest⟩ => ?_
      exact Bool.false_ne_true ((hany.mpr ⟨hself.1, hrest.1⟩).symm.trans hlater)
    | false =>
      obtain ⟨hself, hnone⟩ := hany.mp hlater
      rw [if_neg Bool.false_ne_true, ih hdistinct.2]
      simp only [hself, true_and]
      exact ⟨fun h => ⟨h.1, hnone, h.2⟩, fun h => ⟨h.1, h.2.2⟩⟩

theorem isConsistentFrom_iff {inputsSeen : Finset COutPoint} :
    isConsistentFrom inputsSeen txns = true ↔
      (∀ tx ∈ txns, tx.vin ≠ [] ∧ Disjoint inputsSeen tx.spentOutpoints) ∧
        txns.Pairwise fun tx later => Disjoint tx.spentOutpoints later.spentOutpoints := by
  induction txns generalizing inputsSeen with
  | nil => simp [isConsistentFrom]
  | cons tx txns ih =>
    have hany : tx.vin.any (·.prevout ∈ inputsSeen) = false ↔
        Disjoint inputsSeen tx.spentOutpoints := by
      rw [disjoint_comm, Finset.disjoint_left]
      simp [CTransaction.spentOutpoints]
    rw [isConsistentFrom, List.pairwise_cons, List.forall_mem_cons]
    by_cases hvin : tx.vin = []
    · simp [hvin]
    by_cases hseen : Disjoint inputsSeen tx.spentOutpoints
    · rw [if_neg (by simpa using hvin), hany.mpr hseen, if_neg Bool.false_ne_true, ih]
      simp only [Finset.disjoint_union_left]
      constructor
      · rintro ⟨hall, hlater⟩
        exact ⟨⟨⟨hvin, hseen⟩, fun later h => ⟨(hall later h).1, (hall later h).2.1⟩⟩,
          fun later h => (hall later h).2.2, hlater⟩
      · rintro ⟨⟨_, hall⟩, hfirst, hlater⟩
        exact ⟨fun later h => ⟨(hall later h).1, (hall later h).2, hfirst later h⟩, hlater⟩
    · rw [if_neg (by simpa using hvin), if_pos (Bool.of_not_eq_false (hany.not.mpr hseen))]
      exact iff_of_false nofun fun h => hseen h.1.1.2

theorem totalPackageWeight_eq : totalPackageWeight txns = Int32.ofNat (txns.map (·.weight)).sum := by
  have hfold (start : Nat) :
      txns.foldl (fun sum tx => (sum.toInt64 + (getTransactionWeight tx).toInt64).toInt32)
        (Int32.ofNat start) = Int32.ofNat (start + (txns.map (·.weight)).sum) := by
    induction txns generalizing start with
    | nil => rfl
    | cons tx txns ih =>
      rw [List.foldl_cons, Int64.toInt32_add, Int32.toInt32_toInt64, Int32.toInt32_toInt64,
        getTransactionWeight, ← Int32.ofNat_add, ih, List.map_cons, List.sum_cons, Nat.add_assoc]
  simpa [totalPackageWeight] using hfold 0

theorem length_le_sum_weight : txns.length ≤ (txns.map (·.weight)).sum := by
  induction txns with
  | nil => rfl
  | cons tx txns ih =>
    have hpos : 1 ≤ tx.weight := by
      simp only [CTransaction.weight, serializeTransaction, serUInt32, List.length_append,
        Foundation.leBytes_length]
      omega
    rw [List.map_cons, List.sum_cons, List.length_cons]
    omega

/-! ## What they decide -/

/-- The transaction at `j` spends an output of the one at `i`. -/
def SpendEdge (txns : List CTransaction) (i j : Fin txns.length) : Prop :=
  txns[j].spends txns[i] = true

structure WellFormedPackage (txns : List CTransaction) : Prop where
  count : txns.length ≤ MAX_PACKAGE_COUNT.toNat
  weight : 2 ≤ txns.length → (txns.map (·.weight)).sum ≤ MAX_PACKAGE_WEIGHT.toNat
  distinct : (txns.map (·.getHash)).Nodup
  sorted : ∀ i j, SpendEdge txns i j → i < j
  inputs : ∀ tx ∈ txns, tx.vin ≠ []
  consistent : txns.Pairwise fun tx later => Disjoint tx.spentOutpoints later.spentOutpoints

theorem sorted_iff :
    ((∀ tx ∈ txns, tx.spends tx = false) ∧ txns.Pairwise fun tx later => tx.spends later = false) ↔
      ∀ i j, SpendEdge txns i j → i < j := by
  rw [List.pairwise_iff_getElem, List.forall_mem_iff_getElem]
  constructor
  · rintro ⟨hself, hpairs⟩ i j hedge
    rcases Nat.lt_trichotomy i j with hlt | heq | hgt
    · exact hlt
    · cases Fin.ext heq
      exact absurd hedge (Bool.eq_false_iff.mp (hself i i.isLt))
    · exact absurd hedge (Bool.eq_false_iff.mp (hpairs j i j.isLt i.isLt hgt))
  · intro hall
    refine ⟨fun i hi => Bool.eq_false_iff.mpr fun hspends => ?_,
      fun i j hi hj hlt => Bool.eq_false_iff.mpr fun hspends => ?_⟩
    · exact Nat.lt_irrefl i (hall ⟨i, hi⟩ ⟨i, hi⟩ hspends)
    · exact Nat.lt_asymm hlt (hall ⟨j, hj⟩ ⟨i, hi⟩ hspends)

theorem isWellFormedPackage_eq_ok (hweight : (txns.map (·.weight)).sum < 2 ^ 31) :
    isWellFormedPackage txns = .ok () ↔ WellFormedPackage txns := by
  have hlength := @length_le_sum_weight txns
  have hsize : (UInt32.ofNat txns.length).toNat = txns.length := by
    rw [UInt32.toNat_ofNat']
    exact Nat.mod_eq_of_lt (by omega)
  have htotal : (totalPackageWeight txns).toInt = ((txns.map (·.weight)).sum : Nat) := by
    rw [totalPackageWeight_eq]
    exact Int32.toInt_ofNat_of_lt hweight
  have hcard : (packageTxids txns).card = txns.length ↔ (txns.map (·.getHash)).Nodup := by
    rw [← Multiset.coe_nodup, ← Multiset.toFinset_card_eq_card_iff_nodup]
    simp [packageTxids]
  have hconsistent : isConsistentPackage txns = true ↔ _ := isConsistentFrom_iff
  simp only [Finset.disjoint_empty_left, and_true] at hconsistent
  simp only [isWellFormedPackage, gt_iff_lt, UInt32.lt_iff_toNat_lt, hsize, htotal, Int.ofNat_lt]
  split_ifs with hcount hlarge hduplicates hunsorted hconflict
  · exact iff_of_false nofun fun h => Nat.not_lt.mpr h.count hcount
  · exact iff_of_false nofun fun h => Nat.not_lt.mpr (h.weight hlarge.1) hlarge.2
  · exact iff_of_false nofun fun h => hduplicates (hcard.mpr h.distinct)
  all_goals have hnodup := hcard.mp (not_not.mp hduplicates)
  all_goals have hsorted := (isTopoSortedPackage_iff hnodup).trans sorted_iff
  · exact iff_of_false nofun fun h => absurd (hsorted.mpr h.sorted) (by simpa using hunsorted)
  · exact iff_of_false nofun fun h =>
      absurd (hconsistent.mpr ⟨h.inputs, h.consistent⟩) (by simpa using hconflict)
  · obtain ⟨hinputs, hspent⟩ := hconsistent.mp (by simpa using hconflict)
    refine iff_of_true rfl ⟨Nat.not_lt.mp hcount, fun htwo => ?_, hnodup,
      hsorted.mp (by simpa using hunsorted), hinputs, hspent⟩
    exact Nat.not_lt.mp fun hlt => hlarge ⟨htwo, hlt⟩

theorem isChildWithParentsTree_snoc :
    isChildWithParentsTree (front ++ [child]) = true ↔ front ≠ [] ∧
      (∀ parent ∈ front, child.spends parent = true) ∧
        ∀ ptx ∈ front, ∀ parent ∈ front, ptx.spends parent = false := by
  have hparents : isChildWithParents (front ++ [child]) = true ↔
      front ≠ [] ∧ ∀ parent ∈ front, child.spends parent = true := by
    rw [isChildWithParents, List.getLast?_concat, List.dropLast_concat]
    cases front <;> simp [CTransaction.spends]
  have hnone (ptx : CTransaction) : ptx.vin.all (·.prevout.hash ∉ packageTxids front) = true ↔
      ∀ parent ∈ front, ptx.spends parent = false := by
    rw [← any_mem_packageTxids_eq_false, List.any_eq_false, List.all_eq_true]
    simp only [decide_eq_true_eq]
  rw [isChildWithParentsTree, List.dropLast_concat, ← and_assoc, ← hparents]
  cases isChildWithParents (front ++ [child]) with
  | false => simp
  | true =>
    rw [if_neg (by decide)]
    simp only [List.all_eq_true, true_and, ← hnone]

/-- `IsWellFormedPackage` decides the rules for packages, and among those packages
`IsChildWithParentsTree` finds the ones in which the others are parents of the last and of
nothing else. -/
theorem isWellFormedPackage_and_tree_iff (hweight : (txns.map (·.weight)).sum < 2 ^ 31) :
    (isWellFormedPackage txns = .ok () ↔ WellFormedPackage txns) ∧
      (WellFormedPackage txns →
        (isChildWithParentsTree txns = true ↔ 2 ≤ txns.length ∧
          ∀ i j, SpendEdge txns i j ↔ j.val + 1 = txns.length ∧ i ≠ j)) := by
  refine ⟨isWellFormedPackage_eq_ok hweight, fun hform => ?_⟩
  have hsorted := hform.sorted
  rcases List.eq_nil_or_concat' txns with rfl | ⟨front, child, rfl⟩
  · simp [isChildWithParentsTree, isChildWithParents]
  have hfront {i : Nat} (hi : i < front.length) (hi' : i < (front ++ [child]).length) :
      (front ++ [child])[i] = front[i] := List.getElem_append_left hi
  have hlast (h : front.length < (front ++ [child]).length) :
      (front ++ [child])[front.length] = child := List.getElem_concat_length rfl h
  have hlength : (front ++ [child]).length = front.length + 1 := by simp
  rw [isChildWithParentsTree_snoc, ← List.length_pos_iff]
  constructor
  · rintro ⟨hpos, hchild, hothers⟩
    refine ⟨by omega, fun i ⟨j, hjlt⟩ => ⟨fun hedge => ?_, fun ⟨hj, hij⟩ => ?_⟩⟩
    · have hlt : i.val < j := hsorted i ⟨j, hjlt⟩ hedge
      refine ⟨Decidable.byContradiction fun hj => ?_, Fin.ne_of_lt hlt⟩
      have hj' : j < front.length := by
        simp only at hj
        omega
      have hi' : i.val < front.length := by omega
      rw [SpendEdge, Fin.getElem_fin, Fin.getElem_fin, hfront hi', hfront hj'] at hedge
      have hnone := hothers front[j] (List.getElem_mem hj') front[i] (List.getElem_mem hi')
      exact Bool.false_ne_true (hnone.symm.trans hedge)
    · obtain rfl : j = front.length := by
        simp only at hj
        omega
      have hi : i.val < front.length := by
        have hne : i.val ≠ front.length := fun h => hij (Fin.ext h)
        omega
      rw [SpendEdge, Fin.getElem_fin, Fin.getElem_fin, hfront hi, hlast]
      exact hchild front[i] (List.getElem_mem hi)
  · rintro ⟨htwo, hall⟩
    refine ⟨by omega, fun parent hparent => ?_, fun ptx hptx parent hparent => ?_⟩
    · obtain ⟨i, hi, rfl⟩ := List.getElem_of_mem hparent
      have hedge := (hall ⟨i, by omega⟩ ⟨front.length, by omega⟩).mpr
        ⟨hlength.symm, Fin.ne_of_lt hi⟩
      rwa [SpendEdge, Fin.getElem_fin, Fin.getElem_fin, hfront hi, hlast] at hedge
    · obtain ⟨i, hi, rfl⟩ := List.getElem_of_mem hparent
      obtain ⟨j, hj, rfl⟩ := List.getElem_of_mem hptx
      refine Bool.eq_false_iff.mpr fun hspends => ?_
      rw [← hfront hi (by omega), ← hfront hj (by omega)] at hspends
      have hedge := (hall ⟨i, by omega⟩ ⟨j, by omega⟩).mp hspends
      have hj' : j + 1 = (front ++ [child]).length := hedge.1
      omega

theorem isWellFormedPackage_and_tree_iff_two :
    let parent : CTransaction := ⟨[⟨⟨.null, 0⟩, [], 0, []⟩], [⟨1, []⟩], 2, 0⟩
    let child : CTransaction := ⟨[⟨⟨parent.getHash, 0⟩, [], 0, []⟩], [⟨1, []⟩], 2, 0⟩
    WellFormedPackage [parent, child] ∧
      ∀ i j, SpendEdge [parent, child] i j ↔ j.val + 1 = [parent, child].length ∧ i ≠ j := by
  intro parent child
  have hweight : ([parent, child].map (·.weight)).sum < 2 ^ 31 := by decide
  obtain ⟨hform, htree⟩ := isWellFormedPackage_and_tree_iff hweight
  have hwell := hform.mp (by decide +kernel)
  exact ⟨hwell, ((htree hwell).mp (by decide +kernel)).2⟩

end HcsCoin
