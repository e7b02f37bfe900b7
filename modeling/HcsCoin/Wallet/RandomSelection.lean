import HcsCoin.Wallet.Search

/-!
# The randomized selections

`SelectCoinsSRD` and `KnapsackSolver` of `wallet/coinselection.cpp`.  The outcomes of the
random number generator are parameters: a shuffle may give any permutation, and every
call of `randbool` may return either value.
-/

namespace HcsCoin

open Foundation SelectionResult.Adds

def CHANGE_LOWER : Int := 50000

/-- What one `FastRandomContext` returns: the order of a shuffle, and the value of each call
of `randbool` by the number of calls before it. -/
structure FastRandomContext where
  shuffle : ∀ {α : Type}, List α → List α
  shuffle_perm : ∀ {α : Type} (l : List α), (shuffle l).Perm l
  randbool : Nat → Bool

/-- `std::priority_queue` over the groups pushed to it: the top is a group that no other one
comes after. -/
structure StdPriorityQueue where
  pop : (OutputGroup → OutputGroup → Bool) → List OutputGroup →
    Option (OutputGroup × List OutputGroup)
  pop_perm : ∀ before heap popped, pop before heap = some popped → (popped.1 :: popped.2).Perm heap
  pop_isSome : ∀ before heap, heap ≠ [] → (pop before heap).isSome
  pop_last : ∀ {κ : Type} [LinearOrder κ] (key : OutputGroup → κ)
    (before : OutputGroup → OutputGroup → Bool), (∀ a b, before a b = true ↔ key a < key b) →
    ∀ heap popped, pop before heap = some popped → ∀ group ∈ heap, key group ≤ key popped.1

/-! ## Single random draw -/

structure SrdState where
  heap : List OutputGroup := []
  selectedEffValue : Int := 0
  weight : Int := 0
  maxTxWeightExceeded : Bool := false

namespace Srd

variable (queue : StdPriorityQueue)

def push (s : SrdState) (group : OutputGroup) : SrdState :=
  { s with
    heap := group :: s.heap
    selectedEffValue := s.selectedEffValue + group.getSelectionAmount
    weight := s.weight + group.weight }

def pop (s : SrdState) : Option SrdState :=
  (queue.pop OutputGroup.descendingEffvalWeight s.heap).map fun popped =>
    { s with
      heap := popped.2
      selectedEffValue := s.selectedEffValue - popped.1.getSelectionAmount
      weight := s.weight - popped.1.weight }

/-- The loop that drops the least valuable groups; it drops one in any case. -/
def evict (maxSelectionWeight : Int) : Nat → SrdState → Option SrdState
  | 0, _ => none
  | rounds + 1, s =>
    (pop queue s).bind fun s =>
    if s.heap ≠ [] ∧ s.weight > maxSelectionWeight then evict maxSelectionWeight rounds s
    else some s

def limitWeight (maxSelectionWeight : Int) (s : SrdState) : Option SrdState :=
  if s.weight > maxSelectionWeight then
    evict queue maxSelectionWeight s.heap.length { s with maxTxWeightExceeded := true }
  else some s

def drain : Nat → List OutputGroup → Option (List OutputGroup)
  | _, [] => some []
  | 0, _ :: _ => none
  | rounds + 1, group :: heap =>
    (queue.pop OutputGroup.descendingEffvalWeight (group :: heap)).bind fun popped =>
    (drain rounds popped.2).map (popped.1 :: ·)

/-- The loop over the shuffled indexes, to the groups selected or an error. -/
def draw (utxoPool : List OutputGroup) (targetValue maxSelectionWeight : Int) :
    List Nat → SrdState → Option (Except String (List OutputGroup))
  | [], s => some (.error (selectionError s.maxTxWeightExceeded))
  | i :: indexes, s =>
    utxoPool[i]?.bind fun group =>
    (limitWeight queue maxSelectionWeight (push s group)).bind fun s =>
    if s.selectedEffValue ≥ targetValue then (drain queue s.heap.length s.heap).map .ok
    else draw utxoPool targetValue maxSelectionWeight indexes s

end Srd

def selectCoinsSRD (queue : StdPriorityQueue) (rng : FastRandomContext)
    (utxoPool : List OutputGroup) (targetValue changeFee maxSelectionWeight : Int) :
    Option (Except String SelectionResult) :=
  (Srd.draw queue utxoPool (targetValue + (CHANGE_LOWER + changeFee)) maxSelectionWeight
      (rng.shuffle (List.range utxoPool.length)) {}).bind fun drawn =>
  match drawn with
  | .error text => some (.error text)
  | .ok groups =>
    (SelectionResult.addInputs { target := targetValue, algo := .SRD } groups).map .ok

namespace Srd

variable {queue : StdPriorityQueue} {s s' : SrdState}

structure Tallied (s : SrdState) : Prop where
  amount_eq : s.selectedEffValue = totalAmount s.heap
  weight_eq : s.weight = totalWeight s.heap

theorem tallied_push (h : Tallied s) (group : OutputGroup) : Tallied (push s group) := by
  constructor
  · simp [push, h.amount_eq, totalAmount, add_comm]
  · simp [push, h.weight_eq, totalWeight, add_comm]

theorem pop_spec (hs : Tallied s) (h : pop queue s = some s') :
    Tallied s' ∧ ∃ group, (group :: s'.heap).Perm s.heap := by
  rw [pop, Option.map_eq_some_iff] at h
  obtain ⟨popped, hpop, h⟩ := h
  cases h
  have hperm := queue.pop_perm _ _ _ hpop
  refine ⟨⟨?_, ?_⟩, popped.1, hperm⟩
  · have htotal := (hperm.map (·.getSelectionAmount)).sum_eq
    rw [List.map_cons, List.sum_cons] at htotal
    rw [hs.amount_eq, totalAmount, ← htotal, totalAmount]
    exact add_sub_cancel_left _ _
  · have htotal := (hperm.map (·.weight)).sum_eq
    rw [List.map_cons, List.sum_cons] at htotal
    rw [hs.weight_eq, totalWeight, ← htotal, totalWeight]
    exact add_sub_cancel_left _ _

variable {maxSelectionWeight : Int} {rounds : Nat}

theorem evict_spec (hs : Tallied s) (h : evict queue maxSelectionWeight rounds s = some s') :
    Tallied s' ∧ s'.heap.Subperm s.heap ∧ (s'.heap = [] ∨ s'.weight ≤ maxSelectionWeight) := by
  induction rounds generalizing s with
  | zero => cases h
  | succ rounds ih =>
    rw [evict, Option.bind_eq_some_iff] at h
    obtain ⟨popped, hpop, h⟩ := h
    obtain ⟨htallied, group, hperm⟩ := pop_spec hs hpop
    have hsub : popped.heap.Subperm s.heap :=
      (List.sublist_cons_self group _).subperm.trans hperm.subperm
    split at h
    · obtain ⟨htallied', hsub', hlight⟩ := ih htallied h
      exact ⟨htallied', hsub'.trans hsub, hlight⟩
    · rename_i hstop
      cases h
      refine ⟨htallied, hsub, ?_⟩
      by_cases hempty : s'.heap = []
      · exact .inl hempty
      · exact .inr (not_lt.1 fun hheavy => hstop ⟨hempty, hheavy⟩)

theorem limitWeight_spec (hs : Tallied s) (h : limitWeight queue maxSelectionWeight s = some s') :
    Tallied s' ∧ s'.heap.Subperm s.heap ∧ (s'.heap = [] ∨ s'.weight ≤ maxSelectionWeight) := by
  rw [limitWeight] at h
  split at h
  · have hs' : Tallied { s with maxTxWeightExceeded := true } := ⟨hs.amount_eq, hs.weight_eq⟩
    have hevict := evict_spec hs' h
    exact hevict
  · rename_i hlight
    cases h
    exact ⟨hs, List.Subperm.refl _, .inr (not_lt.1 hlight)⟩

theorem drain_perm {heap drained : List OutputGroup} (h : drain queue rounds heap = some drained) :
    drained.Perm heap := by
  induction rounds generalizing heap drained with
  | zero =>
    cases heap with
    | nil => cases h; rfl
    | cons group heap => cases h
  | succ rounds ih =>
    cases heap with
    | nil => cases h; rfl
    | cons group heap =>
      rw [drain, Option.bind_eq_some_iff] at h
      obtain ⟨popped, hpop, h⟩ := h
      obtain ⟨rest, hrest, h⟩ := Option.map_eq_some_iff.mp h
      cases h
      exact ((ih hrest).cons _).trans (queue.pop_perm _ _ _ hpop)

theorem draw_spec {utxoPool groups : List OutputGroup} {targetValue : Int}
    (htarget : 0 < targetValue) {indexes : List Nat} (hs : Tallied s)
    (h : draw queue utxoPool targetValue maxSelectionWeight indexes s = some (.ok groups)) :
    groups.Subperm (s.heap ++ entriesAt utxoPool indexes) ∧
      totalWeight groups ≤ maxSelectionWeight ∧ targetValue ≤ totalAmount groups := by
  induction indexes generalizing s with
  | nil => cases h
  | cons i indexes ih =>
    rw [draw, Option.bind_eq_some_iff] at h
    obtain ⟨group, hgroup, h⟩ := h
    obtain ⟨s', hlimit, h⟩ := Option.bind_eq_some_iff.mp h
    obtain ⟨htallied, hsub, hlight⟩ := limitWeight_spec (tallied_push hs group) hlimit
    rw [entriesAt_cons hgroup]
    have hmiddle : (s'.heap ++ entriesAt utxoPool indexes).Subperm
        (s.heap ++ group :: entriesAt utxoPool indexes) :=
      ((List.subperm_append_right _).2 hsub).trans List.perm_middle.symm.subperm
    split at h
    · rename_i hreached
      obtain ⟨drained, hdrain, h⟩ := Option.map_eq_some_iff.mp h
      cases h
      have hperm := drain_perm hdrain
      have hamount : totalAmount groups = s'.selectedEffValue := by
        rw [htallied.amount_eq, totalAmount, (hperm.map _).sum_eq, totalAmount]
      have hweight : totalWeight groups = s'.weight := by
        rw [htallied.weight_eq, totalWeight, (hperm.map _).sum_eq, totalWeight]
      refine ⟨?_, ?_, by omega⟩
      · exact (hperm.subperm.trans (List.sublist_append_left _ _).subperm).trans hmiddle
      · rw [hweight]
        -- an empty heap has no amount, which is short of the target
        refine hlight.resolve_left fun hempty => ?_
        rw [htallied.amount_eq, hempty, totalAmount, List.map_nil, List.sum_nil] at hreached
        omega
    · obtain ⟨hsub', hbounds⟩ := ih htallied h
      exact ⟨hsub'.trans hmiddle, hbounds⟩

end Srd

variable {result : SelectionResult} {rng : FastRandomContext} {pool : List OutputGroup}
  {maxSelectionWeight : Int}

theorem selectCoinsSRD_pays {queue : StdPriorityQueue} {targetValue changeFee : Int}
    (htarget : 0 < targetValue) (hfee : 0 < changeFee)
    (h : selectCoinsSRD queue rng pool targetValue changeFee maxSelectionWeight =
      some (.ok result)) :
    result.Pays pool (targetValue + CHANGE_LOWER + changeFee) maxSelectionWeight := by
  rw [selectCoinsSRD, Option.bind_eq_some_iff] at h
  obtain ⟨drawn, hdraw, h⟩ := h
  cases drawn with
  | error text => cases h
  | ok groups =>
    dsimp only at h
    obtain ⟨added, hadd, h⟩ := Option.map_eq_some_iff.mp h
    cases h
    have hpos : 0 < targetValue + (CHANGE_LOWER + changeFee) := by
      rw [CHANGE_LOWER]
      omega
    obtain ⟨hsub, hweight, hamount⟩ := Srd.draw_spec hpos ⟨rfl, rfl⟩ hdraw
    have hadds := empty.addInputs hadd
    rw [List.nil_append] at hadds
    refine hadds.pays (hsub.trans ?_) hweight (by omega)
    have hperm := (rng.shuffle_perm (List.range pool.length)).filterMap (pool[·]?)
    rw [← entriesAt, ← entriesAt, entriesAt_range] at hperm
    exact hperm.subperm

/-! ## The knapsack solver -/

/-- A run of the stochastic approximation; `calls` counts the calls of `randbool`. -/
structure SubsetState where
  vfBest : List Bool
  nBest : Int
  calls : Nat
  vfIncluded : List Bool := []
  nTotal : Int := 0
  selectedCoinsWeight : Int := 0
  fReachedTarget : Bool := false

namespace Knapsack

variable (rng : FastRandomContext) (groups : List OutputGroup)

/-- The group at the index is added, and taken back when the target is reached. -/
def includeGroup (nTargetValue maxSelectionWeight : Int) (s : SubsetState) (i : Nat)
    (group : OutputGroup) : SubsetState :=
  let nTotal := s.nTotal + group.getSelectionAmount
  let selectedCoinsWeight := s.selectedCoinsWeight + group.weight
  let vfIncluded := s.vfIncluded.set i true
  if nTotal ≥ nTargetValue ∧ selectedCoinsWeight ≤ maxSelectionWeight then
    { s with
      fReachedTarget := true
      nBest := if nTotal < s.nBest then nTotal else s.nBest
      vfBest := if nTotal < s.nBest then vfIncluded else s.vfBest
      nTotal := nTotal - group.getSelectionAmount
      selectedCoinsWeight := selectedCoinsWeight - group.weight
      vfIncluded := vfIncluded.set i false }
  else
    { s with
      nTotal := nTotal
      selectedCoinsWeight := selectedCoinsWeight
      vfIncluded := vfIncluded }

/-- The first pass tosses a coin for each group, the second one takes what is left. -/
def visit (nTargetValue maxSelectionWeight : Int) (firstPass : Bool) (s : SubsetState)
    (entry : OutputGroup × Nat) : SubsetState :=
  if firstPass then
    let tossed := { s with calls := s.calls + 1 }
    if rng.randbool s.calls then
      includeGroup nTargetValue maxSelectionWeight tossed entry.2 entry.1
    else tossed
  else if s.vfIncluded.getD entry.2 false = false then
    includeGroup nTargetValue maxSelectionWeight s entry.2 entry.1
  else s

def pass (nTargetValue maxSelectionWeight : Int) (firstPass : Bool) (s : SubsetState) :
    SubsetState :=
  groups.zipIdx.foldl (visit rng nTargetValue maxSelectionWeight firstPass) s

def repetition (nTargetValue maxSelectionWeight : Int) (s : SubsetState) : SubsetState :=
  let start : SubsetState :=
    { s with
      vfIncluded := List.replicate groups.length false
      nTotal := 0
      selectedCoinsWeight := 0
      fReachedTarget := false }
  let first := pass rng groups nTargetValue maxSelectionWeight true start
  if first.fReachedTarget then first
  else pass rng groups nTargetValue maxSelectionWeight false first

def repeatWhileInexact (nTargetValue maxSelectionWeight : Int) : Nat → SubsetState → SubsetState
  | 0, s => s
  | iterations + 1, s =>
    if s.nBest = nTargetValue then s
    else repeatWhileInexact nTargetValue maxSelectionWeight iterations
      (repetition rng groups nTargetValue maxSelectionWeight s)

def approximateBestSubset (nTotalLower nTargetValue maxSelectionWeight : Int) (calls : Nat) :
    SubsetState :=
  repeatWhileInexact rng groups nTargetValue maxSelectionWeight 1000
    { vfBest := List.replicate groups.length true, nBest := nTotalLower, calls := calls }

/-- The groups that are not too heavy, below the target and change on one side. -/
structure Split where
  maxWeightExceeded : Bool := false
  lowestLarger : Option OutputGroup := none
  applicableGroups : List OutputGroup := []
  nTotalLower : Int := 0

/-- A group that matches the target ends the loop. -/
def split (nTargetValue changeTarget maxSelectionWeight : Int) :
    List OutputGroup → Split → Except OutputGroup Split
  | [], s => .ok s
  | group :: groups, s =>
    if group.weight > maxSelectionWeight then
      split nTargetValue changeTarget maxSelectionWeight groups
        { s with maxWeightExceeded := true }
    else if group.getSelectionAmount = nTargetValue then .error group
    else if group.getSelectionAmount < nTargetValue + changeTarget then
      split nTargetValue changeTarget maxSelectionWeight groups
        { s with
          applicableGroups := s.applicableGroups ++ [group]
          nTotalLower := s.nTotalLower + group.getSelectionAmount }
    else if s.lowestLarger.all (group.getSelectionAmount < ·.getSelectionAmount) then
      split nTargetValue changeTarget maxSelectionWeight groups
        { s with lowestLarger := some group }
    else split nTargetValue changeTarget maxSelectionWeight groups s

def marked (vfBest : List Bool) : List OutputGroup :=
  entriesAt groups ((List.range groups.length).filter fun i => vfBest.getD i false)

def takeLowestLarger (result : SelectionResult) (lowestLarger : Option OutputGroup)
    (maxWeightExceeded : Bool) : Option (Except String SelectionResult) :=
  match lowestLarger with
  | none => some (.error (selectionError maxWeightExceeded))
  | some group => (result.addInput group).map .ok

/-- The two calls of the approximation; the second one aims at the target and change. -/
def approximate (nTotalLower nTargetValue changeTarget maxSelectionWeight : Int) : SubsetState :=
  let first := approximateBestSubset rng groups nTotalLower nTargetValue maxSelectionWeight 0
  if first.nBest ≠ nTargetValue ∧ nTotalLower ≥ nTargetValue + changeTarget then
    approximateBestSubset rng groups nTotalLower (nTargetValue + changeTarget) maxSelectionWeight
      first.calls
  else first

/-- The last part of the solver, with funds enough below the target and change. -/
def solve (std : StdSort) (result : SelectionResult) (s : Split)
    (nTargetValue changeTarget maxSelectionWeight : Int) :
    Option (Except String SelectionResult) :=
  let applicableGroups := std.sort OutputGroup.descending s.applicableGroups
  let found :=
    approximate rng applicableGroups s.nTotalLower nTargetValue changeTarget maxSelectionWeight
  if s.lowestLarger.any fun larger =>
      (found.nBest ≠ nTargetValue && found.nBest < nTargetValue + changeTarget) ||
        larger.getSelectionAmount ≤ found.nBest then
    takeLowestLarger result s.lowestLarger true
  else
    (result.addInputs (marked applicableGroups found.vfBest)).bind fun result =>
    if result.weight > maxSelectionWeight then takeLowestLarger result.clear s.lowestLarger true
    else some (.ok result)

end Knapsack

def knapsackSolver (std : StdSort) (rng : FastRandomContext) (groups : List OutputGroup)
    (nTargetValue changeTarget maxSelectionWeight : Int) :
    Option (Except String SelectionResult) :=
  let result : SelectionResult := { target := nTargetValue, algo := .KNAPSACK }
  match Knapsack.split nTargetValue changeTarget maxSelectionWeight (rng.shuffle groups) {} with
  | .error group => (result.addInput group).map .ok
  | .ok s =>
    if s.nTotalLower = nTargetValue then
      (result.addInputs s.applicableGroups).bind fun result =>
      if result.weight ≤ maxSelectionWeight then some (.ok result)
      else
        Knapsack.solve rng std result.clear s nTargetValue changeTarget maxSelectionWeight
    else if s.nTotalLower < nTargetValue then
      Knapsack.takeLowestLarger result s.lowestLarger s.maxWeightExceeded
    else Knapsack.solve rng std result s nTargetValue changeTarget maxSelectionWeight

namespace Knapsack

variable {rng : FastRandomContext} {groups : List OutputGroup}

/-! ### The approximation -/

theorem sum_marked (f : OutputGroup → Int) (flags : List Bool) :
    ((marked groups flags).map f).sum = ∑ i ∈ Finset.range groups.length,
      if flags.getD i false = true then entryValue groups f i else 0 := by
  rw [marked, sum_entriesAt_toFinset _ _ (List.nodup_range.filter _), List.toFinset_filter,
    List.toFinset_range, Finset.sum_filter]

variable {i : Nat} {firstPass : Bool} {lower : Int} {empty : SelectionResult}

private theorem getD_set_ne (flags : List Bool) {j : Nat} (h : j ≠ i) (flag : Bool) :
    (flags.set i flag).getD j false = flags.getD j false := by
  rw [List.getD_eq_getElem?_getD, List.getD_eq_getElem?_getD, List.getElem?_set_ne (Ne.symm h)]

variable {flags : List Bool} {nTargetValue changeTarget maxSelectionWeight : Int}
  {s : SubsetState} {group : OutputGroup} {found : SubsetState}

private theorem getD_set_self (h : i < flags.length) (flag : Bool) :
    (flags.set i flag).getD i false = flag := by
  rw [List.getD_eq_getElem?_getD, List.getElem?_set_self h, Option.getD_some]

theorem sum_marked_set (f : OutputGroup → Int) (hgroup : groups[i]? = some group)
    (hlength : flags.length = groups.length) (hout : flags.getD i false = false) :
    ((marked groups (flags.set i true)).map f).sum = ((marked groups flags).map f).sum + f group := by
  have hi : i < groups.length := (List.getElem?_eq_some_iff.1 hgroup).1
  have hvalue : entryValue groups f i = f group := by
    rw [entryValue, hgroup]
    rfl
  have hsingle : f group = ∑ j ∈ Finset.range groups.length,
      if i = j then entryValue groups f j else 0 := by
    rw [Finset.sum_ite_eq, if_pos (Finset.mem_range.2 hi), hvalue]
  rw [sum_marked, sum_marked, hsingle, ← Finset.sum_add_distrib]
  refine Finset.sum_congr rfl fun j _ => ?_
  by_cases hj : i = j
  · subst hj
    rw [getD_set_self (by omega), if_pos rfl, if_pos rfl, hout, if_neg Bool.false_ne_true, zero_add]
  · rw [getD_set_ne _ (Ne.symm hj), if_neg hj, add_zero]

private theorem set_true_set_false (hout : flags.getD i false = false) :
    (flags.set i true).set i false = flags := by
  rw [List.set_set]
  refine List.ext_getElem? fun j => ?_
  by_cases hj : i = j
  · subst hj
    rw [List.getElem?_set]
    rw [List.getD_eq_getElem?_getD] at hout
    cases hflag : flags[i]? with
    | none => simp [List.getElem?_eq_none_iff.1 hflag]
    | some flag =>
      rw [hflag, Option.getD_some] at hout
      simp [(List.getElem?_eq_some_iff.1 hflag).1, hout]
  · rw [List.getElem?_set_ne hj]

/-- The totals of a run are those of its flags, and its best subset reaches the target. -/
structure Tallied (groups : List OutputGroup) (nTargetValue : Int) (s : SubsetState) : Prop where
  length_eq : s.vfIncluded.length = groups.length
  total_eq : s.nTotal = totalAmount (marked groups s.vfIncluded)
  weight_eq : s.selectedCoinsWeight = totalWeight (marked groups s.vfIncluded)
  best_eq : s.nBest = totalAmount (marked groups s.vfBest)
  best_ge : nTargetValue ≤ s.nBest

theorem includeGroup_spec (h : Tallied groups nTargetValue s) (hgroup : groups[i]? = some group)
    (hout : s.vfIncluded.getD i false = false) :
    Tallied groups nTargetValue (includeGroup nTargetValue maxSelectionWeight s i group) ∧
      ∀ j ≠ i, (includeGroup nTargetValue maxSelectionWeight s i group).vfIncluded.getD j false =
        s.vfIncluded.getD j false := by
  have htotal := sum_marked_set (·.getSelectionAmount) hgroup h.length_eq hout
  have hweight := sum_marked_set (·.weight) hgroup h.length_eq hout
  rw [← totalAmount, ← totalAmount, ← h.total_eq] at htotal
  rw [← totalWeight, ← totalWeight, ← h.weight_eq] at hweight
  rw [includeGroup]
  split
  · rename_i hreached
    dsimp only
    rw [set_true_set_false hout, add_sub_cancel_right, add_sub_cancel_right]
    refine ⟨⟨h.length_eq, h.total_eq, h.weight_eq, ?_, ?_⟩, fun _ _ => rfl⟩
    · dsimp only
      split
      exacts [htotal.symm, h.best_eq]
    · dsimp only
      split
      exacts [hreached.1, h.best_ge]
  · refine ⟨⟨?_, htotal.symm, hweight.symm, h.best_eq, h.best_ge⟩,
      fun j hj => getD_set_ne _ hj _⟩
    rw [List.length_set, h.length_eq]

/-- In the first pass the groups still to be visited are not included. -/
def Unvisited (firstPass : Bool) (s : SubsetState) (k : Nat) : Prop :=
  firstPass = true → ∀ j ≥ k, s.vfIncluded.getD j false = false

theorem visit_spec {k : Nat} (h : Tallied groups nTargetValue s)
    (hgroup : groups[k]? = some group) (hnew : Unvisited firstPass s k) :
    Tallied groups nTargetValue
        (visit rng nTargetValue maxSelectionWeight firstPass s (group, k)) ∧
      Unvisited firstPass (visit rng nTargetValue maxSelectionWeight firstPass s (group, k))
        (k + 1) := by
  cases firstPass with
  | true =>
    have htossed : Tallied groups nTargetValue { s with calls := s.calls + 1 } :=
      ⟨h.length_eq, h.total_eq, h.weight_eq, h.best_eq, h.best_ge⟩
    rw [visit, if_pos rfl]
    dsimp only
    split
    · obtain ⟨htallied, hframe⟩ := @includeGroup_spec _ _ _ maxSelectionWeight _ _ htossed hgroup
        (hnew rfl k le_rfl)
      refine ⟨htallied, fun _ j hj => ?_⟩
      rw [hframe j (by omega)]
      exact hnew rfl j (by omega)
    · exact ⟨htossed, fun _ j hj => hnew rfl j (by omega)⟩
  | false =>
    rw [visit, if_neg Bool.false_ne_true]
    refine ⟨?_, fun hfirst => absurd hfirst Bool.false_ne_true⟩
    split
    · rename_i hout
      exact (includeGroup_spec h hgroup hout).1
    · exact h

theorem pass_spec (h : Tallied groups nTargetValue s) (hnew : Unvisited firstPass s 0) :
    Tallied groups nTargetValue
      (pass rng groups nTargetValue maxSelectionWeight firstPass s) := by
  -- the groups left are those from an index on
  suffices hfrom : ∀ (rest : List OutputGroup) (k : Nat) (s : SubsetState), groups.drop k = rest →
      Tallied groups nTargetValue s → Unvisited firstPass s k →
      Tallied groups nTargetValue
        ((rest.zipIdx k).foldl (visit rng nTargetValue maxSelectionWeight firstPass) s) from
    hfrom groups 0 s rfl h hnew
  intro rest
  induction rest with
  | nil =>
    intro k s _ h _
    exact h
  | cons group rest ih =>
    intro k s hdrop h hnew
    have hgroup : groups[k]? = some group := by
      rw [← List.head?_drop, hdrop]
      rfl
    rw [List.zipIdx_cons, List.foldl_cons]
    obtain ⟨htallied, hnew'⟩ := @visit_spec rng _ _ _ maxSelectionWeight _ _ _ h hgroup hnew
    refine ih (k + 1) _ ?_ htallied hnew'
    rw [← List.tail_drop, hdrop, List.tail_cons]

theorem repetition_spec (hbest : s.nBest = totalAmount (marked groups s.vfBest))
    (hge : nTargetValue ≤ s.nBest) : Tallied groups nTargetValue
      (repetition rng groups nTargetValue maxSelectionWeight s) := by
  have hflags : ∀ i, (List.replicate groups.length false).getD i false = false := fun i => by
    rw [List.getD_eq_getElem?_getD, List.getElem?_replicate]
    split <;> rfl
  have hnone : marked groups (List.replicate groups.length false) = [] := by
    rw [marked, List.filter_eq_nil_iff.2 fun i _ => by rw [hflags i]; exact Bool.false_ne_true,
      entriesAt_nil]
  have hfirst : Tallied groups nTargetValue
      (pass rng groups nTargetValue maxSelectionWeight true
        { s with
          vfIncluded := List.replicate groups.length false
          nTotal := 0
          selectedCoinsWeight := 0
          fReachedTarget := false }) := by
    refine pass_spec ⟨List.length_replicate, ?_, ?_, hbest, hge⟩ fun _ j _ => hflags j
    · dsimp only
      rw [hnone]
      rfl
    · dsimp only
      rw [hnone]
      rfl
  rw [repetition]
  split
  · exact hfirst
  · exact pass_spec hfirst fun habsurd => absurd habsurd Bool.false_ne_true

/-- The best subset is marked by its flags, and its amount reaches the target when that of
all groups does. -/
theorem approximateBestSubset_spec {calls : Nat} (hfunds : nTargetValue ≤ totalAmount groups)
    (hfound : approximateBestSubset rng groups (totalAmount groups) nTargetValue
      maxSelectionWeight calls = found) :
    found.nBest = totalAmount (marked groups found.vfBest) ∧ nTargetValue ≤ found.nBest := by
  subst hfound
  rw [approximateBestSubset]
  generalize hstart : ({
      vfBest := List.replicate groups.length true
      nBest := totalAmount groups
      calls := calls } : SubsetState) = start
  have hbest : start.nBest = totalAmount (marked groups start.vfBest) := by
    subst hstart
    dsimp only
    have hall : (List.range groups.length).filter
        (fun i => (List.replicate groups.length true).getD i false) = List.range groups.length := by
      refine List.filter_eq_self.2 fun i hi => ?_
      rw [List.getD_eq_getElem?_getD, List.getElem?_replicate, if_pos (List.mem_range.1 hi)]
      rfl
    rw [marked, hall, entriesAt_range]
  have hge : nTargetValue ≤ start.nBest := by
    subst hstart
    exact hfunds
  generalize 1000 = iterations
  clear hstart
  induction iterations generalizing start with
  | zero => exact ⟨hbest, hge⟩
  | succ iterations ih =>
    rw [repeatWhileInexact]
    split
    · exact ⟨hbest, hge⟩
    · have hnext := @repetition_spec rng _ _ maxSelectionWeight _ hbest hge
      exact ih _ hnext.best_eq hnext.best_ge

theorem approximate_spec
    (hchange : 0 ≤ changeTarget) (hfunds : nTargetValue ≤ totalAmount groups)
    (hfound : approximate rng groups (totalAmount groups) nTargetValue changeTarget
      maxSelectionWeight = found) :
    found.nBest = totalAmount (marked groups found.vfBest) ∧ nTargetValue ≤ found.nBest := by
  rw [approximate] at hfound
  split at hfound
  · rename_i hsecond
    obtain ⟨hbest, hge⟩ := approximateBestSubset_spec hsecond.2 hfound
    exact ⟨hbest, by omega⟩
  · exact approximateBestSubset_spec hfunds hfound

theorem marked_subperm (flags : List Bool) : (marked groups flags).Subperm groups := by
  refine entriesAt_subperm (List.nodup_range.filter _) fun i hi => ?_
  exact List.mem_range.1 (List.mem_of_mem_filter hi)

/-! ### The solver -/

structure Split.Sorts (s : Split) (groups : List OutputGroup) (lower maxSelectionWeight : Int) :
    Prop where
  sublist : s.applicableGroups.Sublist groups
  total_eq : s.nTotalLower = totalAmount s.applicableGroups
  larger : ∀ group, s.lowestLarger = some group → group ∈ groups ∧
    group.weight ≤ maxSelectionWeight ∧ lower ≤ group.getSelectionAmount

theorem Split.Sorts.snoc {s : Split} {groups : List OutputGroup}
    (h : s.Sorts groups lower maxSelectionWeight) (group : OutputGroup) :
    s.Sorts (groups ++ [group]) lower maxSelectionWeight where
  sublist := h.sublist.trans (List.sublist_append_left _ _)
  total_eq := h.total_eq
  larger larger hlarger := by
    obtain ⟨hin, hbounds⟩ := h.larger larger hlarger
    exact ⟨List.mem_append_left _ hin, hbounds⟩

/-- The end of the loop over some groups: a match of the target, or all sorted out. -/
def SortsOut (groups : List OutputGroup) (nTargetValue changeTarget maxSelectionWeight : Int) :
    Except OutputGroup Split → Prop
  | .error group => group ∈ groups ∧ group.weight ≤ maxSelectionWeight ∧
      group.getSelectionAmount = nTargetValue
  | .ok s => s.Sorts groups (nTargetValue + changeTarget) maxSelectionWeight

theorem split_spec {seen : List OutputGroup} (rest : List OutputGroup) {s : Split}
    (h : s.Sorts seen (nTargetValue + changeTarget) maxSelectionWeight) :
    SortsOut (seen ++ rest) nTargetValue changeTarget maxSelectionWeight
      (split nTargetValue changeTarget maxSelectionWeight rest s) := by
  induction rest generalizing seen s with
  | nil =>
    rw [split, List.append_nil]
    exact h
  | cons group rest ih =>
    have hsnoc := h.snoc group
    rw [← List.singleton_append, ← List.append_assoc, List.singleton_append, split]
    split
    · exact ih ⟨hsnoc.sublist, hsnoc.total_eq, hsnoc.larger⟩
    rename_i hlight
    split
    · exact ⟨by simp, by omega, ‹_›⟩
    split
    · refine ih ⟨h.sublist.append (List.Sublist.refl _), ?_, hsnoc.larger⟩
      simp [h.total_eq, totalAmount]
    split
    · refine ih ⟨hsnoc.sublist, hsnoc.total_eq, fun larger hlarger => ?_⟩
      cases hlarger
      exact ⟨by simp, by omega, by omega⟩
    · exact ih hsnoc

theorem takeLowestLarger_pays {result : SelectionResult} {lowestLarger : Option OutputGroup}
    {exceeded : Bool} (hempty : empty.Adds [])
    (hlarger : ∀ group, lowestLarger = some group → group ∈ groups ∧
      group.weight ≤ maxSelectionWeight ∧ lower ≤ group.getSelectionAmount)
    (h : takeLowestLarger empty lowestLarger exceeded = some (.ok result)) :
    result.Pays groups lower maxSelectionWeight := by
  cases lowestLarger with
  | none => cases h
  | some group =>
    rw [takeLowestLarger, Option.map_eq_some_iff] at h
    obtain ⟨added, hadd, h⟩ := h
    cases h
    obtain ⟨hin, hweight, hamount⟩ := hlarger group rfl
    exact (hempty.addInput hadd).pays (List.singleton_subperm_iff.2 hin)
      (by simpa [totalWeight] using hweight) (by simpa [totalAmount] using hamount)

theorem solve_pays {std : StdSort} {result : SelectionResult} {s : Split} (hempty : empty.Adds [])
    (hsorts : s.Sorts groups (nTargetValue + changeTarget) maxSelectionWeight)
    (hchange : 0 ≤ changeTarget) (hfunds : nTargetValue ≤ s.nTotalLower)
    (h : solve rng std empty s nTargetValue changeTarget maxSelectionWeight = some (.ok result)) :
    result.Pays groups nTargetValue maxSelectionWeight := by
  have hlarger : ∀ group, s.lowestLarger = some group → group ∈ groups ∧
      group.weight ≤ maxSelectionWeight ∧ nTargetValue ≤ group.getSelectionAmount := by
    intro group hgroup
    obtain ⟨hin, hweight, hamount⟩ := hsorts.larger group hgroup
    exact ⟨hin, hweight, by omega⟩
  have hperm := std.perm OutputGroup.descending s.applicableGroups
  have htotal : s.nTotalLower = totalAmount (std.sort OutputGroup.descending s.applicableGroups) := by
    rw [hsorts.total_eq, totalAmount, totalAmount, (hperm.map _).sum_eq]
  rw [solve, htotal] at h
  generalize std.sort OutputGroup.descending s.applicableGroups = sorted at h hperm htotal
  split at h
  · exact takeLowestLarger_pays hempty hlarger h
  obtain ⟨added, hadd, h⟩ := Option.bind_eq_some_iff.mp h
  obtain ⟨hbest, hge⟩ := approximate_spec hchange (htotal ▸ hfunds) rfl
  have hadds := hempty.addInputs hadd
  rw [List.nil_append] at hadds
  split at h
  · exact takeLowestLarger_pays (clear added) hlarger h
  · rename_i hlight
    cases h
    refine hadds.pays ?_ ?_ (hbest ▸ hge)
    · exact (marked_subperm _).trans (hperm.subperm.trans hsorts.sublist.subperm)
    · rw [← hadds.weight_eq]
      omega

end Knapsack

theorem knapsackSolver_pays {std : StdSort} {nTargetValue changeTarget : Int}
    (hchange : 0 ≤ changeTarget)
    (h : knapsackSolver std rng pool nTargetValue changeTarget maxSelectionWeight =
      some (.ok result)) : result.Pays pool nTargetValue maxSelectionWeight := by
  have hperm := rng.shuffle_perm pool
  rw [knapsackSolver] at h
  generalize rng.shuffle pool = groups at h hperm
  refine SelectionResult.Pays.of_perm ?_ hperm
  have hstart : Knapsack.Split.Sorts {} [] (nTargetValue + changeTarget) maxSelectionWeight :=
    ⟨List.Sublist.refl _, rfl, fun group hgroup => by cases hgroup⟩
  have hsplit := Knapsack.split_spec groups hstart
  cases hcase : Knapsack.split nTargetValue changeTarget maxSelectionWeight groups {} with
  | error group =>
    rw [hcase] at h hsplit
    obtain ⟨hin, hweight, hamount⟩ := hsplit
    dsimp only at h
    obtain ⟨added, hadd, h⟩ := Option.map_eq_some_iff.mp h
    cases h
    exact (empty.addInput hadd).pays (List.singleton_subperm_iff.2 hin)
      (by simpa [totalWeight] using hweight) (by simpa [totalAmount] using hamount.ge)
  | ok s =>
    rw [hcase] at h hsplit
    rw [List.nil_append] at hsplit
    have hsplit : s.Sorts groups (nTargetValue + changeTarget) maxSelectionWeight := hsplit
    dsimp only at h
    split at h
    · rename_i hexact
      obtain ⟨added, hadd, h⟩ := Option.bind_eq_some_iff.mp h
      have hadds := empty.addInputs hadd
      rw [List.nil_append] at hadds
      split at h
      · rename_i hlight
        cases h
        refine hadds.pays hsplit.sublist.subperm ?_ ?_
        · rwa [← hadds.weight_eq]
        · rw [← hsplit.total_eq, hexact]
      · exact Knapsack.solve_pays (clear added) hsplit hchange hexact.ge h
    split at h
    · refine Knapsack.takeLowestLarger_pays empty (fun group hgroup => ?_) h
      obtain ⟨hin, hweight, hamount⟩ := hsplit.larger group hgroup
      exact ⟨hin, hweight, by omega⟩
    · exact Knapsack.solve_pays empty hsplit hchange (by omega) h

/-! ## All four selections -/

/-- Whatever the order of ties, the shuffles and the coin tosses, a selection returned takes
each group at most once, stays within the weight and pays the target, with what each
algorithm adds to it. -/
theorem selections_pay (std : StdSort) (queue : StdPriorityQueue) (rng : FastRandomContext)
    (pool : List OutputGroup) (target change maxWeight : Int) (htarget : 0 < target)
    (hchange : 0 < change) :
    ((∀ group ∈ pool, 0 < group.getSelectionAmount) →
      (∀ result, selectCoinsBnB std pool target change maxWeight = some (.ok result) →
        result.Pays pool target maxWeight ∧ totalAmount result.groups ≤ target + change) ∧
      (∀ result, coinGrinder std pool target change maxWeight = some (.ok result) →
        result.Pays pool (target + change) maxWeight) ∧
      ∀ result, selectCoinsSRD queue rng pool target change maxWeight = some (.ok result) →
        result.Pays pool (target + CHANGE_LOWER + change) maxWeight) ∧
    ∀ result, knapsackSolver std rng pool target change maxWeight = some (.ok result) →
      result.Pays pool target maxWeight :=
  ⟨fun hpositive =>
    ⟨fun _ h => selectCoinsBnB_pays h,
      fun _ h => coinGrinder_pays hpositive (by omega) h,
      fun _ h => selectCoinsSRD_pays htarget hchange h⟩,
    fun _ h => knapsackSolver_pays hchange.le h⟩

def popLast (before : OutputGroup → OutputGroup → Bool) :
    List OutputGroup → Option (OutputGroup × List OutputGroup)
  | [] => none
  | group :: heap =>
    match popLast before heap with
    | none => some (group, [])
    | some popped =>
      if before popped.1 group then some (group, popped.1 :: popped.2)
      else some (popped.1, group :: popped.2)

private theorem popLast_spec (before : OutputGroup → OutputGroup → Bool) (group : OutputGroup)
    (heap : List OutputGroup) :
    ∃ popped, popLast before (group :: heap) = some popped ∧
      (popped.1 :: popped.2).Perm (group :: heap) ∧
      ∀ {κ : Type} [LinearOrder κ] (key : OutputGroup → κ),
        (∀ a b, before a b = true ↔ key a < key b) →
          ∀ other ∈ group :: heap, key other ≤ key popped.1 := by
  induction heap generalizing group with
  | nil =>
    refine ⟨(group, []), rfl, List.Perm.refl _, fun key _ other hother => ?_⟩
    rw [List.mem_singleton.1 hother]
  | cons next heap ih =>
    obtain ⟨popped, hpop, hperm, hlast⟩ := ih next
    rw [popLast, hpop]
    dsimp only
    split
    · rename_i hbefore
      refine ⟨_, rfl, hperm.cons group, fun key hkey other hother => ?_⟩
      rcases List.mem_cons.1 hother with rfl | hother
      · exact le_rfl
      · exact (hlast key hkey other hother).trans ((hkey _ _).1 hbefore).le
    · rename_i hbefore
      refine ⟨_, rfl, (List.Perm.swap _ _ _).trans (hperm.cons group),
        fun key hkey other hother => ?_⟩
      rcases List.mem_cons.1 hother with rfl | hother
      · exact not_lt.1 fun hlt => hbefore ((hkey _ _).2 hlt)
      · exact hlast key hkey other hother

def lastFirstQueue : StdPriorityQueue where
  pop := popLast
  pop_perm before heap popped h := by
    cases heap with
    | nil => cases h
    | cons group heap =>
      obtain ⟨_, hpop, hperm, _⟩ := popLast_spec before group heap
      rw [hpop, Option.some_inj] at h
      exact h ▸ hperm
  pop_isSome before heap hne := by
    cases heap with
    | nil => exact absurd rfl hne
    | cons group heap =>
      obtain ⟨_, hpop, _⟩ := popLast_spec before group heap
      rw [hpop, Option.isSome_some]
  pop_last key before hkey heap popped h := by
    cases heap with
    | nil => cases h
    | cons group heap =>
      obtain ⟨_, hpop, _, hlast⟩ := popLast_spec before group heap
      rw [hpop, Option.some_inj] at h
      exact h ▸ hlast key hkey

private def poolCoin (n : UInt32) (amount weight : Int) : OutputGroup :=
  { outputs := [⟨.ofHex 7, n⟩]
    value := amount
    effectiveValue := amount
    fee := weight
    longTermFee := 0
    subtractFeeOutputs := false
    weight := weight }

private def twoCoins : List OutputGroup := [poolCoin 0 60000 200, poolCoin 1 10 100]

private def plainRng : FastRandomContext where
  shuffle l := l
  shuffle_perm _ := List.Perm.refl _
  randbool _ := true

private def resultOf (algo : SelectionAlgorithm) (evaluated : Nat) (group : OutputGroup) :
    SelectionResult :=
  { target := 10
    algo := algo
    groups := [group]
    selectedInputs := group.outputs
    useEffective := true
    selectionsEvaluated := evaluated
    weight := group.weight }

theorem selections_pay_two_coins :
    (resultOf .BNB 2 (poolCoin 1 10 100)).Pays twoCoins 10 250 ∧
    (resultOf .CG 2 (poolCoin 0 60000 200)).Pays twoCoins 11 250 ∧
    (resultOf .SRD 0 (poolCoin 0 60000 200)).Pays twoCoins (10 + CHANGE_LOWER + 1) 250 ∧
    (resultOf .KNAPSACK 0 (poolCoin 1 10 100)).Pays twoCoins 10 250 := by
  obtain ⟨hsearches, hknapsack⟩ := selections_pay insertionStdSort lastFirstQueue plainRng twoCoins
    10 1 250 (by decide) (by decide)
  obtain ⟨hbnb, hgrinder, hdraw⟩ := hsearches (by decide)
  exact ⟨(hbnb _ (by rfl)).1, hgrinder _ (by rfl), hdraw _ (by rfl), hknapsack _ (by rfl)⟩

end HcsCoin
