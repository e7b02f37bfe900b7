import HcsCoin.Consensus.TxCheck
import HcsCoin.Foundation.SubsetSearch

/-!
# The searches of coin selection

`SelectCoinsBnB` and `CoinGrinder` of `wallet/coinselection.cpp`.  Both walk depth first
over the subsets of a sorted pool, with the same moves between selections, and differ in
the totals they keep and in how they judge a selection.  Amounts (`CAmount`) and weights
(`int`) are integers without bound: the sums of a pool are supposed not to overflow.  A read
past the end of a vector, an input added twice and a loop that does not end are `none`.
-/

namespace HcsCoin

open Foundation

/-- The outputs of a group stand for themselves by their outpoints. -/
structure OutputGroup where
  outputs : List COutPoint
  value : Int
  effectiveValue : Int
  fee : Int
  longTermFee : Int
  subtractFeeOutputs : Bool
  weight : Int
  deriving DecidableEq

namespace OutputGroup

def getSelectionAmount (group : OutputGroup) : Int :=
  if group.subtractFeeOutputs then group.value else group.effectiveValue

def waste (group : OutputGroup) : Int := group.fee - group.longTermFee

def descending (a b : OutputGroup) : Bool :=
  if a.getSelectionAmount = b.getSelectionAmount then a.waste < b.waste
  else a.getSelectionAmount > b.getSelectionAmount

def descendingEffvalWeight (a b : OutputGroup) : Bool :=
  if a.getSelectionAmount = b.getSelectionAmount then a.weight < b.weight
  else a.getSelectionAmount > b.getSelectionAmount

end OutputGroup

/-- `std::sort`: a permutation of the range, ordered when the comparison is that of a key.
Groups that tie may come in any order. -/
structure StdSort where
  sort : (OutputGroup → OutputGroup → Bool) → List OutputGroup → List OutputGroup
  perm : ∀ before groups, (sort before groups).Perm groups
  ordered : ∀ {κ : Type} [LinearOrder κ] (key : OutputGroup → κ)
    (before : OutputGroup → OutputGroup → Bool), (∀ a b, before a b = true ↔ key a < key b) →
    ∀ groups, (sort before groups).Pairwise fun a b => key a ≤ key b

def insertionStdSort : StdSort where
  sort before groups := groups.insertionSort fun a b => before b a = false
  perm before groups := List.perm_insertionSort _ groups
  ordered key before hkey groups := by
    have hle : ∀ a b, before b a = false ↔ key a ≤ key b := fun a b => by
      rw [← Bool.not_eq_true, hkey, not_lt]
    have : Std.Total fun a b : OutputGroup => before b a = false :=
      ⟨fun a b => by rw [hle, hle]; exact le_total _ _⟩
    have : IsTrans OutputGroup fun a b => before b a = false :=
      ⟨fun a b c => by rw [hle, hle, hle]; exact le_trans⟩
    exact (List.pairwise_insertionSort _ groups).imp fun h => (hle _ _).1 h

/-! ## Selection results -/

inductive SelectionAlgorithm where
  | BNB
  | KNAPSACK
  | SRD
  | CG
  | MANUAL
  deriving DecidableEq

/-- `groups` are the groups whose inputs were added, in that order. -/
structure SelectionResult where
  target : Int
  algo : SelectionAlgorithm
  groups : List OutputGroup := []
  selectedInputs : List COutPoint := []
  useEffective : Bool := false
  algoCompleted : Bool := true
  selectionsEvaluated : Nat := 0
  weight : Int := 0
  deriving DecidableEq

def maxWeightExceededText : String :=
  "The inputs size exceeds the maximum weight. " ++
    "Please try sending a smaller amount or manually consolidating your wallet's UTXOs"

def selectionError (maxWeightExceeded : Bool) : String :=
  if maxWeightExceeded then maxWeightExceededText else ""

def totalAmount (groups : List OutputGroup) : Int := (groups.map (·.getSelectionAmount)).sum
def totalWeight (groups : List OutputGroup) : Int := (groups.map (·.weight)).sum
def totalWaste (groups : List OutputGroup) : Int := (groups.map (·.waste)).sum

namespace SelectionResult

def addInput (result : SelectionResult) (group : OutputGroup) : Option SelectionResult :=
  if (result.selectedInputs ++ group.outputs).Nodup then
    some { result with
      groups := result.groups ++ [group]
      selectedInputs := result.selectedInputs ++ group.outputs
      useEffective := !group.subtractFeeOutputs
      weight := result.weight + group.weight }
  else none

def addInputs (result : SelectionResult) (groups : List OutputGroup) : Option SelectionResult :=
  groups.foldlM addInput result

def clear (result : SelectionResult) : SelectionResult :=
  { result with groups := [], selectedInputs := [], weight := 0 }

structure Adds (result : SelectionResult) (groups : List OutputGroup) : Prop where
  groups_eq : result.groups = groups
  inputs_eq : result.selectedInputs = groups.flatMap (·.outputs)
  weight_eq : result.weight = totalWeight groups

theorem Adds.empty {target : Int} {algo : SelectionAlgorithm} {completed : Bool} {evaluated : Nat} :
    Adds { target := target, algo := algo, algoCompleted := completed,
           selectionsEvaluated := evaluated } [] :=
  ⟨rfl, rfl, rfl⟩

theorem Adds.clear (result : SelectionResult) : Adds result.clear [] := ⟨rfl, rfl, rfl⟩

variable {groups more : List OutputGroup} {result result' : SelectionResult}

theorem Adds.addInput {group : OutputGroup} (h : Adds result groups)
    (hadd : result.addInput group = some result') : Adds result' (groups ++ [group]) := by
  rw [SelectionResult.addInput] at hadd
  split at hadd
  · cases hadd
    constructor
    · rw [h.groups_eq]
    · simp [h.inputs_eq]
    · simp [h.weight_eq, totalWeight]
  · cases hadd

theorem Adds.addInputs (h : Adds result groups) (hadd : result.addInputs more = some result') :
    Adds result' (groups ++ more) := by
  induction more generalizing result groups with
  | nil =>
    cases hadd
    rwa [List.append_nil]
  | cons group more ih =>
    rw [SelectionResult.addInputs, List.foldlM_cons, Option.bind_eq_bind,
      Option.bind_eq_some_iff] at hadd
    obtain ⟨added, hgroup, hmore⟩ := hadd
    have hall := ih (h.addInput hgroup) hmore
    rwa [List.append_assoc, List.singleton_append] at hall

theorem Adds.exists_addInputs (h : Adds result groups)
    (hnodup : ((groups ++ more).flatMap (·.outputs)).Nodup) :
    ∃ result', result.addInputs more = some result' := by
  induction more generalizing result groups with
  | nil => exact ⟨result, rfl⟩
  | cons group more ih =>
    have hfirst : (result.selectedInputs ++ group.outputs).Nodup := by
      rw [h.inputs_eq]
      refine hnodup.sublist ?_
      rw [List.flatMap_append, List.flatMap_cons, ← List.append_assoc]
      exact List.sublist_append_left _ _
    have hadd : result.addInput group = some { result with
        groups := result.groups ++ [group]
        selectedInputs := result.selectedInputs ++ group.outputs
        useEffective := !group.subtractFeeOutputs
        weight := result.weight + group.weight } := by
      rw [SelectionResult.addInput, if_pos hfirst]
    rw [SelectionResult.addInputs, List.foldlM_cons, hadd, some_bind]
    refine ih (h.addInput hadd) ?_
    rwa [List.append_assoc, List.singleton_append]

end SelectionResult

/-! ## The walk both searches make -/

/-- The totals a search keeps of its current selection. -/
structure Tally (M : Type) where
  empty : M
  add : M → OutputGroup → M
  remove : M → OutputGroup → M
  remove_add : ∀ totals group, remove (add totals group) group = totals

def Tally.total {M : Type} (tally : Tally M) (groups : List OutputGroup) : M :=
  groups.foldr (fun group totals => tally.add totals group) tally.empty

/-- The current selection holds indexes of the pool, the last one selected first. -/
structure SearchState (M : Type) where
  currSelection : List Nat
  totals : M
  nextUtxo : Nat

/-- Where to go from a selection: on to the inclusion of the next group, to the omission of
the last group, or to the omission of the one before it. -/
inductive Move where
  | explore
  | shift
  | cut
  deriving DecidableEq

section Search

variable {M B : Type} (tally : Tally M) (utxoPool : List OutputGroup)

def selectNext (s : SearchState M) : Option (SearchState M) :=
  utxoPool[s.nextUtxo]?.map fun utxo =>
    { currSelection := s.nextUtxo :: s.currSelection
      totals := tally.add s.totals utxo
      nextUtxo := s.nextUtxo + 1 }

def deselectLast (s : SearchState M) : Option (SearchState M) :=
  match s.currSelection with
  | [] => none
  | last :: rest =>
    utxoPool[last]?.map fun utxo =>
      { s with currSelection := rest, totals := tally.remove s.totals utxo }

/-- Skip groups with the amount of their omitted predecessor; the flag is set when the end
of the pool is reached in that way. -/
def skipClones : Nat → Nat → Option (Nat × Bool)
  | 0, _ => none
  | rounds + 1, nextUtxo =>
    utxoPool[nextUtxo - 1]?.bind fun previous =>
    utxoPool[nextUtxo]?.bind fun utxo =>
    if previous.getSelectionAmount = utxo.getSelectionAmount then
      if nextUtxo ≥ utxoPool.length - 1 then some (nextUtxo, true)
      else skipClones rounds (nextUtxo + 1)
    else some (nextUtxo, false)

/-- The loop `while (should_shift)`; no state when the search space is exhausted. -/
def shiftLoop : Nat → SearchState M → Option (Option (SearchState M))
  | 0, _ => none
  | rounds + 1, s =>
    match s.currSelection with
    | [] => some none
    | last :: _ =>
      (deselectLast tally utxoPool s).bind fun s =>
      (skipClones utxoPool utxoPool.length (last + 1)).bind fun skipped =>
      if skipped.2 then shiftLoop rounds { s with nextUtxo := skipped.1 }
      else some (some { s with nextUtxo := skipped.1 })

def moveOn (s : SearchState M) : Move → Option (Option (SearchState M))
  | .explore => some (some s)
  | .shift => shiftLoop tally utxoPool (s.currSelection.length + 1) s
  | .cut =>
    (deselectLast tally utxoPool s).bind fun s =>
    shiftLoop tally utxoPool (s.currSelection.length + 1) s

/-- The main loop with the tries left.  It returns whether the search space was exhausted,
the tries left and the best selection found. -/
def searchLoop (judge : SearchState M → B → Option (Move × B)) :
    Nat → SearchState M → B → Option (Bool × Nat × B)
  | 0, _, _ => none
  | triesLeft + 1, s, best =>
    (selectNext tally utxoPool s).bind fun s =>
    (judge s best).bind fun judged =>
    if triesLeft = 0 then some (false, 0, judged.2)
    else
      -- nothing is left to add after the end of the pool
      (moveOn tally utxoPool s
          (if s.nextUtxo = utxoPool.length then .cut else judged.1)).bind fun next =>
      match next with
      | none => some (true, triesLeft, judged.2)
      | some s => searchLoop judge triesLeft s judged.2

end Search

def TOTAL_TRIES : Nat := 100000

def lookaheadOf (utxoPool : List OutputGroup) : List Int × Int :=
  utxoPool.foldr
    (fun group later => (later.2 :: later.1, later.2 + group.getSelectionAmount)) ([], 0)

/-- The end of both searches: the inputs of the best selection, or an error without one. -/
def searchResult (utxoPool : List OutputGroup) (result : SelectionResult)
    (bestSelection : List Nat) (maxTxWeightExceeded : Bool) :
    Option (Except String SelectionResult) :=
  if bestSelection = [] then some (.error (selectionError maxTxWeightExceeded))
  else
    (bestSelection.reverse.mapM (utxoPool[·]?)).bind fun groups =>
    (result.addInputs groups).map .ok

/-! ## Branch and bound -/

structure BnbTotals where
  currAmount : Int
  currWeight : Int
  currSelectionWaste : Int

def bnbTally : Tally BnbTotals where
  empty := ⟨0, 0, 0⟩
  add totals utxo :=
    ⟨totals.currAmount + utxo.getSelectionAmount, totals.currWeight + utxo.weight,
      totals.currSelectionWaste + utxo.waste⟩
  remove totals utxo :=
    ⟨totals.currAmount - utxo.getSelectionAmount, totals.currWeight - utxo.weight,
      totals.currSelectionWaste - utxo.waste⟩
  remove_add totals utxo := by simp

structure BnbBest where
  bestSelection : List Nat := []
  bestWaste : Int := MAX_MONEY
  maxTxWeightExceeded : Bool := false

def bnbJudge (lookahead : List Int) (selectionTarget costOfChange maxSelectionWeight : Int)
    (isFeerateHigh : Bool) (s : SearchState BnbTotals) (best : BnbBest) :
    Option (Move × BnbBest) :=
  s.currSelection.head?.bind fun last =>
  lookahead[last]?.bind fun ahead =>
  some <|
    if s.totals.currAmount + ahead < selectionTarget then (.cut, best)
    else if s.totals.currWeight > maxSelectionWeight then
      (.shift, { best with maxTxWeightExceeded := true })
    else if s.totals.currAmount > selectionTarget + costOfChange then (.shift, best)
    else if isFeerateHigh ∧ s.totals.currSelectionWaste > best.bestWaste then (.shift, best)
    else if s.totals.currAmount ≥ selectionTarget then
      let currWaste := s.totals.currSelectionWaste + (s.totals.currAmount - selectionTarget)
      if currWaste ≤ best.bestWaste then
        (.shift, { best with bestSelection := s.currSelection, bestWaste := currWaste })
      else (.shift, best)
    else (.explore, best)

/-- `SelectCoinsBnB` with the completed flag of its local result, which is set from the
start. -/
def bnbOutcome (std : StdSort) (utxoPool : List OutputGroup)
    (selectionTarget costOfChange maxSelectionWeight : Int) :
    Option (Bool × Except String SelectionResult) :=
  let utxoPool := std.sort OutputGroup.descending utxoPool
  if (lookaheadOf utxoPool).2 < selectionTarget then some (true, .error "")
  else
    utxoPool[0]?.bind fun first =>
    (searchLoop bnbTally utxoPool
        (bnbJudge (lookaheadOf utxoPool).1 selectionTarget costOfChange maxSelectionWeight
          (first.fee > first.longTermFee))
        TOTAL_TRIES ⟨[], bnbTally.empty, 0⟩ {}).bind fun searched =>
    (searchResult utxoPool
        { target := selectionTarget
          algo := .BNB
          algoCompleted := searched.1
          selectionsEvaluated := TOTAL_TRIES - searched.2.1 }
        searched.2.2.bestSelection searched.2.2.maxTxWeightExceeded).map fun result =>
    (searched.1, result)

def selectCoinsBnB (std : StdSort) (utxoPool : List OutputGroup)
    (selectionTarget costOfChange maxSelectionWeight : Int) :
    Option (Except String SelectionResult) :=
  (bnbOutcome std utxoPool selectionTarget costOfChange maxSelectionWeight).map (·.2)

/-! ## CoinGrinder -/

structure CoinGrinderTotals where
  currAmount : Int
  currWeight : Int

def coinGrinderTally : Tally CoinGrinderTotals where
  empty := ⟨0, 0⟩
  add totals utxo :=
    ⟨totals.currAmount + utxo.getSelectionAmount, totals.currWeight + utxo.weight⟩
  remove totals utxo :=
    ⟨totals.currAmount - utxo.getSelectionAmount, totals.currWeight - utxo.weight⟩
  remove_add totals utxo := by simp

structure CoinGrinderBest where
  bestSelectionWeight : Int
  bestSelection : List Nat := []
  bestSelectionAmount : Int := MAX_MONEY
  maxTxWeightExceeded : Bool := false

def INT_MAX : Int := 2 ^ 31 - 1

def minTailWeightOf (utxoPool : List OutputGroup) : List Int :=
  (utxoPool.foldr
    (fun group later => (later.2 :: later.1, min later.2 group.weight)) ([], INT_MAX)).1

/-- At a group of the least weight left, its omission cannot do better either. -/
def barrenMove (tail : OutputGroup) (minTailWeight : Int) : Move :=
  if tail.weight ≤ minTailWeight then .cut else .shift

/-- The division rounds towards zero; its divisor is positive in a pool as the callers
build it. -/
def coinGrinderJudge (utxoPool : List OutputGroup) (lookahead minTailWeight : List Int)
    (totalTarget maxSelectionWeight : Int) (s : SearchState CoinGrinderTotals)
    (best : CoinGrinderBest) : Option (Move × CoinGrinderBest) :=
  s.currSelection.head?.bind fun currTail =>
  utxoPool[currTail]?.bind fun tail =>
  lookahead[currTail]?.bind fun ahead =>
  minTailWeight[currTail]?.bind fun tailWeight =>
  if s.totals.currAmount + ahead < totalTarget then some (.cut, best)
  else if s.totals.currWeight > best.bestSelectionWeight then
    some (barrenMove tail tailWeight,
      if s.totals.currWeight > maxSelectionWeight then { best with maxTxWeightExceeded := true }
      else best)
  else if s.totals.currAmount ≥ totalTarget then
    some (.shift,
      if s.totals.currWeight < best.bestSelectionWeight ∨
          (s.totals.currWeight = best.bestSelectionWeight ∧
            s.totals.currAmount < best.bestSelectionAmount) then
        { best with
          bestSelection := s.currSelection
          bestSelectionWeight := s.totals.currWeight
          bestSelectionAmount := s.totals.currAmount }
      else best)
  else if best.bestSelection = [] then some (.explore, best)
  else if tail.getSelectionAmount = 0 then none
  else if s.totals.currWeight + tailWeight *
      (totalTarget - s.totals.currAmount + tail.getSelectionAmount - 1).tdiv
        tail.getSelectionAmount > best.bestSelectionWeight then
    some (barrenMove tail tailWeight, best)
  else some (.explore, best)

/-- `CoinGrinder` with the completed flag of its result. -/
def coinGrinderOutcome (std : StdSort) (utxoPool : List OutputGroup)
    (selectionTarget changeTarget maxSelectionWeight : Int) :
    Option (Bool × Except String SelectionResult) :=
  let utxoPool := std.sort OutputGroup.descendingEffvalWeight utxoPool
  if (lookaheadOf utxoPool).2 < selectionTarget + changeTarget then some (true, .error "")
  else
    (searchLoop coinGrinderTally utxoPool
        (coinGrinderJudge utxoPool (lookaheadOf utxoPool).1 (minTailWeightOf utxoPool)
          (selectionTarget + changeTarget) maxSelectionWeight)
        TOTAL_TRIES ⟨[], coinGrinderTally.empty, 0⟩
        { bestSelectionWeight := maxSelectionWeight }).bind fun searched =>
    (searchResult utxoPool
        { target := selectionTarget
          algo := .CG
          algoCompleted := searched.1
          selectionsEvaluated := TOTAL_TRIES - searched.2.1 }
        searched.2.2.bestSelection searched.2.2.maxTxWeightExceeded).map fun result =>
    (searched.1, result)

def coinGrinder (std : StdSort) (utxoPool : List OutputGroup)
    (selectionTarget changeTarget maxSelectionWeight : Int) :
    Option (Except String SelectionResult) :=
  (coinGrinderOutcome std utxoPool selectionTarget changeTarget maxSelectionWeight).map (·.2)

end HcsCoin
