import HcsCoin.Wallet.Search

/-!
# Completed CoinGrinder searches

When `CoinGrinder` completes, the selection it returns has the least weight of all
selections that pay the target with the change, and the least amount of those of that
weight.  The search meets no empty selection, so the target has to be positive.
-/

namespace HcsCoin

open Foundation

def PaysWithin (totalTarget maxSelectionWeight : Int) (chosen : List OutputGroup) : Prop :=
  totalTarget ≤ totalAmount chosen ∧ totalWeight chosen ≤ maxSelectionWeight

/-! ## The least weight of what is left -/

private def leastWeight (groups : List OutputGroup) : Int :=
  groups.foldr (fun group least => min least group.weight) INT_MAX

theorem foldr_minTail_snd (groups : List OutputGroup) :
    (groups.foldr (fun group (later : List Int × Int) =>
      (later.2 :: later.1, min later.2 group.weight)) ([], INT_MAX)).2 = leastWeight groups := by
  induction groups with
  | nil => rfl
  | cons group groups ih => simp only [List.foldr_cons, leastWeight, ih]

variable {groups : List OutputGroup}

theorem leastWeight_le {group : OutputGroup} (h : group ∈ groups) :
    leastWeight groups ≤ group.weight := by
  induction groups with
  | nil => exact absurd h List.not_mem_nil
  | cons first groups ih =>
    rcases List.mem_cons.1 h with rfl | h
    · exact min_le_right _ _
    · exact (min_le_left _ _).trans (ih h)

theorem leastWeight_pos (h : ∀ group ∈ groups, 0 < group.weight) :
    0 < leastWeight groups := by
  induction groups with
  | nil => decide
  | cons first groups ih =>
    exact lt_min (ih (List.forall_mem_cons.mp h).2) (h first List.mem_cons_self)

theorem getElem?_minTailWeightOf {utxoPool : List OutputGroup} {i : Nat}
    (hi : i < utxoPool.length) :
    (minTailWeightOf utxoPool)[i]? = some (leastWeight (utxoPool.drop (i + 1))) := by
  induction utxoPool generalizing i with
  | nil => exact absurd hi (by simp)
  | cons group groups ih =>
    rw [minTailWeightOf, List.foldr_cons]
    cases i with
    | zero => simp [foldr_minTail_snd]
    | succ i =>
      rw [List.getElem?_cons_succ, List.drop_succ_cons, ← ih (by simpa using hi)]
      rfl

/-! ## Verdicts -/

section Verdicts

variable {utxoPool : List OutputGroup} {totalTarget maxSelectionWeight : Int}

variable {last : Nat} {S : Finset Nat} {s : SearchState CoinGrinderTotals} {selection : List Nat}
  {least most : Int} {best : CoinGrinderBest} {next : Nat}

theorem coinGrinderJudge_cases
    (hpositive : ∀ group ∈ utxoPool, 0 < group.getSelectionAmount)
    (h : s.Selected coinGrinderTally utxoPool last) (hlast : last < utxoPool.length)
    (best : CoinGrinderBest) {chosen : List OutputGroup}
    (hchosen : entriesAt utxoPool s.currSelection = chosen)
    (hleast : leastWeight (utxoPool.drop (last + 1)) = least) :
    ∃ judged, coinGrinderJudge utxoPool (lookaheadOf utxoPool).1 (minTailWeightOf utxoPool)
        totalTarget maxSelectionWeight s best = some judged ∧
      ((totalAmount chosen + totalAmount (utxoPool.drop (last + 1)) < totalTarget ∧
          judged = (.cut, best)) ∨
        (best.bestSelectionWeight < totalWeight chosen ∧
          ∃ exceeded, judged = (barrenMove utxoPool[last] least,
            { best with maxTxWeightExceeded := exceeded })) ∨
        (totalTarget ≤ totalAmount chosen ∧
          (totalWeight chosen < best.bestSelectionWeight ∨
            totalWeight chosen = best.bestSelectionWeight ∧
              totalAmount chosen < best.bestSelectionAmount) ∧
          judged = (.shift, { best with
            bestSelection := s.currSelection
            bestSelectionWeight := totalWeight chosen
            bestSelectionAmount := totalAmount chosen })) ∨
        (totalTarget ≤ totalAmount chosen ∧ totalWeight chosen = best.bestSelectionWeight ∧
          best.bestSelectionAmount ≤ totalAmount chosen ∧ judged = (.shift, best)) ∨
        (totalAmount chosen < totalTarget ∧
          best.bestSelectionWeight < totalWeight chosen + least *
            ((totalTarget - totalAmount chosen + utxoPool[last].getSelectionAmount - 1) /
              utxoPool[last].getSelectionAmount) ∧
          judged = (barrenMove utxoPool[last] least, best)) ∨
        (totalAmount chosen < totalTarget ∧ judged = (.explore, best))) := by
  have hamount := hpositive _ (List.getElem_mem hlast)
  have htotals := h.totals_eq
  rw [hchosen, coinGrinderTally_total] at htotals
  rw [coinGrinderJudge, h.head_eq, Option.bind_some, List.getElem?_eq_getElem hlast,
    Option.bind_some, getElem?_lookaheadOf hlast, Option.bind_some,
    getElem?_minTailWeightOf hlast, Option.bind_some, htotals, hleast]
  dsimp only
  split
  · exact ⟨_, rfl, .inl ⟨by omega, rfl⟩⟩
  split
  · refine ⟨_, rfl, .inr (.inl ⟨by omega, ?_⟩)⟩
    split
    exacts [⟨true, rfl⟩, ⟨best.maxTxWeightExceeded, rfl⟩]
  split
  · refine ⟨_, rfl, ?_⟩
    split
    · exact .inr (.inr (.inl ⟨by omega, ‹_›, rfl⟩))
    · exact .inr (.inr (.inr (.inl ⟨by omega, by omega, by omega, rfl⟩)))
  split
  · exact ⟨_, rfl, .inr (.inr (.inr (.inr (.inr ⟨by omega, rfl⟩))))⟩
  rw [if_neg hamount.ne', Int.tdiv_eq_ediv_of_nonneg (by omega)]
  split
  · exact ⟨_, rfl, .inr (.inr (.inr (.inr (.inl ⟨by omega, by omega, rfl⟩))))⟩
  · exact ⟨_, rfl, .inr (.inr (.inr (.inr (.inr ⟨by omega, rfl⟩))))⟩

structure CoinGrinderBest.Keeps (utxoPool : List OutputGroup)
    (totalTarget maxSelectionWeight : Int) (best : CoinGrinderBest) : Prop where
  weight_le : best.bestSelectionWeight ≤ maxSelectionWeight
  none_yet : best.bestSelection = [] →
    best.bestSelectionWeight = maxSelectionWeight ∧ best.bestSelectionAmount = MAX_MONEY
  picked : best.bestSelection ≠ [] →
    Picked utxoPool best.bestSelection totalTarget maxSelectionWeight
  weight_eq : best.bestSelection ≠ [] →
    best.bestSelectionWeight = totalWeight (entriesAt utxoPool best.bestSelection)
  amount_eq : best.bestSelection ≠ [] →
    best.bestSelectionAmount = totalAmount (entriesAt utxoPool best.bestSelection)

theorem CoinGrinderBest.keeps_start :
    CoinGrinderBest.Keeps utxoPool totalTarget maxSelectionWeight
      { bestSelectionWeight := maxSelectionWeight } where
  weight_le := le_rfl
  none_yet _ := ⟨rfl, rfl⟩
  picked hne := absurd rfl hne
  weight_eq hne := absurd rfl hne
  amount_eq hne := absurd rfl hne

def SetPays (utxoPool : List OutputGroup) (totalTarget maxSelectionWeight : Int)
    (S : Finset Nat) : Prop :=
  totalTarget ≤ setTotal utxoPool (·.getSelectionAmount) S ∧
    setTotal utxoPool (·.weight) S ≤ maxSelectionWeight

def CoinGrinderBest.Beats (utxoPool : List OutputGroup) (totalTarget maxSelectionWeight : Int)
    (best : CoinGrinderBest) (S : Finset Nat) : Prop :=
  SetPays utxoPool totalTarget maxSelectionWeight S →
    best.bestSelection ≠ [] ∧
      (best.bestSelectionWeight < setTotal utxoPool (·.weight) S ∨
        best.bestSelectionWeight = setTotal utxoPool (·.weight) S ∧
          best.bestSelectionAmount ≤ setTotal utxoPool (·.getSelectionAmount) S)

theorem CoinGrinderBest.Keeps.beats (h : best.Keeps utxoPool totalTarget maxSelectionWeight)
    (hweight : SetPays utxoPool totalTarget maxSelectionWeight S →
      best.bestSelectionWeight < setTotal utxoPool (·.weight) S) :
    best.Beats utxoPool totalTarget maxSelectionWeight S := by
  intro hpays
  refine ⟨fun hnone => ?_, .inl (hweight hpays)⟩
  have hmax := (h.none_yet hnone).1
  have hlt := hweight hpays
  have hle := hpays.2
  omega

/-! ## Bounds on what extends a selection -/

section Extends

variable (hnodup : selection.Nodup) (hS : S ⊆ Finset.range utxoPool.length)
  (hext : ExtendsFrom selection next S)
  (hmost : ∀ i ∈ Finset.Ico next utxoPool.length,
    entryValue utxoPool (·.getSelectionAmount) i ≤ most)
  (hleast : ∀ i ∈ Finset.Ico next utxoPool.length, least ≤ entryValue utxoPool (·.weight) i)
include hnodup hS hext hmost hleast

/-- Later groups have no larger amounts and no less weight than the bounds: how many of them
a set takes bounds its amount and its weight. -/
theorem setTotal_extends :
    ∃ m : Nat, 0 < m ∧
      setTotal utxoPool (·.getSelectionAmount) S ≤
        totalAmount (entriesAt utxoPool selection) + m * most ∧
      totalWeight (entriesAt utxoPool selection) + m * least ≤ setTotal utxoPool (·.weight) S := by
  have hsplit : ∀ f : OutputGroup → Int, setTotal utxoPool f S =
      ((entriesAt utxoPool selection).map f).sum +
        ∑ i ∈ S \ selection.toFinset, entryValue utxoPool f i := fun f => by
    rw [setTotal, ← Finset.sum_sdiff hext.subset, sum_entriesAt_toFinset _ _ hnodup, add_comm]
  have hlater := hext.sdiff_subset hS
  obtain ⟨_, _, i, hi, hnew⟩ := hext
  refine ⟨(S \ selection.toFinset).card, Finset.card_pos.2 ⟨i, by simp [hi, hnew]⟩, ?_, ?_⟩
  · have hsum := Finset.sum_le_card_nsmul _ _ most fun i hi => hmost i (hlater hi)
    rw [nsmul_eq_mul] at hsum
    rw [hsplit, totalAmount]
    exact Int.add_le_add_left hsum _
  · have hsum := Finset.card_nsmul_le_sum _ _ least fun i hi => hleast i (hlater hi)
    rw [nsmul_eq_mul] at hsum
    rw [hsplit, totalWeight]
    exact Int.add_le_add_left hsum _

/-- As many groups of at most an amount are needed as the rounded up quotient says, and each
of them has a weight. -/
theorem weight_gt_of_estimate {bound : Int} (hmostPos : 0 < most) (hleastPos : 0 < least)
    (hpays : totalTarget ≤ setTotal utxoPool (·.getSelectionAmount) S)
    (hestimate : bound < totalWeight (entriesAt utxoPool selection) + least *
      ((totalTarget - totalAmount (entriesAt utxoPool selection) + most - 1) / most)) :
    bound < setTotal utxoPool (·.weight) S := by
  obtain ⟨m, _, hamount, hweight⟩ := setTotal_extends hnodup hS hext hmost hleast
  have hneeded :
      (totalTarget - totalAmount (entriesAt utxoPool selection) + most - 1) / most ≤ m := by
    refine Int.le_of_lt_add_one ((Int.ediv_lt_iff_lt_mul hmostPos).2 ?_)
    linarith
  have hleastTotal := mul_le_mul_of_nonneg_left hneeded hleastPos.le
  linarith

end Extends

/-- The pools of the search, sorted: amounts do not rise, and of equal amounts the weight
does not fall. -/
structure Grindable (utxoPool : List OutputGroup) : Prop where
  amount_pos : ∀ group ∈ utxoPool, 0 < group.getSelectionAmount
  weight_pos : ∀ group ∈ utxoPool, 0 < group.weight
  ordered : utxoPool.Pairwise fun a b =>
    b.getSelectionAmount < a.getSelectionAmount ∨
      b.getSelectionAmount = a.getSelectionAmount ∧ a.weight ≤ b.weight

theorem Grindable.amount_le (h : Grindable utxoPool) (hlast : last < utxoPool.length) :
    ∀ i ∈ Finset.Ico (last + 1) utxoPool.length,
      entryValue utxoPool (·.getSelectionAmount) i ≤ utxoPool[last].getSelectionAmount := by
  intro i hi
  obtain ⟨hfrom, hlt⟩ := Finset.mem_Ico.1 hi
  rw [entryValue_getElem hlt]
  have hordered := List.pairwise_iff_getElem.1 h.ordered last i hlast hlt hfrom
  omega

theorem leastWeight_le_entryValue :
    ∀ i ∈ Finset.Ico (last + 1) utxoPool.length,
      leastWeight (utxoPool.drop (last + 1)) ≤ entryValue utxoPool (·.weight) i := by
  intro i hi
  obtain ⟨hfrom, hlt⟩ := Finset.mem_Ico.1 hi
  rw [entryValue_getElem hlt]
  refine leastWeight_le (List.mem_iff_getElem.2 ⟨i - (last + 1), ?_, ?_⟩)
  · simp only [List.length_drop]
    omega
  · simp only [List.getElem_drop]
    congr 1
    omega

theorem SearchState.Selected.totals_tail {M : Type} {tally : Tally M} {s : SearchState M}
    (h : s.Selected tally utxoPool last) (hlast : last < utxoPool.length) :
    totalAmount (entriesAt utxoPool s.currSelection) =
        utxoPool[last].getSelectionAmount + totalAmount (entriesAt utxoPool s.currSelection.tail) ∧
      totalWeight (entriesAt utxoPool s.currSelection) =
        utxoPool[last].weight + totalWeight (entriesAt utxoPool s.currSelection.tail) := by
  have hentries : entriesAt utxoPool s.currSelection =
      utxoPool[last] :: entriesAt utxoPool s.currSelection.tail := by
    rw [h.eq_cons, entriesAt_cons (List.getElem?_eq_getElem hlast), List.tail_cons]
  simp [hentries, totalAmount, totalWeight]

/-- A selection that is given up with all that extends it, and, if its last group is the
lightest one left, with all that extends it without that group. -/
theorem covered_or_barren (hs : s.Selected coinGrinderTally utxoPool last)
    (hlast : last < utxoPool.length) {best' : CoinGrinderBest}
    (hbest : best'.Keeps utxoPool totalTarget maxSelectionWeight)
    (hkeep : ∀ S, best.Beats utxoPool totalTarget maxSelectionWeight S →
      best'.Beats utxoPool totalTarget maxSelectionWeight S)
    (hgive : s.currSelection.toFinset ⊆ S →
      S = s.currSelection.toFinset ∨ ExtendsFrom s.currSelection (last + 1) S →
      SetPays utxoPool totalTarget maxSelectionWeight S →
        best'.bestSelectionWeight < setTotal utxoPool (·.weight) S)
    (hrest : utxoPool[last].weight ≤ least → ExtendsFrom s.currSelection.tail (last + 1) S →
      SetPays utxoPool totalTarget maxSelectionWeight S →
        best'.bestSelectionWeight < setTotal utxoPool (·.weight) S)
    (h : best.Beats utxoPool totalTarget maxSelectionWeight S ∨
      S = s.currSelection.toFinset ∨ Pending s.currSelection s.nextUtxo S) :
    best'.Beats utxoPool totalTarget maxSelectionWeight S ∨
      Remains s S (barrenMove utxoPool[last] least) := by
  have hself : S = s.currSelection.toFinset →
      best'.Beats utxoPool totalTarget maxSelectionWeight S := fun heq =>
    hbest.beats (hgive heq.ge (.inl heq))
  have hext : ExtendsFrom s.currSelection (last + 1) S →
      best'.Beats utxoPool totalTarget maxSelectionWeight S := fun hext =>
    hbest.beats (hgive hext.subset (.inr hext))
  rw [barrenMove]
  split
  · exact covered_or_cut hs (hkeep S) hself hext (fun hext' => hbest.beats (hrest ‹_› hext')) h
  · rcases h with hcovered | heq | hpending
    · exact .inl (hkeep S hcovered)
    · exact .inl (hself heq)
    · rw [hs.next_eq, pending_iff] at hpending
      exact hpending.imp_left hext

theorem groups_for_one_more {amount missing : Int} (hpos : 0 < amount) :
    (missing + amount + amount - 1) / amount = (missing + amount - 1) / amount + 1 := by
  rw [← Int.add_mul_ediv_right _ 1 hpos.ne', one_mul]
  congr 1
  omega

theorem coinGrinderJudge_judges (hpool : Grindable utxoPool)
    (hmoney : totalAmount utxoPool < MAX_MONEY) :
    Judges coinGrinderTally utxoPool
      (coinGrinderJudge utxoPool (lookaheadOf utxoPool).1 (minTailWeightOf utxoPool)
        totalTarget maxSelectionWeight)
      (CoinGrinderBest.Keeps utxoPool totalTarget maxSelectionWeight)
      (CoinGrinderBest.Beats utxoPool totalTarget maxSelectionWeight) := by
  intro s best last hs hbest
  have hlast : last < utxoPool.length := by
    have hinPool := hs.inPool
    rw [hs.next_eq] at hinPool
    exact hinPool
  obtain ⟨judged, hjudged, hcases⟩ := coinGrinderJudge_cases hpool.amount_pos hs hlast best rfl rfl
  have hamounts : ∀ group ∈ utxoPool, 0 ≤ group.getSelectionAmount :=
    fun group hgroup => (hpool.amount_pos group hgroup).le
  have hweights : ∀ group ∈ utxoPool, 0 ≤ group.weight :=
    fun group hgroup => (hpool.weight_pos group hgroup).le
  have hdrop : ∀ group ∈ utxoPool.drop (last + 1), 0 < group.weight :=
    fun group hgroup => hpool.weight_pos group (List.mem_of_mem_drop hgroup)
  have hleastPos := leastWeight_pos hdrop
  have hmost := hpool.amount_le hlast
  have hleast := @leastWeight_le_entryValue utxoPool last
  obtain ⟨hchosenAmount, hchosenWeight⟩ := hs.totals_tail hlast
  have hpaid : totalAmount (entriesAt utxoPool s.currSelection) ≤ totalAmount utxoPool :=
    totalAmount_le_of_subperm hs.subperm hamounts
  have hne : s.currSelection ≠ [] := by
    rw [hs.eq_cons]
    exact List.cons_ne_nil _ _
  have hmore : ∀ S, s.currSelection.toFinset ⊆ S →
      totalAmount (entriesAt utxoPool s.currSelection) ≤
          setTotal utxoPool (·.getSelectionAmount) S ∧
        totalWeight (entriesAt utxoPool s.currSelection) ≤ setTotal utxoPool (·.weight) S :=
    fun S hsub => ⟨total_le_setTotal hamounts hs.nodup hsub, total_le_setTotal hweights hs.nodup hsub⟩
  have hunpaid : totalAmount (entriesAt utxoPool s.currSelection) < totalTarget →
      setTotal utxoPool (·.getSelectionAmount) s.currSelection.toFinset < totalTarget := fun hless => by
    rwa [setTotal, ← sum_entriesAt_toFinset _ _ hs.nodup, ← totalAmount]
  have hnodup : s.currSelection.tail.Nodup := hs.nodup.sublist (List.tail_sublist _)
  have hamountPos := hpool.amount_pos _ (List.getElem_mem hlast)
  generalize leastWeight (utxoPool.drop (last + 1)) = least at hcases hleastPos hleast
  have hsame : ∀ exceeded, CoinGrinderBest.Keeps utxoPool totalTarget maxSelectionWeight
      { best with maxTxWeightExceeded := exceeded } := fun _ =>
    ⟨hbest.weight_le, hbest.none_yet, hbest.picked, hbest.weight_eq, hbest.amount_eq⟩
  refine ⟨judged, hjudged, ?_⟩
  rcases hcases with ⟨hshort, rfl⟩ | ⟨hheavy, exceeded, rfl⟩ | ⟨hlower, hbetter, rfl⟩ |
    ⟨hlower, htie, hworse, rfl⟩ | ⟨hless, hestimate, rfl⟩ | ⟨hless, rfl⟩
  · refine ⟨hbest, fun S hS hmeet => ?_⟩
    have hshort' : _ → best.Beats utxoPool totalTarget maxSelectionWeight S :=
      fun hsets hpays => absurd hpays.1
        (setTotal_lt_of_short hamounts hs hshort hS.1 hsets).not_ge
    exact covered_or_cut hs id (fun heq => hshort' (.inl heq))
      (fun hext => hshort' (.inr (.inl hext))) (fun hext => hshort' (.inr (.inr hext))) hmeet
  · refine ⟨hsame exceeded, fun S hS hmeet => ?_⟩
    refine covered_or_barren hs hlast (hsame exceeded) (fun S hcovered => hcovered)
      (fun hsub _ _ => hheavy.trans_le (hmore S hsub).2)
      (fun hlight hext _ => ?_) hmeet
    obtain ⟨m, hm, _, hweight⟩ := setTotal_extends hnodup hS.1 hext hmost hleast
    have hm' : least ≤ m * least := by nlinarith
    dsimp only
    omega
  · refine ⟨⟨?_, fun hnone => absurd hnone hne, fun _ => hs.picked hlower ?_, fun _ => rfl,
      fun _ => rfl⟩, fun S hS hmeet => ?_⟩
    · have hle := hbest.weight_le
      dsimp only
      omega
    · have hle := hbest.weight_le
      omega
    refine covered_or_shift (fun hcovered hpays => ⟨hne, ?_⟩) (fun hsub _ => ⟨hne, ?_⟩) hmeet
    · have hbeats := (hcovered hpays).2
      dsimp only
      omega
    · have hleast := hmore S hsub
      dsimp only
      omega
  · refine ⟨hbest, fun S hS hmeet => ?_⟩
    refine covered_or_shift id (fun hsub _ => ⟨fun hnone => ?_, ?_⟩) hmeet
    · have hmax := (hbest.none_yet hnone).2
      omega
    · have hleast := hmore S hsub
      dsimp only at hleast ⊢
      omega
  · refine ⟨hbest, fun S hS hmeet => ?_⟩
    refine covered_or_barren hs hlast hbest (fun S hcovered => hcovered)
      (fun hsub hsets hpays => ?_) (fun hlight hext hpays => ?_) hmeet
    · rcases hsets with rfl | hext
      · exact absurd hpays.1 (hunpaid hless).not_ge
      · exact weight_gt_of_estimate hs.nodup hS.1 hext hmost hleast hamountPos hleastPos hpays.1
          hestimate
    · -- one more group of the least weight is needed in the place of the last one
      refine weight_gt_of_estimate hnodup hS.1 hext hmost hleast hamountPos hleastPos hpays.1 ?_
      have hmissing : totalTarget - totalAmount (entriesAt utxoPool s.currSelection.tail) =
          totalTarget - totalAmount (entriesAt utxoPool s.currSelection) +
            utxoPool[last].getSelectionAmount := by omega
      rw [hmissing, groups_for_one_more hamountPos, mul_add]
      dsimp only
      omega
  · refine ⟨hbest, fun S hS hmeet => ?_⟩
    rcases hmeet with hcovered | rfl | hpending
    · exact .inl hcovered
    · exact .inl fun hpays => absurd hpays.1 (hunpaid hless).not_ge
    · exact .inr hpending

end Verdicts

/-! ## The search -/

def descendingEffvalWeightKey (group : OutputGroup) : Int ×ₗ Int :=
  toLex (-group.getSelectionAmount, group.weight)

theorem descendingEffvalWeight_iff (a b : OutputGroup) :
    OutputGroup.descendingEffvalWeight a b = true ↔
      descendingEffvalWeightKey a < descendingEffvalWeightKey b :=
  descending_lex_iff (·.weight) a b

theorem grindable_sort (std : StdSort) {pool : List OutputGroup}
    (hamounts : ∀ group ∈ pool, 0 < group.getSelectionAmount)
    (hweights : ∀ group ∈ pool, 0 < group.weight) :
    Grindable (std.sort OutputGroup.descendingEffvalWeight pool) where
  amount_pos group hgroup := hamounts group ((std.perm _ pool).mem_iff.1 hgroup)
  weight_pos group hgroup := hweights group ((std.perm _ pool).mem_iff.1 hgroup)
  ordered := by
    refine (std.ordered descendingEffvalWeightKey OutputGroup.descendingEffvalWeight
      descendingEffvalWeight_iff pool).imp fun {a b} hle => ?_
    rw [descendingEffvalWeightKey, descendingEffvalWeightKey, Prod.Lex.toLex_le_toLex] at hle
    dsimp only at hle
    omega

/-- Selections that pay are sets of indexes, and one that the search has to meet pays the
same with no more weight. -/
theorem Grindable.exists_meetable {utxoPool chosen : List OutputGroup}
    (h : Grindable utxoPool) (hsub : chosen.Subperm utxoPool) :
    ∃ S, Meetable utxoPool S ∧
      setTotal utxoPool (·.getSelectionAmount) S = totalAmount chosen ∧
      setTotal utxoPool (·.weight) S ≤ totalWeight chosen := by
  obtain ⟨S, hS, hsum⟩ := exists_positions_of_subperm hsub
  have hweight : ∀ i, SameAmount utxoPool i →
      entryValue utxoPool (·.weight) i ≤ entryValue utxoPool (·.weight) (i + 1) := by
    rintro i ⟨hlt, hsame⟩
    have hi : i < utxoPool.length := by omega
    rw [entryValue_getElem hi, entryValue_getElem hlt] at hsame ⊢
    have hordered := List.pairwise_iff_getElem.1 h.ordered i (i + 1) hi hlt (Nat.lt_succ_self i)
    omega
  obtain ⟨T, hT, hfirst, hamount, hless, _⟩ :=
    exists_prefersFirst _ _ _ (fun i hi => hi.2) hweight hweight S hS
  refine ⟨T, ⟨hT, hfirst⟩, ?_, ?_⟩
  · rw [setTotal, hamount, hsum, totalAmount]
  · rw [totalWeight, ← hsum]
    exact hless

/-- The search returns when no two groups share an output.  If it is completed, it finds a
selection exactly when there is one that pays within the weight, and the selection found has
the least weight of all those, and of those of that weight the least amount. -/
theorem coinGrinderOutcome_least_weight (std : StdSort) (pool : List OutputGroup)
    (hamounts : ∀ group ∈ pool, 0 < group.getSelectionAmount)
    (hweights : ∀ group ∈ pool, 0 < group.weight) (hmoney : totalAmount pool < MAX_MONEY)
    (selectionTarget changeTarget maxSelectionWeight : Int)
    (htarget : 0 < selectionTarget + changeTarget) :
    ((pool.flatMap (·.outputs)).Nodup →
      ∃ outcome, coinGrinderOutcome std pool selectionTarget changeTarget maxSelectionWeight =
        some outcome) ∧
    ∀ outcome, coinGrinderOutcome std pool selectionTarget changeTarget maxSelectionWeight =
        some (true, outcome) →
      ((∃ result, outcome = .ok result) ↔
        ∃ chosen, chosen.Subperm pool ∧
          PaysWithin (selectionTarget + changeTarget) maxSelectionWeight chosen) ∧
      ∀ result, outcome = .ok result →
        result.groups.Subperm pool ∧
        PaysWithin (selectionTarget + changeTarget) maxSelectionWeight result.groups ∧
        ∀ chosen, chosen.Subperm pool →
          PaysWithin (selectionTarget + changeTarget) maxSelectionWeight chosen →
            totalWeight result.groups < totalWeight chosen ∨
              totalWeight result.groups = totalWeight chosen ∧
                totalAmount result.groups ≤ totalAmount chosen := by
  have hperm := std.perm OutputGroup.descendingEffvalWeight pool
  have hpool := grindable_sort std hamounts hweights
  rw [coinGrinderOutcome]
  generalize std.sort OutputGroup.descendingEffvalWeight pool = utxoPool at hperm hpool ⊢
  generalize selectionTarget + changeTarget = totalTarget at htarget ⊢
  have hall := totalAmount_perm hperm
  by_cases hfunds : (lookaheadOf utxoPool).2 < totalTarget
  · rw [if_pos hfunds]
    refine ⟨fun _ => ⟨_, rfl⟩, fun outcome houtcome => ?_⟩
    cases houtcome
    refine ⟨⟨?_, ?_⟩, fun result hok => by cases hok⟩
    · rintro ⟨result, hok⟩
      cases hok
    rintro ⟨chosen, hsub, hpays⟩
    have hmost := totalAmount_le_of_subperm hsub fun group hgroup => (hamounts group hgroup).le
    rw [lookaheadOf_snd] at hfunds
    have hge := hpays.1
    omega
  · rw [if_neg hfunds]
    have hlength := length_pos_of_funds htarget hfunds
    -- the empty set does not pay, so every set that counts has to be met
    obtain ⟨completed, triesLeft, best, hloop, hkeeps, hbeats⟩ := searchLoop_spec
      (@coinGrinderJudge_judges _ totalTarget maxSelectionWeight hpool (by omega))
      TOTAL_TRIES (by decide) valid_start hlength CoinGrinderBest.keeps_start fun S _ => by
        refine (eq_empty_or_pending S).imp_left ?_
        rintro rfl hpays
        have hge := hpays.1
        rw [setTotal, Finset.sum_empty] at hge
        omega
    rw [hloop, Option.bind_some]
    constructor
    · intro hnodup
      obtain ⟨returned, hreturned⟩ := exists_searchResult hkeeps.picked .empty
        ((hperm.symm.flatMap_right _).nodup_iff.1 hnodup)
      exact ⟨_, by rw [hreturned, Option.map_some]⟩
    intro outcome houtcome
    obtain ⟨returned, hreturned, houtcome⟩ := Option.map_eq_some_iff.mp houtcome
    cases houtcome
    have hleast : ∀ chosen, chosen.Subperm pool →
        PaysWithin totalTarget maxSelectionWeight chosen → best.bestSelection ≠ [] ∧
          (best.bestSelectionWeight < totalWeight chosen ∨
            best.bestSelectionWeight = totalWeight chosen ∧
              best.bestSelectionAmount ≤ totalAmount chosen) := by
      intro chosen hsub hpays
      obtain ⟨S, hS, hamount, hweight⟩ :=
        hpool.exists_meetable (hsub.trans hperm.symm.subperm)
      obtain ⟨hfirst, hbest⟩ := hbeats rfl S hS
        ⟨by rw [hamount]; exact hpays.1, hweight.trans hpays.2⟩
      exact ⟨hfirst, by omega⟩
    have hfound : ∀ result, outcome = .ok result → result.groups.Subperm pool ∧
        PaysWithin totalTarget maxSelectionWeight result.groups ∧
        totalWeight result.groups = best.bestSelectionWeight ∧
        totalAmount result.groups = best.bestSelectionAmount := by
      rintro result rfl
      obtain ⟨hfirst, hgroups, hpays⟩ := searchResult_ok hkeeps.picked .empty hreturned
      refine ⟨hpays.subperm.trans hperm.subperm, ⟨hpays.amount_ge, ?_⟩, ?_, ?_⟩
      · rw [← hpays.adds.weight_eq]
        exact hpays.weight_le
      · rw [hkeeps.weight_eq hfirst, totalWeight_perm hgroups]
      · rw [hkeeps.amount_eq hfirst, totalAmount_perm hgroups]
    refine ⟨⟨?_, ?_⟩, fun result hok => ?_⟩
    · rintro ⟨result, hok⟩
      exact ⟨result.groups, (hfound result hok).1, (hfound result hok).2.1⟩
    · rintro ⟨chosen, hsub, hpays⟩
      exact searchResult_isOk hkeeps.picked (hleast chosen hsub hpays).1 hreturned
    · obtain ⟨hsub, hpays, hweight, hamount⟩ := hfound result hok
      refine ⟨hsub, hpays, fun chosen hchosen hchosenPays => ?_⟩
      rw [hweight, hamount]
      exact (hleast chosen hchosen hchosenPays).2

private def grinderCoin (n : UInt32) (amount weight : Int) : OutputGroup :=
  { outputs := [⟨.ofHex 8, n⟩]
    value := amount
    effectiveValue := amount
    fee := 0
    longTermFee := 0
    subtractFeeOutputs := false
    weight := weight }

private def grinderCoins : List OutputGroup :=
  [grinderCoin 0 10 2, grinderCoin 1 7 1, grinderCoin 2 5 1, grinderCoin 3 4 2]

/-- The pool of the design notes with a target of 11: the coins of 7 and 5 are lighter than
those of 10 and 5. -/
theorem coinGrinderOutcome_least_weight_notes :
    ∃ result, coinGrinderOutcome insertionStdSort grinderCoins 9 2 100 =
        some (true, .ok result) ∧
      (totalWeight result.groups < totalWeight [grinderCoin 0 10 2, grinderCoin 2 5 1] ∨
        totalWeight result.groups = totalWeight [grinderCoin 0 10 2, grinderCoin 2 5 1] ∧
          totalAmount result.groups ≤ totalAmount [grinderCoin 0 10 2, grinderCoin 2 5 1]) := by
  have hleast := (coinGrinderOutcome_least_weight insertionStdSort grinderCoins (by decide)
    (by decide) (by decide) 9 2 100 (by decide)).2
  refine ⟨_, by rfl, ?_⟩
  have hothers : [grinderCoin 0 10 2, grinderCoin 2 5 1].Subperm grinderCoins :=
    List.Sublist.subperm (by decide)
  exact ((hleast _ (by rfl)).2 _ rfl).2.2 _ hothers (by unfold PaysWithin; decide)

/-- With a target of zero the empty selection pays with no weight, and the search returns a
coin. -/
theorem coinGrinderOutcome_not_empty :
    PaysWithin (0 + 0) 100 [] ∧ totalWeight [] = 0 ∧
      ∃ result, coinGrinderOutcome insertionStdSort [grinderCoin 0 10 2] 0 0 100 =
          some (true, .ok result) ∧ totalWeight result.groups = 2 := by
  refine ⟨by unfold PaysWithin; decide, rfl, _, by rfl, by rfl⟩

end HcsCoin
