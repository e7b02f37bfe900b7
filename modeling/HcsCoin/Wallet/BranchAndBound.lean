import HcsCoin.Wallet.Search

/-!
# Completed branch and bound searches

When `SelectCoinsBnB` completes, the selection it returns has the least waste of all
selections in the target range and within the weight, and without such a selection it
returns none.  This needs a positive target, and among groups of equal amount one with no
more waste must not be heavier: a group is skipped after the omission of one of the same
amount before it, whatever their weights.
-/

namespace HcsCoin

open Foundation OutputGroup

def InTargetRange (selectionTarget costOfChange maxSelectionWeight : Int)
    (chosen : List OutputGroup) : Prop :=
  selectionTarget ≤ totalAmount chosen ∧ totalAmount chosen ≤ selectionTarget + costOfChange ∧
    totalWeight chosen ≤ maxSelectionWeight

def selectionWaste (selectionTarget : Int) (chosen : List OutputGroup) : Int :=
  totalWaste chosen + (totalAmount chosen - selectionTarget)

/-- The pools of the search: positive amounts, no negative weights, and fees not below the
long term ones. -/
structure Searchable (pool : List OutputGroup) : Prop where
  amount_pos : ∀ group ∈ pool, 0 < group.getSelectionAmount
  weight_nonneg : ∀ group ∈ pool, 0 ≤ group.weight
  longTermFee_le : ∀ group ∈ pool, group.longTermFee ≤ group.fee

/-- Among groups of equal amount, one with no more waste is not heavier. -/
def WasteBoundsWeight (pool : List OutputGroup) : Prop :=
  ∀ a ∈ pool, ∀ b ∈ pool, a.getSelectionAmount = b.getSelectionAmount → a.waste ≤ b.waste →
    a.weight ≤ b.weight

/-! ## Sets of indexes -/

section Sets

variable {utxoPool : List OutputGroup} {selectionTarget costOfChange maxSelectionWeight : Int}
  {isFeerateHigh : Bool}

def setWaste (utxoPool : List OutputGroup) (selectionTarget : Int) (S : Finset Nat) : Int :=
  setTotal utxoPool (·.waste) S + (setTotal utxoPool (·.getSelectionAmount) S - selectionTarget)

theorem Searchable.waste_nonneg {group : OutputGroup} (h : Searchable utxoPool)
    (hgroup : group ∈ utxoPool) : 0 ≤ group.waste :=
  sub_nonneg.2 (h.longTermFee_le group hgroup)

def Feasible (utxoPool : List OutputGroup)
    (selectionTarget costOfChange maxSelectionWeight : Int) (S : Finset Nat) : Prop :=
  selectionTarget ≤ setTotal utxoPool (·.getSelectionAmount) S ∧
    setTotal utxoPool (·.getSelectionAmount) S ≤ selectionTarget + costOfChange ∧
    setTotal utxoPool (·.weight) S ≤ maxSelectionWeight ∧
    setWaste utxoPool selectionTarget S ≤ MAX_MONEY

def BnbBest.Beats (utxoPool : List OutputGroup)
    (selectionTarget costOfChange maxSelectionWeight : Int) (best : BnbBest) (S : Finset Nat) :
    Prop :=
  Feasible utxoPool selectionTarget costOfChange maxSelectionWeight S →
    best.bestSelection ≠ [] ∧ best.bestWaste ≤ setWaste utxoPool selectionTarget S

/-- A set with more waste than the best one is beaten: if there is no best selection yet, the
bound is the largest waste of interest. -/
theorem BnbBest.Records.beats {best : BnbBest}
    (h : best.Records utxoPool selectionTarget costOfChange maxSelectionWeight) {S : Finset Nat}
    (hwaste : best.bestWaste < setWaste utxoPool selectionTarget S) :
    best.Beats utxoPool selectionTarget costOfChange maxSelectionWeight S := by
  intro hfeasible
  refine ⟨fun hnone => ?_, hwaste.le⟩
  have hmax := h.none_yet hnone
  have hle := hfeasible.2.2.2
  omega

/-! ## Verdicts -/

theorem bnbJudge_judges (hpool : Searchable utxoPool) :
    Judges bnbTally utxoPool
      (bnbJudge (lookaheadOf utxoPool).1 selectionTarget costOfChange maxSelectionWeight
        isFeerateHigh)
      (BnbBest.Records utxoPool selectionTarget costOfChange maxSelectionWeight)
      (BnbBest.Beats utxoPool selectionTarget costOfChange maxSelectionWeight) := by
  intro s best last hs hbest
  obtain ⟨judged, hjudged, hcases⟩ := bnbJudge_cases hs best rfl
  refine ⟨judged, hjudged, bnbJudge_records hs hbest hjudged, fun S hS hmeet => ?_⟩
  have hamounts : ∀ group ∈ utxoPool, 0 ≤ group.getSelectionAmount :=
    fun group hgroup => (hpool.amount_pos group hgroup).le
  have hamount : s.currSelection.toFinset ⊆ S →
      totalAmount (entriesAt utxoPool s.currSelection) ≤
        setTotal utxoPool (·.getSelectionAmount) S :=
    total_le_setTotal hamounts hs.nodup
  have hweight : s.currSelection.toFinset ⊆ S →
      totalWeight (entriesAt utxoPool s.currSelection) ≤ setTotal utxoPool (·.weight) S :=
    total_le_setTotal hpool.weight_nonneg hs.nodup
  have hwaste : s.currSelection.toFinset ⊆ S →
      totalWaste (entriesAt utxoPool s.currSelection) ≤ setTotal utxoPool (·.waste) S :=
    total_le_setTotal (fun _ => hpool.waste_nonneg) hs.nodup
  rcases hcases with ⟨hshort, rfl⟩ | ⟨hheavy, rfl⟩ | ⟨hover, rfl⟩ | ⟨hworse, rfl⟩ |
    ⟨hlower, hupper, hlight, hbetter, rfl⟩ | ⟨hlower, hworse, rfl⟩ | ⟨hmore, rfl⟩
  · -- neither this selection nor its omission reaches the target with all that is left
    have hshort' : _ → best.Beats utxoPool selectionTarget costOfChange maxSelectionWeight S :=
      fun hsets hfeasible => absurd hfeasible.1
        (setTotal_lt_of_short hamounts hs hshort hS.1 hsets).not_ge
    exact covered_or_cut hs id (fun heq => hshort' (.inl heq))
      (fun hext => hshort' (.inr (.inl hext))) (fun hext => hshort' (.inr (.inr hext))) hmeet
  · refine covered_or_shift (fun hcovered => hcovered) (fun hsub hfeasible => ?_) hmeet
    have hmost := hfeasible.2.2.1
    have hleast := hweight hsub
    omega
  · refine covered_or_shift id (fun hsub hfeasible => ?_) hmeet
    have hmost := hfeasible.2.1
    have hleast := hamount hsub
    omega
  · refine covered_or_shift id (fun hsub hfeasible => ?_) hmeet
    refine hbest.beats ?_ hfeasible
    have hleast := hwaste hsub
    have hge := hfeasible.1
    rw [setWaste]
    omega
  · have hne : s.currSelection ≠ [] := by
      rw [hs.eq_cons]
      exact List.cons_ne_nil _ _
    refine covered_or_shift (fun hcovered hfeasible => ?_) (fun hsub _ => ⟨hne, ?_⟩) hmeet
    · exact ⟨hne, hbetter.trans (hcovered hfeasible).2⟩
    · have hleast := hamount hsub
      have hleast' := hwaste hsub
      rw [setWaste]
      dsimp only
      omega
  · refine covered_or_shift id (fun hsub => hbest.beats ?_) hmeet
    have hleast := hamount hsub
    have hleast' := hwaste hsub
    rw [setWaste]
    omega
  · rcases hmeet with hcovered | rfl | hpending
    · exact .inl hcovered
    · refine .inl fun hfeasible => ?_
      have hge := hfeasible.1
      rw [setTotal, ← sum_entriesAt_toFinset _ _ hs.nodup, ← totalAmount] at hge
      omega
    · exact .inr hpending

end Sets

/-! ## The search -/

def descendingKey (group : OutputGroup) : Int ×ₗ Int :=
  toLex (-group.getSelectionAmount, group.waste)

theorem descending_iff (a b : OutputGroup) :
    descending a b = true ↔ descendingKey a < descendingKey b :=
  descending_lex_iff (·.waste) a b

theorem waste_le_of_sameAmount {std : StdSort} {pool : List OutputGroup} {i : Nat}
    (h : SameAmount (std.sort descending pool) i) :
    ∃ a ∈ pool, ∃ b ∈ pool, a.getSelectionAmount = b.getSelectionAmount ∧ a.waste ≤ b.waste ∧
      ∀ f : OutputGroup → Int,
        entryValue (std.sort descending pool) f i = f a ∧
          entryValue (std.sort descending pool) f (i + 1) = f b := by
  have hperm := std.perm descending pool
  have hordered := std.ordered descendingKey descending descending_iff pool
  obtain ⟨hlt, hsame⟩ := h
  generalize std.sort descending pool = sorted at hlt hsame hperm hordered
  have hi : i < sorted.length := by omega
  rw [entryValue_getElem hi, entryValue_getElem hlt] at hsame
  refine ⟨sorted[i], hperm.mem_iff.1 (List.getElem_mem hi), sorted[i + 1],
    hperm.mem_iff.1 (List.getElem_mem hlt), hsame, ?_, fun f =>
      ⟨entryValue_getElem hi f, entryValue_getElem hlt f⟩⟩
  have hle := List.pairwise_iff_getElem.1 hordered i (i + 1) hi hlt (Nat.lt_succ_self i)
  rw [descendingKey, descendingKey, Prod.Lex.toLex_le_toLex, hsame] at hle
  rcases hle with hlt | hle
  · exact absurd hlt (lt_irrefl _)
  · exact hle.2

theorem Searchable.of_perm {pool sorted : List OutputGroup} (h : Searchable pool)
    (hperm : sorted.Perm pool) : Searchable sorted where
  amount_pos group hgroup := h.amount_pos group (hperm.mem_iff.1 hgroup)
  weight_nonneg group hgroup := h.weight_nonneg group (hperm.mem_iff.1 hgroup)
  longTermFee_le group hgroup := h.longTermFee_le group (hperm.mem_iff.1 hgroup)

/-- A selection in range is a set of indexes, and one that the search has to meet is in
range and has no more waste. -/
theorem exists_meetable {std : StdSort} {pool chosen : List OutputGroup}
    {selectionTarget costOfChange maxSelectionWeight : Int} (hclones : WasteBoundsWeight pool)
    (hsub : chosen.Subperm pool)
    (hrange : InTargetRange selectionTarget costOfChange maxSelectionWeight chosen)
    (hmax : selectionWaste selectionTarget chosen ≤ MAX_MONEY) :
    ∃ S, Meetable (std.sort descending pool) S ∧
      Feasible (std.sort descending pool) selectionTarget costOfChange
        maxSelectionWeight S ∧
      setWaste (std.sort descending pool) selectionTarget S ≤
        selectionWaste selectionTarget chosen := by
  have hperm := std.perm descending pool
  obtain ⟨S, hS, hsum⟩ := exists_positions_of_subperm (hsub.trans hperm.symm.subperm)
  have hwasteLe : ∀ i, SameAmount (std.sort descending pool) i →
      entryValue (std.sort descending pool) (·.waste) i ≤
        entryValue (std.sort descending pool) (·.waste) (i + 1) := by
    intro i hi
    obtain ⟨a, _, b, _, _, hle, hvalue⟩ := waste_le_of_sameAmount hi
    rwa [(hvalue _).1, (hvalue _).2]
  have hweightLe : ∀ i, SameAmount (std.sort descending pool) i →
      entryValue (std.sort descending pool) (·.weight) i ≤
        entryValue (std.sort descending pool) (·.weight) (i + 1) := by
    intro i hi
    obtain ⟨a, ha, b, hb, heq, hle, hvalue⟩ := waste_le_of_sameAmount hi
    rw [(hvalue _).1, (hvalue _).2]
    exact hclones a ha b hb heq hle
  obtain ⟨T, hT, hfirst, hamount, hwaste, hweight⟩ :=
    exists_prefersFirst _ _ _ (fun i hi => hi.2) hwasteLe hweightLe S hS
  rw [hsum, ← totalAmount] at hamount
  rw [hsum, ← totalWaste] at hwaste
  rw [hsum, ← totalWeight] at hweight
  obtain ⟨hlower, hupper, hlight⟩ := hrange
  rw [selectionWaste] at hmax ⊢
  have hwaste' : setWaste (std.sort descending pool) selectionTarget T ≤
      totalWaste chosen + (totalAmount chosen - selectionTarget) := by
    rw [setWaste, setTotal, setTotal]
    omega
  refine ⟨T, ⟨hT, hfirst⟩, ⟨?_, ?_, hweight.trans hlight, hwaste'.trans hmax⟩, hwaste'⟩
  · rw [setTotal, hamount]
    exact hlower
  · rw [setTotal, hamount]
    exact hupper

/-- The search returns when no two groups share an output.  If it is completed, it finds a
selection exactly when there is one in range whose waste is not over `MAX_MONEY`, and the
selection found is in range and has the least waste of all those. -/
theorem bnbOutcome_least_waste (std : StdSort) (pool : List OutputGroup) (hne : pool ≠ [])
    (hpool : Searchable pool) (hclones : WasteBoundsWeight pool)
    (selectionTarget costOfChange maxSelectionWeight : Int) (htarget : 0 < selectionTarget) :
    ((pool.flatMap (·.outputs)).Nodup →
      ∃ outcome, bnbOutcome std pool selectionTarget costOfChange maxSelectionWeight =
        some outcome) ∧
    ∀ outcome, bnbOutcome std pool selectionTarget costOfChange maxSelectionWeight =
        some (true, outcome) →
      ((∃ result, outcome = .ok result) ↔
        ∃ chosen, chosen.Subperm pool ∧
          InTargetRange selectionTarget costOfChange maxSelectionWeight chosen ∧
          selectionWaste selectionTarget chosen ≤ MAX_MONEY) ∧
      ∀ result, outcome = .ok result →
        result.groups.Subperm pool ∧
        InTargetRange selectionTarget costOfChange maxSelectionWeight result.groups ∧
        ∀ chosen, chosen.Subperm pool →
          InTargetRange selectionTarget costOfChange maxSelectionWeight chosen →
            selectionWaste selectionTarget result.groups ≤
              selectionWaste selectionTarget chosen := by
  have hperm := std.perm descending pool
  have hmeet : ∀ chosen, chosen.Subperm pool →
      InTargetRange selectionTarget costOfChange maxSelectionWeight chosen →
      selectionWaste selectionTarget chosen ≤ MAX_MONEY → _ :=
    fun chosen => @exists_meetable std pool chosen _ _ _ hclones
  rw [bnbOutcome]
  generalize std.sort descending pool = utxoPool at hperm hmeet ⊢
  have hsearchable := hpool.of_perm hperm
  by_cases hfunds : (lookaheadOf utxoPool).2 < selectionTarget
  · rw [if_pos hfunds]
    refine ⟨fun _ => ⟨_, rfl⟩, fun outcome houtcome => ?_⟩
    cases houtcome
    refine ⟨⟨?_, ?_⟩, fun result hok => by cases hok⟩
    · rintro ⟨result, hok⟩
      cases hok
    rintro ⟨chosen, hsub, hrange, _⟩
    have hmost := totalAmount_le_of_subperm hsub fun group hgroup => (hpool.amount_pos group hgroup).le
    rw [lookaheadOf_snd, totalAmount_perm hperm] at hfunds
    have hge := hrange.1
    omega
  · rw [if_neg hfunds]
    have hlength : 0 < utxoPool.length := by
      rw [hperm.length_eq]
      exact List.length_pos_iff.2 hne
    rw [List.getElem?_eq_getElem hlength, Option.bind_some]
    -- the empty set is not in range, so every set that counts has to be met
    obtain ⟨completed, triesLeft, best, hloop, hrecords, hbeats⟩ := searchLoop_spec
      (@bnbJudge_judges _ selectionTarget costOfChange maxSelectionWeight
        (utxoPool[0].fee > utxoPool[0].longTermFee) hsearchable)
      TOTAL_TRIES (by decide) valid_start hlength BnbBest.records_start fun S _ => by
        refine (eq_empty_or_pending S).imp_left ?_
        rintro rfl hfeasible
        have hge := hfeasible.1
        rw [setTotal, Finset.sum_empty] at hge
        omega
    rw [hloop, Option.bind_some]
    constructor
    · intro hnodup
      obtain ⟨returned, hreturned⟩ := exists_searchResult hrecords.picked .empty
        ((hperm.symm.flatMap_right _).nodup_iff.1 hnodup)
      exact ⟨_, by rw [hreturned, Option.map_some]⟩
    intro outcome houtcome
    obtain ⟨returned, hreturned, houtcome⟩ := Option.map_eq_some_iff.mp houtcome
    cases houtcome
    have hfound : ∀ result, outcome = .ok result → best.bestSelection ≠ [] ∧
        result.groups.Subperm pool ∧
        InTargetRange selectionTarget costOfChange maxSelectionWeight result.groups ∧
        selectionWaste selectionTarget result.groups = best.bestWaste := by
      rintro result rfl
      obtain ⟨hfirst, hgroups, hpays⟩ := searchResult_ok hrecords.picked .empty hreturned
      have hamount := totalAmount_perm hgroups
      have hwaste : totalWaste result.groups =
          totalWaste (entriesAt utxoPool best.bestSelection) := (hgroups.map _).sum_eq
      refine ⟨hfirst, hpays.subperm.trans hperm.subperm, ⟨hpays.amount_ge, ?_, ?_⟩, ?_⟩
      · rw [hamount]
        exact hrecords.amount_le hfirst
      · rw [← hpays.adds.weight_eq]
        exact hpays.weight_le
      · rw [selectionWaste, hamount, hwaste, hrecords.waste_eq hfirst]
    have hleast : ∀ chosen, chosen.Subperm pool →
        InTargetRange selectionTarget costOfChange maxSelectionWeight chosen →
        selectionWaste selectionTarget chosen ≤ MAX_MONEY →
          best.bestSelection ≠ [] ∧ best.bestWaste ≤ selectionWaste selectionTarget chosen := by
      intro chosen hsub hrange hmax
      obtain ⟨S, hS, hfeasible, hwaste⟩ := hmeet chosen hsub hrange hmax
      obtain ⟨hfirst, hbest⟩ := hbeats rfl S hS hfeasible
      exact ⟨hfirst, hbest.trans hwaste⟩
    refine ⟨⟨?_, ?_⟩, fun result hok => ?_⟩
    · rintro ⟨result, hok⟩
      obtain ⟨_, hsub, hrange, hwaste⟩ := hfound result hok
      exact ⟨result.groups, hsub, hrange, hwaste ▸ hrecords.waste_le⟩
    · rintro ⟨chosen, hsub, hrange, hmax⟩
      exact searchResult_isOk hrecords.picked (hleast chosen hsub hrange hmax).1 hreturned
    · obtain ⟨_, hsub, hrange, hwaste⟩ := hfound result hok
      refine ⟨hsub, hrange, fun chosen hchosen hchosenRange => ?_⟩
      rw [hwaste]
      rcases le_or_gt (selectionWaste selectionTarget chosen) MAX_MONEY with hmax | hmax
      · exact (hleast chosen hchosen hchosenRange hmax).2
      · exact hrecords.waste_le.trans hmax.le

private def plainCoin (n : UInt32) (amount weight waste : Int) : OutputGroup :=
  { outputs := [⟨.ofHex 9, n⟩]
    value := amount
    effectiveValue := amount
    fee := waste
    longTermFee := 0
    subtractFeeOutputs := false
    weight := weight }

private def threeCoins : List OutputGroup :=
  [plainCoin 0 7 30 3, plainCoin 1 10 40 4, plainCoin 2 4 20 2]

theorem bnbOutcome_least_waste_three_coins :
    ∃ result, bnbOutcome insertionStdSort threeCoins 10 1 100 = some (true, .ok result) ∧
      selectionWaste 10 result.groups ≤
        selectionWaste 10 [plainCoin 0 7 30 3, plainCoin 2 4 20 2] := by
  have hleast := (bnbOutcome_least_waste insertionStdSort threeCoins (by decide)
    ⟨by decide, by decide, by decide⟩ (by unfold WasteBoundsWeight; decide) 10 1 100
    (by decide)).2
  refine ⟨_, by rfl, ?_⟩
  have hothers : [plainCoin 0 7 30 3, plainCoin 2 4 20 2].Subperm threeCoins :=
    List.Sublist.subperm (by decide)
  exact ((hleast _ (by rfl)).2 _ rfl).2.2 _ hothers (by unfold InTargetRange; decide)

/-- Two coins of the same amount and waste: the heavy one comes first and is over the weight,
and the light one is skipped with it.  With a target of zero the empty selection is in range,
and the search does not return it. -/
theorem bnbOutcome_misses :
    (Searchable [plainCoin 0 10 100 0, plainCoin 1 10 10 0] ∧
      (∀ a ∈ [plainCoin 0 10 100 0, plainCoin 1 10 10 0],
        ∀ b ∈ [plainCoin 0 10 100 0, plainCoin 1 10 10 0],
          a.getSelectionAmount = b.getSelectionAmount → a.waste < b.waste → a.weight ≤ b.weight) ∧
      InTargetRange 10 0 50 [plainCoin 1 10 10 0] ∧
      selectionWaste 10 [plainCoin 1 10 10 0] ≤ MAX_MONEY ∧
      bnbOutcome insertionStdSort [plainCoin 0 10 100 0, plainCoin 1 10 10 0] 10 0 50 =
        some (true, .error maxWeightExceededText)) ∧
    Searchable [plainCoin 1 10 10 0] ∧ WasteBoundsWeight [plainCoin 1 10 10 0] ∧
      InTargetRange 0 0 50 [] ∧ selectionWaste 0 [] ≤ MAX_MONEY ∧
      bnbOutcome insertionStdSort [plainCoin 1 10 10 0] 0 0 50 = some (true, .error "") := by
  unfold WasteBoundsWeight InTargetRange
  exact ⟨⟨⟨by decide, by decide, by decide⟩, by decide, by decide, by decide, by rfl⟩,
    ⟨by decide, by decide, by decide⟩, by decide, by decide, by decide, by rfl⟩

end HcsCoin
