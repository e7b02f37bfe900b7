import HcsCoin.ClusterLinearize.DepGraph
import HcsCoin.Foundation.GroupOptimality

/-!
# Linearizations and their chunks

`ChunkLinearizationInfo` and `ChunkLinearization` of `cluster_linearize.h`, and the feerate
diagram that `CompareChunks` of `util/feefrac.h` compares.
-/

namespace HcsCoin

open Foundation

/-- The loop that adds a chunk: it absorbs the last chunk while its feerate is higher.  The
chunks are given from the last one. -/
def absorbChunks {T : Type} (rate : T → FeeFrac) (join : T → T → T) (newChunk : T) :
    List T → List T
  | [] => [newChunk]
  | last :: ret =>
    if (rate newChunk).ratioGt (rate last) then absorbChunks rate join (join newChunk last) ret
    else newChunk :: last :: ret

structure SetInfo where
  transactions : Finset Nat
  feerate : FeeFrac
  deriving DecidableEq

namespace SetInfo

def ofTransaction (g : DepGraph) (pos : Nat) : SetInfo := ⟨{pos}, g.feeRate pos⟩

def union (a b : SetInfo) : SetInfo := ⟨a.transactions ∪ b.transactions, a.feerate + b.feerate⟩

end SetInfo

namespace DepGraph

def chunkLinearizationInfo (g : DepGraph) (linearization : List Nat) : List SetInfo :=
  (linearization.foldl
    (fun ret i => absorbChunks (·.feerate) SetInfo.union (SetInfo.ofTransaction g i) ret)
    []).reverse

def chunkLinearization (g : DepGraph) (linearization : List Nat) : List FeeFrac :=
  (linearization.foldl (fun ret i => absorbChunks id (· + ·) (g.feeRate i) ret) []).reverse

def diagram (g : DepGraph) (linearization : List Nat) (s : ℚ) : ℚ :=
  diagramAt ((g.chunkLinearization linearization).map fun chunk => (chunk.fee, chunk.size)) s

structure IsLinearization (g : DepGraph) (linearization : List Nat) : Prop where
  nodup : linearization.Nodup
  mem_iff : ∀ i, i ∈ linearization ↔ i ∈ g.used
  ordered : linearization.Pairwise fun a b => b ∉ g.ancestors a

def PositiveSizes (g : DepGraph) : Prop := ∀ i ∈ g.used, 0 < (g.feeRate i).size

/-- The bound that `CompareChunks` asks for, whatever the signs of the fees. -/
structure SumsFit (g : DepGraph) : Prop where
  fee : ∑ i ∈ g.used, |(g.feeRate i).fee| < 2 ^ 63
  size : ∑ i ∈ g.used, (g.feeRate i).size < 2 ^ 31

/-- The weights of the transactions; positions without a positive size count as one. -/
def weighing (g : DepGraph) : Weighing Nat where
  fee i := (g.feeRate i).fee
  size i := if 0 < (g.feeRate i).size then (g.feeRate i).size else 1
  size_pos i := by
    split
    · assumption
    · exact Int.one_pos

end DepGraph

/-! ## Chunks as groups of a pass -/

def rateOf (w : Weighing Nat) (group : List Nat) : FeeFrac :=
  ⟨(w.feeSum group).bmod (2 ^ 64), (w.sizeSum group).bmod (2 ^ 32)⟩

def Exact (w : Weighing Nat) (group : List Nat) : Prop :=
  rateOf w group = ⟨w.feeSum group, w.sizeSum group⟩

theorem rateOf_append (w : Weighing Nat) (a b : List Nat) :
    rateOf w (a ++ b) = rateOf w b + rateOf w a := by
  ext
  · simp [rateOf, add_comm]
  · simp [rateOf, add_comm]

variable {w : Weighing Nat} {T : Type} {join : T → T → T} {rate : T → FeeFrac}

theorem ratioGt_rateOf {a b : List Nat} (ha : Exact w a) (hb : Exact w b) :
    (rateOf w a).ratioGt (rateOf w b) = true ↔ w.Higher a b := by
  rw [ha, hb]
  simp [FeeFrac.ratioGt, Weighing.Higher]

/-- Distinct transactions of a graph whose sums fit add up exactly, with or without their fees
negated. -/
theorem DepGraph.SumsFit.exact {g : DepGraph} (h : g.SumsFit) (hpos : g.PositiveSizes)
    (hfee : ∀ i, |w.fee i| = |(g.feeRate i).fee|) (hsize : w.size = g.weighing.size)
    {group : List Nat} (hnodup : group.Nodup) (hused : ∀ i ∈ group, i ∈ g.used) :
    Exact w group := by
  have hsub : group.toFinset ⊆ g.used := fun i hi => hused i (List.mem_toFinset.1 hi)
  have hfees : |w.feeSum group| < 2 ^ 63 := by
    rw [Weighing.feeSum, ← List.sum_toFinset _ hnodup]
    refine (Finset.abs_sum_le_sum_abs _ _).trans_lt (lt_of_le_of_lt ?_ h.fee)
    simp only [hfee]
    exact Finset.sum_le_sum_of_subset_of_nonneg hsub fun i _ _ => abs_nonneg _
  have hsizes : w.sizeSum group < 2 ^ 31 := by
    have hsame : ∀ i ∈ group.toFinset, w.size i = (g.feeRate i).size := fun i hi => by
      rw [hsize]
      exact if_pos (hpos i (hsub hi))
    rw [Weighing.sizeSum, ← List.sum_toFinset _ hnodup, Finset.sum_congr rfl hsame]
    refine lt_of_le_of_lt ?_ h.size
    exact Finset.sum_le_sum_of_subset_of_nonneg hsub fun i hi _ => (hpos i hi).le
  have hnonneg := w.sizeSum_nonneg group
  rw [abs_lt] at hfees
  rw [Exact, rateOf, Int.bmod_eq_of_le_mul_two (by norm_num; omega) (by norm_num; omega),
    Int.bmod_eq_of_le_mul_two (by norm_num; omega) (by norm_num; omega)]

theorem absorbChunks_map {chunkOf : List Nat → T}
    (hrate : ∀ group, rate (chunkOf group) = rateOf w group)
    (hjoin : ∀ a b, join (chunkOf a) (chunkOf b) = chunkOf (b ++ a)) (current : List Nat)
    (before : List (List Nat))
    (hexact : ∀ group, group.Sublist (before.reverse.flatten ++ current) → Exact w group) :
    absorbChunks rate join (chunkOf current) (before.map chunkOf) =
      (insertGroup w (fun _ _ => true) current before).map chunkOf := by
  induction before generalizing current with
  | nil => rfl
  | cons previous before ih =>
    rw [List.reverse_cons, List.flatten_concat, List.append_assoc] at hexact
    have hgt := ratioGt_rateOf
      (hexact current ((List.sublist_append_right _ _).trans (List.sublist_append_right _ _)))
      (hexact previous ((List.sublist_append_left _ _).trans (List.sublist_append_right _ _)))
    rw [List.map_cons, absorbChunks, insertGroup, hrate, hrate]
    by_cases hhigher : w.Higher current previous
    · rw [if_pos (hgt.2 hhigher), if_pos hhigher, if_pos rfl, hjoin, ih _ hexact]
    · rw [if_neg fun h => hhigher (hgt.1 h), if_neg hhigher]
      rfl

theorem foldl_absorbChunks (w : Weighing Nat) (chunkOf : List Nat → T) {single : Nat → T}
    (hrate : ∀ group, rate (chunkOf group) = rateOf w group)
    (hjoin : ∀ a b, join (chunkOf a) (chunkOf b) = chunkOf (b ++ a)) {items : List Nat}
    (hexact : ∀ group, group.Sublist items → Exact w group)
    (hsingle : ∀ i ∈ items, single i = chunkOf [i]) :
    items.foldl (fun ret i => absorbChunks rate join (single i) ret) [] =
      (chunksOf w items).map chunkOf := by
  induction items using List.reverseRecOn with
  | nil => rfl
  | append_singleton items i ih =>
    have hfront := fun group hgroup =>
      hexact group (List.Sublist.trans hgroup (List.sublist_append_left items [i]))
    rw [List.foldl_append, List.foldl_cons, List.foldl_nil,
      ih hfront fun j hj => hsingle j (List.mem_append_left _ hj), hsingle i (by simp),
      absorbChunks_map hrate hjoin _ _ (by rwa [flatten_chunksOf]), chunksOf, chunksOf,
      groupPass_snoc]

namespace DepGraph

variable {g : DepGraph} {linearization : List Nat} {rev : Bool} {rest : Finset Nat}

def infoOf (g : DepGraph) (group : List Nat) : SetInfo := ⟨group.toFinset, rateOf g.weighing group⟩

variable {i a b : Nat} {all : Finset Nat}

theorem rateOf_singleton (hi : 0 < (g.feeRate i).size) (hexact : Exact g.weighing [i]) :
    g.feeRate i = rateOf g.weighing [i] := by
  rw [hexact]
  ext <;> simp [weighing, hi]

/-- The sums of a part of a linearization are exact. -/
structure AddsUp (g : DepGraph) (linearization : List Nat) : Prop where
  pos : ∀ i ∈ linearization, 0 < (g.feeRate i).size
  exact : ∀ group, group.Sublist linearization → Exact g.weighing group

theorem AddsUp.rateOf_eq (h : g.AddsUp linearization) (hi : i ∈ linearization) :
    g.feeRate i = rateOf g.weighing [i] :=
  rateOf_singleton (h.pos i hi) (h.exact [i] (List.singleton_sublist.2 hi))

section
variable (hadds : g.AddsUp linearization)
include hadds

theorem chunkLinearizationInfo_eq :
    g.chunkLinearizationInfo linearization =
      (chunksOf g.weighing linearization).reverse.map g.infoOf := by
  rw [chunkLinearizationInfo, List.map_reverse]
  congr 1
  refine foldl_absorbChunks g.weighing g.infoOf (fun _ => rfl) (fun a b => ?_) hadds.exact
    fun i hi => ?_
  · rw [infoOf, infoOf, SetInfo.union, infoOf, rateOf_append, List.toFinset_append,
      Finset.union_comm]
  · rw [SetInfo.ofTransaction, infoOf, ← hadds.rateOf_eq hi]
    simp

theorem chunkLinearization_eq :
    g.chunkLinearization linearization =
      (chunksOf g.weighing linearization).reverse.map (rateOf g.weighing) := by
  rw [chunkLinearization, List.map_reverse]
  congr 1
  exact foldl_absorbChunks g.weighing (rateOf g.weighing) (fun _ => rfl)
    (fun a b => (rateOf_append _ _ _).symm) hadds.exact fun i hi => hadds.rateOf_eq hi

theorem diagram_eq (s : ℚ) :
    g.diagram linearization s = diagramAt (chunkPairs g.weighing linearization) s := by
  rw [diagram, chunkLinearization_eq hadds, List.map_map, chunkPairs]
  congr 1
  refine List.map_congr_left fun group hgroup => ?_
  have hsub := List.sublist_flatten_of_mem hgroup
  rw [flatten_chunksOf] at hsub
  rw [Function.comp_apply, hadds.exact group hsub]
  rfl

end

/-! ## Order and direct dependencies -/

theorem IsLinearization.perm {other : List Nat} (h : g.IsLinearization linearization)
    (h' : g.IsLinearization other) : linearization.Perm other :=
  (List.perm_ext_iff_of_nodup h.nodup h'.nodup).2 fun i => by rw [h.mem_iff, h'.mem_iff]

theorem reduceLoop_covers {relatives : Nat → Finset Nat}
    (htrans : ∀ j ∈ all, ∀ i ∈ relatives j, relatives i ⊆ relatives j) (is : List Nat)
    (hrest : rest ⊆ all) (h : ∀ i ∈ all, ∃ j ∈ rest, i ∈ relatives j) :
    ∀ i ∈ all, ∃ j ∈ reduceLoop relatives is rest, i ∈ relatives j := by
  induction is generalizing rest with
  | nil => exact h
  | cons k is ih =>
    rw [reduceLoop]
    split
    · rename_i hk
      refine ih ?_ fun i hi => ?_
      · exact Finset.insert_subset (hrest hk) (Finset.sdiff_subset.trans hrest)
      · obtain ⟨j, hj, hij⟩ := h i hi
        by_cases hjk : j ∈ relatives k
        · exact ⟨k, Finset.mem_insert_self _ _, htrans k (hrest hk) j hjk hij⟩
        · exact ⟨j, Finset.mem_insert_of_mem (Finset.mem_sdiff.2 ⟨hj, hjk⟩), hij⟩
    · exact ih hrest h

theorem reduceLoop_subset (relatives : Nat → Finset Nat) (is : List Nat) (hrest : rest ⊆ all) :
    reduceLoop relatives is rest ⊆ all := by
  induction is generalizing rest with
  | nil => exact hrest
  | cons k is ih =>
    rw [reduceLoop]
    split
    · rename_i hk
      exact ih (Finset.insert_subset (hrest hk) (Finset.sdiff_subset.trans hrest))
    · exact ih hrest

def side (g : DepGraph) (rev : Bool) (i : Nat) : Finset Nat :=
  if rev then g.descendants i else g.ancestors i

def reach (g : DepGraph) (rev : Bool) (i : Nat) : Finset Nat :=
  if i ∈ g.used then g.side rev i else ∅

def Rests (g : DepGraph) (rev : Bool) (a b : Nat) : Prop := b ∈ g.reach rev a

instance (rev : Bool) (a b : Nat) : Decidable (g.Rests rev a b) :=
  inferInstanceAs (Decidable (b ∈ g.reach rev a))

theorem WellFormed.rests_iff (h : g.WellFormed) :
    g.Rests rev a b ↔ a ∈ g.used ∧ b ∈ g.used ∧
      if rev then a ∈ g.ancestors b else b ∈ g.ancestors a := by
  rw [Rests, reach]
  by_cases ha : a ∈ g.used
  · rw [if_pos ha, side]
    cases rev with
    | true =>
      rw [if_pos rfl, if_pos rfl, h.mem_descendants a ha]
      tauto
    | false =>
      rw [if_neg Bool.false_ne_true, if_neg Bool.false_ne_true]
      exact ⟨fun hb => ⟨ha, h.ancestors_subset a ha hb, hb⟩, fun hb => hb.2.2⟩
  · rw [if_neg ha]
    exact ⟨fun hb => absurd hb (Finset.notMem_empty b), fun hb => absurd hb.1 ha⟩

theorem WellFormed.isTrans_rests (h : g.WellFormed) (rev : Bool) : IsTrans Nat (g.Rests rev) := by
  refine ⟨fun a b c hab hbc => ?_⟩
  rw [h.rests_iff] at hab hbc ⊢
  obtain ⟨ha, hb, hab⟩ := hab
  obtain ⟨_, hc, hbc⟩ := hbc
  refine ⟨ha, hc, ?_⟩
  cases rev with
  | true =>
    rw [if_pos rfl] at hab hbc ⊢
    exact h.ancestors_trans c hc b hbc hab
  | false =>
    rw [if_neg Bool.false_ne_true] at hab hbc ⊢
    exact h.ancestors_trans a ha b hab hbc

theorem WellFormed.rests_self (h : g.WellFormed) (rev : Bool) (hi : i ∈ g.used) :
    g.Rests rev i i := by
  rw [h.rests_iff]
  refine ⟨hi, hi, ?_⟩
  split
  exacts [h.mem_ancestors_self i hi, h.mem_ancestors_self i hi]

theorem WellFormed.rests_antisymm (h : g.WellFormed) (hacyclic : g.isAcyclic = true)
    (hab : g.Rests rev a b) (hba : g.Rests rev b a) : a = b := by
  rw [h.rests_iff] at hab hba
  obtain ⟨ha, hb, hab⟩ := hab
  have hcycle : ∀ i j, i ∈ g.used → j ∈ g.used → j ∈ g.ancestors i → i ∈ g.ancestors j → i = j := by
    intro i j hi hj hji hij
    have hsingle := of_decide_eq_true hacyclic i hi
    have hin : j ∈ g.ancestors i ∩ g.descendants i :=
      Finset.mem_inter.2 ⟨hji, (h.mem_descendants i hi j).2 ⟨hj, hij⟩⟩
    rw [hsingle, Finset.mem_singleton] at hin
    exact hin.symm
  cases rev with
  | true => exact hcycle a b ha hb hba.2.2 hab
  | false => exact hcycle a b ha hb hab hba.2.2

theorem WellFormed.rests_not (h : g.WellFormed) : g.Rests (!rev) a b ↔ g.Rests rev b a := by
  rw [h.rests_iff, h.rests_iff]
  cases rev
  · simp only [Bool.not_false, if_true, Bool.false_eq_true, if_false]
    tauto
  · simp only [Bool.not_true, if_true, Bool.false_eq_true, if_false]
    tauto

def reducedReach (g : DepGraph) (rev : Bool) (i : Nat) : Finset Nat :=
  if rev then g.getReducedChildren i else g.getReducedParents i

theorem reducedReach_eq (g : DepGraph) (rev : Bool) (a : Nat) :
    g.reducedReach rev a = reduceLoop (g.side rev) (((g.side rev a).erase a).sort (· ≤ ·))
      ((g.side rev a).erase a) := by
  cases rev
  · rfl
  · rfl

theorem mem_side (ha : a ∈ g.used) : b ∈ g.side rev a ↔ g.Rests rev a b := by
  rw [Rests, reach, if_pos ha]

theorem WellFormed.exists_reducedReach (h : g.WellFormed) (hab : g.Rests rev a b) (hne : a ≠ b) :
    ∃ c ∈ g.reducedReach rev a, c ≠ a ∧ g.Rests rev a c ∧ g.Rests rev c b := by
  have ha := (h.rests_iff.1 hab).1
  have := h.isTrans_rests rev
  have hused : ∀ i ∈ (g.side rev a).erase a, i ∈ g.used := fun i hi =>
    (h.rests_iff.1 ((mem_side ha).1 (Finset.mem_of_mem_erase hi))).2.1
  have htrans : ∀ j ∈ (g.side rev a).erase a, ∀ i ∈ g.side rev j, g.side rev i ⊆ g.side rev j := by
    intro j hj i hi k hk
    rw [mem_side (hused j hj)] at hi ⊢
    rw [mem_side (h.rests_iff.1 hi).2.1] at hk
    exact IsTrans.trans _ _ _ hi hk
  have hself : ∀ i ∈ (g.side rev a).erase a, ∃ j ∈ (g.side rev a).erase a, i ∈ g.side rev j :=
    fun i hi => ⟨i, hi, (mem_side (hused i hi)).2 (h.rests_self rev (hused i hi))⟩
  have hb : b ∈ (g.side rev a).erase a := Finset.mem_erase.2 ⟨Ne.symm hne, (mem_side ha).2 hab⟩
  obtain ⟨c, hc, hcb⟩ := reduceLoop_covers htrans (((g.side rev a).erase a).sort (· ≤ ·))
    (Finset.Subset.refl _) hself b hb
  have hin := reduceLoop_subset _ _ (Finset.Subset.refl _) hc
  rw [mem_side (hused c hin)] at hcb
  rw [Finset.mem_erase, mem_side ha] at hin
  exact ⟨c, by rwa [reducedReach_eq], hin.1, hin.2, hcb⟩

theorem WellFormed.chained_of_card_le_one (h : g.WellFormed) (hacyclic : g.isAcyclic = true)
    (hcard : ∀ i ∈ g.used, (g.reducedReach rev i).card ≤ 1) : Chained (g.Rests (!rev)) := by
  have := h.isTrans_rests rev
  suffices hchain : ∀ n c a b, (g.reach rev c).card = n → g.Rests rev c a → g.Rests rev c b →
      g.Rests rev a b ∨ g.Rests rev b a by
    intro a b c hac hbc
    rw [h.rests_not] at hac hbc ⊢
    rw [h.rests_not]
    exact (hchain _ c a b rfl hac hbc).symm
  intro n
  induction n using Nat.strong_induction_on with
  | _ n ih =>
    intro c a b hn hca hcb
    by_cases hac : c = a
    · exact .inl (hac ▸ hcb)
    by_cases hbc : c = b
    · exact .inr (hbc ▸ hca)
    obtain ⟨d, hd, hdc, hcd, hda⟩ := h.exists_reducedReach hca hac
    obtain ⟨d', hd', _, _, hdb⟩ := h.exists_reducedReach hcb hbc
    obtain rfl : d = d' := Finset.card_le_one.1 (hcard c (h.rests_iff.1 hca).1) d hd d' hd'
    refine ih _ ?_ d a b rfl hda hdb
    rw [← hn]
    refine Finset.card_lt_card (Finset.ssubset_iff_of_subset ?_ |>.2 ⟨c, ?_, ?_⟩)
    · intro x hx
      exact this.trans _ _ _ hcd hx
    · exact h.rests_self rev (h.rests_iff.1 hca).1
    · exact fun hdc' => hdc (h.rests_antisymm hacyclic hdc' hcd)

end DepGraph

end HcsCoin
