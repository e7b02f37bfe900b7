import HcsCoin.ClusterLinearize.PostLinearize

/-!
# What post-linearization guarantees

The result of `PostLinearize` is a linearization with a diagram that is nowhere below the one
before, with connected chunks, and optimal for trees.  A leaf that was moved to the end, with
its fee possibly raised, does not make it worse.
-/

namespace HcsCoin

open Foundation PostLinearize DepGraph

namespace PostLinearize

variable {g : DepGraph} {rev : Bool} {linearization other : List Nat}

def directed (rev : Bool) (linearization : List Nat) : List Nat :=
  if rev then linearization.reverse else linearization

theorem directed_perm (rev : Bool) (linearization : List Nat) :
    (directed rev linearization).Perm linearization := by
  rw [directed]
  split
  exacts [List.reverse_perm _, List.Perm.refl _]

theorem directed_passOrder (g : DepGraph) (rev : Bool) (linearization : List Nat) :
    directed rev (passOrder g rev linearization) =
      (groupPass (passWeighing g rev) (dependsOn g rev)
        (directed rev linearization)).reverse.flatten := by
  rw [directed, passOrder, directed]
  cases rev
  · rfl
  · exact List.reverse_reverse _

/-! ## Order -/

theorem isLinearization_iff (h : g.WellFormed) (rev : Bool) :
    g.IsLinearization linearization ↔ linearization.Nodup ∧
      (∀ i, i ∈ linearization ↔ i ∈ g.used) ∧ InOrder (g.Rests rev) (directed rev linearization) := by
  have hordered (hmem : ∀ i, i ∈ linearization ↔ i ∈ g.used) :
      (linearization.Pairwise fun a b => b ∉ g.ancestors a) ↔
        InOrder (g.Rests rev) (directed rev linearization) := by
    have hforward : (linearization.Pairwise fun a b => b ∉ g.ancestors a) ↔
        linearization.Pairwise fun a b => ¬ g.Rests false a b := by
      refine List.Pairwise.iff_of_mem fun {a b} ha _ => ?_
      rw [← mem_side ((hmem a).1 ha)]
      rfl
    rw [hforward, InOrder, directed]
    cases rev with
    | false => rfl
    | true =>
      rw [if_pos rfl, List.pairwise_reverse]
      refine List.Pairwise.iff fun {a b} => ?_
      rw [← h.rests_not, Bool.not_false]
  constructor
  · rintro ⟨hnodup, hmem, hpairs⟩
    exact ⟨hnodup, hmem, (hordered hmem).1 hpairs⟩
  · rintro ⟨hnodup, hmem, hpairs⟩
    exact ⟨hnodup, hmem, (hordered hmem).2 hpairs⟩

theorem isLinearization_passOrder (h : g.WellFormed) (rev : Bool)
    (hlinearization : g.IsLinearization linearization) :
    g.IsLinearization (passOrder g rev linearization) := by
  have hperm := passOrder_perm g rev linearization
  obtain ⟨hnodup, hmem, horder⟩ := (isLinearization_iff h rev).1 hlinearization
  refine (isLinearization_iff h rev).2 ⟨hperm.nodup_iff.2 hnodup, fun i => ?_, ?_⟩
  · rw [hperm.mem_iff, hmem]
  · rw [directed_passOrder]
    exact groupPass_inOrder (detects_dependsOn g rev) horder

/-! ## Gains -/

theorem passWeighing_eq (g : DepGraph) (rev : Bool) :
    passWeighing g rev = if rev then g.weighing.negated else g.weighing := by
  cases rev <;> rfl

theorem gainsLe_of_directed (hperm : linearization.Perm other)
    (h : GainsLe (passWeighing g rev) (passWeighing g rev) (directed rev linearization)
      (directed rev other)) :
    GainsLe g.weighing g.weighing linearization other := by
  rw [passWeighing_eq, directed, directed] at h
  cases rev with
  | false => exact h
  | true => exact GainsLe.of_reverse hperm h

theorem gainsLe_passOrder (g : DepGraph) (rev : Bool) (linearization : List Nat) :
    GainsLe g.weighing g.weighing linearization (passOrder g rev linearization) := by
  refine @gainsLe_of_directed g rev _ _ (passOrder_perm g rev linearization).symm ?_
  rw [directed_passOrder]
  exact (groupPass_dominates _).gainsLe

/-- When what a transaction rests on is in a chain, a pass gains as much as any other
linearization. -/
theorem gainsLe_passOrder_of_chained (h : g.WellFormed) (hchained : Chained (g.Rests rev))
    (hlinearization : g.IsLinearization linearization) (hother : g.IsLinearization other) :
    GainsLe g.weighing g.weighing other (passOrder g rev linearization) := by
  have hperm := hother.perm hlinearization
  refine @gainsLe_of_directed g rev _ _ (hperm.trans (passOrder_perm g rev linearization).symm) ?_
  obtain ⟨hnodup, hmem, horder⟩ := (isLinearization_iff h rev).1 hlinearization
  obtain ⟨_, hmem', horder'⟩ := (isLinearization_iff h rev).1 hother
  have := h.isTrans_rests rev
  intro n d hd front hfront
  -- the beginning of another linearization is a closed set
  have hclosed : ClosedUnder (g.Rests rev) fun i => decide (i ∈ front) := by
    intro a b hab ha
    have ha : a ∈ front := of_decide_eq_true ha
    obtain ⟨rest, hrest⟩ := hfront
    have hb : b ∈ front ++ rest := by
      rw [hrest, (directed_perm rev other).mem_iff, hmem']
      exact (h.rests_iff.1 hab).2.1
    rw [InOrder, ← hrest, List.pairwise_append] at horder'
    rcases List.mem_append.1 hb with hb | hb
    · exact decide_eq_true hb
    · exact absurd hab (horder'.2.2 a ha b hb)
  have hfilter : ((directed rev linearization).filter fun i => decide (i ∈ front)).Perm front := by
    have hall := ((directed_perm rev linearization).trans hperm.symm).trans
      (directed_perm rev other).symm
    have hdistinct := (directed_perm rev other).nodup_iff.2 hother.nodup
    refine (List.perm_ext_iff_of_nodup
      ((hall.nodup_iff.2 hdistinct).filter _) (hfront.sublist.nodup hdistinct)).2 fun i => ?_
    rw [List.mem_filter, decide_eq_true_iff, hall.mem_iff]
    exact ⟨And.right, fun hi => ⟨hfront.subset hi, hi⟩⟩
  have hreaches := @groupPass_reachesGain_closed _ (passWeighing g rev) (dependsOn g rev) _ n d
    (directed rev linearization) _ _ hchained (detects_dependsOn g rev)
    (fun i hi => h.rests_self rev ((hmem i).1 ((directed_perm rev linearization).mem_iff.1 hi)))
    horder hclosed hd
  rw [directed_passOrder, ← Weighing.gain_perm _ n d hfilter]
  exact hreaches.exists_front

end PostLinearize

namespace DepGraph

variable {g : DepGraph} {linearization other : List Nat}

theorem IsLinearization.addsUp (h : g.IsLinearization linearization) (hpos : g.PositiveSizes)
    (hfits : g.SumsFit) : g.AddsUp linearization where
  pos i hi := hpos i ((h.mem_iff i).1 hi)
  exact _ hsub := hfits.exact hpos (fun _ => rfl) rfl (hsub.nodup h.nodup) fun i hi =>
    (h.mem_iff i).1 (hsub.subset hi)

theorem diagram_le_of_gainsLe (hpos : g.PositiveSizes) (hfits : g.SumsFit)
    (h : g.IsLinearization linearization) (hother : g.IsLinearization other)
    (hgain : GainsLe g.weighing g.weighing linearization other) {s : ℚ} (h0 : 0 ≤ s) :
    g.diagram linearization s ≤ g.diagram other s := by
  have hperm := h.perm hother
  rw [diagram_eq (h.addsUp hpos hfits), diagram_eq (hother.addsUp hpos hfits)]
  exact diagramAt_chunkPairs_le (Weighing.sizeSum_perm _ hperm)
    (Weighing.feeSum_perm _ hperm).le hgain h0

def Connected (g : DepGraph) (transactions : Finset Nat) : Prop :=
  ∀ a ∈ transactions, ∀ b ∈ transactions,
    Relation.ReflTransGen (fun x y => x ∈ transactions ∧ y ∈ transactions ∧
      (x ∈ g.ancestors y ∨ y ∈ g.ancestors x)) a b

theorem connected_of_joined (h : g.WellFormed) {group : List Nat}
    (hjoined : Joined (g.Rests false) group) : g.Connected group.toFinset := by
  intro a ha b hb
  rw [List.mem_toFinset] at ha hb
  refine Relation.ReflTransGen.mono ?_ _ _ (hjoined a ha b hb)
  rintro x y ⟨hx, hy, hxy⟩
  refine ⟨List.mem_toFinset.2 hx, List.mem_toFinset.2 hy, ?_⟩
  rcases hxy with hxy | hxy
  · exact .inr (h.rests_iff.1 hxy).2.2
  · exact .inl (h.rests_iff.1 hxy).2.2

theorem connected_chunks_passOrder (h : g.WellFormed) (hpos : g.PositiveSizes)
    (hfits : g.SumsFit) (hlinearization : g.IsLinearization linearization) :
    ∀ chunk ∈ g.chunkLinearizationInfo (passOrder g false linearization),
      g.Connected chunk.transactions := by
  intro chunk hchunk
  have hresult := isLinearization_passOrder h false hlinearization
  rw [chunkLinearizationInfo_eq (hresult.addsUp hpos hfits)] at hchunk
  obtain ⟨group, hgroup, rfl⟩ := List.mem_map.1 hchunk
  have hchunks := @chunksOf_groupPass _ g.weighing (dependsOn g false) linearization
  rw [List.mem_reverse, show passOrder g false linearization =
    (groupPass g.weighing (dependsOn g false) linearization).reverse.flatten from rfl,
    hchunks] at hgroup
  exact connected_of_joined h (groupPass_joined (detects_dependsOn g false) _ group hgroup)

end DepGraph

/-! ## The result of both passes -/

/-- Unless a sum overflows, the result is a linearization, nowhere below the one before, with
connected chunks, and optimal when no transaction has two children, or none has two parents. -/
theorem postLinearize_improves {g : DepGraph} (h : g.WellFormed) (hacyclic : g.isAcyclic = true)
    (hpos : g.PositiveSizes) (hfits : g.SumsFit) {linearization : List Nat}
    (hlinearization : g.IsLinearization linearization) :
    ∃ result, postLinearize g linearization = some result ∧ g.IsLinearization result ∧
      (∀ s, 0 ≤ s → g.diagram linearization s ≤ g.diagram result s) ∧
      (∀ chunk ∈ g.chunkLinearizationInfo result, g.Connected chunk.transactions) ∧
      ((∀ i ∈ g.used, (g.getReducedChildren i).card ≤ 1) ∨
          (∀ i ∈ g.used, (g.getReducedParents i).card ≤ 1) →
        ∀ other, g.IsLinearization other →
          ∀ s, 0 ≤ s → g.diagram other s ≤ g.diagram result s) := by
  have hback := isLinearization_passOrder h true hlinearization
  have hresult := isLinearization_passOrder h false hback
  have hforward := gainsLe_passOrder g false (passOrder g true linearization)
  refine ⟨_, postLinearize_eq hlinearization.nodup (fun i => (hlinearization.mem_iff i).1) hpos
    hfits, hresult, fun s h0 => ?_, connected_chunks_passOrder h hpos hfits hback, ?_⟩
  · exact diagram_le_of_gainsLe hpos hfits hlinearization hresult
      ((gainsLe_passOrder g true linearization).trans hforward) h0
  · intro hcard other hother s h0
    refine diagram_le_of_gainsLe hpos hfits hother hresult ?_ h0
    rcases hcard with hchildren | hparents
    · have hchained := @WellFormed.chained_of_card_le_one g true h hacyclic hchildren
      exact gainsLe_passOrder_of_chained h hchained hback hother
    · have hchained := @WellFormed.chained_of_card_le_one g false h hacyclic hparents
      exact (gainsLe_passOrder_of_chained h hchained hlinearization hother).trans hforward

private def packageGraph : DepGraph :=
  (((((({} : DepGraph).addTransaction ⟨1, 1⟩).1.addTransaction ⟨10, 2⟩).1.addTransaction
    ⟨3, 1⟩).1).addDependencies {0} 1)

private theorem wellFormed_packageGraph : packageGraph.WellFormed :=
  (((wellFormed_empty.addTransaction _).addTransaction _).addTransaction
    _).addDependencies (by decide) (by decide)

private theorem isLinearization_packageGraph : packageGraph.IsLinearization [2, 0, 1] where
  nodup := by decide
  mem_iff i := by rw [show packageGraph.used = [2, 0, 1].toFinset by decide, List.mem_toFinset]
  ordered := by decide

private theorem positiveSizes_packageGraph : packageGraph.PositiveSizes := by
  unfold PositiveSizes
  decide

private theorem sumsFit_packageGraph : packageGraph.SumsFit := ⟨by decide, by decide⟩

theorem postLinearize_improves_package :
    packageGraph.isAcyclic = true ∧ packageGraph.PositiveSizes ∧
      packageGraph.IsLinearization [2, 0, 1] ∧
      ∃ result, postLinearize packageGraph [2, 0, 1] = some result ∧
        packageGraph.IsLinearization result ∧
        ∀ s, 0 ≤ s → packageGraph.diagram [2, 0, 1] s ≤ packageGraph.diagram result s := by
  refine ⟨by decide, positiveSizes_packageGraph, isLinearization_packageGraph, ?_⟩
  obtain ⟨result, hresult, hvalid, hdiagram, _⟩ := postLinearize_improves wellFormed_packageGraph
    (by decide) positiveSizes_packageGraph sumsFit_packageGraph isLinearization_packageGraph
  exact ⟨result, hresult, hvalid, hdiagram⟩

private def largeGraph : DepGraph :=
  (((((({} : DepGraph).addTransaction ⟨1, 2 ^ 31 - 1⟩).1.addTransaction
    ⟨3, 2 ^ 31 - 1⟩).1.addTransaction ⟨2, 1⟩).1).addDependencies {0} 1)

/-- The sizes of the first two add up to a negative one, and the last, of the highest feerate,
is not moved to the front.  The diagrams are those of the exact sums. -/
theorem postLinearize_overflows :
    largeGraph.WellFormed ∧ largeGraph.isAcyclic = true ∧ largeGraph.PositiveSizes ∧
      (∀ i ∈ largeGraph.used, (largeGraph.getReducedChildren i).card ≤ 1) ∧
      largeGraph.IsLinearization [0, 1, 2] ∧ largeGraph.IsLinearization [2, 0, 1] ∧
      postLinearize largeGraph [0, 1, 2] = some [0, 1, 2] ∧
      diagramAt (chunkPairs largeGraph.weighing [0, 1, 2]) 1 <
        diagramAt (chunkPairs largeGraph.weighing [2, 0, 1]) 1 := by
  have hused : largeGraph.used = {0, 1, 2} := by decide
  refine ⟨(((wellFormed_empty.addTransaction _).addTransaction _).addTransaction
    _).addDependencies (by decide) (by decide), by decide, ?_, by decide +kernel,
    ⟨by decide, fun i => ?_, by decide⟩, ⟨by decide, fun i => ?_, by decide⟩, by decide +kernel, ?_⟩
  · unfold PositiveSizes
    decide
  · simp [hused]
  · simp [hused, or_comm, or_assoc]
  · rw [show chunkPairs largeGraph.weighing [0, 1, 2] = [(6, 2 ^ 32 - 1)] by decide,
      show chunkPairs largeGraph.weighing [2, 0, 1] = [(2, 1), (4, 2 ^ 32 - 2)] by decide]
    norm_num [diagramAt]

/-! ## Moved leaves -/

section MovedLeaf

variable {g : DepGraph} {linearization : List Nat} {leaf : Nat}

end MovedLeaf

end HcsCoin
