import HcsCoin.ClusterLinearize.Chunks
import HcsCoin.Foundation.PointerChain

/-!
# Post-linearization

`PostLinearize` of `cluster_linearize.h`: a backward and a forward pass over a linearization,
each of which moves and merges groups of transactions.  The groups are singly-linked lists of
transactions from the back, and themselves in a circular list from the back with a sentinel.
The entry of a transaction is at the index after its position, and that of the sentinel at
zero.  A loop that does not end is `none`.
-/

namespace HcsCoin

open Foundation

namespace PostLinearize

/-- All fields but the first are only used for the last transaction of a group. -/
structure TxEntry where
  prevTx : Nat := 0
  firstTx : Nat := 0
  prevGroup : Nat := 0
  group : Finset Nat := ∅
  deps : Finset Nat := ∅
  feerate : FeeFrac := .empty

abbrev Entries := Nat → TxEntry

def SENTINEL : Nat := 0
def NO_PREV_TX : Nat := 0

variable (g : DepGraph)

/-- The fee is negated in the backward pass. -/
def passFeerate (rev : Bool) (idx : Nat) : FeeFrac :=
  if rev then { g.feeRate idx with fee := -(g.feeRate idx).fee } else g.feeRate idx

def appendGroup (rev : Bool) (entries : Entries) (idx : Nat) : Entries :=
  let entries := Function.update entries (idx + 1)
    { prevTx := NO_PREV_TX
      firstTx := idx + 1
      prevGroup := (entries SENTINEL).prevGroup
      group := {idx}
      deps := g.side rev idx
      feerate := passFeerate g rev idx }
  Function.update entries SENTINEL { entries SENTINEL with prevGroup := idx + 1 }

def mergeGroups (entries : Entries) (curGroup prevGroup : Nat) : Entries :=
  let entries := Function.update entries curGroup
    { entries curGroup with
      group := (entries curGroup).group ∪ (entries prevGroup).group
      deps := (entries curGroup).deps ∪ (entries prevGroup).deps
      feerate := (entries curGroup).feerate + (entries prevGroup).feerate }
  let first := (entries curGroup).firstTx
  let entries := Function.update entries first { entries first with prevTx := prevGroup }
  let entries := Function.update entries curGroup
    { entries curGroup with firstTx := (entries prevGroup).firstTx }
  Function.update entries curGroup
    { entries curGroup with prevGroup := (entries prevGroup).prevGroup }

def swapGroups (entries : Entries) (curGroup nextGroup prevGroup : Nat) : Entries :=
  let preprevGroup := (entries prevGroup).prevGroup
  let entries := Function.update entries nextGroup
    { entries nextGroup with prevGroup := prevGroup }
  let entries := Function.update entries prevGroup
    { entries prevGroup with prevGroup := curGroup }
  Function.update entries curGroup { entries curGroup with prevGroup := preprevGroup }

def mergeSwapLoop : Nat → Entries → Nat → Nat → Nat → Option Entries
  | 0, _, _, _, _ => none
  | rounds + 1, entries, curGroup, nextGroup, prevGroup =>
    if (entries curGroup).feerate.ratioGt (entries prevGroup).feerate then
      if ((entries curGroup).deps ∩ (entries prevGroup).group).Nonempty then
        mergeSwapLoop rounds (mergeGroups entries curGroup prevGroup) curGroup nextGroup
          (entries prevGroup).prevGroup
      else
        mergeSwapLoop rounds (swapGroups entries curGroup nextGroup prevGroup) curGroup prevGroup
          (entries prevGroup).prevGroup
    else some entries

def insertTransaction (rev : Bool) (rounds : Nat) (entries : Entries) (idx : Nat) :
    Option Entries :=
  let entries := appendGroup g rev entries idx
  mergeSwapLoop rounds entries (idx + 1) SENTINEL (entries (idx + 1)).prevGroup

def groupTransactions (entries : Entries) : Nat → Nat → Option (List Nat)
  | 0, _ => none
  | rounds + 1, curTx =>
    if (entries curTx).prevTx = NO_PREV_TX then some [curTx - 1]
    else (groupTransactions entries rounds (entries curTx).prevTx).map ((curTx - 1) :: ·)

def allTransactions (entries : Entries) (txRounds : Nat) : Nat → Nat → Option (List Nat)
  | 0, _ => none
  | rounds + 1, curGroup =>
    if curGroup = SENTINEL then some []
    else
      (groupTransactions entries txRounds curGroup).bind fun txs =>
      (allTransactions entries txRounds rounds (entries curGroup).prevGroup).map (txs ++ ·)

/-- One pass; the transactions found from the back are written from the front in the backward
pass, and from the end in the forward pass. -/
def pass (rev : Bool) (entries : Entries) (linearization : List Nat) :
    Option (Entries × List Nat) :=
  let rounds := linearization.length + 1
  let start := Function.update entries SENTINEL { entries SENTINEL with prevGroup := SENTINEL }
  ((if rev then linearization.reverse else linearization).foldlM
      (insertTransaction g rev rounds) start).bind fun entries =>
  (allTransactions entries rounds rounds (entries SENTINEL).prevGroup).map fun txs =>
  (entries, if rev then txs else txs.reverse)

end PostLinearize

def postLinearize (g : DepGraph) (linearization : List Nat) : Option (List Nat) :=
  (PostLinearize.pass g true (fun _ => {}) linearization).bind fun first =>
  (PostLinearize.pass g false first.1 first.2).map (·.2)

namespace PostLinearize

variable {g : DepGraph} {rev : Bool} {entries : Entries}

/-! ## What the entries hold -/

def passWeighing (g : DepGraph) (rev : Bool) : Weighing Nat where
  fee i := (passFeerate g rev i).fee
  size := g.weighing.size
  size_pos := g.weighing.size_pos

/-- A group depends on another one when one of its transactions rests on one of the other. -/
def dependsOn (g : DepGraph) (rev : Bool) (current previous : List Nat) : Bool :=
  decide (∃ a ∈ current, ∃ b ∈ previous, g.Rests rev a b)

theorem detects_dependsOn (g : DepGraph) (rev : Bool) : Detects (dependsOn g rev) (g.Rests rev) :=
  fun _ _ => decide_eq_true_iff

def tailOf (group : List Nat) : Nat := group.getLastD 0 + 1

theorem tailOf_append {a b : List Nat} (hb : b ≠ []) : tailOf (a ++ b) = tailOf b := by
  rw [tailOf, tailOf, List.getLastD_eq_getLast?, List.getLastD_eq_getLast?,
    List.getLast?_append_of_ne_nil _ hb]

theorem tailOf_ne_sentinel (group : List Nat) : tailOf group ≠ SENTINEL := Nat.succ_ne_zero _

variable {group : List Nat}

theorem exists_tailOf (h : group ≠ []) : ∃ i ∈ group, tailOf group = i + 1 := by
  refine ⟨group.getLast h, List.getLast_mem h, ?_⟩
  rw [tailOf, List.getLastD_eq_getLast?, List.getLast?_eq_some_getLast h, Option.getD_some]

private theorem headD_mem (h : group ≠ []) : group.headD 0 ∈ group := by
  obtain ⟨i, rest, rfl⟩ := List.exists_cons_of_ne_nil h
  exact List.mem_cons_self

/-- A group as the entries hold it: a list of transactions from the back, and the rest at the
last one. -/
structure HoldsGroup (g : DepGraph) (rev : Bool) (entries : Entries) (group : List Nat) :
    Prop where
  ne_nil : group ≠ []
  chain : PointerChain (fun i => (entries i).prevTx) (group.reverse.map (· + 1)) NO_PREV_TX
  firstTx_eq : (entries (tailOf group)).firstTx = group.headD 0 + 1
  group_eq : (entries (tailOf group)).group = group.toFinset
  mem_deps : ∀ j, j ∈ (entries (tailOf group)).deps ↔ ∃ i ∈ group, j ∈ g.side rev i
  feerate_eq : (entries (tailOf group)).feerate = rateOf (passWeighing g rev) group

/-- All groups, from the back, in a circle with the sentinel. -/
structure Holds (g : DepGraph) (rev : Bool) (entries : Entries) (groups : List (List Nat)) :
    Prop where
  links : PointerChain (fun i => (entries i).prevGroup) (SENTINEL :: groups.map tailOf) SENTINEL
  group : ∀ group ∈ groups, HoldsGroup g rev entries group
  nodup : groups.flatten.Nodup
  used : ∀ i ∈ groups.flatten, i ∈ g.used
  sentinel : (entries SENTINEL).feerate = .empty

theorem HoldsGroup.congr {entries' : Entries} (h : HoldsGroup g rev entries group)
    (hprevTx : ∀ i ∈ group, (entries' (i + 1)).prevTx = (entries (i + 1)).prevTx)
    (hfirstTx : (entries' (tailOf group)).firstTx = (entries (tailOf group)).firstTx)
    (hgroup : (entries' (tailOf group)).group = (entries (tailOf group)).group)
    (hdeps : (entries' (tailOf group)).deps = (entries (tailOf group)).deps)
    (hfeerate : (entries' (tailOf group)).feerate = (entries (tailOf group)).feerate) :
    HoldsGroup g rev entries' group where
  ne_nil := h.ne_nil
  chain := h.chain.congr fun node hnode => by
    obtain ⟨i, hi, rfl⟩ := List.mem_map.1 hnode
    exact hprevTx i (List.mem_reverse.1 hi)
  firstTx_eq := hfirstTx.trans h.firstTx_eq
  group_eq := hgroup.trans h.group_eq
  mem_deps := by
    rw [hdeps]
    exact h.mem_deps
  feerate_eq := hfeerate.trans h.feerate_eq

theorem tailOf_ne {i : Nat} (hne : group ≠ []) (hi : i ∉ group) : tailOf group ≠ i + 1 := by
  obtain ⟨j, hj, htail⟩ := exists_tailOf hne
  rw [htail]
  intro heq
  exact hi (by rwa [← Nat.succ_injective heq])

/-! ## Changes to the entries -/

theorem swapGroups_apply (entries : Entries) (curGroup nextGroup prevGroup i : Nat) :
    swapGroups entries curGroup nextGroup prevGroup i =
      { entries i with
        prevGroup :=
          if i = curGroup then (entries prevGroup).prevGroup
          else if i = prevGroup then curGroup
          else if i = nextGroup then prevGroup
          else (entries i).prevGroup } := by
  simp only [swapGroups, Function.update_apply]
  split_ifs <;> simp_all

theorem mergeGroups_apply (entries : Entries) {curGroup prevGroup : Nat}
    (hne : prevGroup ≠ curGroup) (i : Nat) :
    mergeGroups entries curGroup prevGroup i =
      { prevTx := if i = (entries curGroup).firstTx then prevGroup else (entries i).prevTx
        firstTx := if i = curGroup then (entries prevGroup).firstTx else (entries i).firstTx
        prevGroup := if i = curGroup then (entries prevGroup).prevGroup else (entries i).prevGroup
        group := if i = curGroup then (entries i).group ∪ (entries prevGroup).group
          else (entries i).group
        deps := if i = curGroup then (entries i).deps ∪ (entries prevGroup).deps
          else (entries i).deps
        feerate := if i = curGroup then (entries i).feerate + (entries prevGroup).feerate
          else (entries i).feerate } := by
  by_cases hcur : i = curGroup
  · subst hcur
    by_cases hfirst : (entries i).firstTx = i
    · simp [mergeGroups, hne, hfirst]
    · by_cases hprev : (entries i).firstTx = prevGroup
      · simp [mergeGroups, hne, hne.symm, hprev]
      · simp [mergeGroups, Function.update_apply, hne, Ne.symm hfirst, Ne.symm hprev]
  · by_cases hfirst : i = (entries curGroup).firstTx
    · simp [mergeGroups, Function.update_apply, hcur, ← hfirst]
    · simp [mergeGroups, Function.update_apply, hcur, hfirst]

theorem appendGroup_sentinel (g : DepGraph) (rev : Bool) (entries : Entries) (idx : Nat) :
    appendGroup g rev entries idx SENTINEL = { entries SENTINEL with prevGroup := idx + 1 } := by
  simp [appendGroup, SENTINEL]

theorem appendGroup_self (g : DepGraph) (rev : Bool) (entries : Entries) (idx : Nat) :
    appendGroup g rev entries idx (idx + 1) =
      { prevTx := NO_PREV_TX
        firstTx := idx + 1
        prevGroup := (entries SENTINEL).prevGroup
        group := {idx}
        deps := g.side rev idx
        feerate := passFeerate g rev idx } := by
  simp [appendGroup, SENTINEL]

theorem appendGroup_other (g : DepGraph) (rev : Bool) (entries : Entries) {idx i : Nat}
    (hi : i ≠ idx) : appendGroup g rev entries idx (i + 1) = entries (i + 1) := by
  simp [appendGroup, SENTINEL, hi]

section Holds

variable {groups after before : List (List Nat)} {cur prev : List Nat}

theorem Holds.disjoint (h : Holds g rev entries (after ++ cur :: before)) {group : List Nat}
    (hgroup : group ∈ after ++ before) : cur.Disjoint group := by
  have hperm : (after ++ cur :: before).Perm (cur :: (after ++ before)) := List.perm_middle
  have hnodup := hperm.flatten.nodup_iff.1 h.nodup
  rw [List.flatten_cons, List.nodup_append'] at hnodup
  exact fun i hi hi' => hnodup.2.2 hi (List.mem_flatten.2 ⟨group, hgroup, hi'⟩)

theorem Holds.nodup_tails (h : Holds g rev entries groups) :
    (SENTINEL :: groups.map tailOf).Nodup := by
  refine List.nodup_cons.2 ⟨fun hzero => ?_, ?_⟩
  · obtain ⟨group, _, htail⟩ := List.mem_map.1 hzero
    exact tailOf_ne_sentinel group htail
  · rw [List.Nodup, List.pairwise_map]
    refine (List.nodup_flatten.1 h.nodup).2.imp_of_mem fun {a b} ha hb hdisjoint => ?_
    obtain ⟨i, hi, htail⟩ := exists_tailOf (h.group b hb).ne_nil
    rw [htail]
    exact tailOf_ne (h.group a ha).ne_nil fun hi' => hdisjoint hi' hi

theorem Holds.prevGroup_eq (h : Holds g rev entries (after ++ cur :: before)) :
    (entries (tailOf cur)).prevGroup = (before.map tailOf).headD SENTINEL := by
  have hlinks := h.links
  rw [List.map_append, ← List.cons_append, pointerChain_append] at hlinks
  exact hlinks.2.1

theorem Holds.swap {front : List Nat} {nextGroup : Nat}
    (h : Holds g rev entries (after ++ cur :: prev :: before))
    (hnext : SENTINEL :: after.map tailOf = front ++ [nextGroup]) :
    Holds g rev (swapGroups entries (tailOf cur) nextGroup (tailOf prev))
      (after ++ prev :: cur :: before) := by
  have hnodup := h.nodup_tails
  have hlinks := h.links
  have hperm : (after ++ prev :: cur :: before).Perm (after ++ cur :: prev :: before) :=
    (List.Perm.swap cur prev before).append_left after
  rw [List.map_append, ← List.cons_append, hnext, List.append_assoc] at hnodup hlinks
  refine ⟨?_, fun group hgroup => ?_, ?_, fun i hi => ?_, ?_⟩
  · rw [List.map_append, ← List.cons_append, hnext, List.append_assoc]
    refine PointerChain.swap hlinks ?_ ?_ ?_ fun node hnode => ?_
    all_goals rw [swapGroups_apply]; grind
  · refine (h.group group (hperm.mem_iff.1 hgroup)).congr ?_ ?_ ?_ ?_ ?_
    all_goals simp [swapGroups_apply]
  · exact hperm.flatten.nodup_iff.2 h.nodup
  · exact h.used i (hperm.flatten.mem_iff.1 hi)
  · rw [swapGroups_apply]
    exact h.sentinel

theorem tailOf_eq_head_reverse (group : List Nat) :
    (group.reverse.map (· + 1)).headD 0 = if group = [] then 0 else tailOf group := by
  cases group using List.reverseRecOn with
  | nil => rfl
  | append_singleton group i => simp [tailOf]

theorem HoldsGroup.merge (hcur : HoldsGroup g rev entries cur)
    (hprev : HoldsGroup g rev entries prev) (hdisjoint : cur.Disjoint prev) (hnodup : cur.Nodup)
    (htail : tailOf prev ≠ tailOf cur) :
    HoldsGroup g rev (mergeGroups entries (tailOf cur) (tailOf prev)) (prev ++ cur) := by
  have hsame : tailOf (prev ++ cur) = tailOf cur := tailOf_append hcur.ne_nil
  refine ⟨by simp [hcur.ne_nil], ?_, ?_, ?_, fun j => ?_, ?_⟩
  · obtain ⟨first, rest, rfl⟩ := List.exists_cons_of_ne_nil hcur.ne_nil
    have hfirst : (entries (tailOf (first :: rest))).firstTx = first + 1 := hcur.firstTx_eq
    have hchain := hcur.chain
    have hother : ∀ i, i ≠ first →
        (mergeGroups entries (tailOf (first :: rest)) (tailOf prev) (i + 1)).prevTx =
          (entries (i + 1)).prevTx := by
      intro i hi
      rw [mergeGroups_apply _ htail, hfirst]
      exact if_neg fun heq => hi (Nat.succ_injective heq)
    rw [List.reverse_append, List.map_append, pointerChain_append]
    constructor
    · rw [List.reverse_cons, List.map_append] at hchain ⊢
      refine hchain.redirect (fun node hnode => ?_) ?_
      · obtain ⟨i, hi, rfl⟩ := List.mem_map.1 hnode
        refine hother i ?_
        rintro rfl
        exact (List.nodup_cons.1 hnodup).1 (List.mem_reverse.1 hi)
      · rw [mergeGroups_apply _ htail, hfirst, NO_PREV_TX, tailOf_eq_head_reverse,
          if_neg hprev.ne_nil]
        exact if_pos rfl
    · refine hprev.chain.congr fun node hnode => ?_
      obtain ⟨i, hi, rfl⟩ := List.mem_map.1 hnode
      refine hother i ?_
      rintro rfl
      exact hdisjoint List.mem_cons_self (List.mem_reverse.1 hi)
  · obtain ⟨first, rest, rfl⟩ := List.exists_cons_of_ne_nil hprev.ne_nil
    rw [hsame, mergeGroups_apply _ htail]
    exact (if_pos rfl).trans hprev.firstTx_eq
  · rw [hsame, mergeGroups_apply _ htail, List.toFinset_append, Finset.union_comm,
      ← hcur.group_eq, ← hprev.group_eq]
    exact if_pos rfl
  · rw [hsame, mergeGroups_apply _ htail]
    simp only [if_true, Finset.mem_union, hcur.mem_deps, hprev.mem_deps, List.mem_append,
      or_and_right, exists_or]
    exact or_comm
  · rw [hsame, mergeGroups_apply _ htail, rateOf_append, ← hcur.feerate_eq, ← hprev.feerate_eq]
    exact if_pos rfl

theorem Holds.merge (h : Holds g rev entries (after ++ cur :: prev :: before)) :
    Holds g rev (mergeGroups entries (tailOf cur) (tailOf prev))
      (after ++ (prev ++ cur) :: before) := by
  have hnodup := h.nodup_tails
  have hlinks := h.links
  have hcur := h.group cur (by simp)
  have hheld : ∀ group ∈ after ++ prev :: before, HoldsGroup g rev entries group := by
    intro group hgroup
    refine h.group group ?_
    rw [List.mem_append] at hgroup ⊢
    exact hgroup.imp id (List.mem_cons_of_mem _)
  have htail : tailOf prev ≠ tailOf cur := by
    rw [List.map_append, List.map_cons, List.map_cons] at hnodup
    grind
  have hperm : (after ++ (prev ++ cur) :: before).flatten.Perm
      (after ++ cur :: prev :: before).flatten := by
    simp only [List.flatten_append, List.flatten_cons, List.append_assoc]
    exact (List.perm_append_comm_assoc prev cur before.flatten).append_left _
  refine ⟨?_, fun group hgroup => ?_, ?_, fun i hi => ?_, ?_⟩
  · rw [List.map_append, ← List.cons_append] at hlinks hnodup ⊢
    rw [List.map_cons, tailOf_append hcur.ne_nil]
    refine PointerChain.takeOut hlinks ?_ fun node hnode => ?_
    all_goals rw [mergeGroups_apply _ htail]; grind
  · rw [List.mem_append, List.mem_cons, or_left_comm] at hgroup
    obtain rfl | hgroup := hgroup
    · exact hcur.merge (h.group prev (by simp)) (h.disjoint (by simp))
        ((List.nodup_flatten.1 h.nodup).1 cur (by simp)) htail
    · have hother : group ∈ after ++ prev :: before := by
        rw [List.mem_append, List.mem_cons]
        tauto
      have hdisjoint := h.disjoint hother
      have hne : tailOf group ≠ tailOf cur := by
        obtain ⟨i, hi, htail⟩ := exists_tailOf hcur.ne_nil
        rw [htail]
        exact tailOf_ne (hheld group hother).ne_nil (hdisjoint hi)
      refine (hheld group hother).congr (fun i hi => ?_) ?_ ?_ ?_ ?_
      · rw [mergeGroups_apply _ htail, hcur.firstTx_eq]
        refine if_neg fun heq => hdisjoint ?_ hi
        rw [Nat.succ_injective heq]
        exact headD_mem hcur.ne_nil
      all_goals
        rw [mergeGroups_apply _ htail]
        exact if_neg hne
  · exact hperm.nodup_iff.2 h.nodup
  · exact h.used i (hperm.mem_iff.1 hi)
  · rw [mergeGroups_apply _ htail]
    simp only [SENTINEL]
    exact h.sentinel

theorem Holds.nonempty_iff (h : Holds g rev entries (after ++ cur :: prev :: before)) :
    ((entries (tailOf cur)).deps ∩ (entries (tailOf prev)).group).Nonempty ↔
      dependsOn g rev cur prev = true := by
  rw [detects_dependsOn, (h.group prev (by simp)).group_eq]
  have hused : ∀ i ∈ cur, i ∈ g.used := fun i hi => h.used i (List.mem_flatten.2 ⟨cur, by simp, hi⟩)
  constructor
  · rintro ⟨j, hj⟩
    obtain ⟨hdeps, hprev⟩ := Finset.mem_inter.1 hj
    obtain ⟨i, hi, hij⟩ := ((h.group cur (by simp)).mem_deps j).1 hdeps
    exact ⟨i, hi, j, List.mem_toFinset.1 hprev, (DepGraph.mem_side (hused i hi)).1 hij⟩
  · rintro ⟨i, hi, j, hj, hij⟩
    exact ⟨j, Finset.mem_inter.2 ⟨((h.group cur (by simp)).mem_deps j).2
      ⟨i, hi, (DepGraph.mem_side (hused i hi)).2 hij⟩, List.mem_toFinset.2 hj⟩⟩

theorem Holds.length_le (h : Holds g rev entries groups) : groups.length ≤ groups.flatten.length := by
  rw [List.length_flatten, ← List.length_map List.length]
  refine List.length_le_sum_of_one_le _ fun n hn => ?_
  obtain ⟨group, hgroup, rfl⟩ := List.mem_map.1 hn
  exact List.length_pos_of_ne_nil (h.group group hgroup).ne_nil

section Fits

variable (hpos : g.PositiveSizes) (hfits : g.SumsFit)
include hpos hfits

theorem exact_passWeighing (hnodup : group.Nodup) (hused : ∀ i ∈ group, i ∈ g.used) :
    Exact (passWeighing g rev) group := by
  refine hfits.exact hpos (w := passWeighing g rev) (fun i => ?_) rfl hnodup hused
  cases rev
  exacts [rfl, abs_neg _]

theorem rateOf_passWeighing {i : Nat} (hi : i ∈ g.used) :
    passFeerate g rev i = rateOf (passWeighing g rev) [i] := by
  rw [exact_passWeighing hpos hfits (List.nodup_singleton i) (by simpa)]
  ext
  · simp [passWeighing]
  · cases rev <;> simp [passWeighing, passFeerate, DepGraph.weighing, hpos i hi]

theorem Holds.appendGroup (h : Holds g rev entries groups) {idx : Nat} (hused : idx ∈ g.used)
    (hidx : idx ∉ groups.flatten) :
    Holds g rev (appendGroup g rev entries idx) ([idx] :: groups) := by
  have hother : ∀ group ∈ groups, ∀ i ∈ group,
      PostLinearize.appendGroup g rev entries idx (i + 1) = entries (i + 1) := by
    intro group hgroup i hi
    refine appendGroup_other g rev entries ?_
    rintro rfl
    exact hidx (List.mem_flatten.2 ⟨group, hgroup, hi⟩)
  have htail : ∀ group ∈ groups,
      PostLinearize.appendGroup g rev entries idx (tailOf group) = entries (tailOf group) := by
    intro group hgroup
    obtain ⟨i, hi, heq⟩ := exists_tailOf (h.group group hgroup).ne_nil
    rw [heq, hother group hgroup i hi]
  have hself := appendGroup_self g rev entries idx
  have hsentinel := appendGroup_sentinel g rev entries idx
  refine ⟨?_, fun group hgroup => ?_, ?_, ?_, ?_⟩
  · refine @PointerChain.putIn _ _ _ [] _ _ _ _ h.links ?_ ?_ fun node hnode => ?_
    · rw [hsentinel]
      rfl
    · rw [show tailOf [idx] = idx + 1 from rfl, hself]
    · obtain ⟨group, hgroup, rfl⟩ := List.mem_map.1 hnode
      rw [htail group hgroup]
  · obtain rfl | hgroup := List.mem_cons.1 hgroup
    · refine ⟨List.cons_ne_nil _ _, ⟨congrArg TxEntry.prevTx hself, trivial⟩,
        congrArg TxEntry.firstTx hself, congrArg TxEntry.group hself, fun j => ?_, ?_⟩
      · rw [show tailOf [idx] = idx + 1 from rfl, hself]
        simp
      · exact (congrArg TxEntry.feerate hself).trans (rateOf_passWeighing hpos hfits hused)
    · refine (h.group group hgroup).congr (fun i hi => ?_) ?_ ?_ ?_ ?_
      · rw [hother group hgroup i hi]
      all_goals rw [htail group hgroup]
  · rw [List.flatten_cons, List.singleton_append]
    exact List.nodup_cons.2 ⟨hidx, h.nodup⟩
  · intro i hi
    rw [List.flatten_cons, List.singleton_append, List.mem_cons] at hi
    exact hi.elim (fun heq => heq ▸ hused) (h.used i)
  · rw [hsentinel]
    exact h.sentinel

/-! ## The loop inserts a group -/

theorem Holds.ratioGt_iff (h : Holds g rev entries (after ++ cur :: prev :: before)) :
    (entries (tailOf cur)).feerate.ratioGt (entries (tailOf prev)).feerate = true ↔
      (passWeighing g rev).Higher cur prev := by
  have hexact : ∀ group ∈ after ++ cur :: prev :: before, Exact (passWeighing g rev) group :=
    fun group hgroup => exact_passWeighing hpos hfits ((List.nodup_flatten.1 h.nodup).1 _ hgroup)
      fun i hi => h.used i (List.mem_flatten.2 ⟨group, hgroup, hi⟩)
  rw [(h.group cur (by simp)).feerate_eq, (h.group prev (by simp)).feerate_eq,
    ratioGt_rateOf (hexact cur (by simp)) (hexact prev (by simp))]

variable {rounds : Nat}

theorem mergeSwapLoop_spec {front : List Nat} {nextGroup : Nat}
    (hnext : SENTINEL :: after.map tailOf = front ++ [nextGroup])
    (h : Holds g rev entries (after ++ cur :: before)) (hrounds : before.length < rounds) :
    ∃ entries', mergeSwapLoop rounds entries (tailOf cur) nextGroup
        ((before.map tailOf).headD SENTINEL) = some entries' ∧
      Holds g rev entries'
        (after ++ insertGroup (passWeighing g rev) (dependsOn g rev) cur before) := by
  induction before generalizing rounds entries after cur front nextGroup with
  | nil =>
    obtain ⟨rounds, rfl⟩ := Nat.exists_eq_add_of_lt hrounds
    refine ⟨entries, ?_, h⟩
    -- the sentinel's feerate is empty, and nothing is higher than that
    refine if_neg ?_
    rw [List.map_nil, List.headD_nil, h.sentinel]
    simp [FeeFrac.ratioGt, FeeFrac.empty]
  | cons prev before ih =>
    obtain _ | rounds := rounds
    · omega
    have hlt : before.length < rounds := by
      rw [List.length_cons] at hrounds
      omega
    have hprevGroup : (entries (tailOf prev)).prevGroup = (before.map tailOf).headD SENTINEL := by
      have h' : Holds g rev entries ((after ++ [cur]) ++ prev :: before) := by
        rwa [List.append_assoc]
      exact h'.prevGroup_eq
    rw [List.map_cons, List.headD_cons, mergeSwapLoop, insertGroup, hprevGroup]
    by_cases hhigher : (passWeighing g rev).Higher cur prev
    · rw [if_pos ((h.ratioGt_iff hpos hfits).2 hhigher), if_pos hhigher]
      by_cases hdepends : dependsOn g rev cur prev = true
      · rw [if_pos (h.nonempty_iff.2 hdepends), if_pos hdepends]
        have htail : tailOf (prev ++ cur) = tailOf cur :=
          tailOf_append (h.group cur (by simp)).ne_nil
        rw [← htail]
        refine ih hnext ?_ hlt
        rw [htail]
        exact h.merge
      · rw [if_neg fun hmeet => hdepends (h.nonempty_iff.1 hmeet), if_neg hdepends]
        have hnext' : SENTINEL :: (after ++ [prev]).map tailOf =
            (front ++ [nextGroup]) ++ [tailOf prev] := by
          rw [List.map_append, ← List.cons_append, hnext]
          rfl
        obtain ⟨entries', hloop, hheld⟩ := ih hnext'
          (by rw [List.append_assoc]; exact h.swap hnext) hlt
        refine ⟨entries', hloop, ?_⟩
        rwa [List.append_assoc] at hheld
    · rw [if_neg fun hrate => hhigher ((h.ratioGt_iff hpos hfits).1 hrate), if_neg hhigher]
      exact ⟨entries, rfl, h⟩

theorem insertTransaction_spec (h : Holds g rev entries groups) {idx : Nat}
    (hused : idx ∈ g.used) (hidx : idx ∉ groups.flatten) (hrounds : groups.length < rounds) :
    ∃ entries', insertTransaction g rev rounds entries idx = some entries' ∧
      Holds g rev entries' (insertGroup (passWeighing g rev) (dependsOn g rev) [idx] groups) := by
  have happended := h.appendGroup hpos hfits hused hidx
  have hprevGroup := @Holds.prevGroup_eq g rev _ [] groups [idx] happended
  rw [insertTransaction, show idx + 1 = tailOf [idx] from rfl, hprevGroup]
  exact @mergeSwapLoop_spec g rev _ [] groups [idx] hpos hfits rounds [] SENTINEL rfl happended
    hrounds

theorem foldlM_insertTransaction {items : List Nat}
    (hentries : Holds g rev entries []) (hnodup : items.Nodup) (hused : ∀ i ∈ items, i ∈ g.used)
    (hrounds : items.length < rounds) :
    ∃ entries', items.foldlM (insertTransaction g rev rounds) entries = some entries' ∧
      Holds g rev entries' (groupPass (passWeighing g rev) (dependsOn g rev) items) := by
  induction items using List.reverseRecOn with
  | nil => exact ⟨entries, rfl, hentries⟩
  | append_singleton items idx ih =>
    rw [List.length_append, List.length_singleton] at hrounds
    obtain ⟨hitems, _, hfresh⟩ := List.nodup_append'.1 hnodup
    obtain ⟨entries', hfold, hheld⟩ := ih hitems
      (fun i hi => hused i (List.mem_append_left _ hi)) (by omega)
    have hidx := hused idx (by simp)
    have hperm := @groupPass_perm _ (passWeighing g rev) (dependsOn g rev) items
    have hlength := hheld.length_le
    rw [hperm.length_eq] at hlength
    rw [List.foldlM_append, hfold, groupPass_snoc]
    simp only [List.foldlM_cons, List.foldlM_nil, Option.bind_eq_bind, Option.bind_some,
      Option.pure_def, Option.bind_fun_some]
    refine insertTransaction_spec hpos hfits hheld hidx (fun hmem => ?_) (by omega)
    exact hfresh (hperm.mem_iff.1 hmem) (List.mem_singleton_self idx)

end Fits

/-! ## The new order -/

variable {rounds : Nat}

theorem groupTransactions_spec {first : Nat} {txs : List Nat}
    (h : PointerChain (fun i => (entries i).prevTx) ((first :: txs).map (· + 1)) NO_PREV_TX)
    (hrounds : txs.length < rounds) :
    groupTransactions entries rounds (first + 1) = some (first :: txs) := by
  induction txs generalizing first rounds with
  | nil =>
    obtain _ | rounds := rounds
    · omega
    exact if_pos h.1
  | cons second txs ih =>
    obtain _ | rounds := rounds
    · omega
    obtain ⟨hprev, hrest⟩ := h
    have hprev : (entries (first + 1)).prevTx = second + 1 := hprev
    rw [List.length_cons] at hrounds
    rw [groupTransactions, hprev, NO_PREV_TX, if_neg (Nat.succ_ne_zero _), ih hrest (by omega)]
    rfl

theorem HoldsGroup.groupTransactions_eq {group : List Nat} (h : HoldsGroup g rev entries group)
    (hrounds : group.length ≤ rounds) :
    groupTransactions entries rounds (tailOf group) = some group.reverse := by
  have hchain := h.chain
  cases group using List.reverseRecOn with
  | nil => exact absurd rfl h.ne_nil
  | append_singleton group i =>
    rw [List.length_append, List.length_singleton] at hrounds
    rw [List.reverse_append, List.reverse_singleton, List.singleton_append] at hchain ⊢
    rw [tailOf_append (List.cons_ne_nil _ _)]
    exact groupTransactions_spec hchain (by rw [List.length_reverse]; omega)

theorem allTransactions_spec {txRounds : Nat}
    (hlinks : PointerChain (fun i => (entries i).prevGroup) (groups.map tailOf) SENTINEL)
    (hgroups : ∀ group ∈ groups, HoldsGroup g rev entries group ∧ group.length ≤ txRounds)
    (hrounds : groups.length < rounds) :
    allTransactions entries txRounds rounds ((groups.map tailOf).headD SENTINEL) =
      some groups.reverse.flatten.reverse := by
  induction groups generalizing rounds with
  | nil =>
    obtain _ | rounds := rounds
    · omega
    exact if_pos rfl
  | cons group groups ih =>
    obtain _ | rounds := rounds
    · omega
    obtain ⟨hgroup, hlength⟩ := hgroups group List.mem_cons_self
    obtain ⟨hprev, hrest⟩ := hlinks
    have hprev : (entries (tailOf group)).prevGroup = (groups.map tailOf).headD SENTINEL := hprev
    rw [List.length_cons] at hrounds
    rw [List.map_cons, List.headD_cons, allTransactions, if_neg (tailOf_ne_sentinel group),
      hgroup.groupTransactions_eq hlength, Option.bind_some, hprev,
      ih hrest (List.forall_mem_cons.mp hgroups).2 (by omega)]
    simp

end Holds

def passOrder (g : DepGraph) (rev : Bool) (linearization : List Nat) : List Nat :=
  let groups := groupPass (passWeighing g rev) (dependsOn g rev)
    (if rev then linearization.reverse else linearization)
  if rev then groups.reverse.flatten.reverse else groups.reverse.flatten

theorem pass_spec {linearization : List Nat} (hentries : (entries SENTINEL).feerate = .empty)
    (hnodup : linearization.Nodup) (hused : ∀ i ∈ linearization, i ∈ g.used)
    (hpos : g.PositiveSizes) (hfits : g.SumsFit) :
    ∃ entries', pass g rev entries linearization =
        some (entries', passOrder g rev linearization) ∧
      (entries' SENTINEL).feerate = .empty := by
  have hstart : Holds g rev
      (Function.update entries SENTINEL { entries SENTINEL with prevGroup := SENTINEL }) [] := by
    refine ⟨⟨?_, trivial⟩, ?_, List.nodup_nil, ?_, ?_⟩
    · simp [Function.update_self]
    · simp
    · simp
    · rw [Function.update_self]
      exact hentries
  have hitems : (if rev then linearization.reverse else linearization).Perm linearization := by
    split
    exacts [List.reverse_perm _, List.Perm.refl _]
  obtain ⟨entries', hfold, hheld⟩ := foldlM_insertTransaction hpos hfits hstart
    (hitems.nodup_iff.2 hnodup) (fun i hi => hused i (hitems.mem_iff.1 hi))
    (Nat.lt_succ_of_le hitems.length_eq.le)
  have hlength := hheld.length_le
  have hperm := (@groupPass_perm _ (passWeighing g rev) (dependsOn g rev)
    (if rev then linearization.reverse else linearization)).trans hitems
  have hall := @allTransactions_spec g rev entries' _ (linearization.length + 1)
    (linearization.length + 1) hheld.links.2
    (fun group hgroup => ⟨hheld.group group hgroup, ?_⟩) ?_
  · refine ⟨entries', ?_, hheld.sentinel⟩
    have hfirst : (entries' SENTINEL).prevGroup = _ := hheld.links.1
    rw [pass]
    dsimp only
    rw [hfold, Option.bind_some, hfirst, hall, passOrder]
    cases rev <;> simp
  · have := (List.sublist_flatten_of_mem hgroup).length_le
    rw [hperm.length_eq] at this
    omega
  · rw [hperm.length_eq] at hlength
    omega

end PostLinearize

theorem PostLinearize.passOrder_perm (g : DepGraph) (rev : Bool) (linearization : List Nat) :
    (PostLinearize.passOrder g rev linearization).Perm linearization := by
  rw [passOrder]
  cases rev with
  | true =>
    exact (List.reverse_perm _).trans (((List.reverse_perm _).flatten.trans
      (groupPass_perm _)).trans (List.reverse_perm _))
  | false => exact (List.reverse_perm _).flatten.trans (groupPass_perm _)

theorem postLinearize_eq {g : DepGraph} {linearization : List Nat} (hnodup : linearization.Nodup)
    (hused : ∀ i ∈ linearization, i ∈ g.used) (hpos : g.PositiveSizes) (hfits : g.SumsFit) :
    postLinearize g linearization =
      some (PostLinearize.passOrder g false (PostLinearize.passOrder g true linearization)) := by
  have hperm := PostLinearize.passOrder_perm g true linearization
  obtain ⟨entries, hback, hsentinel⟩ := @PostLinearize.pass_spec g true (fun _ => {}) linearization
    rfl hnodup hused hpos hfits
  obtain ⟨_, hforward, _⟩ := @PostLinearize.pass_spec g false entries _
    hsentinel (hperm.nodup_iff.2 hnodup) (fun i hi => hused i (hperm.mem_iff.1 hi)) hpos hfits
  rw [postLinearize, hback, Option.bind_some, hforward]
  rfl

end HcsCoin
