import HcsCoin.Wallet.CoinSelection

/-!
# What the searches meet and what they return

The walk of `SelectCoinsBnB` and `CoinGrinder` over the selections of a pool: its totals
are those of the current selection in every state, it never reads past the pool, and a
selection it has still to meet is lost only when a judge of selections gives it up.  From
this follow the bounds on the selections that both searches return.
-/

namespace HcsCoin

open Foundation

section Walk

variable {M B : Type} {tally : Tally M} {utxoPool : List OutputGroup}

/-! ## Valid states -/

structure SearchState.Valid (tally : Tally M) (utxoPool : List OutputGroup) (s : SearchState M) :
    Prop where
  decreasing : s.currSelection.Pairwise (· > ·)
  below : ∀ i ∈ s.currSelection, i < s.nextUtxo
  inPool : s.nextUtxo ≤ utxoPool.length
  totals_eq : s.totals = tally.total (entriesAt utxoPool s.currSelection)

variable {s : SearchState M} {last : Nat} {S : Finset Nat}

theorem SearchState.Valid.nodup (h : s.Valid tally utxoPool) : s.currSelection.Nodup :=
  h.decreasing.imp fun hlt => Nat.ne_of_gt hlt

theorem SearchState.Valid.subperm (h : s.Valid tally utxoPool) :
    (entriesAt utxoPool s.currSelection).Subperm utxoPool :=
  entriesAt_subperm h.nodup fun i hi => lt_of_lt_of_le (h.below i hi) h.inPool

theorem valid_start : SearchState.Valid tally utxoPool ⟨[], tally.empty, 0⟩ :=
  ⟨List.Pairwise.nil, by simp, Nat.zero_le _, rfl⟩

theorem selectNext_spec (h : s.Valid tally utxoPool) (hnext : s.nextUtxo < utxoPool.length) :
    ∃ s', selectNext tally utxoPool s = some s' ∧ s'.Valid tally utxoPool ∧
      s'.currSelection = s.nextUtxo :: s.currSelection ∧ s'.nextUtxo = s.nextUtxo + 1 := by
  have hutxo := List.getElem?_eq_getElem hnext
  refine ⟨_, by rw [selectNext, hutxo, Option.map_some], ?_, rfl, rfl⟩
  constructor
  · exact List.pairwise_cons.2 ⟨h.below, h.decreasing⟩
  · intro i hi
    rcases List.mem_cons.1 hi with rfl | hi
    · exact Nat.lt_succ_self _
    · exact Nat.lt_succ_of_lt (h.below i hi)
  · exact hnext
  · dsimp only
    rw [entriesAt_cons hutxo, h.totals_eq, Tally.total, Tally.total, List.foldr_cons]

theorem deselectLast_spec (h : s.Valid tally utxoPool)
    {rest : List Nat} (hsel : s.currSelection = last :: rest) :
    ∃ s', deselectLast tally utxoPool s = some s' ∧ s'.Valid tally utxoPool ∧
      s'.currSelection = rest := by
  have hin : last ∈ s.currSelection := by
    rw [hsel]
    exact List.mem_cons_self
  have hutxo := List.getElem?_eq_getElem (lt_of_lt_of_le (h.below last hin) h.inPool)
  have hdecreasing := h.decreasing
  rw [hsel, List.pairwise_cons] at hdecreasing
  refine ⟨_, by rw [deselectLast, hsel]; dsimp only; rw [hutxo, Option.map_some], ?_, rfl⟩
  constructor
  · exact hdecreasing.2
  · intro i hi
    exact h.below i (by rw [hsel]; exact List.mem_cons_of_mem _ hi)
  · exact h.inPool
  · dsimp only
    rw [h.totals_eq, hsel, entriesAt_cons hutxo, Tally.total, List.foldr_cons, tally.remove_add,
      Tally.total]

/-! ## Moves -/

def SameAmount (utxoPool : List OutputGroup) (i : Nat) : Prop :=
  i + 1 < utxoPool.length ∧
    entryValue utxoPool (·.getSelectionAmount) i =
      entryValue utxoPool (·.getSelectionAmount) (i + 1)

/-- A set of groups of the pool that a walk over all of them has to meet: a clone is taken
only together with the groups before it. -/
def Meetable (utxoPool : List OutputGroup) (S : Finset Nat) : Prop :=
  S ⊆ Finset.range utxoPool.length ∧ PrefersFirst (SameAmount utxoPool) S

theorem entryValue_getElem {l : List OutputGroup} {i : Nat} (h : i < l.length)
    (f : OutputGroup → Int) : entryValue l f i = f l[i] := by
  rw [entryValue, List.getElem?_eq_getElem h]
  rfl

theorem skipClones_spec (rounds nextUtxo : Nat) (hpos : 0 < nextUtxo)
    (hnext : nextUtxo < utxoPool.length) (hrounds : utxoPool.length - nextUtxo < rounds + 1) :
    ∃ skipped, skipClones utxoPool rounds nextUtxo = some skipped ∧ nextUtxo ≤ skipped.1 ∧
      skipped.1 < utxoPool.length ∧
      ∀ S, Meetable utxoPool S → nextUtxo - 1 ∉ S → ∀ selection,
        ExtendsFrom selection nextUtxo S →
          skipped.2 = false ∧ ExtendsFrom selection skipped.1 S := by
  induction rounds generalizing nextUtxo with
  | zero => omega
  | succ rounds ih =>
    have hprevious : nextUtxo - 1 < utxoPool.length := by omega
    rw [skipClones, List.getElem?_eq_getElem hprevious, Option.bind_some,
      List.getElem?_eq_getElem hnext, Option.bind_some]
    by_cases hsame : utxoPool[nextUtxo - 1].getSelectionAmount =
        utxoPool[nextUtxo].getSelectionAmount
    · -- a clone of an omitted group is in no set that has still to be met
      have hout : ∀ S, Meetable utxoPool S → nextUtxo - 1 ∉ S → nextUtxo ∉ S := by
        intro S hS hmissing
        have halike : SameAmount utxoPool (nextUtxo - 1) := by
          rw [SameAmount, Nat.sub_add_cancel hpos, entryValue_getElem hprevious,
            entryValue_getElem hnext]
          exact ⟨hnext, hsame⟩
        have hskip := hS.2 _ halike hmissing
        rwa [Nat.sub_add_cancel hpos] at hskip
      rw [if_pos hsame]
      by_cases hend : nextUtxo ≥ utxoPool.length - 1
      · rw [if_pos hend]
        refine ⟨_, rfl, le_rfl, hnext, fun S hS hmissing selection hext => ?_⟩
        have hbound := (hext.skip (hout S hS hmissing)).lt_bound hS.1
        omega
      · rw [if_neg hend]
        obtain ⟨skipped, hskip, hle, hlt, hmeet⟩ := ih (nextUtxo + 1) (by omega) (by omega) (by omega)
        refine ⟨skipped, hskip, by omega, hlt, fun S hS hmissing selection hext => ?_⟩
        have hnot := hout S hS hmissing
        exact hmeet S hS hnot selection (hext.skip hnot)
    · rw [if_neg hsame]
      exact ⟨_, rfl, le_rfl, hnext, fun S _ _ selection hext => ⟨rfl, hext⟩⟩

private theorem not_mem_of_extendsFrom {selection : List Nat} (hlast : ∀ i ∈ selection, i < last)
    (h : ExtendsFrom selection (last + 1) S) : last ∉ S := by
  intro hin
  rcases h.2.1 last hin with hsel | hle
  · exact absurd (hlast last hsel) (lt_irrefl last)
  · omega

/-- The loop of omissions ends in a state from which every set that it has still to meet is
met, or exhausts them. -/
theorem shiftLoop_spec (rounds : Nat) (h : s.Valid tally utxoPool)
    (hrounds : s.currSelection.length < rounds)
    (hbefore : ∀ i ∈ s.currSelection, i + 1 < utxoPool.length) :
    ∃ next, shiftLoop tally utxoPool rounds s = some next ∧
      (∀ s', next = some s' → s'.Valid tally utxoPool ∧ s'.nextUtxo < utxoPool.length) ∧
      ∀ S, Meetable utxoPool S → PendingOmitted s.currSelection S →
        ∃ s', next = some s' ∧ Pending s'.currSelection s'.nextUtxo S := by
  induction rounds generalizing s with
  | zero => omega
  | succ rounds ih =>
    rw [shiftLoop.eq_def]
    dsimp only
    cases hsel : s.currSelection with
    | nil =>
      dsimp only
      exact ⟨none, rfl, by simp, fun S _ hpending => hpending.elim⟩
    | cons last rest =>
      dsimp only
      have hdecreasing := h.decreasing
      rw [hsel, List.pairwise_cons] at hdecreasing
      have hnext : last + 1 < utxoPool.length := hbefore last (by rw [hsel]; simp)
      obtain ⟨s', hdeselect, hvalid', hrest⟩ := deselectLast_spec h hsel
      obtain ⟨skipped, hskip, hle, hlt, hmeet⟩ :=
        @skipClones_spec utxoPool utxoPool.length (last + 1) (by omega) hnext (by omega)
      have hvalid : SearchState.Valid tally utxoPool { s' with nextUtxo := skipped.1 } := by
        refine ⟨hvalid'.decreasing, fun i hi => ?_, hlt.le, hvalid'.totals_eq⟩
        rw [hrest] at hi
        have hi := hdecreasing.1 i hi
        dsimp only
        omega
      have hmeet' : ∀ S, Meetable utxoPool S → ExtendsFrom rest (last + 1) S →
          skipped.2 = false ∧ ExtendsFrom rest skipped.1 S := fun S hS hext =>
        hmeet S hS (by simpa using not_mem_of_extendsFrom hdecreasing.1 hext) rest hext
      rw [hdeselect, Option.bind_some, hskip, Option.bind_some]
      cases hflag : skipped.2 with
      | true =>
        rw [if_pos rfl]
        rw [hsel, List.length_cons] at hrounds
        obtain ⟨next, hloop, hnextValid, hpending⟩ := ih hvalid
          (by dsimp only; rw [hrest]; omega)
          (fun i hi => hbefore i (by rw [hsel]; exact List.mem_cons_of_mem _ (hrest ▸ hi)))
        refine ⟨next, hloop, hnextValid, fun S hS hS' => ?_⟩
        rw [PendingOmitted, pending_iff] at hS'
        rcases hS' with hext | hlater
        · rw [(hmeet' S hS hext).1] at hflag
          cases hflag
        · exact hpending S hS (by dsimp only; rwa [hrest])
      | false =>
        rw [if_neg Bool.false_ne_true]
        refine ⟨_, rfl, ?_, fun S hS hS' => ⟨_, rfl, ?_⟩⟩
        · rintro _ ⟨rfl⟩
          exact ⟨hvalid, hlt⟩
        · rw [PendingOmitted, pending_iff] at hS'
          dsimp only
          rw [hrest, pending_iff]
          exact hS'.imp_left fun hext => (hmeet' S hS hext).2

def Remains (s : SearchState M) (S : Finset Nat) : Move → Prop
  | .explore => Pending s.currSelection s.nextUtxo S
  | .shift => PendingOmitted s.currSelection S
  | .cut => PendingOmitted s.currSelection.tail S

structure SearchState.Selected (tally : Tally M) (utxoPool : List OutputGroup) (s : SearchState M)
    (last : Nat) : Prop extends SearchState.Valid tally utxoPool s where
  head_eq : s.currSelection.head? = some last
  next_eq : s.nextUtxo = last + 1

section
variable (h : s.Selected tally utxoPool last)
include h

theorem SearchState.Selected.eq_cons : s.currSelection = last :: s.currSelection.tail :=
  (List.cons_head?_tail h.head_eq).symm

theorem SearchState.Selected.lt_last : ∀ i ∈ s.currSelection.tail, i < last := by
  have hdecreasing := h.decreasing
  rw [h.eq_cons, List.pairwise_cons] at hdecreasing
  exact hdecreasing.1

theorem Remains.cut_of_end (hend : s.nextUtxo = utxoPool.length) (hS : Meetable utxoPool S)
    {move : Move} (hremains : Remains s S move) : Remains s S .cut := by
  have hno : ∀ selection, ¬ ExtendsFrom selection s.nextUtxo S := fun selection hext => by
    have hlt := hext.lt_bound hS.1
    omega
  have hshift : PendingOmitted s.currSelection S → PendingOmitted s.currSelection.tail S := by
    intro homitted
    rw [h.eq_cons, PendingOmitted, ← h.next_eq, pending_iff] at homitted
    exact homitted.resolve_left (hno _)
  cases move with
  | explore =>
    rw [Remains, pending_iff] at hremains
    exact hshift (hremains.resolve_left (hno _))
  | shift => exact hshift hremains
  | cut => exact hremains

theorem moveOn_spec (move : Move) (hend : s.nextUtxo = utxoPool.length → move = .cut) :
    ∃ next, moveOn tally utxoPool s move = some next ∧
      (∀ s', next = some s' → s'.Valid tally utxoPool ∧ s'.nextUtxo < utxoPool.length) ∧
      ∀ S, Meetable utxoPool S → Remains s S move →
        ∃ s', next = some s' ∧ Pending s'.currSelection s'.nextUtxo S := by
  have hpool := h.inPool
  have hlast : last < utxoPool.length := by
    rw [h.next_eq] at hpool
    exact hpool
  cases move with
  | explore =>
    refine ⟨some s, rfl, ?_, fun S _ hremains => ⟨s, rfl, hremains⟩⟩
    rintro _ ⟨rfl⟩
    exact ⟨h.toValid, lt_of_le_of_ne hpool fun heq => Move.noConfusion (hend heq)⟩
  | shift =>
    have hne : last + 1 ≠ utxoPool.length := fun heq =>
      Move.noConfusion (hend (h.next_eq.trans heq))
    refine shiftLoop_spec _ h.toValid (Nat.lt_succ_self _) fun i hi => ?_
    have hi := h.below i hi
    rw [h.next_eq] at hi
    omega
  | cut =>
    obtain ⟨s', hdeselect, hvalid, hrest⟩ := deselectLast_spec h.toValid h.eq_cons
    have hbefore : ∀ i ∈ s'.currSelection, i + 1 < utxoPool.length := fun i hi => by
      have hi := h.lt_last i (hrest ▸ hi)
      omega
    obtain ⟨next, hloop, hnext, hmeet⟩ := shiftLoop_spec _ hvalid (Nat.lt_succ_self _) hbefore
    rw [moveOn, hdeselect, Option.bind_some]
    refine ⟨next, hloop, hnext, fun S hS hremains => hmeet S hS ?_⟩
    rw [hrest]
    exact hremains

end

/-! ## Runs -/

/-- What a judge of selections keeps: an invariant of its best selection, and that a set
met or given up is accounted for. -/
def Judges (tally : Tally M) (utxoPool : List OutputGroup)
    (judge : SearchState M → B → Option (Move × B)) (Inv : B → Prop)
    (Covered : B → Finset Nat → Prop) : Prop :=
  ∀ s best last, s.Selected tally utxoPool last → Inv best →
    ∃ judged, judge s best = some judged ∧ Inv judged.2 ∧
      ∀ S, Meetable utxoPool S →
        Covered best S ∨ S = s.currSelection.toFinset ∨ Pending s.currSelection s.nextUtxo S →
          Covered judged.2 S ∨ Remains s S judged.1

theorem searchLoop_spec {judge : SearchState M → B → Option (Move × B)} {Inv : B → Prop}
    {Covered : B → Finset Nat → Prop} (hjudge : Judges tally utxoPool judge Inv Covered)
    (tries : Nat) (htries : 0 < tries) {best : B}
    (h : s.Valid tally utxoPool) (hnext : s.nextUtxo < utxoPool.length) (hbest : Inv best)
    (hpending : ∀ S, Meetable utxoPool S → Covered best S ∨ Pending s.currSelection s.nextUtxo S) :
    ∃ completed triesLeft best',
      searchLoop tally utxoPool judge tries s best = some (completed, triesLeft, best') ∧
        Inv best' ∧ (completed = true → ∀ S, Meetable utxoPool S → Covered best' S) := by
  induction tries generalizing s best with
  | zero => omega
  | succ triesLeft ih =>
    obtain ⟨s', hselect, hvalid, hsel, hnext'⟩ := selectNext_spec h hnext
    have hselected : s'.Selected tally utxoPool s.nextUtxo := ⟨hvalid, by rw [hsel]; rfl, hnext'⟩
    obtain ⟨judged, hjudged, hinv, hcover⟩ := hjudge s' best _ hselected hbest
    have hleft : ∀ S, Meetable utxoPool S → Covered judged.2 S ∨ Remains s' S judged.1 := by
      intro S hS
      refine hcover S hS ?_
      rcases hpending S hS with hcovered | hpend
      · exact .inl hcovered
      · rw [hsel, hnext']
        exact .inr hpend.select
    rw [searchLoop, hselect, Option.bind_some, hjudged, Option.bind_some]
    by_cases hlimit : triesLeft = 0
    · rw [if_pos hlimit]
      exact ⟨false, 0, judged.2, rfl, hinv, fun hfalse => absurd hfalse Bool.false_ne_true⟩
    · rw [if_neg hlimit]
      obtain ⟨next, hmove, hnextValid, hmeet⟩ := moveOn_spec hselected
        (if s'.nextUtxo = utxoPool.length then .cut else judged.1) fun heq => if_pos heq
      have hleft' : ∀ S, Meetable utxoPool S → Covered judged.2 S ∨
          ∃ t, next = some t ∧ Pending t.currSelection t.nextUtxo S := by
        intro S hS
        refine (hleft S hS).imp id fun hremains => hmeet S hS ?_
        split
        · exact hremains.cut_of_end hselected ‹_› hS
        · exact hremains
      rw [hmove, Option.bind_some]
      cases next with
      | none =>
        refine ⟨true, triesLeft, judged.2, rfl, hinv, fun _ S hS => ?_⟩
        rcases hleft' S hS with hcovered | ⟨t, ht, _⟩
        exacts [hcovered, absurd ht (by simp)]
      | some t =>
        obtain ⟨htvalid, htnext⟩ := hnextValid t rfl
        refine ih (Nat.pos_of_ne_zero hlimit) htvalid htnext hinv fun S hS => ?_
        refine (hleft' S hS).imp id ?_
        rintro ⟨_, ⟨rfl⟩, hpend⟩
        exact hpend

end Walk

/-! ## Sets of indexes -/

section Sets

variable {M B : Type} {tally : Tally M} {utxoPool : List OutputGroup}

def setTotal (utxoPool : List OutputGroup) (f : OutputGroup → Int) (S : Finset Nat) : Int :=
  ∑ i ∈ S, entryValue utxoPool f i

variable {f : OutputGroup → Int} {S : Finset Nat} {s : SearchState M}
  {Covered : B → Finset Nat → Prop} {selection : List Nat} {last : Nat}

section
variable (h : ∀ group ∈ utxoPool, 0 ≤ f group)
include h

theorem entryValue_nonneg (i : Nat) : 0 ≤ entryValue utxoPool f i := by
  rw [entryValue]
  cases hi : utxoPool[i]? with
  | none => exact le_rfl
  | some group => exact h group (List.mem_of_getElem? hi)

theorem total_le_setTotal (hnodup : selection.Nodup) (hsub : selection.toFinset ⊆ S) :
    ((entriesAt utxoPool selection).map f).sum ≤ setTotal utxoPool f S := by
  rw [sum_entriesAt_toFinset _ _ hnodup]
  exact Finset.sum_le_sum_of_subset_of_nonneg hsub fun i _ _ => entryValue_nonneg h i

theorem setTotal_le_lookahead (hnodup : selection.Nodup) {next : Nat}
    (hS : S ⊆ Finset.range utxoPool.length) (hext : ExtendsFrom selection next S) :
    setTotal utxoPool f S ≤
      ((entriesAt utxoPool selection).map f).sum + ((utxoPool.drop next).map f).sum := by
  rw [setTotal, ← Finset.sum_sdiff hext.subset, sum_entriesAt_toFinset _ _ hnodup,
    ← sum_Ico_entryValue, add_comm]
  exact Int.add_le_add_left (Finset.sum_le_sum_of_subset_of_nonneg (hext.sdiff_subset hS)
    fun i _ _ => entryValue_nonneg h i) _

end

theorem covered_or_shift {best best' : B} (hkeep : Covered best S → Covered best' S)
    (hgive : s.currSelection.toFinset ⊆ S → Covered best' S)
    (h : Covered best S ∨ S = s.currSelection.toFinset ∨ Pending s.currSelection s.nextUtxo S) :
    Covered best' S ∨ Remains s S .shift := by
  rcases h with hcovered | rfl | hpending
  · exact .inl (hkeep hcovered)
  · exact .inl (hgive (Finset.Subset.refl _))
  · rw [pending_iff] at hpending
    exact hpending.imp_left fun hext => hgive hext.subset

theorem covered_or_cut (hs : s.Selected tally utxoPool last) {best best' : B}
    (hkeep : Covered best S → Covered best' S)
    (hself : S = s.currSelection.toFinset → Covered best' S)
    (hgive : ExtendsFrom s.currSelection (last + 1) S → Covered best' S)
    (hrest : ExtendsFrom s.currSelection.tail (last + 1) S → Covered best' S)
    (h : Covered best S ∨ S = s.currSelection.toFinset ∨ Pending s.currSelection s.nextUtxo S) :
    Covered best' S ∨ Remains s S .cut := by
  rcases h with hcovered | heq | hpending
  · exact .inl (hkeep hcovered)
  · exact .inl (hself heq)
  · rw [hs.next_eq, pending_iff] at hpending
    rcases hpending with hext | homitted
    · exact .inl (hgive hext)
    · rw [hs.eq_cons, PendingOmitted, pending_iff] at homitted
      exact homitted.imp_left hrest

/-- Without enough funds in all that is left, neither the selection nor its omission reaches
the target. -/
theorem setTotal_lt_of_short (hamounts : ∀ group ∈ utxoPool, 0 ≤ group.getSelectionAmount)
    (hs : s.Selected tally utxoPool last) {target : Int}
    (hshort : totalAmount (entriesAt utxoPool s.currSelection) +
      totalAmount (utxoPool.drop (last + 1)) < target)
    (hS : S ⊆ Finset.range utxoPool.length)
    (h : S = s.currSelection.toFinset ∨ ExtendsFrom s.currSelection (last + 1) S ∨
      ExtendsFrom s.currSelection.tail (last + 1) S) :
    setTotal utxoPool (·.getSelectionAmount) S < target := by
  have hlater : ∀ selection, selection.Sublist s.currSelection →
      ExtendsFrom selection (last + 1) S → setTotal utxoPool (·.getSelectionAmount) S < target := by
    intro selection hsub hext
    have hle : setTotal utxoPool (·.getSelectionAmount) S ≤
        totalAmount (entriesAt utxoPool selection) + totalAmount (utxoPool.drop (last + 1)) :=
      setTotal_le_lookahead hamounts (hs.nodup.sublist hsub) hS hext
    have hless : totalAmount (entriesAt utxoPool selection) ≤
        totalAmount (entriesAt utxoPool s.currSelection) := by
      refine ((hsub.filterMap _).map _).sum_le_sum fun x hx => ?_
      obtain ⟨group, hgroup, rfl⟩ := List.mem_map.1 hx
      obtain ⟨i, _, hi⟩ := List.mem_filterMap.1 hgroup
      exact hamounts group (List.mem_of_getElem? hi)
    omega
  rcases h with rfl | hext | hext
  · have hahead : 0 ≤ totalAmount (utxoPool.drop (last + 1)) :=
      List.sum_nonneg fun x hx => by
        obtain ⟨group, hgroup, rfl⟩ := List.mem_map.1 hx
        exact hamounts group (List.mem_of_mem_drop hgroup)
    rw [setTotal, ← sum_entriesAt_toFinset _ _ hs.nodup, ← totalAmount]
    omega
  · exact hlater _ (List.Sublist.refl _) hext
  · exact hlater _ (List.tail_sublist _) hext

end Sets

/-! ## Totals -/

theorem bnbTally_total (groups : List OutputGroup) :
    bnbTally.total groups = ⟨totalAmount groups, totalWeight groups, totalWaste groups⟩ := by
  induction groups with
  | nil => rfl
  | cons group groups ih =>
    rw [Tally.total, List.foldr_cons, ← Tally.total, ih]
    simp [bnbTally, totalAmount, totalWeight, totalWaste, add_comm]

theorem coinGrinderTally_total (groups : List OutputGroup) :
    coinGrinderTally.total groups = ⟨totalAmount groups, totalWeight groups⟩ := by
  induction groups with
  | nil => rfl
  | cons group groups ih =>
    rw [Tally.total, List.foldr_cons, ← Tally.total, ih]
    simp [coinGrinderTally, totalAmount, totalWeight, add_comm]

theorem lookaheadOf_cons (group : OutputGroup) (groups : List OutputGroup) :
    lookaheadOf (group :: groups) =
      ((lookaheadOf groups).2 :: (lookaheadOf groups).1,
        (lookaheadOf groups).2 + group.getSelectionAmount) :=
  rfl

theorem lookaheadOf_snd (utxoPool : List OutputGroup) :
    (lookaheadOf utxoPool).2 = totalAmount utxoPool := by
  induction utxoPool with
  | nil => rfl
  | cons group groups ih =>
    rw [lookaheadOf_cons, ih, totalAmount, totalAmount, List.map_cons, List.sum_cons, add_comm]

variable {utxoPool : List OutputGroup} {lower maxWeight : Int} {result : SelectionResult}
  {selection : List Nat}

theorem getElem?_lookaheadOf {i : Nat} (hi : i < utxoPool.length) :
    (lookaheadOf utxoPool).1[i]? = some (totalAmount (utxoPool.drop (i + 1))) := by
  induction utxoPool generalizing i with
  | nil => exact absurd hi (by simp)
  | cons group groups ih =>
    rw [lookaheadOf_cons]
    cases i with
    | zero => rw [List.getElem?_cons_zero, lookaheadOf_snd, List.drop_one, List.tail_cons]
    | succ i => rw [List.getElem?_cons_succ, ih (by simpa using hi), List.drop_succ_cons]

private theorem length_minTailWeightOf (utxoPool : List OutputGroup) :
    (minTailWeightOf utxoPool).length = utxoPool.length := by
  rw [minTailWeightOf]
  induction utxoPool with
  | nil => rfl
  | cons group groups ih => rw [List.foldr_cons, List.length_cons, ih, List.length_cons]

theorem length_pos_of_funds {target : Int} (htarget : 0 < target)
    (h : ¬ (lookaheadOf utxoPool).2 < target) : 0 < utxoPool.length := by
  rw [List.length_pos_iff]
  rintro rfl
  rw [lookaheadOf_snd, totalAmount, List.map_nil, List.sum_nil] at h
  omega

theorem descending_lex_iff (f : OutputGroup → Int) (a b : OutputGroup) :
    (if a.getSelectionAmount = b.getSelectionAmount then decide (f a < f b)
      else decide (a.getSelectionAmount > b.getSelectionAmount)) = true ↔
    toLex (-a.getSelectionAmount, f a) < toLex (-b.getSelectionAmount, f b) := by
  rw [Prod.Lex.toLex_lt_toLex]
  split
  · rename_i heq
    simp [heq]
  · rename_i hne
    simp only [gt_iff_lt, decide_eq_true_eq, neg_lt_neg_iff, neg_inj, hne, false_and, or_false]

/-! ## Results -/

variable {a b groups pool : List OutputGroup}

theorem totalAmount_perm (h : a.Perm b) : totalAmount a = totalAmount b :=
  (h.map _).sum_eq

theorem totalAmount_le_of_subperm (h : groups.Subperm pool)
    (hamounts : ∀ group ∈ pool, 0 ≤ group.getSelectionAmount) :
    totalAmount groups ≤ totalAmount pool := by
  obtain ⟨sublist, hperm, hsub⟩ := h
  rw [totalAmount, ← (hperm.map _).sum_eq, totalAmount]
  refine (hsub.map _).sum_le_sum fun x hx => ?_
  obtain ⟨group, hgroup, rfl⟩ := List.mem_map.1 hx
  exact hamounts group hgroup

theorem totalWeight_perm (h : a.Perm b) : totalWeight a = totalWeight b :=
  (h.map _).sum_eq

structure Picked (utxoPool : List OutputGroup) (selection : List Nat) (lower maxWeight : Int) :
    Prop where
  nodup : selection.Nodup
  inPool : ∀ i ∈ selection, i < utxoPool.length
  amount_ge : lower ≤ totalAmount (entriesAt utxoPool selection)
  weight_le : totalWeight (entriesAt utxoPool selection) ≤ maxWeight

theorem SearchState.Valid.picked {M : Type} {tally : Tally M}
    {s : SearchState M} (h : s.Valid tally utxoPool)
    (hamount : lower ≤ totalAmount (entriesAt utxoPool s.currSelection))
    (hweight : totalWeight (entriesAt utxoPool s.currSelection) ≤ maxWeight) :
    Picked utxoPool s.currSelection lower maxWeight :=
  ⟨h.nodup, fun i hi => lt_of_lt_of_le (h.below i hi) h.inPool, hamount, hweight⟩

/-- A result that takes groups of the pool, each at most once, within a weight, and whose
amount reaches a bound. -/
structure SelectionResult.Pays (result : SelectionResult) (pool : List OutputGroup)
    (lower maxWeight : Int) : Prop where
  adds : result.Adds result.groups
  subperm : result.groups.Subperm pool
  weight_le : result.weight ≤ maxWeight
  amount_ge : lower ≤ totalAmount result.groups

theorem SelectionResult.Adds.pays (h : result.Adds groups) (hsub : groups.Subperm pool)
    (hweight : totalWeight groups ≤ maxWeight) (hamount : lower ≤ totalAmount groups) :
    result.Pays pool lower maxWeight := by
  have hgroups := h.groups_eq
  subst hgroups
  exact ⟨h, hsub, by rwa [h.weight_eq], hamount⟩

private theorem mapM_getElem? (h : ∀ i ∈ selection, i < utxoPool.length) :
    selection.mapM (utxoPool[·]?) = some (entriesAt utxoPool selection) := by
  induction selection with
  | nil => rfl
  | cons i selection ih =>
    have hi := List.getElem?_eq_getElem (h i List.mem_cons_self)
    rw [List.mapM_cons, hi, ih (List.forall_mem_cons.mp h).2, entriesAt_cons hi]
    rfl

private theorem perm_entriesAt_reverse (utxoPool : List OutputGroup) (selection : List Nat) :
    (entriesAt utxoPool selection.reverse).Perm (entriesAt utxoPool selection) :=
  (List.reverse_perm selection).filterMap _

private theorem Picked.subperm (h : Picked utxoPool selection lower maxWeight) :
    (entriesAt utxoPool selection.reverse).Subperm utxoPool :=
  (perm_entriesAt_reverse utxoPool selection).subperm.trans (entriesAt_subperm h.nodup h.inPool)

section Returned

variable {empty : SelectionResult} {exceeded : Bool}
  (hpicked : selection ≠ [] → Picked utxoPool selection lower maxWeight)
include hpicked

private theorem searchResult_eq (hne : selection ≠ []) :
    searchResult utxoPool empty selection exceeded =
      (empty.addInputs (entriesAt utxoPool selection.reverse)).map .ok := by
  rw [searchResult, if_neg hne,
    mapM_getElem? fun i hi => (hpicked hne).inPool i (List.mem_reverse.1 hi), Option.bind_some]

theorem searchResult_isOk (hne : selection ≠ []) {returned : Except String SelectionResult}
    (h : searchResult utxoPool empty selection exceeded = some returned) :
    ∃ result, returned = .ok result := by
  rw [searchResult_eq hpicked hne, Option.map_eq_some_iff] at h
  obtain ⟨result, _, hok⟩ := h
  exact ⟨result, hok.symm⟩

theorem searchResult_ok (hempty : empty.Adds [])
    (h : searchResult utxoPool empty selection exceeded = some (.ok result)) :
    selection ≠ [] ∧ result.groups.Perm (entriesAt utxoPool selection) ∧
      result.Pays utxoPool lower maxWeight := by
  by_cases hne : selection = []
  · rw [searchResult, if_pos hne] at h
    cases h
  · rw [searchResult_eq hpicked hne, Option.map_eq_some_iff] at h
    obtain ⟨added, hadd, hok⟩ := h
    cases hok
    have hadds := hempty.addInputs hadd
    rw [List.nil_append] at hadds
    have hperm := perm_entriesAt_reverse utxoPool selection
    refine ⟨hne, hadds.groups_eq ▸ hperm, hadds.pays (hpicked hne).subperm ?_ ?_⟩
    · rw [totalWeight_perm hperm]
      exact (hpicked hne).weight_le
    · rw [totalAmount_perm hperm]
      exact (hpicked hne).amount_ge

theorem exists_searchResult (hempty : empty.Adds [])
    (hnodup : (utxoPool.flatMap (·.outputs)).Nodup) :
    ∃ returned, searchResult utxoPool empty selection exceeded = some returned := by
  by_cases hne : selection = []
  · rw [searchResult, if_pos hne]
    exact ⟨_, rfl⟩
  · obtain ⟨sublist, hperm, hsub⟩ := (hpicked hne).subperm
    have hgroups : (([] ++ entriesAt utxoPool selection.reverse).flatMap
        OutputGroup.outputs).Nodup := by
      rw [List.nil_append]
      exact (hperm.flatMap_right _).nodup_iff.1 (hnodup.sublist (hsub.flatMap _))
    obtain ⟨result, hresult⟩ := hempty.exists_addInputs hgroups
    rw [searchResult_eq hpicked hne, hresult]
    exact ⟨_, rfl⟩

end Returned

theorem SelectionResult.Pays.of_perm {sorted : List OutputGroup}
    (h : result.Pays sorted lower maxWeight) (hperm : sorted.Perm pool) :
    result.Pays pool lower maxWeight :=
  ⟨h.adds, h.subperm.trans hperm.subperm, h.weight_le, h.amount_ge⟩

/-! ## Branch and bound -/

section Bnb

variable {utxoPool : List OutputGroup} {selectionTarget costOfChange maxSelectionWeight : Int}
  {isFeerateHigh : Bool} {s : SearchState BnbTotals} {last : Nat}

theorem bnbJudge_cases (h : s.Selected bnbTally utxoPool last) (best : BnbBest)
    {chosen : List OutputGroup} (hchosen : entriesAt utxoPool s.currSelection = chosen) :
    ∃ judged, bnbJudge (lookaheadOf utxoPool).1 selectionTarget costOfChange maxSelectionWeight
        isFeerateHigh s best = some judged ∧
      ((totalAmount chosen + totalAmount (utxoPool.drop (last + 1)) < selectionTarget ∧
          judged = (.cut, best)) ∨
        (maxSelectionWeight < totalWeight chosen ∧
          judged = (.shift, { best with maxTxWeightExceeded := true })) ∨
        (selectionTarget + costOfChange < totalAmount chosen ∧ judged = (.shift, best)) ∨
        (best.bestWaste < totalWaste chosen ∧ judged = (.shift, best)) ∨
        (selectionTarget ≤ totalAmount chosen ∧
          totalAmount chosen ≤ selectionTarget + costOfChange ∧
          totalWeight chosen ≤ maxSelectionWeight ∧
          totalWaste chosen + (totalAmount chosen - selectionTarget) ≤ best.bestWaste ∧
          judged = (.shift, { best with
            bestSelection := s.currSelection
            bestWaste := totalWaste chosen + (totalAmount chosen - selectionTarget) })) ∨
        (selectionTarget ≤ totalAmount chosen ∧
          best.bestWaste < totalWaste chosen + (totalAmount chosen - selectionTarget) ∧
          judged = (.shift, best)) ∨
        (totalAmount chosen < selectionTarget ∧ judged = (.explore, best))) := by
  have hlast : last < utxoPool.length := by
    have hpool := h.inPool
    rw [h.next_eq] at hpool
    exact hpool
  have htotals := h.totals_eq
  rw [hchosen, bnbTally_total] at htotals
  rw [bnbJudge, h.head_eq, Option.bind_some, getElem?_lookaheadOf hlast, Option.bind_some, htotals]
  refine ⟨_, rfl, ?_⟩
  dsimp only
  split
  · exact .inl ⟨by omega, rfl⟩
  split
  · exact .inr (.inl ⟨by omega, rfl⟩)
  split
  · exact .inr (.inr (.inl ⟨by omega, rfl⟩))
  split
  · rename_i hwaste
    exact .inr (.inr (.inr (.inl ⟨by omega, rfl⟩)))
  split
  · split
    · exact .inr (.inr (.inr (.inr (.inl ⟨by omega, by omega, by omega, by omega, rfl⟩))))
    · exact .inr (.inr (.inr (.inr (.inr (.inl ⟨by omega, by omega, rfl⟩)))))
  · exact .inr (.inr (.inr (.inr (.inr (.inr ⟨by omega, rfl⟩)))))

structure BnbBest.Records (utxoPool : List OutputGroup)
    (selectionTarget costOfChange maxSelectionWeight : Int) (best : BnbBest) : Prop where
  waste_le : best.bestWaste ≤ MAX_MONEY
  none_yet : best.bestSelection = [] → best.bestWaste = MAX_MONEY
  picked : best.bestSelection ≠ [] →
    Picked utxoPool best.bestSelection selectionTarget maxSelectionWeight
  amount_le : best.bestSelection ≠ [] →
    totalAmount (entriesAt utxoPool best.bestSelection) ≤ selectionTarget + costOfChange
  waste_eq : best.bestSelection ≠ [] →
    best.bestWaste = totalWaste (entriesAt utxoPool best.bestSelection) +
      (totalAmount (entriesAt utxoPool best.bestSelection) - selectionTarget)

theorem BnbBest.records_start :
    BnbBest.Records utxoPool selectionTarget costOfChange maxSelectionWeight {} where
  waste_le := le_rfl
  none_yet _ := rfl
  picked hne := absurd rfl hne
  amount_le hne := absurd rfl hne
  waste_eq hne := absurd rfl hne

theorem bnbJudge_records
    (h : s.Selected bnbTally utxoPool last) {best : BnbBest}
    (hbest : best.Records utxoPool selectionTarget costOfChange maxSelectionWeight)
    {judged : Move × BnbBest}
    (hjudged : bnbJudge (lookaheadOf utxoPool).1 selectionTarget costOfChange maxSelectionWeight
      isFeerateHigh s best = some judged) :
    judged.2.Records utxoPool selectionTarget costOfChange maxSelectionWeight := by
  obtain ⟨_, hjudge, hcases⟩ := bnbJudge_cases h best rfl
  rw [hjudge] at hjudged
  cases hjudged
  rcases hcases with ⟨_, rfl⟩ | ⟨_, rfl⟩ | ⟨_, rfl⟩ | ⟨_, rfl⟩ |
    ⟨hlower, hupper, hweight, hwaste, rfl⟩ | ⟨_, _, rfl⟩ | ⟨_, rfl⟩
  case inr.inr.inr.inr.inl =>
      refine ⟨hwaste.trans hbest.waste_le, fun hnone => ?_, fun _ => h.picked hlower hweight,
        fun _ => hupper, fun _ => rfl⟩
      have hhead := h.head_eq
      dsimp only at hnone
      rw [hnone] at hhead
      cases hhead
  all_goals exact ⟨hbest.waste_le, hbest.none_yet, hbest.picked, hbest.amount_le, hbest.waste_eq⟩

theorem selectCoinsBnB_pays {std : StdSort} {pool : List OutputGroup} {result : SelectionResult}
    (h : selectCoinsBnB std pool selectionTarget costOfChange maxSelectionWeight =
      some (.ok result)) :
    result.Pays pool selectionTarget maxSelectionWeight ∧
      totalAmount result.groups ≤ selectionTarget + costOfChange := by
  have hperm := std.perm OutputGroup.descending pool
  rw [selectCoinsBnB, Option.map_eq_some_iff] at h
  obtain ⟨outcome, h, hresult⟩ := h
  rw [bnbOutcome] at h
  generalize std.sort OutputGroup.descending pool = utxoPool at h hperm
  split at h
  · cases h
    cases hresult
  obtain ⟨first, hfirst, h⟩ := Option.bind_eq_some_iff.mp h
  obtain ⟨searched, hsearch, h⟩ := Option.bind_eq_some_iff.mp h
  obtain ⟨returned, hreturned, houtcome⟩ := Option.map_eq_some_iff.mp h
  cases houtcome
  cases hresult
  have hjudges : Judges bnbTally utxoPool
      (bnbJudge (lookaheadOf utxoPool).1 selectionTarget costOfChange maxSelectionWeight
        (first.fee > first.longTermFee))
      (BnbBest.Records utxoPool selectionTarget costOfChange maxSelectionWeight)
      fun _ _ => True := by
    intro s best last hs hbest
    obtain ⟨judged, hjudged, _⟩ := bnbJudge_cases hs best rfl
    exact ⟨judged, hjudged, bnbJudge_records hs hbest hjudged, fun _ _ _ => .inl trivial⟩
  obtain ⟨completed, triesLeft, best, hloop, hrecords, _⟩ := searchLoop_spec hjudges TOTAL_TRIES
    (by decide) valid_start (List.getElem?_eq_some_iff.1 hfirst).1 BnbBest.records_start
    fun _ _ => .inl trivial
  rw [hsearch] at hloop
  cases hloop
  obtain ⟨hne, hgroups, hpays⟩ := searchResult_ok hrecords.picked .empty hreturned
  refine ⟨hpays.of_perm hperm, ?_⟩
  rw [totalAmount_perm hgroups]
  exact hrecords.amount_le hne

end Bnb

/-! ## CoinGrinder -/

section CoinGrinder

variable {utxoPool : List OutputGroup} {totalTarget maxSelectionWeight : Int}

def CoinGrinderBest.Records (utxoPool : List OutputGroup) (totalTarget maxSelectionWeight : Int)
    (best : CoinGrinderBest) : Prop :=
  best.bestSelectionWeight ≤ maxSelectionWeight ∧
    (best.bestSelection ≠ [] → Picked utxoPool best.bestSelection totalTarget maxSelectionWeight)

/-- Every verdict leaves the best selection alone or records one that pays; none divides by
zero, since amounts are positive. -/
theorem coinGrinderJudge_records (hpositive : ∀ group ∈ utxoPool, 0 < group.getSelectionAmount)
    {s : SearchState CoinGrinderTotals} {last : Nat}
    (h : s.Selected coinGrinderTally utxoPool last) {best : CoinGrinderBest}
    (hbest : best.Records utxoPool totalTarget maxSelectionWeight) :
    ∃ judged, coinGrinderJudge utxoPool (lookaheadOf utxoPool).1 (minTailWeightOf utxoPool)
        totalTarget maxSelectionWeight s best = some judged ∧
      judged.2.Records utxoPool totalTarget maxSelectionWeight := by
  have hlast : last < utxoPool.length := by
    have hpool := h.inPool
    rw [h.next_eq] at hpool
    exact hpool
  have hamount := hpositive _ (List.getElem_mem hlast)
  have htotals := h.totals_eq
  rw [coinGrinderTally_total] at htotals
  rw [coinGrinderJudge, h.head_eq, Option.bind_some, List.getElem?_eq_getElem hlast,
    Option.bind_some, getElem?_lookaheadOf hlast, Option.bind_some,
    List.getElem?_eq_getElem (by rwa [length_minTailWeightOf]), Option.bind_some, htotals]
  dsimp only
  split
  · exact ⟨_, rfl, hbest⟩
  split
  · refine ⟨_, rfl, ?_⟩
    dsimp only
    split
    exacts [hbest, hbest]
  split
  · refine ⟨_, rfl, ?_⟩
    dsimp only
    split
    · have hweight := hbest.1
      have hle : totalWeight (entriesAt utxoPool s.currSelection) ≤ maxSelectionWeight := by omega
      exact ⟨hle, fun _ => h.picked (by omega) hle⟩
    · exact hbest
  split
  · exact ⟨_, rfl, hbest⟩
  rw [if_neg hamount.ne']
  split
  exacts [⟨_, rfl, hbest⟩, ⟨_, rfl, hbest⟩]

theorem coinGrinder_pays {std : StdSort} {pool : List OutputGroup}
    {selectionTarget changeTarget : Int}
    (hpositive : ∀ group ∈ pool, 0 < group.getSelectionAmount)
    (htarget : 0 < selectionTarget + changeTarget) {result : SelectionResult}
    (h : coinGrinder std pool selectionTarget changeTarget maxSelectionWeight = some (.ok result)) :
    result.Pays pool (selectionTarget + changeTarget) maxSelectionWeight := by
  have hperm := std.perm OutputGroup.descendingEffvalWeight pool
  rw [coinGrinder, Option.map_eq_some_iff] at h
  obtain ⟨outcome, h, hresult⟩ := h
  rw [coinGrinderOutcome] at h
  generalize std.sort OutputGroup.descendingEffvalWeight pool = utxoPool at h hperm
  split at h
  · cases h
    cases hresult
  rename_i hfunds
  obtain ⟨searched, hsearch, h⟩ := Option.bind_eq_some_iff.mp h
  obtain ⟨returned, hreturned, houtcome⟩ := Option.map_eq_some_iff.mp h
  cases houtcome
  cases hresult
  have hjudges : Judges coinGrinderTally utxoPool
      (coinGrinderJudge utxoPool (lookaheadOf utxoPool).1 (minTailWeightOf utxoPool)
        (selectionTarget + changeTarget) maxSelectionWeight)
      (CoinGrinderBest.Records utxoPool (selectionTarget + changeTarget) maxSelectionWeight)
      fun _ _ => True := by
    intro s best last hs hbest
    obtain ⟨judged, hjudged, hrecords⟩ := coinGrinderJudge_records
      (fun group hgroup => hpositive group (hperm.mem_iff.1 hgroup)) hs hbest
    exact ⟨judged, hjudged, hrecords, fun _ _ _ => .inl trivial⟩
  have hpool := length_pos_of_funds htarget hfunds
  have hstart : CoinGrinderBest.Records utxoPool (selectionTarget + changeTarget)
      maxSelectionWeight { bestSelectionWeight := maxSelectionWeight } :=
    ⟨le_rfl, fun hne => absurd rfl hne⟩
  obtain ⟨completed, triesLeft, best, hloop, hrecords, _⟩ := searchLoop_spec hjudges TOTAL_TRIES
    (by decide) valid_start hpool hstart fun _ _ => .inl trivial
  rw [hsearch] at hloop
  cases hloop
  exact (searchResult_ok hrecords.2 .empty hreturned).2.2.of_perm hperm

end CoinGrinder

end HcsCoin
