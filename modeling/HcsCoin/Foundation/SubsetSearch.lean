import Mathlib.Algebra.BigOperators.Intervals
import Mathlib.Algebra.BigOperators.Ring.Finset

/-!
# Depth-first walks over the subsets of a list

A walk takes positions in increasing order, always trying to take a position before it
leaves it out.  Its state is the list of the positions taken, the last one first, and the
next position to try.  This file says which sets of positions such a walk has still to
meet, and what taking a position, leaving out the last one and skipping a position do to
them.  It also says when only the sets that prefer the first of two like positions have
to be met.
-/

namespace HcsCoin.Foundation

open Finset

/-! ## The sets ahead of a walk -/

/-- The set takes more than the selection, all of it at or after the next position. -/
def ExtendsFrom (selection : List Nat) (next : Nat) (S : Finset Nat) : Prop :=
  (∀ i ∈ selection, i ∈ S) ∧ (∀ i ∈ S, i ∈ selection ∨ next ≤ i) ∧ ∃ i ∈ S, i ∉ selection

/-- The walk has still to meet the set: it extends the selection, or what is left of it
once some of the last positions are left out. -/
def Pending : List Nat → Nat → Finset Nat → Prop
  | [], next, S => ExtendsFrom [] next S
  | last :: selection, next, S =>
    ExtendsFrom (last :: selection) next S ∨ Pending selection (last + 1) S

/-- The sets left to meet when the last position taken is left out. -/
def PendingOmitted : List Nat → Finset Nat → Prop
  | [], _ => False
  | last :: selection, S => Pending selection (last + 1) S

theorem pending_iff (selection : List Nat) (next : Nat) (S : Finset Nat) :
    Pending selection next S ↔ ExtendsFrom selection next S ∨ PendingOmitted selection S := by
  cases selection with
  | nil => simp [Pending, PendingOmitted]
  | cons last selection => rfl

variable {S : Finset Nat} {selection : List Nat} {next : Nat}

theorem eq_empty_or_pending (S : Finset Nat) : S = ∅ ∨ Pending [] 0 S := by
  refine S.eq_empty_or_nonempty.imp_right fun ⟨i, hi⟩ => ?_
  exact ⟨by simp, fun j _ => Or.inr (Nat.zero_le j), i, hi, by simp⟩

theorem Pending.select (h : Pending selection next S) :
    S = (next :: selection).toFinset ∨ Pending (next :: selection) (next + 1) S := by
  rw [pending_iff] at h
  rw [pending_iff, PendingOmitted, pending_iff]
  rcases h with ⟨hsub, hfrom, i, hi, hnew⟩ | h
  · by_cases hnext : next ∈ S
    · by_cases hmore : ∃ j ∈ S, j ∉ next :: selection
      · refine .inr (.inl ⟨?_, ?_, hmore⟩)
        · simpa using ⟨hnext, hsub⟩
        · intro j hj
          have hjfrom := hfrom j hj
          rw [List.mem_cons]
          by_cases hjn : j = next
          · exact .inl (.inl hjn)
          · exact hjfrom.imp .inr fun hle => by omega
      · refine .inl (Finset.ext fun j => ?_)
        rw [List.mem_toFinset]
        constructor
        · intro hj
          by_contra hout
          exact hmore ⟨j, hj, hout⟩
        · intro hj
          rcases List.mem_cons.1 hj with rfl | hj
          exacts [hnext, hsub j hj]
    · refine .inr (.inr (.inl ⟨hsub, fun j hj => (hfrom j hj).imp id fun hle => ?_, i, hi, hnew⟩))
      have hjn : j ≠ next := fun hjn => hnext (hjn ▸ hj)
      omega
  · exact .inr (.inr (.inr h))

section
variable (h : ExtendsFrom selection next S)
include h

theorem ExtendsFrom.lt_bound {n : Nat} (hS : S ⊆ range n) : next < n := by
  obtain ⟨_, hfrom, i, hi, hnew⟩ := h
  have hlt := Finset.mem_range.1 (hS hi)
  rcases hfrom i hi with hin | hle
  · exact absurd hin hnew
  · omega

theorem ExtendsFrom.skip (hnext : next ∉ S) : ExtendsFrom selection (next + 1) S := by
  obtain ⟨hsub, hfrom, hmore⟩ := h
  refine ⟨hsub, fun i hi => (hfrom i hi).imp id fun hle => ?_, hmore⟩
  have hne : i ≠ next := fun heq => hnext (heq ▸ hi)
  omega

theorem ExtendsFrom.subset : selection.toFinset ⊆ S := fun _ hi => h.1 _ (List.mem_toFinset.1 hi)

theorem ExtendsFrom.sdiff_subset {n : Nat} (hS : S ⊆ range n) :
    S \ selection.toFinset ⊆ Ico next n := by
  intro i hi
  rw [Finset.mem_sdiff, List.mem_toFinset] at hi
  exact Finset.mem_Ico.2 ⟨(h.2.1 i hi.1).resolve_left hi.2, Finset.mem_range.1 (hS hi.1)⟩

end

/-! ## Sets that prefer the first of two like positions -/

/-- A set that takes no position whose predecessor is like it and left out. -/
def PrefersFirst (alike : Nat → Prop) (S : Finset Nat) : Prop :=
  ∀ i, alike i → i ∉ S → i + 1 ∉ S

section Exchange

variable {alike : Nat → Prop} {n : Nat}

private theorem sum_exchange (f : Nat → Int) {S : Finset Nat} {i : Nat} (hi : i ∉ S)
    (hnext : i + 1 ∈ S) : ∑ j ∈ insert i (S.erase (i + 1)), f j = ∑ j ∈ S, f j + f i - f (i + 1) := by
  have hin : i ∉ S.erase (i + 1) := fun h => hi (Finset.mem_of_mem_erase h)
  rw [Finset.sum_insert hin]
  have herase := Finset.sum_erase_add S f hnext
  omega

/-- Every set can be exchanged for one that prefers first positions, without changing what
like positions agree on and without raising what the first of them has less of. -/
theorem exists_prefersFirst (same cost load : Nat → Int)
    (hsame : ∀ i, alike i → same i = same (i + 1)) (hcost : ∀ i, alike i → cost i ≤ cost (i + 1))
    (hload : ∀ i, alike i → load i ≤ load (i + 1)) (S : Finset Nat) (hS : S ⊆ range n) :
    ∃ T ⊆ range n, PrefersFirst alike T ∧ ∑ i ∈ T, same i = ∑ i ∈ S, same i ∧
      ∑ i ∈ T, cost i ≤ ∑ i ∈ S, cost i ∧ ∑ i ∈ T, load i ≤ ∑ i ∈ S, load i := by
  -- each exchange lowers the sum of the positions
  induction hsum : ∑ i ∈ S, i using Nat.strong_induction_on generalizing S with
  | _ total ih =>
    by_cases hfirst : PrefersFirst alike S
    · exact ⟨S, hS, hfirst, rfl, le_rfl, le_rfl⟩
    · rw [PrefersFirst] at hfirst
      push Not at hfirst
      obtain ⟨i, halike, hi, hnext⟩ := hfirst
      have hlt : ∑ j ∈ insert i (S.erase (i + 1)), j < total := by
        have hcast := sum_exchange (fun j => (j : Int)) hi hnext
        push_cast at hcast
        rw [← Nat.cast_sum, ← Nat.cast_sum] at hcast
        omega
      have hsub : insert i (S.erase (i + 1)) ⊆ range n := by
        have hin := Finset.mem_range.1 (hS hnext)
        refine Finset.insert_subset (Finset.mem_range.2 (by omega)) ?_
        exact (Finset.erase_subset _ _).trans hS
      obtain ⟨T, hT, hprefers, hTsame, hTcost, hTload⟩ := ih _ hlt _ hsub rfl
      rw [sum_exchange same hi hnext, hsame i halike] at hTsame
      rw [sum_exchange cost hi hnext] at hTcost
      rw [sum_exchange load hi hnext] at hTload
      have hci := hcost i halike
      have hli := hload i halike
      exact ⟨T, hT, hprefers, by omega, by omega, by omega⟩

end Exchange

/-! ## Sets of positions and sublists -/

section Entries

variable {α : Type*}

def entryValue (l : List α) (f : α → Int) (i : Nat) : Int := (l[i]?.map f).getD 0

def entriesAt (l : List α) (positions : List Nat) : List α := positions.filterMap (l[·]?)

@[simp] theorem entriesAt_nil (l : List α) : entriesAt l [] = [] := rfl

variable {l : List α} {positions : List Nat}

theorem entriesAt_cons {i : Nat} {a : α} (h : l[i]? = some a) (positions : List Nat) :
    entriesAt l (i :: positions) = a :: entriesAt l positions := by
  rw [entriesAt, List.filterMap_cons_some h, entriesAt]

theorem sum_entriesAt (l : List α) (f : α → Int) (positions : List Nat) :
    ((entriesAt l positions).map f).sum = (positions.map (entryValue l f)).sum := by
  induction positions with
  | nil => rfl
  | cons i positions ih =>
    rw [List.map_cons, List.sum_cons, ← ih, entryValue]
    cases hi : l[i]? with
    | none => rw [entriesAt, List.filterMap_cons_none hi, entriesAt]; simp
    | some a => rw [entriesAt_cons hi]; simp

theorem sum_entriesAt_toFinset (l : List α) (f : α → Int) (hnodup : positions.Nodup) :
    ((entriesAt l positions).map f).sum = ∑ i ∈ positions.toFinset, entryValue l f i := by
  rw [sum_entriesAt, List.sum_toFinset _ hnodup]

theorem entriesAt_range (l : List α) : entriesAt l (List.range l.length) = l := by
  induction l using List.reverseRecOn with
  | nil => rfl
  | append_singleton l a ih =>
    rw [List.length_append, List.length_singleton, List.range_succ, entriesAt,
      List.filterMap_append]
    congr 1
    · calc (List.range l.length).filterMap ((l ++ [a])[·]?)
          = (List.range l.length).filterMap (l[·]?) := by
            refine List.filterMap_congr fun i hi => ?_
            rw [List.getElem?_append_left (List.mem_range.1 hi)]
        _ = l := ih
    · simp

theorem entriesAt_subperm (hnodup : positions.Nodup) (hbound : ∀ i ∈ positions, i < l.length) :
    (entriesAt l positions).Subperm l := by
  have hsub : positions.Subperm (List.range l.length) :=
    List.subperm_of_subset hnodup fun i hi => List.mem_range.2 (hbound i hi)
  obtain ⟨sublist, hperm, hsub⟩ := hsub
  refine ⟨entriesAt l sublist, hperm.filterMap _, ?_⟩
  have hentries := hsub.filterMap (l[·]?)
  rwa [← entriesAt, ← entriesAt, entriesAt_range] at hentries

theorem sum_range_entryValue (l : List α) (f : α → Int) :
    ∑ i ∈ range l.length, entryValue l f i = (l.map f).sum := by
  have hsum := sum_entriesAt_toFinset l f (List.nodup_range (n := l.length))
  rw [entriesAt_range, List.toFinset_range] at hsum
  exact hsum.symm

theorem sum_Ico_entryValue (l : List α) (f : α → Int) (k : Nat) :
    ∑ i ∈ Ico k l.length, entryValue l f i = ((l.drop k).map f).sum := by
  rw [Finset.sum_Ico_eq_sum_range, ← sum_range_entryValue, List.length_drop]
  refine Finset.sum_congr rfl fun i _ => ?_
  rw [entryValue, entryValue, List.getElem?_drop]

theorem exists_positions_of_subperm {chosen : List α} (h : chosen.Subperm l) :
    ∃ S ⊆ range l.length, ∀ f : α → Int, ∑ i ∈ S, entryValue l f i = (chosen.map f).sum := by
  obtain ⟨sublist, hperm, hsub⟩ := h
  obtain ⟨place, hplace⟩ := List.sublist_iff_exists_orderEmbedding_getElem?_eq.1 hsub
  refine ⟨(range sublist.length).map place.toEmbedding, ?_, fun f => ?_⟩
  · intro i hi
    obtain ⟨j, hj, rfl⟩ := Finset.mem_map.1 hi
    rw [Finset.mem_range] at hj ⊢
    by_contra hout
    have hentry := hplace j
    rw [List.getElem?_eq_getElem hj] at hentry
    rw [RelEmbedding.coe_toEmbedding, not_lt] at hout
    rw [List.getElem?_eq_none hout] at hentry
    exact absurd hentry (by simp)
  · rw [Finset.sum_map, ← (hperm.map f).sum_eq, ← sum_range_entryValue]
    refine Finset.sum_congr rfl fun j _ => ?_
    rw [entryValue, entryValue, hplace j]
    rfl

end Entries

end HcsCoin.Foundation
