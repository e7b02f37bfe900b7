import HcsCoin.Foundation.Diagram
import HcsCoin.Util.FeeFrac
import Mathlib.Data.Finset.Sort

/-!
# Dependency graphs

`DepGraph` of `cluster_linearize.h`.  A graph keeps the ancestors and the descendants of
every transaction, itself included, and no direct dependencies; those are what
`GetReducedParents` and `GetReducedChildren` infer.  Sets of positions are finite sets of
numbers.
-/

namespace HcsCoin

open Foundation

structure DepGraph.Entry where
  feerate : FeeFrac := .empty
  ancestors : Finset Nat := ∅
  descendants : Finset Nat := ∅
  deriving DecidableEq

structure DepGraph where
  entries : List DepGraph.Entry := []
  used : Finset Nat := ∅
  deriving DecidableEq

namespace DepGraph

def entry (g : DepGraph) (i : Nat) : Entry := g.entries.getD i {}

def positions (g : DepGraph) : Finset Nat := g.used

def positionRange (g : DepGraph) : Nat := g.entries.length

def feeRate (g : DepGraph) (i : Nat) : FeeFrac := (g.entry i).feerate

def ancestors (g : DepGraph) (i : Nat) : Finset Nat := (g.entry i).ancestors

def descendants (g : DepGraph) (i : Nat) : Finset Nat := (g.entry i).descendants

/-! ## Changes -/

def firstAvailable (used : Finset Nat) : Nat → Nat → Nat
  | 0, i => i
  | n + 1, i => if i ∈ used then firstAvailable used n (i + 1) else i

def addAt (g : DepGraph) (newIdx : Nat) (feefrac : FeeFrac) : DepGraph :=
  let added : Entry := { feerate := feefrac, ancestors := {newIdx}, descendants := {newIdx} }
  { entries :=
      if newIdx = g.entries.length then g.entries ++ [added] else g.entries.set newIdx added
    used := insert newIdx g.used }

def addTransaction (g : DepGraph) (feefrac : FeeFrac) : DepGraph × Nat :=
  let newIdx := firstAvailable g.used g.entries.length 0
  (g.addAt newIdx feefrac, newIdx)

def trimmedLength (used : Finset Nat) : Nat → Nat
  | 0 => 0
  | n + 1 => if n ∈ used then n + 1 else trimmedLength used n

def removeTransactions (g : DepGraph) (del : Finset Nat) : DepGraph :=
  let used := g.used \ del
  { entries := (g.entries.take (trimmedLength used g.entries.length)).map fun e =>
      { e with ancestors := e.ancestors ∩ used, descendants := e.descendants ∩ used }
    used := used }

def newAncestors (g : DepGraph) (parents : Finset Nat) (child : Nat) : Finset Nat :=
  (parents \ g.ancestors child).biUnion g.ancestors \ g.ancestors child

def addDependencies (g : DepGraph) (parents : Finset Nat) (child : Nat) : DepGraph :=
  let parAnc := g.newAncestors parents child
  if parAnc = ∅ then g
  else
    { g with
      entries := g.entries.mapIdx fun i e =>
        { e with
          descendants := if i ∈ parAnc then e.descendants ∪ g.descendants child else e.descendants
          ancestors := if i ∈ g.descendants child then e.ancestors ∪ parAnc else e.ancestors } }

def raiseFee (g : DepGraph) (i : Nat) (f : Int) : DepGraph :=
  { g with
    entries := g.entries.modify i fun e =>
      { e with feerate := { e.feerate with fee := e.feerate.fee + f } } }

/-! ## Direct dependencies -/

/-- The loop of `GetReducedParents` and `GetReducedChildren` over the relatives of a
transaction: a relative that is still in the set takes away its own relatives. -/
def reduceLoop (relatives : Nat → Finset Nat) : List Nat → Finset Nat → Finset Nat
  | [], rest => rest
  | i :: is, rest =>
    reduceLoop relatives is (if i ∈ rest then insert i (rest \ relatives i) else rest)

def getReducedParents (g : DepGraph) (i : Nat) : Finset Nat :=
  let parents := (g.ancestors i).erase i
  reduceLoop g.ancestors (parents.sort (· ≤ ·)) parents

def getReducedChildren (g : DepGraph) (i : Nat) : Finset Nat :=
  let children := (g.descendants i).erase i
  reduceLoop g.descendants (children.sort (· ≤ ·)) children

def isAcyclic (g : DepGraph) : Bool :=
  decide (∀ i ∈ g.positions, g.ancestors i ∩ g.descendants i = {i})

/-! ## Well-formed graphs -/

/-- The ancestors form a preorder on the positions in use, and the descendants its
converse. -/
structure WellFormed (g : DepGraph) : Prop where
  lt_range : ∀ i ∈ g.used, i < g.positionRange
  ancestors_subset : ∀ i ∈ g.used, g.ancestors i ⊆ g.used
  mem_ancestors_self : ∀ i ∈ g.used, i ∈ g.ancestors i
  ancestors_trans : ∀ i ∈ g.used, ∀ j ∈ g.ancestors i, g.ancestors j ⊆ g.ancestors i
  mem_descendants : ∀ i ∈ g.used, ∀ j, j ∈ g.descendants i ↔ j ∈ g.used ∧ i ∈ g.ancestors j

theorem wellFormed_empty : WellFormed {} where
  lt_range i hi := absurd hi (Finset.notMem_empty i)
  ancestors_subset i hi := absurd hi (Finset.notMem_empty i)
  mem_ancestors_self i hi := absurd hi (Finset.notMem_empty i)
  ancestors_trans i hi := absurd hi (Finset.notMem_empty i)
  mem_descendants i hi := absurd hi (Finset.notMem_empty i)

theorem firstAvailable_spec (used : Finset Nat) (n i : Nat) :
    firstAvailable used n i ≤ i + n ∧
      (firstAvailable used n i ∉ used ∨ firstAvailable used n i = i + n) := by
  induction n generalizing i with
  | zero => simp [firstAvailable]
  | succ n ih =>
    rw [firstAvailable]
    split
    · have hnext := ih (i + 1)
      rw [Nat.add_right_comm] at hnext
      exact hnext
    · exact ⟨by omega, .inl ‹_›⟩

variable {g : DepGraph}

theorem WellFormed.firstAvailable_notMem (h : g.WellFormed) :
    firstAvailable g.used g.entries.length 0 ∉ g.used := by
  rcases (firstAvailable_spec g.used g.entries.length 0).2 with hfree | hend
  · exact hfree
  · intro hin
    have hlt : _ < g.entries.length := h.lt_range _ hin
    omega

variable {newIdx i child : Nat} {parents : Finset Nat}

theorem entry_addAt (hle : newIdx ≤ g.entries.length) (feefrac : FeeFrac) (i : Nat) :
    (g.addAt newIdx feefrac).entry i =
      if i = newIdx then { feerate := feefrac, ancestors := {i}, descendants := {i} }
      else g.entry i := by
  simp only [addAt, entry, List.getD_eq_getElem?_getD]
  by_cases hi : i = newIdx
  · subst hi
    rw [if_pos rfl]
    split
    · rename_i hend
      rw [hend, List.getElem?_concat_length, Option.getD_some]
    · rw [List.getElem?_set_self (by omega), Option.getD_some]
  · rw [if_neg hi]
    split
    · rename_i hend
      rcases lt_or_ge i g.entries.length with hlt | hge
      · rw [List.getElem?_append_left hlt]
      · rw [List.getElem?_eq_none (by rw [List.length_append, List.length_singleton]; omega),
          List.getElem?_eq_none hge]
    · rw [List.getElem?_set_ne (Ne.symm hi)]

theorem WellFormed.addAt (h : g.WellFormed) (hle : newIdx ≤ g.entries.length)
    (hnew : newIdx ∉ g.used) (feefrac : FeeFrac) : (g.addAt newIdx feefrac).WellFormed := by
  have hself : (g.addAt newIdx feefrac).entry newIdx =
      { feerate := feefrac, ancestors := {newIdx}, descendants := {newIdx} } := by
    rw [entry_addAt hle, if_pos rfl]
  have hold : ∀ i ∈ g.used, (g.addAt newIdx feefrac).entry i = g.entry i := fun i hi => by
    have hne : i ≠ newIdx := fun heq => hnew (heq ▸ hi)
    rw [entry_addAt hle, if_neg hne]
  constructor
  · intro i hi
    have hlt : i = newIdx ∨ i < g.entries.length := (Finset.mem_insert.1 hi).imp id (h.lt_range i)
    simp only [DepGraph.addAt, positionRange]
    split
    · rw [List.length_append, List.length_singleton]
      omega
    · rw [List.length_set]
      omega
  · intro i hi
    rw [ancestors]
    rcases Finset.mem_insert.1 hi with rfl | hi
    · rw [hself]
      exact Finset.singleton_subset_iff.2 (Finset.mem_insert_self _ _)
    · rw [hold i hi]
      exact (h.ancestors_subset i hi).trans (Finset.subset_insert _ _)
  · intro i hi
    rw [ancestors]
    rcases Finset.mem_insert.1 hi with rfl | hi
    · rw [hself]
      exact Finset.mem_singleton_self i
    · rw [hold i hi]
      exact h.mem_ancestors_self i hi
  · intro i hi j hj
    rw [ancestors] at hj
    rcases Finset.mem_insert.1 hi with rfl | hi
    · rw [hself] at hj
      rw [Finset.mem_singleton.1 hj]
    · rw [hold i hi] at hj
      rw [ancestors, ancestors, hold i hi, hold j (h.ancestors_subset i hi hj)]
      exact h.ancestors_trans i hi j hj
  · intro i hi j
    rw [descendants, ancestors]
    rcases Finset.mem_insert.1 hi with rfl | hin
    · rw [hself, Finset.mem_singleton]
      constructor
      · rintro rfl
        rw [hself]
        exact ⟨hi, Finset.mem_singleton_self j⟩
      · rintro ⟨hj, hmem⟩
        rcases Finset.mem_insert.1 hj with rfl | hj
        · rfl
        · rw [hold j hj] at hmem
          exact absurd (h.ancestors_subset j hj hmem) hnew
    · rw [hold i hin, ← descendants, h.mem_descendants i hin]
      constructor
      · rintro ⟨hj, hmem⟩
        rw [hold j hj]
        exact ⟨Finset.mem_insert_of_mem hj, hmem⟩
      · rintro ⟨hj, hmem⟩
        rcases Finset.mem_insert.1 hj with rfl | hj
        · rw [hself] at hmem
          exact absurd hin (Finset.mem_singleton.1 hmem ▸ hnew)
        · rw [hold j hj] at hmem
          exact ⟨hj, hmem⟩

theorem WellFormed.addTransaction (h : g.WellFormed) (feefrac : FeeFrac) :
    (g.addTransaction feefrac).1.WellFormed := by
  have hle := (firstAvailable_spec g.used g.entries.length 0).1
  rw [Nat.zero_add] at hle
  exact h.addAt hle h.firstAvailable_notMem feefrac

theorem lt_trimmedLength {used : Finset Nat} {n : Nat} (hi : i ∈ used) (hlt : i < n) :
    i < trimmedLength used n := by
  induction n with
  | zero => omega
  | succ n ih =>
    rw [trimmedLength]
    split_ifs with hn
    · exact hlt
    · exact ih (lt_of_le_of_ne (Nat.le_of_lt_succ hlt) fun heq => hn (heq ▸ hi))

theorem WellFormed.removeTransactions (h : g.WellFormed) (del : Finset Nat) :
    (g.removeTransactions del).WellFormed := by
  set g' := g.removeTransactions del
  have hold : ∀ i ∈ g'.used, i ∈ g.used := fun i hi => (Finset.mem_sdiff.1 hi).1
  have hlt : ∀ i ∈ g'.used, i < trimmedLength g'.used g.entries.length := fun i hi =>
    lt_trimmedLength hi (h.lt_range i (hold i hi))
  have hentry : ∀ i ∈ g'.used, g'.ancestors i = g.ancestors i ∩ g'.used ∧
      g'.descendants i = g.descendants i ∩ g'.used := by
    intro i hi
    have htake := List.getElem?_take_of_lt (l := g.entries) (hlt i hi)
    have hrange : i < g.entries.length := h.lt_range i (hold i hi)
    simp_all [ancestors, descendants, entry, g', DepGraph.removeTransactions]
  have hanc := fun i hi => (hentry i hi).1
  constructor
  · intro i hi
    rw [positionRange, show g'.entries.length = _ from List.length_map _, List.length_take]
    exact lt_min (hlt i hi) (h.lt_range i (hold i hi))
  · intro i hi
    rw [hanc i hi]
    exact Finset.inter_subset_right
  · intro i hi
    rw [hanc i hi]
    exact Finset.mem_inter.2 ⟨h.mem_ancestors_self i (hold i hi), hi⟩
  · intro i hi j hj
    rw [hanc i hi, Finset.mem_inter] at hj
    rw [hanc i hi, hanc j hj.2]
    exact Finset.inter_subset_inter_right (h.ancestors_trans i (hold i hi) j hj.1)
  · intro i hi j
    rw [(hentry i hi).2, Finset.mem_inter, h.mem_descendants i (hold i hi)]
    constructor
    · rintro ⟨⟨_, hmem⟩, hj⟩
      rw [hanc j hj]
      exact ⟨hj, Finset.mem_inter.2 ⟨hmem, hi⟩⟩
    · rintro ⟨hj, hmem⟩
      rw [hanc j hj, Finset.mem_inter] at hmem
      exact ⟨⟨hold j hj, hmem.1⟩, hj⟩

theorem mem_newAncestors (h : g.WellFormed) (hchild : child ∈ g.used) :
    i ∈ g.newAncestors parents child ∨ i ∈ g.ancestors child ↔
      (∃ parent ∈ parents, i ∈ g.ancestors parent) ∨ i ∈ g.ancestors child := by
  rw [newAncestors, Finset.mem_sdiff, Finset.mem_biUnion]
  constructor
  · rintro (⟨⟨parent, hparent, hi⟩, _⟩ | hi)
    · exact .inl ⟨parent, (Finset.mem_sdiff.1 hparent).1, hi⟩
    · exact .inr hi
  · rintro (⟨parent, hparent, hi⟩ | hi)
    · by_cases hin : i ∈ g.ancestors child
      · exact .inr hin
      · refine .inl ⟨⟨parent, Finset.mem_sdiff.2 ⟨hparent, fun hpar => hin ?_⟩, hi⟩, hin⟩
        exact h.ancestors_trans child hchild parent hpar hi
    · exact .inr hi

theorem WellFormed.addDependencies (h : g.WellFormed) (hparents : parents ⊆ g.used)
    (hchild : child ∈ g.used) : (g.addDependencies parents child).WellFormed := by
  rw [DepGraph.addDependencies]
  split
  · exact h
  have hnew : ∀ i, i ∈ g.newAncestors parents child → i ∈ g.used := by
    intro i hi
    rw [newAncestors, Finset.mem_sdiff, Finset.mem_biUnion] at hi
    obtain ⟨⟨parent, hparent, hi⟩, _⟩ := hi
    exact h.ancestors_subset parent (hparents (Finset.mem_sdiff.1 hparent).1) hi
  -- ancestors of new ancestors are new, or were ancestors of the child
  have hclosed : ∀ i ∈ g.newAncestors parents child, ∀ j ∈ g.ancestors i,
      j ∈ g.newAncestors parents child ∨ j ∈ g.ancestors child := by
    intro i hi j hj
    obtain ⟨parent, hparent, hi⟩ | hi := (mem_newAncestors h hchild).1 (Or.inl hi)
    · exact (mem_newAncestors h hchild).2
        (.inl ⟨parent, hparent, h.ancestors_trans parent (hparents hparent) i hi hj⟩)
    · exact .inr (h.ancestors_trans child hchild i hi hj)
  have hentry : ∀ g' : DepGraph, g' = { g with
      entries := g.entries.mapIdx fun i e =>
        { e with
          descendants :=
            if i ∈ g.newAncestors parents child then e.descendants ∪ g.descendants child
            else e.descendants
          ancestors :=
            if i ∈ g.descendants child then e.ancestors ∪ g.newAncestors parents child
            else e.ancestors } } →
      ∀ i ∈ g.used,
        g'.ancestors i = (if i ∈ g.descendants child then
          g.ancestors i ∪ g.newAncestors parents child else g.ancestors i) ∧
        g'.descendants i = if i ∈ g.newAncestors parents child then
          g.descendants i ∪ g.descendants child else g.descendants i := by
    rintro g' rfl i hi
    have hrange := h.lt_range i hi
    simp only [ancestors, descendants, entry, List.getD_eq_getElem?_getD, List.getElem?_mapIdx,
      List.getElem?_eq_getElem hrange, Option.map_some, Option.getD_some]
    exact ⟨trivial, trivial⟩
  generalize hg' : ({ g with entries := g.entries.mapIdx _ } : DepGraph) = g'
  have hused : g'.used = g.used := by rw [← hg']
  have hanc := fun i hi => (hentry g' hg'.symm i hi).1
  have hdesc := fun i hi => (hentry g' hg'.symm i hi).2
  generalize g.newAncestors parents child = parAnc at *
  have hmemAnc : ∀ i ∈ g.used, ∀ j, j ∈ g'.ancestors i ↔
      j ∈ g.ancestors i ∨ (child ∈ g.ancestors i ∧ j ∈ parAnc) := by
    intro i hi j
    rw [hanc i hi]
    have hbelow := h.mem_descendants child hchild i
    split
    · rw [Finset.mem_union]
      tauto
    · tauto
  have hsubset : ∀ i ∈ g.used, g'.ancestors i ⊆ g.used := by
    intro i hi j hj
    rcases (hmemAnc i hi j).1 hj with hj | ⟨_, hj⟩
    exacts [h.ancestors_subset i hi hj, hnew j hj]
  constructor
  · intro i hi
    rw [← hg']
    simpa [positionRange] using h.lt_range i (hused ▸ hi)
  · rwa [hused]
  · intro i hi
    rw [hused] at hi
    exact (hmemAnc i hi i).2 (.inl (h.mem_ancestors_self i hi))
  · intro i hi j hj k hk
    rw [hused] at hi
    rw [hmemAnc i hi]
    rw [hmemAnc j (hsubset i hi hj)] at hk
    rcases (hmemAnc i hi j).1 hj with hj | ⟨hbelow, hj⟩
    · rcases hk with hk | ⟨hcj, hk⟩
      · exact .inl (h.ancestors_trans i hi j hj hk)
      · exact .inr ⟨h.ancestors_trans i hi j hj hcj, hk⟩
    · rcases hk with hk | ⟨_, hk⟩
      · rcases hclosed j hj k hk with hk | hk
        · exact .inr ⟨hbelow, hk⟩
        · exact .inl (h.ancestors_trans i hi child hbelow hk)
      · exact .inr ⟨hbelow, hk⟩
  · intro i hi j
    rw [hused] at hi ⊢
    have hmemDesc : j ∈ g'.descendants i ↔
        j ∈ g.descendants i ∨ (i ∈ parAnc ∧ j ∈ g.descendants child) := by
      rw [hdesc i hi]
      split
      · rw [Finset.mem_union]
        tauto
      · tauto
    rw [hmemDesc, h.mem_descendants i hi, h.mem_descendants child hchild]
    by_cases hj : j ∈ g.used
    · rw [hmemAnc j hj]
      tauto
    · tauto

/-- The graphs that the changes above lead to. -/
inductive Built : DepGraph → Prop where
  | empty : Built {}
  | addTransaction {g : DepGraph} (h : Built g) (feefrac : FeeFrac) :
      Built (g.addTransaction feefrac).1
  | addDependencies {g : DepGraph} (h : Built g) {parents : Finset Nat} {child : Nat}
      (hparents : parents ⊆ g.used) (hchild : child ∈ g.used) :
      Built (g.addDependencies parents child)
  | removeTransactions {g : DepGraph} (h : Built g) (del : Finset Nat) :
      Built (g.removeTransactions del)

/-- This holds also where a position is freed by a removal and taken again. -/
theorem Built.wellFormed (h : Built g) : g.WellFormed := by
  induction h with
  | empty => exact wellFormed_empty
  | addTransaction _ feefrac ih => exact ih.addTransaction feefrac
  | addDependencies _ hparents hchild ih => exact ih.addDependencies hparents hchild
  | removeTransactions _ del ih => exact ih.removeTransactions del

theorem Built.wellFormed_readded :
    (((((DepGraph.addTransaction {} .empty).1.addTransaction .empty).1.addDependencies
      {0} 1).removeTransactions {0}).addTransaction .empty).1.WellFormed :=
  Built.wellFormed (((((Built.empty.addTransaction _).addTransaction _).addDependencies
    (by decide) (by decide)).removeTransactions _).addTransaction _)

/-! ## Raised fees -/

section RaiseFee

variable (g : DepGraph) (i : Nat) (f : Int)

theorem entry_raiseFee (j : Nat) :
    (g.raiseFee i f).entry j =
      if i = j ∧ j < g.entries.length then
        { g.entry j with feerate := { g.feeRate j with fee := (g.feeRate j).fee + f } }
      else g.entry j := by
  rw [entry, raiseFee, List.getD_eq_getElem?_getD, List.getElem?_modify, feeRate, entry,
    List.getD_eq_getElem?_getD]
  by_cases hj : j < g.entries.length
  · rw [List.getElem?_eq_getElem hj]
    by_cases hij : i = j
    · simp [hij, hj]
    · simp [hij]
  · rw [List.getElem?_eq_none (not_lt.1 hj)]
    simp [hj]

theorem ancestors_raiseFee (j : Nat) : (g.raiseFee i f).ancestors j = g.ancestors j := by
  rw [ancestors, entry_raiseFee]
  split <;> rfl

theorem descendants_raiseFee (j : Nat) : (g.raiseFee i f).descendants j = g.descendants j := by
  rw [descendants, entry_raiseFee]
  split <;> rfl

theorem WellFormed.raiseFee {g : DepGraph} (h : g.WellFormed) (i : Nat) (f : Int) :
    (g.raiseFee i f).WellFormed where
  lt_range j hj := by
    rw [positionRange, DepGraph.raiseFee, List.length_modify]
    exact h.lt_range j hj
  ancestors_subset j hj := by
    rw [ancestors_raiseFee]
    exact h.ancestors_subset j hj
  mem_ancestors_self j hj := by
    rw [ancestors_raiseFee]
    exact h.mem_ancestors_self j hj
  ancestors_trans j hj := by
    simp only [ancestors_raiseFee]
    exact h.ancestors_trans j hj
  mem_descendants j hj := by
    simp only [ancestors_raiseFee, descendants_raiseFee]
    exact h.mem_descendants j hj

end RaiseFee

end DepGraph

end HcsCoin
