import Mathlib.Algebra.BigOperators.Group.List.Basic
import Mathlib.Data.List.Induction
import Mathlib.Tactic.Linarith
import Mathlib.Tactic.Ring

/-!
# Passes over groups of weighted items

Items have a fee and a positive size.  A pass takes the items of a sequence one by one; each
starts a group of its own at the back of a list of groups, and the group moves towards the
front while its feerate is higher than that of the group before it: past that group, or
together with it when it depends on it.  This file says what such a pass keeps and what it
gains: the order that dependencies ask for, feerates that fall from group to group, groups
that are connected, and at every price at least the gain that some beginning of the sequence
had.
-/

namespace HcsCoin.Foundation

structure Weighing (α : Type*) where
  fee : α → Int
  size : α → Int
  size_pos : ∀ x, 0 < size x

namespace Weighing

variable {α : Type*} (w : Weighing α)

def feeSum (l : List α) : Int := (l.map w.fee).sum

def sizeSum (l : List α) : Int := (l.map w.size).sum

@[simp] theorem feeSum_nil : w.feeSum [] = 0 := rfl
@[simp] theorem sizeSum_nil : w.sizeSum [] = 0 := rfl

@[simp] theorem feeSum_cons (x : α) (l : List α) : w.feeSum (x :: l) = w.fee x + w.feeSum l := by
  simp [feeSum]

@[simp] theorem sizeSum_cons (x : α) (l : List α) :
    w.sizeSum (x :: l) = w.size x + w.sizeSum l := by
  simp [sizeSum]

@[simp] theorem feeSum_append (a b : List α) : w.feeSum (a ++ b) = w.feeSum a + w.feeSum b := by
  simp [feeSum]

@[simp] theorem sizeSum_append (a b : List α) : w.sizeSum (a ++ b) = w.sizeSum a + w.sizeSum b := by
  simp [sizeSum]

theorem feeSum_perm {a b : List α} (h : a.Perm b) : w.feeSum a = w.feeSum b := (h.map _).sum_eq

theorem sizeSum_perm {a b : List α} (h : a.Perm b) : w.sizeSum a = w.sizeSum b := (h.map _).sum_eq

theorem sizeSum_nonneg (l : List α) : 0 ≤ w.sizeSum l := by
  induction l with
  | nil => exact le_rfl
  | cons x l ih =>
    have hx := w.size_pos x
    rw [sizeSum_cons]
    omega

theorem sizeSum_pos {l : List α} (h : l ≠ []) : 0 < w.sizeSum l := by
  cases l with
  | nil => exact absurd rfl h
  | cons x l =>
    have hx := w.size_pos x
    have hl := w.sizeSum_nonneg l
    rw [sizeSum_cons]
    omega

/-! ## Comparing feerates -/

def Higher (a b : List α) : Prop := w.feeSum b * w.sizeSum a < w.feeSum a * w.sizeSum b

def AtMost (a b : List α) : Prop := w.feeSum a * w.sizeSum b ≤ w.feeSum b * w.sizeSum a

instance (a b : List α) : Decidable (w.Higher a b) := inferInstanceAs (Decidable (_ < _))

variable {w} {a b c : List α}

theorem not_higher : ¬ w.Higher a b ↔ w.AtMost a b := not_lt

theorem Higher.atMost (h : w.Higher a b) : w.AtMost b a := h.le

theorem AtMost.refl (a : List α) : w.AtMost a a := le_rfl

theorem AtMost.trans (hab : w.AtMost a b) (hbc : w.AtMost b c) (hb : b ≠ []) : w.AtMost a c := by
  have hsb := w.sizeSum_pos hb
  have hsa := w.sizeSum_nonneg a
  have hsc := w.sizeSum_nonneg c
  rw [AtMost] at *
  refine le_of_mul_le_mul_right ?_ hsb
  calc w.feeSum a * w.sizeSum c * w.sizeSum b
      = w.feeSum a * w.sizeSum b * w.sizeSum c := by ring
    _ ≤ w.feeSum b * w.sizeSum a * w.sizeSum c := by gcongr
    _ = w.feeSum b * w.sizeSum c * w.sizeSum a := by ring
    _ ≤ w.feeSum c * w.sizeSum b * w.sizeSum a := by gcongr
    _ = w.feeSum c * w.sizeSum a * w.sizeSum b := by ring

theorem Higher.of_atMost_right (hca : w.Higher c a) (hba : w.AtMost b a) (hb : b ≠ []) :
    w.Higher c b := by
  by_contra h
  exact absurd ((not_higher.1 h).trans hba hb) (not_le.2 hca)

theorem Higher.of_atMost_left (hab : w.Higher a b) (hac : w.AtMost a c) (hc : c ≠ []) :
    w.Higher c b := by
  by_contra h
  exact absurd (hac.trans (not_higher.1 h) hc) (not_le.2 hab)

theorem AtMost.append_left (hac : w.AtMost a c) (hbc : w.AtMost b c) : w.AtMost (a ++ b) c := by
  rw [AtMost] at *
  rw [feeSum_append, sizeSum_append, add_mul, mul_add]
  exact add_le_add hac hbc

theorem AtMost.append_right (hca : w.AtMost c a) (hcb : w.AtMost c b) : w.AtMost c (a ++ b) := by
  rw [AtMost] at *
  rw [feeSum_append, sizeSum_append, add_mul, mul_add]
  exact add_le_add hca hcb

theorem Higher.append_left (hac : w.Higher a c) (hbc : w.Higher b c) : w.Higher (a ++ b) c := by
  rw [Higher] at *
  rw [feeSum_append, sizeSum_append, add_mul, mul_add]
  exact add_lt_add hac hbc

theorem Higher.append_right (hca : w.Higher c a) (hcb : w.Higher c b) : w.Higher c (a ++ b) := by
  rw [Higher] at *
  rw [feeSum_append, sizeSum_append, add_mul, mul_add]
  exact add_lt_add hca hcb

theorem Higher.atMost_append (h : w.Higher b a) : w.AtMost a (a ++ b) :=
  (AtMost.refl a).append_right h.atMost

theorem Higher.append_atMost (h : w.Higher b a) : w.AtMost (a ++ b) b :=
  h.atMost.append_left (AtMost.refl b)

theorem atMost_nil (a : List α) : w.AtMost [] a := by simp [AtMost]

variable (w)

/-! ## Gains at a price -/

/-- The gain from some items at the price of `n` for every `d` of size, as a multiple. -/
def gain (n d : Int) (l : List α) : Int := d * w.feeSum l - n * w.sizeSum l

@[simp] theorem gain_nil (n d : Int) : w.gain n d [] = 0 := by simp [gain]

@[simp] theorem gain_append (n d : Int) (a b : List α) :
    w.gain n d (a ++ b) = w.gain n d a + w.gain n d b := by
  simp only [gain, feeSum_append, sizeSum_append]
  ring

theorem gain_perm (n d : Int) (h : a.Perm b) : w.gain n d a = w.gain n d b := by
  rw [gain, gain, w.feeSum_perm h, w.sizeSum_perm h]

variable {w} {n d : Int}

theorem AtMost.gain_nonneg (h : w.AtMost a b) (hd : 0 < d) (ha : a ≠ [])
    (hgain : 0 ≤ w.gain n d a) : 0 ≤ w.gain n d b := by
  have hsa := w.sizeSum_pos ha
  have hsb := w.sizeSum_nonneg b
  rw [AtMost] at h
  rw [gain] at hgain ⊢
  refine (mul_nonneg_iff_of_pos_left hsa).1 ?_
  calc (0 : Int) ≤ w.sizeSum b * (d * w.feeSum a - n * w.sizeSum a) := mul_nonneg hsb hgain
    _ = d * (w.feeSum a * w.sizeSum b) - n * w.sizeSum b * w.sizeSum a := by ring
    _ ≤ d * (w.feeSum b * w.sizeSum a) - n * w.sizeSum b * w.sizeSum a := by gcongr
    _ = w.sizeSum a * (d * w.feeSum b - n * w.sizeSum b) := by ring

theorem Higher.gain_pos (h : w.Higher a b) (hd : 0 < d) (hb : b ≠ []) (hgain : 0 ≤ w.gain n d b) :
    0 < w.gain n d a := by
  have hsb := w.sizeSum_pos hb
  have hsa := w.sizeSum_nonneg a
  rw [Higher] at h
  rw [gain] at hgain ⊢
  refine (mul_pos_iff_of_pos_left hsb).1 ?_
  calc (0 : Int) ≤ w.sizeSum a * (d * w.feeSum b - n * w.sizeSum b) := mul_nonneg hsa hgain
    _ = d * (w.feeSum b * w.sizeSum a) - n * w.sizeSum a * w.sizeSum b := by ring
    _ < d * (w.feeSum a * w.sizeSum b) - n * w.sizeSum a * w.sizeSum b := by gcongr
    _ = w.sizeSum b * (d * w.feeSum a - n * w.sizeSum a) := by ring

end Weighing

open Weighing

section Pass

variable {α : Type*} (w : Weighing α) (depends : List α → List α → Bool)

/-! ## The pass -/

/-- The current group on its way to the front, with the groups before it from the back. -/
def insertGroup (current : List α) : List (List α) → List (List α)
  | [] => [current]
  | previous :: before =>
    if w.Higher current previous then
      if depends current previous then insertGroup (previous ++ current) before
      else previous :: insertGroup current before
    else current :: previous :: before

def groupPass (items : List α) : List (List α) :=
  items.foldl (fun groups x => insertGroup w depends [x] groups) []

theorem groupPass_snoc (items : List α) (x : α) :
    groupPass w depends (items ++ [x]) = insertGroup w depends [x] (groupPass w depends items) := by
  rw [groupPass, List.foldl_append]
  rfl

variable {w depends}

theorem insertGroup_perm (current : List α) (before : List (List α)) :
    (insertGroup w depends current before).flatten.Perm (current ++ before.flatten) := by
  induction before generalizing current with
  | nil => simp [insertGroup]
  | cons previous before ih =>
    rw [insertGroup, List.flatten_cons]
    split
    · split
      · refine (ih _).trans ?_
        rw [← List.append_assoc]
        exact List.perm_append_comm.append_right _
      · rw [List.flatten_cons]
        refine ((ih current).append_left previous).trans ?_
        rw [← List.append_assoc, ← List.append_assoc]
        exact List.perm_append_comm.append_right _
    · exact List.Perm.refl _

theorem groupPass_perm (items : List α) : (groupPass w depends items).flatten.Perm items := by
  induction items using List.reverseRecOn with
  | nil => exact List.Perm.refl _
  | append_singleton items x ih =>
    rw [groupPass_snoc]
    exact (insertGroup_perm _ _).trans ((ih.append_left [x]).trans List.perm_append_comm)

variable {current items previous : List α} {before groups : List (List α)} {Q : List α → Prop}
  {value : Int} {a b : α}

section

variable (hmerge : ∀ current previous, Q current → Q previous → w.Higher current previous →
  depends current previous = true → Q (previous ++ current))
include hmerge

theorem insertGroup_forall (hcurrent : Q current) (hbefore : ∀ group ∈ before, Q group) :
    ∀ group ∈ insertGroup w depends current before, Q group := by
  induction before generalizing current with
  | nil => simpa [insertGroup] using hcurrent
  | cons previous before ih =>
    have hprevious := hbefore previous List.mem_cons_self
    have hrest := (List.forall_mem_cons.mp hbefore).2
    rw [insertGroup]
    split
    · split
      · exact ih (hmerge _ _ hcurrent hprevious ‹_› ‹_›) hrest
      · intro group hgroup
        rcases List.mem_cons.1 hgroup with rfl | hgroup
        exacts [hprevious, ih hcurrent hrest group hgroup]
    · intro group hgroup
      rcases List.mem_cons.1 hgroup with rfl | hgroup
      exacts [hcurrent, hbefore group hgroup]

theorem groupPass_forall (hsingle : ∀ x ∈ items, Q [x]) :
    ∀ group ∈ groupPass w depends items, Q group := by
  induction items using List.reverseRecOn with
  | nil => simp [groupPass]
  | append_singleton items x ih =>
    rw [groupPass_snoc]
    exact insertGroup_forall hmerge (hsingle x (by simp))
      (ih fun y hy => hsingle y (List.mem_append_left _ hy))

end

theorem insertGroup_ne_nil (hcurrent : current ≠ []) (hbefore : ∀ group ∈ before, group ≠ []) :
    ∀ group ∈ insertGroup w depends current before, group ≠ [] :=
  insertGroup_forall (fun _ _ hcurrent _ _ _ => List.append_ne_nil_of_right_ne_nil _ hcurrent)
    hcurrent hbefore

theorem groupPass_ne_nil (items : List α) : ∀ group ∈ groupPass w depends items, group ≠ [] :=
  groupPass_forall (fun _ _ hcurrent _ _ _ => List.append_ne_nil_of_right_ne_nil _ hcurrent)
    fun _ _ => List.cons_ne_nil _ _

/-! ## Feerates fall from group to group -/

def FallingRates (w : Weighing α) (groups : List (List α)) : Prop := groups.Pairwise w.AtMost

theorem insertGroup_falling (hcurrent : current ≠ [])
    (hbefore : ∀ group ∈ before, group ≠ []) (h : FallingRates w before) :
    FallingRates w (insertGroup w depends current before) := by
  induction before generalizing current with
  | nil => exact List.pairwise_singleton _ _
  | cons previous before ih =>
    have hrest := (List.forall_mem_cons.mp hbefore).2
    obtain ⟨hfirst, hfalling⟩ := List.pairwise_cons.1 h
    rw [insertGroup]
    split
    · rename_i hhigher
      split
      · exact ih (List.append_ne_nil_of_right_ne_nil _ hcurrent) hrest hfalling
      · refine List.pairwise_cons.2 ⟨?_, ih hcurrent hrest hfalling⟩
        exact insertGroup_forall (fun _ _ hcurrent hprevious _ _ =>
          hprevious.append_right hcurrent) hhigher.atMost hfirst
    · rename_i hhigher
      refine List.pairwise_cons.2 ⟨fun group hgroup => ?_, h⟩
      rcases List.mem_cons.1 hgroup with rfl | hgroup
      · exact not_higher.1 hhigher
      · exact (not_higher.1 hhigher).trans (hfirst group hgroup)
          (hbefore previous List.mem_cons_self)

theorem groupPass_falling (items : List α) : FallingRates w (groupPass w depends items) := by
  induction items using List.reverseRecOn with
  | nil => exact List.Pairwise.nil
  | append_singleton items x ih =>
    rw [groupPass_snoc]
    exact insertGroup_falling (List.cons_ne_nil _ _) (groupPass_ne_nil items) ih

/-- The rest of a group always has a higher feerate than its beginning. -/
def Tight (w : Weighing α) (group : List α) : Prop :=
  ∀ front back, group = front ++ back → front ≠ [] → back ≠ [] → w.Higher back front

theorem tight_singleton (x : α) : Tight w [x] := by
  intro front back heq hfront hback
  have hlength := congrArg List.length heq
  rw [List.length_singleton, List.length_append] at hlength
  have hf := List.length_pos_iff.2 hfront
  have hb := List.length_pos_iff.2 hback
  omega

theorem Tight.merge (hcurrent : Tight w current)
    (hprevious : Tight w previous) (h : w.Higher current previous) :
    Tight w (previous ++ current) := by
  intro front back heq hfront hback
  rcases List.append_eq_append_iff.1 heq with ⟨middle, rfl, rfl⟩ | ⟨middle, rfl, rfl⟩
  · -- the cut is in the current group
    by_cases hmiddle : middle = []
    · subst hmiddle
      simpa using h
    by_cases hempty : previous = []
    · subst hempty
      simpa using hcurrent middle back rfl hmiddle hback
    · have hback' := hcurrent middle back rfl hmiddle hback
      exact (h.of_atMost_left hback'.append_atMost hback).append_right hback'
  · -- the cut is in the previous group
    by_cases hmiddle : middle = []
    · subst hmiddle
      simpa using h
    by_cases hempty : current = []
    · subst hempty
      simpa using hprevious front middle rfl hfront hmiddle
    · have hmiddle' := hprevious front middle rfl hfront hmiddle
      exact hmiddle'.append_left (h.of_atMost_right hmiddle'.atMost_append hfront)

theorem groupPass_tight (items : List α) : ∀ group ∈ groupPass w depends items, Tight w group :=
  groupPass_forall (fun _ _ hcurrent hprevious hhigher _ => hcurrent.merge hprevious hhigher)
    fun x _ => tight_singleton x

/-! ## No gain is lost -/

/-- Some groups at the front have at least the gain. -/
def ReachesGain (w : Weighing α) (n d : Int) (groups : List (List α)) (value : Int) : Prop :=
  ∃ front, front <:+ groups ∧ value ≤ w.gain n d front.flatten

variable {n d : Int}

theorem ReachesGain.cons (h : ReachesGain w n d groups value) (group : List α) :
    ReachesGain w n d (group :: groups) value := by
  obtain ⟨front, hfront, hvalue⟩ := h
  exact ⟨front, hfront.trans (List.suffix_cons _ _), hvalue⟩

private theorem gain_between (h : w.Higher current previous)
    (hd : 0 < d) (hprevious : previous ≠ []) (rest : List α) :
    w.gain n d (previous ++ rest) ≤ w.gain n d rest ∨
      w.gain n d (previous ++ rest) ≤ w.gain n d (current ++ (previous ++ rest)) := by
  rcases le_or_gt (w.gain n d previous) 0 with hle | hlt
  · left
    rw [gain_append]
    omega
  · right
    have hcurrent := h.gain_pos hd hprevious hlt.le
    rw [gain_append w n d current]
    omega

theorem insertGroup_reachesGain (hd : 0 < d) (hbefore : ∀ group ∈ before, group ≠ [])
    (h : ReachesGain w n d (current :: before) value) :
    ReachesGain w n d (insertGroup w depends current before) value := by
  induction before generalizing current with
  | nil => exact h
  | cons previous before ih =>
    have hprevious := hbefore previous List.mem_cons_self
    have hrest := (List.forall_mem_cons.mp hbefore).2
    obtain ⟨front, hfront, hvalue⟩ := h
    rw [insertGroup]
    split
    swap
    · exact ⟨front, hfront, hvalue⟩
    rename_i hhigher
    -- all the groups, or none of the two, are left as places to stop
    have hplaces : value ≤ w.gain n d (current ++ (previous ++ before.flatten)) ∨
        ReachesGain w n d before value := by
      rcases List.suffix_cons_iff.1 hfront with rfl | hfront
      · left
        simpa using hvalue
      rcases List.suffix_cons_iff.1 hfront with rfl | hfront
      · rw [List.flatten_cons] at hvalue
        rcases gain_between hhigher hd hprevious before.flatten with hle | hle
        · exact .inr ⟨before, List.suffix_refl _, hvalue.trans hle⟩
        · exact .inl (hvalue.trans hle)
      · exact .inr ⟨front, hfront, hvalue⟩
    split
    · refine ih hrest ?_
      rcases hplaces with hall | hbefore'
      · refine ⟨_, List.suffix_refl _, hall.trans (le_of_eq ?_)⟩
        simp only [List.flatten_cons, gain_append]
        ring
      · exact hbefore'.cons _
    · rcases hplaces with hall | hbefore'
      · refine ⟨_, List.suffix_refl _, hall.trans (le_of_eq ?_)⟩
        have hperm := w.gain_perm n d (@insertGroup_perm _ w depends current before)
        rw [List.flatten_cons, gain_append w n d previous, hperm]
        simp only [gain_append]
        ring
      · exact (ih hrest (hbefore'.cons current)).cons _

/-- At every price the groups reach the gain of every beginning of the sequence. -/
def Dominates (w : Weighing α) (groups : List (List α)) (items : List α) : Prop :=
  ∀ n d, 0 < d → ∀ front, front <+: items → ReachesGain w n d groups (w.gain n d front)

theorem insertGroup_dominates
    (hgroups : ∀ group ∈ groups, group ≠ []) (hperm : groups.flatten.Perm items)
    (h : Dominates w groups items) (x : α) :
    Dominates w (insertGroup w depends [x] groups) (items ++ [x]) := by
  intro n d hd front hfront
  refine insertGroup_reachesGain hd hgroups ?_
  rcases List.prefix_concat_iff.1 hfront with rfl | hfront
  · refine ⟨_, List.suffix_refl _, le_of_eq ?_⟩
    rw [List.flatten_cons, gain_append, gain_append, w.gain_perm n d hperm]
    ring
  · exact (h n d hd front hfront).cons _

theorem foldl_insertGroup_dominates (more : List α)
    (hgroups : ∀ group ∈ groups, group ≠ []) (hperm : groups.flatten.Perm items)
    (h : Dominates w groups items) :
    Dominates w (more.foldl (fun groups x => insertGroup w depends [x] groups) groups)
      (items ++ more) := by
  induction more generalizing groups items with
  | nil => rwa [List.append_nil]
  | cons x more ih =>
    rw [← List.singleton_append, ← List.append_assoc, List.singleton_append, List.foldl_cons]
    refine ih (insertGroup_ne_nil (List.cons_ne_nil _ _) hgroups) ?_
      (insertGroup_dominates hgroups hperm h x)
    exact (insertGroup_perm _ _).trans ((hperm.append_left [x]).trans List.perm_append_comm)

theorem dominates_nil : Dominates w [] [] := by
  intro n d _ front hfront
  rw [List.prefix_nil.1 hfront]
  exact ⟨[], List.suffix_refl _, by simp⟩

theorem groupPass_dominates (items : List α) : Dominates w (groupPass w depends items) items :=
  foldl_insertGroup_dominates items (by simp) (List.Perm.refl _) dominates_nil

/-! ## Order and connection -/

def InOrder (rests : α → α → Prop) (items : List α) : Prop :=
  items.Pairwise fun a b => ¬ rests a b

/-- The test for a dependency between groups finds the items that rest on others. -/
def Detects (depends : List α → List α → Bool) (rests : α → α → Prop) : Prop :=
  ∀ current previous, depends current previous = true ↔ ∃ a ∈ current, ∃ b ∈ previous, rests a b

variable {rests : α → α → Prop}

theorem Detects.not_rests (h : Detects depends rests) (hfalse : ¬ depends current previous = true)
    (ha : a ∈ current) (hb : b ∈ previous) : ¬ rests a b :=
  fun hrests => hfalse ((h current previous).2 ⟨a, ha, b, hb, hrests⟩)

theorem insertGroup_inOrder (hdetects : Detects depends rests)
    (h : InOrder rests (before.reverse.flatten ++ current)) :
    InOrder rests (insertGroup w depends current before).reverse.flatten := by
  induction before generalizing current with
  | nil => simpa [insertGroup] using h
  | cons previous before ih =>
    rw [List.reverse_cons, List.flatten_append, List.flatten_singleton] at h
    rw [insertGroup]
    split
    · split
      · exact ih (by rwa [← List.append_assoc])
      · rename_i hfree
        rw [InOrder, List.append_assoc, List.pairwise_append, List.pairwise_append] at h
        obtain ⟨hbefore, ⟨hprevious, hcurrent, hcross⟩, hacross⟩ := h
        rw [List.reverse_cons, List.flatten_append, List.flatten_singleton]
        refine List.pairwise_append.2 ⟨ih ?_, hprevious, fun a ha b hb => ?_⟩
        · refine List.pairwise_append.2 ⟨hbefore, hcurrent, fun a ha b hb => ?_⟩
          exact hacross a ha b (List.mem_append_right _ hb)
        · have hmem : a ∈ current ++ before.flatten := by
            refine (@insertGroup_perm _ w depends current before).mem_iff.1 ?_
            rw [List.mem_flatten] at ha ⊢
            obtain ⟨group, hgroup, ha⟩ := ha
            exact ⟨group, List.mem_reverse.1 hgroup, ha⟩
          rcases List.mem_append.1 hmem with ha | ha
          · exact hdetects.not_rests hfree ha hb
          · refine hacross a ?_ b (List.mem_append_left _ hb)
            rw [List.mem_flatten] at ha ⊢
            obtain ⟨group, hgroup, ha⟩ := ha
            exact ⟨group, List.mem_reverse.2 hgroup, ha⟩
    · simpa [List.append_assoc] using h

theorem mem_groupPass : a ∈ (groupPass w depends items).reverse.flatten ↔ a ∈ items := by
  rw [(List.reverse_perm _).flatten.mem_iff, (groupPass_perm items).mem_iff]

theorem groupPass_inOrder (hdetects : Detects depends rests)
    (h : InOrder rests items) : InOrder rests (groupPass w depends items).reverse.flatten := by
  induction items using List.reverseRecOn with
  | nil => exact List.Pairwise.nil
  | append_singleton items x ih =>
    obtain ⟨hitems, hx, hcross⟩ := List.pairwise_append.1 h
    rw [groupPass_snoc]
    refine insertGroup_inOrder hdetects (List.pairwise_append.2 ⟨ih hitems, hx, ?_⟩)
    exact fun a ha => hcross a (mem_groupPass.1 ha)

/-- Any two items of the group are joined by items of it of which one rests on the next. -/
def Joined (rests : α → α → Prop) (group : List α) : Prop :=
  ∀ a ∈ group, ∀ b ∈ group,
    Relation.ReflTransGen (fun x y => x ∈ group ∧ y ∈ group ∧ (rests x y ∨ rests y x)) a b

theorem Joined.mono {group larger : List α} (h : Joined rests group) (hsub : group ⊆ larger)
    (ha : a ∈ group) (hb : b ∈ group) :
    Relation.ReflTransGen (fun x y => x ∈ larger ∧ y ∈ larger ∧ (rests x y ∨ rests y x)) a b :=
  Relation.ReflTransGen.mono (fun _ _ ⟨hx, hy, hxy⟩ => ⟨hsub hx, hsub hy, hxy⟩) _ _ (h a ha b hb)

theorem Joined.merge (hcurrent : Joined rests current) (hprevious : Joined rests previous)
    (ha : a ∈ current) (hb : b ∈ previous) (hab : rests a b) :
    Joined rests (previous ++ current) := by
  have hc : current ⊆ previous ++ current := List.subset_append_right _ _
  have hp : previous ⊆ previous ++ current := List.subset_append_left _ _
  intro x hx y hy
  rcases List.mem_append.1 hx with hx | hx <;> rcases List.mem_append.1 hy with hy | hy
  · exact hprevious.mono hp hx hy
  · exact ((hprevious.mono hp hx hb).tail ⟨hp hb, hc ha, .inr hab⟩).trans (hcurrent.mono hc ha hy)
  · exact ((hcurrent.mono hc hx ha).tail ⟨hc ha, hp hb, .inl hab⟩).trans (hprevious.mono hp hb hy)
  · exact hcurrent.mono hc hx hy

theorem groupPass_joined (hdetects : Detects depends rests) (items : List α) :
    ∀ group ∈ groupPass w depends items, Joined rests group := by
  refine groupPass_forall (fun current previous hcurrent hprevious _ hdepends => ?_) ?_
  · obtain ⟨a, ha, b, hb, hab⟩ := (hdetects current previous).1 hdepends
    exact hcurrent.merge hprevious ha hb hab
  · intro x _ a ha b hb
    rw [List.mem_singleton.1 ha, List.mem_singleton.1 hb]

end Pass

end HcsCoin.Foundation
