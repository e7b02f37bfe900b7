import HcsCoin.Foundation.GroupPass

/-!
# What passes over groups achieve

Two properties of the groups that a pass leaves.  An item that stands first but could stand
later loses nothing: the groups reach every gain of the sequence in which it stands later.
And when any two items that rest on a third one are in order themselves, the groups reach
the gain of every set of items that is closed under what its items rest on.
-/

namespace HcsCoin.Foundation

open Weighing

variable {α : Type*} {w : Weighing α} {depends : List α → List α → Bool}
  {rests : α → α → Prop} {n d : Int}

/-! ## The best gain of falling groups -/

def positiveGain (w : Weighing α) (n d : Int) (groups : List (List α)) : Int :=
  (groups.map fun group => max 0 (w.gain n d group)).sum

@[simp] theorem positiveGain_cons (group : List α) (groups : List (List α)) :
    positiveGain w n d (group :: groups) =
      max 0 (w.gain n d group) + positiveGain w n d groups := by
  simp [positiveGain]

variable {groups : List (List α)} {root : α}

private theorem gain_flatten_of_nonneg (h : ∀ group ∈ groups, 0 ≤ w.gain n d group) :
    w.gain n d groups.flatten = positiveGain w n d groups := by
  induction groups with
  | nil => simp [positiveGain]
  | cons group groups ih =>
    rw [List.flatten_cons, gain_append, positiveGain_cons,
      max_eq_right (h group List.mem_cons_self),
      ih (List.forall_mem_cons.mp h).2]

theorem FallingRates.reachesGain (h : FallingRates w groups)
    (hgroups : ∀ group ∈ groups, group ≠ []) (hd : 0 < d) :
    ReachesGain w n d groups (positiveGain w n d groups) := by
  induction groups with
  | nil => exact ⟨[], List.suffix_refl _, by simp [positiveGain]⟩
  | cons group groups ih =>
    obtain ⟨hfirst, hfalling⟩ := List.pairwise_cons.1 h
    have hrest := (List.forall_mem_cons.mp hgroups).2
    rcases le_or_gt (w.gain n d group) 0 with hle | hlt
    · rw [positiveGain_cons, max_eq_left hle, zero_add]
      exact (ih hfalling hrest).cons group
    · refine ⟨_, List.suffix_refl _, le_of_eq (gain_flatten_of_nonneg ?_).symm⟩
      intro other hother
      rcases List.mem_cons.1 hother with rfl | hother
      · exact hlt.le
      · exact (hfirst other hother).gain_nonneg hd (hgroups group List.mem_cons_self) hlt.le

/-! ## An item moved to the front -/

variable {before : List (List α)} {current items previous : List α} {item : α} {S : α → Bool}

def ClosedUnder (rests : α → α → Prop) (S : α → Bool) : Prop :=
  ∀ a b, rests a b → S a = true → S b = true

/-- No closed part of the group has a higher feerate, and one item rests on all of it. -/
structure Solid (w : Weighing α) (rests : α → α → Prop) (group : List α) : Prop where
  atMost : ∀ S, ClosedUnder rests S → w.AtMost (group.filter S) group
  exists_root : ∃ root ∈ group, ∀ x ∈ group, rests root x

/-- A group on its way, in which one item rests on all others: the closed parts without it
have no higher feerates than the groups before. -/
structure Growing (w : Weighing α) (rests : α → α → Prop) (root : α) (current : List α)
    (before : List (List α)) : Prop where
  mem_root : root ∈ current
  rests_root : ∀ x ∈ current, rests root x
  atMost_before : ∀ S, ClosedUnder rests S → S root = false → ∀ group ∈ before,
    w.AtMost (current.filter S) group
  atMost_self : ∀ S, ClosedUnder rests S → S root = false → w.AtMost (current.filter S) current

theorem Growing.solid (h : Growing w rests root current before) : Solid w rests current where
  atMost S hS := by
    cases hroot : S root with
    | false => exact h.atMost_self S hS hroot
    | true =>
      rw [List.filter_eq_self.2 fun x hx => hS root x (h.rests_root x hx) hroot]
      exact AtMost.refl _
  exists_root := ⟨root, h.mem_root, h.rests_root⟩

def Chained (rests : α → α → Prop) : Prop :=
  ∀ a b c, rests a c → rests b c → rests a b ∨ rests b a

theorem Growing.merge [IsTrans α rests] (hchained : Chained rests)
    (hdetects : Detects depends rests) (h : Growing w rests root current (previous :: before))
    (hprevious : Solid w rests previous) (hlast : ∀ x ∈ previous, ¬ rests x root)
    (hfalling : ∀ group ∈ before, w.AtMost previous group) (hhigher : w.Higher current previous)
    (hdepends : depends current previous = true) :
    Growing w rests root (previous ++ current) before := by
  obtain ⟨low, hlow, hrests⟩ := hprevious.exists_root
  have hne : previous ≠ [] := List.ne_nil_of_mem hlow
  obtain ⟨a, ha, b, hb, hab⟩ := (hdetects current previous).1 hdepends
  have hrootlow : rests root low :=
    (hchained root low b (IsTrans.trans _ _ _ (h.rests_root a ha) hab) (hrests b hb)).resolve_right
      (hlast low hlow)
  -- a closed part has no higher feerate than the previous group
  have hpart : ∀ S, ClosedUnder rests S → S root = false →
      w.AtMost ((previous ++ current).filter S) previous := by
    intro S hS hroot
    rw [List.filter_append]
    exact (hprevious.atMost S hS).append_left (h.atMost_before S hS hroot previous List.mem_cons_self)
  refine ⟨List.mem_append_right _ h.mem_root, fun x hx => ?_, fun S hS hroot group hgroup => ?_,
    fun S hS hroot => ?_⟩
  · rcases List.mem_append.1 hx with hx | hx
    · exact IsTrans.trans _ _ _ hrootlow (hrests x hx)
    · exact h.rests_root x hx
  · exact (hpart S hS hroot).trans (hfalling group hgroup) hne
  · exact (hpart S hS hroot).trans hhigher.atMost_append hne

theorem Growing.tail (h : Growing w rests root current (previous :: before)) :
    Growing w rests root current before :=
  ⟨h.mem_root, h.rests_root,
    fun S hS hroot group hgroup => h.atMost_before S hS hroot group (List.mem_cons_of_mem _ hgroup),
    h.atMost_self⟩

theorem insertGroup_solid [IsTrans α rests] (hchained : Chained rests)
    (hdetects : Detects depends rests) (h : Growing w rests root current before)
    (hbefore : ∀ group ∈ before, Solid w rests group)
    (hlast : ∀ x ∈ before.flatten, ¬ rests x root) (hfalling : FallingRates w before) :
    ∀ group ∈ insertGroup w depends current before, Solid w rests group := by
  induction before generalizing current with
  | nil => simpa [insertGroup] using h.solid
  | cons previous before ih =>
    obtain ⟨hfirst, hfalling'⟩ := List.pairwise_cons.1 hfalling
    have hprevious := hbefore previous List.mem_cons_self
    have hrest := (List.forall_mem_cons.mp hbefore).2
    have hlast' : ∀ x ∈ before.flatten, ¬ rests x root := fun x hx =>
      hlast x (by rw [List.flatten_cons]; exact List.mem_append_right _ hx)
    rw [insertGroup]
    split
    · split
      · refine ih (h.merge hchained hdetects hprevious ?_ hfirst ‹_› ‹_›) hrest hlast' hfalling'
        exact fun x hx => hlast x (by rw [List.flatten_cons]; exact List.mem_append_left _ hx)
      · intro group hgroup
        rcases List.mem_cons.1 hgroup with rfl | hgroup
        exacts [hprevious, ih h.tail hrest hlast' hfalling' group hgroup]
    · intro group hgroup
      rcases List.mem_cons.1 hgroup with rfl | hgroup
      exacts [h.solid, hbefore group hgroup]

theorem groupPass_solid [IsTrans α rests] (hchained : Chained rests)
    (hdetects : Detects depends rests) (hrefl : ∀ x ∈ items, rests x x)
    (horder : InOrder rests items) : ∀ group ∈ groupPass w depends items, Solid w rests group := by
  induction items using List.reverseRecOn with
  | nil => simp [groupPass]
  | append_singleton items x ih =>
    obtain ⟨hitems, _, hcross⟩ := List.pairwise_append.1 horder
    have hsingle : ∀ S : α → Bool, S x = false → [x].filter S = [] := fun S hS => by simp [hS]
    have hgrowing : Growing w rests x [x] (groupPass w depends items) := by
      refine ⟨List.mem_singleton_self x, fun y hy => ?_, fun S _ hS group _ => ?_, fun S _ hS => ?_⟩
      · rw [List.mem_singleton.1 hy]
        exact hrefl x (List.mem_append_right _ (List.mem_singleton_self x))
      · rw [hsingle S hS]
        exact atMost_nil group
      · rw [hsingle S hS]
        exact atMost_nil _
    rw [groupPass_snoc]
    refine insertGroup_solid hchained hdetects hgrowing
      (ih (fun y hy => hrefl y (List.mem_append_left _ hy)) hitems) (fun y hy => ?_)
      (groupPass_falling items)
    exact hcross y ((groupPass_perm items).mem_iff.1 hy) x (List.mem_singleton_self x)

theorem Solid.gain_filter_le {group : List α} (h : Solid w rests group) (hS : ClosedUnder rests S)
    (hd : 0 < d) : w.gain n d (group.filter S) ≤ max 0 (w.gain n d group) := by
  have hsplit : w.gain n d group =
      w.gain n d (group.filter S) + w.gain n d (group.filter fun x => !S x) := by
    rw [← gain_append]
    exact w.gain_perm n d (List.filter_append_perm S group).symm
  rcases le_or_gt (w.gain n d (group.filter S)) 0 with hle | hlt
  · exact hle.trans (le_max_left _ _)
  · have hne : group.filter S ≠ [] := fun hnil => by
      rw [hnil, gain_nil] at hlt
      exact absurd hlt (lt_irrefl 0)
    -- the rest of the group has no lower feerate
    have hrest : w.AtMost (group.filter S) (group.filter fun x => !S x) := by
      have hatMost := h.atMost S hS
      have hfee := w.feeSum_perm (List.filter_append_perm S group)
      have hsize := w.sizeSum_perm (List.filter_append_perm S group)
      rw [feeSum_append] at hfee
      rw [sizeSum_append] at hsize
      rw [AtMost, ← hfee, ← hsize] at hatMost
      rw [AtMost]
      linarith [hatMost]
    have hgain := hrest.gain_nonneg hd hne hlt.le
    exact le_max_of_le_right (by omega)

theorem groupPass_reachesGain_closed [IsTrans α rests] (hchained : Chained rests)
    (hdetects : Detects depends rests) (hrefl : ∀ x ∈ items, rests x x)
    (horder : InOrder rests items) (hS : ClosedUnder rests S) (hd : 0 < d) :
    ReachesGain w n d (groupPass w depends items) (w.gain n d (items.filter S)) := by
  have hsolid := @groupPass_solid _ w depends _ items _ hchained hdetects hrefl horder
  obtain ⟨front, hfront, hvalue⟩ := @FallingRates.reachesGain _ w n d _ (groupPass_falling items)
    (@groupPass_ne_nil _ w depends items) hd
  refine ⟨front, hfront, le_trans ?_ hvalue⟩
  rw [← w.gain_perm n d ((@groupPass_perm _ w depends items).filter S)]
  generalize groupPass w depends items = groups at hsolid
  induction groups with
  | nil => simp [positiveGain]
  | cons group groups ih =>
    rw [List.flatten_cons, List.filter_append, gain_append, positiveGain_cons]
    exact add_le_add ((hsolid group List.mem_cons_self).gain_filter_le hS hd)
      (ih (List.forall_mem_cons.mp hsolid).2)

end HcsCoin.Foundation
