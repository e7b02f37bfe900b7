import Mathlib.Data.List.Pairwise

/-!
# Items that depend on earlier ones

Items are listed latest first, and none depends on itself or on a later one, so
that one pass over the list finds everything an item depends on.
-/

namespace HcsCoin.Foundation

open Relation

variable {α : Type} {depends : α → α → Bool} {x y : α} {xs wanted : List α}

/-- The items that some of `wanted` depend on, directly or through other items. -/
def collect (depends : α → α → Bool) : List α → List α → List α
  | [], _ => []
  | x :: xs, wanted =>
    if wanted.any (depends · x) then x :: collect depends xs (x :: wanted)
    else collect depends xs wanted

structure LatestFirst (depends : α → α → Bool) (xs : List α) : Prop where
  later : xs.Pairwise fun later earlier => ¬ depends earlier later = true
  self : ∀ x ∈ xs, ¬ depends x x = true

def Among (depends : α → α → Bool) (xs : List α) (x y : α) : Prop :=
  x ∈ xs ∧ y ∈ xs ∧ depends x y = true

theorem LatestFirst.not_among_self (h : LatestFirst depends xs) (x : α) :
    ¬ Among depends xs x x := fun hedge => h.self x hedge.1 hedge.2.2

theorem LatestFirst.sublist {ys : List α} (h : LatestFirst depends xs) (hsub : ys.Sublist xs) :
    LatestFirst depends ys :=
  ⟨h.later.sublist hsub, fun x hx => h.self x (hsub.subset hx)⟩

theorem LatestFirst.not_depends_head (h : LatestFirst depends (x :: xs))
    (hy : y ∈ x :: xs) : ¬ depends y x = true := by
  obtain rfl | hy := List.mem_cons.mp hy
  · exact h.self y List.mem_cons_self
  · exact (List.pairwise_cons.mp h.later).1 y hy

private def Into (depends : α → α → Bool) (xs : List α) (x y : α) : Prop :=
  y ∈ xs ∧ depends x y = true

private theorem mem_of_transGen (hreach : TransGen (Into depends xs) x y) : y ∈ xs := by
  cases hreach with
  | single hstep => exact hstep.1
  | tail _ hstep => exact hstep.1

private theorem LatestFirst.reaches_cons (h : LatestFirst depends (x :: xs)) {a : α}
    (hreach : TransGen (Into depends (x :: xs)) a y) :
    (depends a x = true ∧ (y = x ∨ TransGen (Into depends xs) x y)) ∨
      TransGen (Into depends xs) a y := by
  induction hreach with
  | single hstep =>
    obtain ⟨hy, hdepends⟩ := hstep
    obtain rfl | hy := List.mem_cons.mp hy
    · exact .inl ⟨hdepends, .inl rfl⟩
    · exact .inr (.single ⟨hy, hdepends⟩)
  | tail hreach hstep ih =>
    obtain ⟨hmem, hdepends⟩ := hstep
    obtain rfl | hy := List.mem_cons.mp hmem
    · -- nothing that was reached depends on the latest item
      exact absurd hdepends (h.not_depends_head (mem_of_transGen hreach))
    · obtain ⟨ha, heq | hx⟩ | ha := ih
      · exact .inl ⟨ha, .inr (.single ⟨hy, heq ▸ hdepends⟩)⟩
      · exact .inl ⟨ha, .inr (hx.tail ⟨hy, hdepends⟩)⟩
      · exact .inr (ha.tail ⟨hy, hdepends⟩)

private theorem mem_collect_iff (h : LatestFirst depends xs) :
    y ∈ collect depends xs wanted ↔ ∃ a ∈ wanted, TransGen (Into depends xs) a y := by
  induction xs generalizing wanted with
  | nil =>
    refine iff_of_false List.not_mem_nil ?_
    rintro ⟨a, -, hreach⟩
    exact List.not_mem_nil (mem_of_transGen hreach)
  | cons x xs ih =>
    have hmono : TransGen (Into depends xs) ≤ TransGen (Into depends (x :: xs)) :=
      TransGen.mono fun _ _ hstep => ⟨List.mem_cons_of_mem _ hstep.1, hstep.2⟩
    have hxs := h.sublist (List.sublist_cons_self x xs)
    rw [collect]
    split
    case isTrue hany =>
      obtain ⟨a, ha, hdepends⟩ := List.any_eq_true.mp hany
      have hx : TransGen (Into depends (x :: xs)) a x := .single ⟨List.mem_cons_self, hdepends⟩
      rw [List.mem_cons, ih hxs]
      constructor
      · rintro (rfl | ⟨b, hb, hreach⟩)
        · exact ⟨a, ha, hx⟩
        · obtain rfl | hb := List.mem_cons.mp hb
          · exact ⟨a, ha, hx.trans (hmono _ _ hreach)⟩
          · exact ⟨b, hb, hmono _ _ hreach⟩
      · rintro ⟨b, hb, hreach⟩
        obtain ⟨-, rfl | hx⟩ | hreach := h.reaches_cons hreach
        · exact .inl rfl
        · exact .inr ⟨x, List.mem_cons_self, hx⟩
        · exact .inr ⟨b, List.mem_cons_of_mem _ hb, hreach⟩
    case isFalse hany =>
      rw [ih hxs]
      refine exists_congr fun a => and_congr_right fun ha => ⟨hmono _ _, fun hreach => ?_⟩
      obtain ⟨hdepends, -⟩ | hreach := h.reaches_cons hreach
      · exact absurd (List.any_eq_true.mpr ⟨a, ha, hdepends⟩) hany
      · exact hreach

theorem LatestFirst.mem_collect (h : LatestFirst depends xs) (hx : x ∈ xs) :
    y ∈ collect depends xs [x] ↔ TransGen (Among depends xs) x y := by
  rw [mem_collect_iff h]
  simp only [List.mem_singleton, exists_eq_left]
  constructor
  · intro hreach
    induction hreach with
    | single hstep => exact .single ⟨hx, hstep⟩
    | tail hreach hstep ih => exact ih.tail ⟨mem_of_transGen hreach, hstep⟩
  · exact TransGen.mono (fun _ _ hstep => hstep.2) x y

/-- At most one item is reached if nothing lies beyond the only neighbour. -/
private theorem transGen_subsingleton_iff {r : α → α → Prop} (hself : ∀ x, ¬ r x x) :
    (∀ a b, TransGen r x a → TransGen r x b → a = b) ↔
      (∀ a b, r x a → r x b → a = b) ∧ ∀ a b, r x a → ¬ r a b := by
  constructor
  · intro h
    refine ⟨fun a b ha hb => h a b (.single ha) (.single hb), fun a b ha hb => ?_⟩
    obtain rfl := h a b (.single ha) (.tail (.single ha) hb)
    exact hself a hb
  · rintro ⟨hone, hend⟩ a b ha hb
    have hsingle : ∀ c, TransGen r x c → r x c := fun c hc => by
      induction hc with
      | single hstep => exact hstep
      | tail _ hstep ih => exact absurd hstep (hend _ _ ih)
    exact hone a b (hsingle a ha) (hsingle b hb)

theorem LatestFirst.ancestor_unique_iff (h : LatestFirst depends xs) :
    (∀ a b, TransGen (Among depends xs) x a → TransGen (Among depends xs) x b → a = b) ↔
      (∀ a b, Among depends xs x a → Among depends xs x b → a = b) ∧
        ∀ a b, Among depends xs x a → ¬ Among depends xs a b :=
  transGen_subsingleton_iff h.not_among_self

theorem LatestFirst.descendant_unique_iff (h : LatestFirst depends xs) :
    (∀ a b, TransGen (Among depends xs) a x → TransGen (Among depends xs) b x → a = b) ↔
      (∀ a b, Among depends xs a x → Among depends xs b x → a = b) ∧
        ∀ a b, Among depends xs a x → ¬ Among depends xs b a := by
  simpa only [transGen_swap] using
    transGen_subsingleton_iff (r := Function.swap (Among depends xs)) h.not_among_self

end HcsCoin.Foundation
