import Mathlib.Data.List.NodupEquivFin

/-!
# Matching two lists in order

Each element of one list has to be matched with an element of another, in the
order of both.  Taking every match as soon as it is offered loses nothing.
-/

namespace HcsCoin.Foundation

variable {α β : Type}

def greedyMatch (valid : α → β → Bool) : List α → List β → Bool
  | [], _ => true
  | _ :: _, [] => false
  | x :: xs, y :: ys => if valid x y then greedyMatch valid xs ys else greedyMatch valid (x :: xs) ys

variable {valid : α → β → Bool} {x : α} {xs : List α} {y : β} {ys : List β}

theorem greedyMatch_of_valid (h : valid x y = true) :
    greedyMatch valid (x :: xs) (y :: ys) = greedyMatch valid xs ys := by
  rw [greedyMatch, if_pos h]

theorem greedyMatch_of_not_valid (h : valid x y = false) :
    greedyMatch valid (x :: xs) (y :: ys) = greedyMatch valid (x :: xs) ys := by
  rw [greedyMatch, h]
  rfl

private theorem sublistForall₂_of_cons {R : α → β → Prop}
    (h : List.SublistForall₂ R (x :: xs) ys) : List.SublistForall₂ R xs ys := by
  induction ys with
  | nil => cases h
  | cons y ys ih =>
    cases h with
    | cons _ htail => exact .cons_right htail
    | cons_right hrest => exact .cons_right (ih hrest)

theorem greedyMatch_iff :
    greedyMatch valid xs ys = true ↔ List.SublistForall₂ (fun x y => valid x y = true) xs ys := by
  induction ys generalizing xs with
  | nil =>
    cases xs with
    | nil => exact iff_of_true rfl .nil
    | cons x xs => exact iff_of_false nofun nofun
  | cons y ys ih =>
    cases xs with
    | nil => exact iff_of_true rfl .nil
    | cons x xs =>
      by_cases hxy : valid x y = true
      · rw [greedyMatch_of_valid hxy, ih]
        constructor
        · exact fun h => .cons hxy h
        · intro h
          cases h with
          | cons _ htail => exact htail
          | cons_right hrest => exact sublistForall₂_of_cons hrest
      · rw [greedyMatch_of_not_valid (Bool.eq_false_iff.mpr hxy), ih]
        constructor
        · exact fun h => .cons_right h
        · intro h
          cases h with
          | cons hvalid _ => exact absurd hvalid hxy
          | cons_right hrest => exact hrest

theorem length_le_of_greedyMatch (h : greedyMatch valid xs ys = true) : xs.length ≤ ys.length := by
  obtain ⟨zs, hzs, hsub⟩ := List.sublistForall₂_iff.mp (greedyMatch_iff.mp h)
  rw [hzs.length_eq]
  exact hsub.length_le

/-- A greedy match exists exactly where some strictly increasing choice of positions matches
every element. -/
theorem greedyMatch_iff_strictMono :
    greedyMatch valid xs ys = true ↔
      ∃ f : Fin xs.length → Fin ys.length, StrictMono f ∧
        ∀ i, valid (xs.get i) (ys.get (f i)) = true := by
  rw [greedyMatch_iff, List.sublistForall₂_iff]
  constructor
  · rintro ⟨zs, hzs, hsub⟩
    obtain ⟨f, hf⟩ := List.sublist_iff_exists_fin_orderEmbedding_get_eq.mp hsub
    have hlength := hzs.length_eq
    refine ⟨fun i => f (i.cast hlength), fun i j hij => f.strictMono hij, fun i => ?_⟩
    rw [← hf]
    exact hzs.get i.isLt (hlength ▸ i.isLt)
  · rintro ⟨f, hf, hvalid⟩
    refine ⟨List.ofFn fun i => ys.get (f i), ?_, ?_⟩
    · rw [List.forall₂_iff_get]
      refine ⟨List.length_ofFn.symm, fun i hi hi' => ?_⟩
      simpa using hvalid ⟨i, hi⟩
    · rw [List.sublist_iff_exists_fin_orderEmbedding_get_eq]
      refine ⟨(Fin.castOrderIso List.length_ofFn).toOrderEmbedding.trans
        (OrderEmbedding.ofStrictMono f hf), fun i => ?_⟩
      simp
      rfl

end HcsCoin.Foundation
