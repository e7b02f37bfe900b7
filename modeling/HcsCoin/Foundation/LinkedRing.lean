import Mathlib.Data.List.Nodup

/-!
# Intrusive doubly linked rings

The links of a circular doubly linked list with a sentinel, as two functions on
nodes: `none` is the sentinel and `some k` the node of the key `k`.  Only the
links of nodes in the ring mean anything.  `Holds r xs` says that the ring leads
from the sentinel through the keys `xs`, each once, and back.
-/

namespace HcsCoin.Foundation

structure LinkedRing (κ : Type*) where
  next : Option κ → Option κ
  prev : Option κ → Option κ

namespace LinkedRing

variable {κ : Type*} [DecidableEq κ]

def empty : LinkedRing κ := ⟨fun _ => none, fun _ => none⟩

def pushBack (r : LinkedRing κ) (k : κ) : LinkedRing κ where
  next := Function.update (Function.update r.next (some k) none) (r.prev none) (some k)
  prev := Function.update (Function.update r.prev (some k) (r.prev none)) none (some k)

def unlink (r : LinkedRing κ) (k : κ) : LinkedRing κ where
  next := Function.update r.next (r.prev (some k)) (r.next (some k))
  prev := Function.update r.prev (r.next (some k)) (r.prev (some k))

def walk (r : LinkedRing κ) : Nat → Option κ → List κ
  | 0, _ => []
  | count + 1, node =>
    match r.next node with
    | none => []
    | some k => k :: walk r count (some k)

omit [DecidableEq κ] in
/-- The links from `node` through `xs` to the sentinel, in both directions. -/
def Chain (r : LinkedRing κ) : Option κ → List κ → Prop
  | node, [] => r.next node = none ∧ r.prev none = node
  | node, k :: ks => r.next node = some k ∧ r.prev (some k) = node ∧ Chain r (some k) ks

structure Holds (r : LinkedRing κ) (xs : List κ) : Prop where
  nodup : xs.Nodup
  chain : r.Chain none xs

variable {r r' : LinkedRing κ} {node : Option κ} {xs : List κ} {k : κ}

omit [DecidableEq κ] in
theorem holds_empty : Holds (empty : LinkedRing κ) [] := ⟨List.nodup_nil, rfl, rfl⟩

omit [DecidableEq κ] in
theorem Chain.congr (h : r.Chain node xs) (hnext : ∀ a ∈ node :: xs.map some, r'.next a = r.next a)
    (hprev : ∀ a ∈ none :: xs.map some, r'.prev a = r.prev a) : r'.Chain node xs := by
  induction xs generalizing node with
  | nil =>
    exact ⟨(hnext node List.mem_cons_self).trans h.1, (hprev none List.mem_cons_self).trans h.2⟩
  | cons j js ih =>
    obtain ⟨hfirst, hback, hrest⟩ := h
    refine ⟨(hnext node List.mem_cons_self).trans hfirst, (hprev _ (by simp)).trans hback,
      ih hrest (List.forall_mem_cons.mp hnext).2 fun a ha => hprev a ?_⟩
    rcases List.mem_cons.mp ha with rfl | ha
    · exact List.mem_cons_self
    · exact List.mem_cons_of_mem _ (List.mem_cons_of_mem _ ha)

omit [DecidableEq κ] in
theorem Chain.prev_none_mem (h : r.Chain node xs) : r.prev none ∈ node :: xs.map some := by
  induction xs generalizing node with
  | nil => simp [h.2]
  | cons j js ih => exact List.mem_cons_of_mem _ (ih h.2.2)

omit [DecidableEq κ] in
theorem Chain.links_mem (h : r.Chain node xs) (hk : k ∈ xs) :
    r.prev (some k) ∈ node :: xs.map some ∧ r.next (some k) ∈ none :: xs.map some := by
  induction xs generalizing node with
  | nil => cases hk
  | cons j js ih =>
    obtain ⟨hfirst, hback, hrest⟩ := h
    rcases List.mem_cons.mp hk with rfl | hk
    case inl =>
      refine ⟨by simp [hback], ?_⟩
      cases js with
      | nil => simp [hrest.1]
      | cons i is => simp [hrest.1]
    case inr =>
      obtain ⟨hprev, hnext⟩ := ih hrest hk
      refine ⟨List.mem_cons_of_mem _ hprev, ?_⟩
      rcases List.mem_cons.mp hnext with hnext | hnext
      · simp [hnext]
      · exact List.mem_cons_of_mem _ (List.mem_cons_of_mem _ hnext)

omit [DecidableEq κ] in
theorem Chain.there_and_back (h : r.Chain node xs) (hk : k ∈ xs) :
    r.prev (r.next (some k)) = some k ∧ r.next (r.prev (some k)) = some k := by
  induction xs generalizing node with
  | nil => cases hk
  | cons j js ih =>
    obtain ⟨hfirst, hback, hrest⟩ := h
    rcases List.mem_cons.mp hk with rfl | hk
    case inl =>
      refine ⟨?_, by rw [hback, hfirst]⟩
      cases js with
      | nil => rw [hrest.1, hrest.2]
      | cons i is => rw [hrest.1, hrest.2.1]
    case inr => exact ih hrest hk

variable {a : Option κ}

theorem pushBack_next_of_ne (hlast : a ≠ r.prev none) (hk : a ≠ some k) :
    (r.pushBack k).next a = r.next a := by
  simp [LinkedRing.pushBack, hlast, hk]

theorem pushBack_prev_of_ne (hnone : a ≠ none) (hk : a ≠ some k) :
    (r.pushBack k).prev a = r.prev a := by
  simp [LinkedRing.pushBack, hnone, hk]

theorem unlink_next_of_ne (h : a ≠ r.prev (some k)) : (r.unlink k).next a = r.next a := by
  simp [LinkedRing.unlink, h]

theorem unlink_prev_of_ne (h : a ≠ r.next (some k)) : (r.unlink k).prev a = r.prev a := by
  simp [LinkedRing.unlink, h]

theorem Chain.pushBack (h : r.Chain node xs) (hnodup : (node :: xs.map some).Nodup)
    (hk : some k ∉ node :: xs.map some) : (r.pushBack k).Chain node (xs ++ [k]) := by
  induction xs generalizing node with
  | nil =>
    obtain ⟨-, rfl⟩ := h
    have hne : some k ≠ r.prev none := by simpa using hk
    exact ⟨by simp [LinkedRing.pushBack], by simp [LinkedRing.pushBack],
      by simp [LinkedRing.pushBack, Function.update_of_ne hne], by simp [LinkedRing.pushBack]⟩
  | cons j js ih =>
    obtain ⟨hfirst, hback, hrest⟩ := h
    obtain ⟨hnode, hnodup⟩ := List.nodup_cons.mp hnodup
    have hlast : node ≠ r.prev none := fun heq => hnode (heq ▸ hrest.prev_none_mem)
    have hnode' : node ≠ some k := fun heq => hk (heq ▸ List.mem_cons_self)
    have hj : some j ≠ some k := fun heq => hk (by simp [← heq])
    refine ⟨?_, ?_, ih hrest hnodup fun hmem => hk (List.mem_cons_of_mem _ hmem)⟩
    · rw [pushBack_next_of_ne hlast hnode', hfirst]
    · rw [pushBack_prev_of_ne (by simp) hj, hback]

theorem Chain.unlink (h : r.Chain node xs) (hnodup : (none :: xs.map some).Nodup)
    (hnode : node ∉ xs.map some) (hk : k ∈ xs) : (r.unlink k).Chain node (xs.erase k) := by
  induction xs generalizing node with
  | nil => cases hk
  | cons j js ih =>
    obtain ⟨hfirst, hback, hrest⟩ := h
    have hnone : none ∉ js.map some := by simp
    obtain ⟨hj, hjs⟩ := List.nodup_cons.mp (List.nodup_cons.mp hnodup).2
    by_cases hjk : j = k
    case pos =>
      subst hjk
      rw [List.erase_cons_head]
      cases js with
      | nil =>
        exact ⟨by simp [LinkedRing.unlink, hback, hrest.1],
          by simp [LinkedRing.unlink, hback, hrest.1]⟩
      | cons i is =>
        obtain ⟨hnext, hprev, hrest⟩ := hrest
        obtain ⟨hi, -⟩ := List.nodup_cons.mp hjs
        refine ⟨by simp [LinkedRing.unlink, hback, hnext], by simp [LinkedRing.unlink, hback, hnext],
          hrest.congr (fun a ha => ?_) fun a ha => ?_⟩
        · have hne : a ≠ node := fun heq => hnode (heq ▸ List.mem_cons_of_mem _ ha)
          exact unlink_next_of_ne (hback ▸ hne)
        · have hne : a ≠ some i := by
            rintro rfl
            rcases List.mem_cons.mp ha with heq | hmem
            · cases heq
            · exact hi hmem
          exact unlink_prev_of_ne (hnext ▸ hne)
    case neg =>
      rw [List.erase_cons_tail (by simpa using hjk)]
      have hk' : k ∈ js := (List.mem_cons.mp hk).resolve_left (Ne.symm hjk)
      obtain ⟨hprev, hnext⟩ := hrest.links_mem hk'
      have hne : node ≠ r.prev (some k) := fun heq => hnode (heq ▸ hprev)
      have hne' : some j ≠ r.next (some k) := by
        intro heq
        rw [← heq] at hnext
        rcases List.mem_cons.mp hnext with heq | hmem
        · cases heq
        · exact hj hmem
      refine ⟨?_, ?_, ih hrest (List.nodup_cons.mpr ⟨hnone, hjs⟩) hj hk'⟩
      · rw [unlink_next_of_ne hne, hfirst]
      · rw [unlink_prev_of_ne hne', hback]

omit [DecidableEq κ] in
private theorem nodup_nodes (h : xs.Nodup) : (none :: xs.map some).Nodup :=
  List.nodup_cons.mpr ⟨by simp, h.map fun _ _ => Option.some.inj⟩

theorem Holds.pushBack (h : r.Holds xs) (hk : k ∉ xs) : (r.pushBack k).Holds (xs ++ [k]) := by
  refine ⟨?_, h.chain.pushBack (nodup_nodes h.nodup) (by simpa using hk)⟩
  exact List.nodup_append.mpr ⟨h.nodup, List.nodup_singleton k, by
    rintro a ha b hb rfl
    rw [List.mem_singleton] at hb
    exact hk (hb ▸ ha)⟩

theorem Holds.unlink (h : r.Holds xs) (hk : k ∈ xs) : (r.unlink k).Holds (xs.erase k) :=
  ⟨h.nodup.erase k, h.chain.unlink (nodup_nodes h.nodup) (by simp) hk⟩

omit [DecidableEq κ] in
theorem Chain.next_eq (h : r.Chain node xs) : r.next node = xs.head? := by
  cases xs with
  | nil => exact h.1
  | cons j js => exact h.1

omit [DecidableEq κ] in
theorem Chain.walk_eq (h : r.Chain node xs) {count : Nat} (hcount : xs.length ≤ count) :
    r.walk count node = xs := by
  induction xs generalizing node count with
  | nil =>
    cases count with
    | zero => rfl
    | succ count => rw [walk, h.1]
  | cons j js ih =>
    obtain ⟨hfirst, -, hrest⟩ := h
    obtain ⟨count, rfl⟩ := Nat.exists_eq_add_of_le' (Nat.zero_lt_of_lt hcount)
    rw [walk, hfirst]
    exact congrArg (j :: ·) (ih hrest (Nat.le_of_succ_le_succ hcount))

end LinkedRing

end HcsCoin.Foundation
