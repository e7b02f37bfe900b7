import Mathlib.Data.List.Nodup

/-!
# Chains of pointers

A list of nodes each of which points to the next one, the last one to a given end.  The
lemmas say how a chain changes when a node is taken out, put in or swapped with the one
after it, by the changes to the pointers that do so.
-/

namespace HcsCoin.Foundation

variable {ι : Type*} {next next' : ι → ι} {front back nodes : List ι} {stop : ι}

def PointerChain (next : ι → ι) : List ι → ι → Prop
  | [], _ => True
  | node :: nodes, stop => next node = nodes.headD stop ∧ PointerChain next nodes stop

theorem pointerChain_append :
    PointerChain next (front ++ back) stop ↔
      PointerChain next front (back.headD stop) ∧ PointerChain next back stop := by
  induction front with
  | nil => simp [PointerChain]
  | cons node front ih =>
    rw [List.cons_append, PointerChain, PointerChain, ih, and_assoc]
    cases front <;> rfl

theorem PointerChain.congr (h : PointerChain next nodes stop)
    (hagree : ∀ node ∈ nodes, next' node = next node) : PointerChain next' nodes stop := by
  induction nodes with
  | nil => trivial
  | cons node nodes ih =>
    exact ⟨(hagree node List.mem_cons_self).trans h.1, ih h.2 (List.forall_mem_cons.mp hagree).2⟩

theorem PointerChain.redirect {node stop' : ι} (h : PointerChain next (front ++ [node]) stop)
    (hagree : ∀ other ∈ front, next' other = next other) (hnode : next' node = stop') :
    PointerChain next' (front ++ [node]) stop' := by
  rw [pointerChain_append] at h ⊢
  exact ⟨h.1.congr hagree, hnode, trivial⟩

theorem PointerChain.takeOut {node gone : ι}
    (h : PointerChain next (front ++ node :: gone :: back) stop)
    (hnode : next' node = next gone)
    (hagree : ∀ other ∈ front ++ back, next' other = next other) :
    PointerChain next' (front ++ node :: back) stop := by
  rw [pointerChain_append] at h ⊢
  rw [List.forall_mem_append] at hagree
  obtain ⟨hfront, _, hgone, hback⟩ := h
  exact ⟨hfront.congr hagree.1, hnode.trans hgone, hback.congr hagree.2⟩

theorem PointerChain.putIn {node new : ι} (h : PointerChain next (front ++ node :: back) stop)
    (hnode : next' node = new) (hnew : next' new = next node)
    (hagree : ∀ other ∈ front ++ back, next' other = next other) :
    PointerChain next' (front ++ node :: new :: back) stop := by
  rw [pointerChain_append] at h ⊢
  rw [List.forall_mem_append] at hagree
  obtain ⟨hfront, hnext, hback⟩ := h
  exact ⟨hfront.congr hagree.1, hnode, hnew.trans hnext, hback.congr hagree.2⟩

theorem PointerChain.swap {node first second : ι}
    (h : PointerChain next (front ++ node :: first :: second :: back) stop)
    (hnode : next' node = second) (hsecond : next' second = first)
    (hfirst : next' first = next second)
    (hagree : ∀ other ∈ front ++ back, next' other = next other) :
    PointerChain next' (front ++ node :: second :: first :: back) stop := by
  rw [pointerChain_append] at h ⊢
  rw [List.forall_mem_append] at hagree
  obtain ⟨hfront, _, _, hnext, hback⟩ := h
  exact ⟨hfront.congr hagree.1, hnode, hsecond, hfirst.trans hnext, hback.congr hagree.2⟩

end HcsCoin.Foundation
