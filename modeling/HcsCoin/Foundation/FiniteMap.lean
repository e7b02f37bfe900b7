import Mathlib.Algebra.BigOperators.Finprod
import Mathlib.Data.List.AList

/-!
# Finite maps and sums over their values

Association lists with one entry for each key, the sum of a measure over the
entries, and how it changes when one entry is written or erased; the same for
functions of finite support.
-/

namespace HcsCoin.Foundation

abbrev FiniteMap (κ ν : Type*) := AList fun _ : κ => ν

namespace FiniteMap

variable {κ ν : Type*}

def total (f : ν → Nat) (m : FiniteMap κ ν) : Nat := (m.entries.map fun entry => f entry.2).sum

@[simp] theorem total_empty (f : ν → Nat) : total f (∅ : FiniteMap κ ν) = 0 := rfl

variable [DecidableEq κ] {f : ν → Nat} {m : FiniteMap κ ν} {k k' : κ} {v : ν}

theorem lookup_insert_eq (m : FiniteMap κ ν) (k k' : κ) (v : ν) :
    (m.insert k v).lookup k' = if k' = k then some v else m.lookup k' := by
  split
  case isTrue h => rw [h, AList.lookup_insert]
  case isFalse h => exact AList.lookup_insert_ne h

theorem lookup_erase_eq (m : FiniteMap κ ν) (k k' : κ) :
    (m.erase k).lookup k' = if k' = k then none else m.lookup k' := by
  split
  case isTrue h => rw [h, AList.lookup_erase]
  case isFalse h => exact AList.lookup_erase_ne h

theorem erase_of_lookup_none (h : m.lookup k = none) : m.erase k = m := by
  apply AList.ext
  exact List.kerase_of_notMem_keys fun hmem => AList.lookup_eq_none.mp h (AList.mem_keys.mpr hmem)

theorem total_insert (f : ν → Nat) (m : FiniteMap κ ν) (k : κ) (v : ν) :
    total f (m.insert k v) = f v + total f (m.erase k) := by
  rw [total, AList.entries_insert]
  rfl

theorem total_eq_add_erase (h : m.lookup k = some v) : total f m = f v + total f (m.erase k) := by
  have hentries : ∀ entries : List (Sigma fun _ : κ => ν), entries.dlookup k = some v →
      (entries.map fun entry => f entry.2).sum =
        f v + ((entries.kerase k).map fun entry => f entry.2).sum := by
    intro entries
    induction entries with
    | nil => intro h; cases h
    | cons entry entries ih =>
      intro h
      by_cases hkey : k = entry.1
      case pos =>
        subst hkey
        rw [List.dlookup_cons_eq] at h
        obtain rfl := Option.some.inj h
        rw [List.kerase_cons_eq rfl]
        rfl
      case neg =>
        rw [List.dlookup_cons_ne _ _ hkey] at h
        rw [List.kerase_cons_ne hkey, List.map_cons, List.sum_cons, List.map_cons,
          List.sum_cons, ih h]
        omega
  exact hentries m.entries h

theorem total_erase_of_none (h : m.lookup k = none) : total f (m.erase k) = total f m := by
  rw [erase_of_lookup_none h]

theorem le_total (h : m.lookup k = some v) : f v ≤ total f m := by
  rw [total_eq_add_erase h]
  exact Nat.le_add_right _ _

theorem finite_lookup (m : FiniteMap κ ν) : {k | m.lookup k ≠ none}.Finite := by
  refine m.keys.finite_toSet.subset fun k hk => ?_
  by_contra hout
  exact hk (AList.lookup_eq_none.mpr (mt AList.mem_keys.mp hout))

end FiniteMap

theorem finsum_update {κ M : Type*} [DecidableEq κ] [AddCommGroup M] {f : κ → M}
    (hf : f.support.Finite) (k : κ) (v : M) :
    ∑ᶠ x, Function.update f k v x = ∑ᶠ x, f x - f k + v := by
  have hmem : k ∈ insert k hf.toFinset := Finset.mem_insert_self _ _
  have hsupport : f.support ⊆ (insert k hf.toFinset : Finset κ) := by
    rw [Finset.coe_insert, hf.coe_toFinset]
    exact Set.subset_insert _ _
  have hsupport' : (Function.update f k v).support ⊆ (insert k hf.toFinset : Finset κ) := by
    intro x hx
    by_cases heq : x = k
    case pos => rwa [heq, Finset.mem_coe]
    case neg =>
      rw [Function.mem_support, Function.update_of_ne heq] at hx
      exact hsupport hx
  rw [finsum_eq_sum_of_support_subset f hsupport, finsum_eq_sum_of_support_subset _ hsupport',
    Finset.sum_update_of_mem hmem, ← Finset.add_sum_erase _ f hmem, Finset.sdiff_singleton_eq_erase,
    add_sub_cancel_left, add_comm]

end HcsCoin.Foundation
