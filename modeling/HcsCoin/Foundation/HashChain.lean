import Mathlib.Data.List.Basic

/-!
# Hash-linked chains

A chain is a list whose elements each carry the hash of the element before
them.  Elements can be packed without that link: `relink` restores it from the
hashes of the elements restored so far.
-/

namespace HcsCoin.Foundation

variable {α β κ : Type*}

def tipHash (hash : α → κ) (start : κ) (chain : List α) : κ :=
  chain.foldl (fun _ x => hash x) start

/-- The first element carries `start`, every later one the hash of the element
before it. -/
def Connected (link hash : α → κ) : κ → List α → Prop
  | _, [] => True
  | start, x :: chain => link x = start ∧ Connected link hash (hash x) chain

def relink (unpack : β → κ → α) (hash : α → κ) : κ → List β → List α
  | _, [] => []
  | start, b :: packed =>
    unpack b start :: relink unpack hash (hash (unpack b start)) packed

@[simp] theorem tipHash_nil (hash : α → κ) (start : κ) : tipHash hash start [] = start := rfl

@[simp] theorem tipHash_cons (hash : α → κ) (start : κ) (x : α) (chain : List α) :
    tipHash hash start (x :: chain) = tipHash hash (hash x) chain := rfl

theorem tipHash_append (hash : α → κ) (start : κ) (chain rest : List α) :
    tipHash hash start (chain ++ rest) = tipHash hash (tipHash hash start chain) rest := by
  rw [tipHash, List.foldl_append]
  rfl

theorem connected_append (link hash : α → κ) (start : κ) (chain rest : List α) :
    Connected link hash start (chain ++ rest) ↔
      Connected link hash start chain ∧ Connected link hash (tipHash hash start chain) rest := by
  induction chain generalizing start with
  | nil => simp [Connected]
  | cons x chain ih => simp [Connected, ih, and_assoc]

variable {chain : List α} {hash link : α → κ} {start : κ} {unpack : β → κ → α}

theorem Connected.of_isPrefix {rest : List α} (h : Connected link hash start rest)
    (hpre : chain <+: rest) : Connected link hash start chain := by
  obtain ⟨tail, rfl⟩ := hpre
  exact ((connected_append link hash start chain tail).mp h).1

theorem relink_append (unpack : β → κ → α) (hash : α → κ) (start : κ) (packed rest : List β) :
    relink unpack hash start (packed ++ rest) =
      relink unpack hash start packed ++
        relink unpack hash (tipHash hash start (relink unpack hash start packed)) rest := by
  induction packed generalizing start with
  | nil => rfl
  | cons b packed ih => simp [relink, ih]

theorem append_relink_concat {restored : List α} {rest packed : List β} (b : β)
    (h : restored ++ relink unpack hash (tipHash hash start restored) rest =
      relink unpack hash start packed) :
    restored ++ relink unpack hash (tipHash hash start restored) (rest ++ [b]) =
      relink unpack hash start (packed ++ [b]) := by
  rw [relink_append, relink_append, ← List.append_assoc, h, ← tipHash_append, h]

theorem connected_relink (hlink : ∀ b start, link (unpack b start) = start) (hash : α → κ)
    (start : κ) (packed : List β) :
    Connected link hash start (relink unpack hash start packed) := by
  induction packed generalizing start with
  | nil => trivial
  | cons b packed ih => exact ⟨hlink b start, ih _⟩

/-- A chain is restored from its packed elements if each element is restored over
its own link. -/
theorem relink_map {pack : α → β} (hchain : Connected link hash start chain)
    (hpack : ∀ x ∈ chain, unpack (pack x) (link x) = x) :
    relink unpack hash start (chain.map pack) = chain := by
  induction chain generalizing start with
  | nil => rfl
  | cons x chain ih =>
    obtain ⟨hlink, hrest⟩ := hchain
    have hx : unpack (pack x) start = x := by
      rw [← hlink]
      exact hpack x List.mem_cons_self
    rw [List.map_cons, relink, hx, ih hrest (List.forall_mem_cons.mp hpack).2]

end HcsCoin.Foundation
