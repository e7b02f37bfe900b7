import HcsCoin.Foundation.GroupPass
import Mathlib.Tactic.FieldSimp
import Mathlib.Tactic.Positivity

/-!
# Chunkings and their diagrams

The chunks of a sequence of weighted items are the groups of a pass in which every group
depends on the one before it.  They are the only division of the sequence into tight groups
with falling feerates.  The diagram of a list of chunks gives the fee that is reached at a
size, by straight lines between the ends of the chunks; one diagram is nowhere below another
when at every price it has at least the gain of the other.
-/

namespace HcsCoin.Foundation

open Weighing

variable {α : Type*} {w : Weighing α}

/-! ## Chunks -/

def chunksOf (w : Weighing α) (items : List α) : List (List α) := groupPass w (fun _ _ => true) items

theorem flatten_insertGroup_true (current : List α) (before : List (List α)) :
    (insertGroup w (fun _ _ => true) current before).reverse.flatten =
      before.reverse.flatten ++ current := by
  induction before generalizing current with
  | nil => simp [insertGroup]
  | cons previous before ih =>
    rw [insertGroup]
    split
    · rw [if_pos rfl, ih]
      simp
    · simp

theorem flatten_chunksOf (items : List α) : (chunksOf w items).reverse.flatten = items := by
  induction items using List.reverseRecOn with
  | nil => rfl
  | append_singleton items x ih =>
    rw [chunksOf, groupPass_snoc, flatten_insertGroup_true, ← chunksOf, ih]

structure Chunking (w : Weighing α) (groups : List (List α)) : Prop where
  ne_nil : ∀ group ∈ groups, group ≠ []
  tight : ∀ group ∈ groups, Tight w group
  falling : groups.Pairwise fun earlier later => w.AtMost later earlier

theorem chunking_groupPass (depends : List α → List α → Bool) (items : List α) :
    Chunking w (groupPass w depends items).reverse where
  ne_nil group hgroup := groupPass_ne_nil items group (List.mem_reverse.1 hgroup)
  tight group hgroup := groupPass_tight items group (List.mem_reverse.1 hgroup)
  falling := List.pairwise_reverse.2 (groupPass_falling items)

variable {groups : List (List α)} {items : List α} {group front items' : List α}
  {groups' : List (List α)} {v : Weighing α}

theorem Chunking.tail (h : Chunking w (group :: groups)) : Chunking w groups where
  ne_nil other hother := h.ne_nil other (List.mem_cons_of_mem _ hother)
  tight other hother := h.tight other (List.mem_cons_of_mem _ hother)
  falling := (List.pairwise_cons.1 h.falling).2

theorem Tight.atMost_front (h : Tight w group) (hfront : front <+: group) :
    w.AtMost front group := by
  obtain ⟨back, rfl⟩ := hfront
  by_cases hfirst : front = []
  · rw [hfirst]
    exact atMost_nil _
  by_cases hback : back = []
  · rw [hback, List.append_nil]
    exact AtMost.refl _
  · exact (h front back rfl hfirst hback).atMost_append

private theorem atMost_front_flatten {bound : List α} (hne : ∀ group ∈ groups, group ≠ [])
    (htight : ∀ group ∈ groups, Tight w group) (hbound : ∀ group ∈ groups, w.AtMost group bound)
    (hfront : front <+: groups.flatten) : w.AtMost front bound := by
  induction groups generalizing front with
  | nil =>
    rw [List.prefix_nil.1 hfront]
    exact atMost_nil _
  | cons group groups ih =>
    obtain ⟨back, hback⟩ := hfront
    rw [List.flatten_cons] at hback
    rcases List.append_eq_append_iff.1 hback with ⟨middle, rfl, _⟩ | ⟨rest, rfl, hrest⟩
    · exact ((htight _ List.mem_cons_self).atMost_front (List.prefix_append front middle)).trans
        (hbound _ List.mem_cons_self) (hne _ List.mem_cons_self)
    · exact (hbound group List.mem_cons_self).append_left
        (ih (List.forall_mem_cons.mp hne).2
          (List.forall_mem_cons.mp htight).2
          (List.forall_mem_cons.mp hbound).2 ⟨back, hrest.symm⟩)

private theorem not_shorter {first rest : List α} (h : Chunking w (first :: groups))
    (h' : Chunking w ((first ++ rest) :: groups'))
    (heq : groups.flatten = rest ++ groups'.flatten) : rest = [] := by
  by_contra hrest
  have hhigher := h'.tight _ List.mem_cons_self first rest rfl
    (h.ne_nil first List.mem_cons_self) hrest
  have hatMost : w.AtMost rest first :=
    atMost_front_flatten h.tail.ne_nil h.tail.tight (List.pairwise_cons.1 h.falling).1
      (heq ▸ List.prefix_append rest _)
  exact absurd hhigher (not_higher.2 hatMost)

theorem Chunking.unique (h : Chunking w groups) (h' : Chunking w groups')
    (heq : groups.flatten = groups'.flatten) : groups = groups' := by
  induction groups generalizing groups' with
  | nil =>
    cases groups' with
    | nil => rfl
    | cons first groups' =>
      rw [List.flatten_nil, List.flatten_cons, eq_comm, List.append_eq_nil_iff] at heq
      exact absurd heq.1 (h'.ne_nil first List.mem_cons_self)
  | cons first groups ih =>
    cases groups' with
    | nil =>
      rw [List.flatten_nil, List.flatten_cons, List.append_eq_nil_iff] at heq
      exact absurd heq.1 (h.ne_nil first List.mem_cons_self)
    | cons first' groups' =>
      rw [List.flatten_cons, List.flatten_cons] at heq
      rcases List.append_eq_append_iff.1 heq with ⟨rest, rfl, hrest⟩ | ⟨rest, rfl, hrest⟩
      · obtain rfl := not_shorter h h' hrest
        rw [List.append_nil] at h' ⊢
        rw [ih h.tail h'.tail (by simpa using hrest)]
      · obtain rfl := not_shorter h' h hrest
        rw [List.append_nil] at h ⊢
        rw [ih h.tail h'.tail (by simpa using hrest.symm)]

theorem chunksOf_groupPass (depends : List α → List α → Bool) (items : List α) :
    chunksOf w (groupPass w depends items).reverse.flatten = groupPass w depends items := by
  refine List.reverse_injective ((chunking_groupPass _ _).unique (chunking_groupPass _ _) ?_)
  exact flatten_chunksOf _

/-! ## Diagrams -/

/-- The fee at a size on the diagram of some chunks, given as pairs of fee and size.  After
the last chunk the diagram is level. -/
def diagramAt : List (Int × Int) → ℚ → ℚ
  | [], _ => 0
  | chunk :: chunks, s =>
    if s ≤ chunk.2 then chunk.1 * s / chunk.2 else chunk.1 + diagramAt chunks (s - chunk.2)

def feeTotal (chunks : List (Int × Int)) : Int := (chunks.map (·.1)).sum

def sizeTotal (chunks : List (Int × Int)) : Int := (chunks.map (·.2)).sum

def pairGain (n d : Int) (chunks : List (Int × Int)) : Int :=
  d * feeTotal chunks - n * sizeTotal chunks

@[simp] theorem feeTotal_cons (chunk : Int × Int) (chunks : List (Int × Int)) :
    feeTotal (chunk :: chunks) = chunk.1 + feeTotal chunks := by
  simp [feeTotal]

@[simp] theorem sizeTotal_cons (chunk : Int × Int) (chunks : List (Int × Int)) :
    sizeTotal (chunk :: chunks) = chunk.2 + sizeTotal chunks := by
  simp [sizeTotal]

@[simp] theorem pairGain_nil (n d : Int) : pairGain n d [] = 0 := by
  simp [pairGain, feeTotal, sizeTotal]

@[simp] theorem pairGain_cons (n d : Int) (chunk : Int × Int) (chunks : List (Int × Int)) :
    pairGain n d (chunk :: chunks) = d * chunk.1 - n * chunk.2 + pairGain n d chunks := by
  simp only [pairGain, feeTotal_cons, sizeTotal_cons]
  ring

section Lines

variable {chunks chunks' : List (Int × Int)} {s : ℚ}

section
variable (hpos : ∀ chunk ∈ chunks, 0 < chunk.2)
include hpos

theorem sizeTotal_nonneg : 0 ≤ sizeTotal chunks :=
  List.sum_nonneg fun x hx => by
    obtain ⟨chunk, hchunk, rfl⟩ := List.mem_map.1 hx
    exact (hpos chunk hchunk).le

theorem diagramAt_of_total_le (hs : (sizeTotal chunks : ℚ) ≤ s) :
    diagramAt chunks s = feeTotal chunks := by
  induction chunks generalizing s with
  | nil => simp [diagramAt, feeTotal]
  | cons chunk chunks ih =>
    have hrest := (List.forall_mem_cons.mp hpos).2
    have hchunk : (0 : ℚ) < chunk.2 := by exact_mod_cast hpos chunk List.mem_cons_self
    have hnonneg : (0 : ℚ) ≤ sizeTotal chunks := by exact_mod_cast sizeTotal_nonneg hrest
    rw [sizeTotal_cons, Int.cast_add] at hs
    rw [diagramAt, feeTotal_cons, Int.cast_add]
    split
    · -- only at the end of a single chunk
      have hzero : sizeTotal chunks = 0 := by
        have hle : (sizeTotal chunks : ℚ) ≤ 0 := by linarith
        exact le_antisymm (by exact_mod_cast hle) (sizeTotal_nonneg hrest)
      have hnil : chunks = [] := by
        cases chunks with
        | nil => rfl
        | cons next chunks =>
          have hnext := hrest next List.mem_cons_self
          have hlater := sizeTotal_nonneg fun other hother =>
            hrest other (List.mem_cons_of_mem _ hother)
          rw [sizeTotal_cons] at hzero
          omega
      have heq : s = chunk.2 := by
        rw [hzero, Int.cast_zero] at hs
        linarith
      rw [heq, hnil, mul_div_cancel_right₀ _ hchunk.ne']
      simp [feeTotal]
    · rw [ih hrest (by linarith)]

theorem exists_pairGain_ge (h0 : 0 ≤ s) (hs : s ≤ sizeTotal chunks) (n d : Int) :
    ∃ front, front <+: chunks ∧ d * diagramAt chunks s - n * s ≤ (pairGain n d front : ℚ) := by
  induction chunks generalizing s with
  | nil =>
    have hzero : s = 0 := le_antisymm (by simpa [sizeTotal] using hs) h0
    exact ⟨[], List.prefix_refl _, by simp [diagramAt, hzero]⟩
  | cons chunk chunks ih =>
    have hchunk : (0 : ℚ) < chunk.2 := by exact_mod_cast hpos chunk List.mem_cons_self
    rw [sizeTotal_cons, Int.cast_add] at hs
    rw [diagramAt]
    split
    · rename_i hle
      have hline : d * (chunk.1 * s / chunk.2) - n * s =
          s / chunk.2 * (d * chunk.1 - n * chunk.2) := by
        field_simp
      have hpart : s / chunk.2 ≤ 1 := (div_le_one hchunk).2 hle
      have hpart' : 0 ≤ s / chunk.2 := div_nonneg h0 hchunk.le
      rw [hline]
      rcases le_or_gt ((d : ℚ) * chunk.1 - n * chunk.2) 0 with hgain | hgain
      · refine ⟨[], List.nil_prefix, ?_⟩
        rw [pairGain_nil, Int.cast_zero]
        exact mul_nonpos_of_nonneg_of_nonpos hpart' hgain
      · refine ⟨[chunk], ⟨chunks, rfl⟩, ?_⟩
        rw [pairGain_cons, pairGain_nil, add_zero]
        push_cast
        exact mul_le_of_le_one_left hgain.le hpart
    · rename_i hlt
      obtain ⟨front, hfront, hle⟩ := ih
        (List.forall_mem_cons.mp hpos).2
        (by linarith : 0 ≤ s - chunk.2) (by linarith)
      refine ⟨chunk :: front, (List.prefix_cons_inj chunk).2 hfront, ?_⟩
      rw [pairGain_cons]
      push_cast
      linarith

end

def FallingPairs (chunks : List (Int × Int)) : Prop :=
  chunks.Pairwise fun earlier later => later.1 * earlier.2 ≤ earlier.1 * later.2

private theorem pairGain_nonpos {n d : Int} (h : ∀ chunk ∈ chunks, d * chunk.1 ≤ n * chunk.2) :
    pairGain n d chunks ≤ 0 := by
  induction chunks with
  | nil => rw [pairGain_nil]
  | cons chunk chunks ih =>
    have hchunk := h chunk List.mem_cons_self
    have hrest := ih (List.forall_mem_cons.mp h).2
    rw [pairGain_cons]
    omega

theorem exists_pairGain_le (hpos : ∀ chunk ∈ chunks, 0 < chunk.2) (hfalling : FallingPairs chunks)
    (hne : chunks ≠ []) (hs : s ≤ sizeTotal chunks) :
    ∃ chunk ∈ chunks, ∀ front, front <+: chunks →
      (pairGain chunk.1 chunk.2 front : ℚ) ≤ chunk.2 * diagramAt chunks s - chunk.1 * s := by
  induction chunks generalizing s with
  | nil => exact absurd rfl hne
  | cons chunk chunks ih =>
    have hrest := (List.forall_mem_cons.mp hpos).2
    have hchunk : (0 : ℚ) < chunk.2 := by exact_mod_cast hpos chunk List.mem_cons_self
    obtain ⟨hfirst, hfalling'⟩ := List.pairwise_cons.1 hfalling
    rw [sizeTotal_cons, Int.cast_add] at hs
    rw [diagramAt]
    split
    · refine ⟨chunk, List.mem_cons_self, fun front hfront => ?_⟩
      have hzero : (chunk.2 : ℚ) * (chunk.1 * s / chunk.2) - chunk.1 * s = 0 := by
        field_simp
        ring
      rw [hzero]
      have hgain : pairGain chunk.1 chunk.2 front ≤ 0 := by
        refine pairGain_nonpos fun other hother => ?_
        rcases List.mem_cons.1 (hfront.subset hother) with rfl | hother
        · rw [mul_comm]
        · have hle := hfirst other hother
          linarith
      exact_mod_cast hgain
    · rename_i hlt
      have hne' : chunks ≠ [] := by
        rintro rfl
        simp only [sizeTotal, List.map_nil, List.sum_nil, Int.cast_zero, add_zero] at hs
        exact hlt hs
      obtain ⟨price, hprice, hle⟩ := @ih (s - chunk.2) hrest hfalling' hne' (by linarith)
      refine ⟨price, List.mem_cons_of_mem _ hprice, fun front hfront => ?_⟩
      have hhigh : (price.1 : ℚ) * chunk.2 ≤ chunk.1 * price.2 := by
        exact_mod_cast hfirst price hprice
      rcases List.prefix_cons_iff.1 hfront with rfl | ⟨rest, rfl, hprefix⟩
      · have hstart := hle [] List.nil_prefix
        rw [pairGain_nil, Int.cast_zero] at hstart ⊢
        linarith
      · have hmore := hle rest hprefix
        rw [pairGain_cons]
        push_cast
        linarith

theorem diagramAt_le (hpos : ∀ chunk ∈ chunks, 0 < chunk.2)
    (hpos' : ∀ chunk ∈ chunks', 0 < chunk.2) (hfalling : FallingPairs chunks')
    (hsize : sizeTotal chunks = sizeTotal chunks') (hfee : feeTotal chunks ≤ feeTotal chunks')
    (hgain : ∀ n d, 0 < d → ∀ front, front <+: chunks →
      ∃ front', front' <+: chunks' ∧ pairGain n d front ≤ pairGain n d front')
    (h0 : 0 ≤ s) : diagramAt chunks s ≤ diagramAt chunks' s := by
  rcases le_or_gt (sizeTotal chunks : ℚ) s with hend | hlt
  · rw [diagramAt_of_total_le hpos hend, diagramAt_of_total_le hpos' (hsize ▸ hend)]
    exact_mod_cast hfee
  · have hne : chunks' ≠ [] := by
      rintro rfl
      rw [hsize] at hlt
      simp only [sizeTotal, List.map_nil, List.sum_nil, Int.cast_zero] at hlt
      linarith
    obtain ⟨price, hprice, hbelow⟩ := exists_pairGain_le hpos' hfalling hne (hsize ▸ hlt.le)
    have hd := hpos' price hprice
    obtain ⟨front, hfront, hpoint⟩ := exists_pairGain_ge hpos h0 hlt.le price.1 price.2
    obtain ⟨front', hfront', hle⟩ := hgain price.1 price.2 hd front hfront
    have hle' : (pairGain price.1 price.2 front : ℚ) ≤ pairGain price.1 price.2 front' := by
      exact_mod_cast hle
    have habove := hbelow front' hfront'
    have hd' : (0 : ℚ) < price.2 := by exact_mod_cast hd
    refine le_of_mul_le_mul_left ?_ hd'
    linarith

end Lines

/-! ## Diagrams of sequences -/

def pairOf (w : Weighing α) (group : List α) : Int × Int := (w.feeSum group, w.sizeSum group)

theorem pairGain_map_pairOf (n d : Int) (groups : List (List α)) :
    pairGain n d (groups.map (pairOf w)) = w.gain n d groups.flatten := by
  induction groups with
  | nil => simp
  | cons group groups ih =>
    rw [List.map_cons, pairGain_cons, ih, List.flatten_cons, gain_append]
    rfl

theorem feeTotal_map_pairOf (groups : List (List α)) :
    feeTotal (groups.map (pairOf w)) = w.feeSum groups.flatten := by
  induction groups with
  | nil => rfl
  | cons group groups ih =>
    rw [List.map_cons, feeTotal_cons, ih, List.flatten_cons, feeSum_append]
    rfl

theorem sizeTotal_map_pairOf (groups : List (List α)) :
    sizeTotal (groups.map (pairOf w)) = w.sizeSum groups.flatten := by
  induction groups with
  | nil => rfl
  | cons group groups ih =>
    rw [List.map_cons, sizeTotal_cons, ih, List.flatten_cons, sizeSum_append]
    rfl

def chunkPairs (w : Weighing α) (items : List α) : List (Int × Int) :=
  (chunksOf w items).reverse.map (pairOf w)

/-- At every price some beginning of the second sequence has at least the gain of any given
beginning of the first one. -/
def GainsLe (v w : Weighing α) (items items' : List α) : Prop :=
  ∀ n d, 0 < d → ∀ front, front <+: items →
    ∃ front', front' <+: items' ∧ v.gain n d front ≤ w.gain n d front'

/-- A sequence with the gains of another one, of the same size, has a diagram that is nowhere
below. -/
theorem diagramAt_chunkPairs_le (hsize : v.sizeSum items = w.sizeSum items')
    (hfee : v.feeSum items ≤ w.feeSum items') (hgain : GainsLe v w items items') {s : ℚ}
    (h0 : 0 ≤ s) : diagramAt (chunkPairs v items) s ≤ diagramAt (chunkPairs w items') s := by
  have hchunking := @chunking_groupPass _ v (fun _ _ => true) items
  have hchunking' := @chunking_groupPass _ w (fun _ _ => true) items'
  rw [← chunksOf] at hchunking hchunking'
  refine diagramAt_le ?_ ?_ ?_ ?_ ?_ ?_ h0
  · intro chunk hchunk
    obtain ⟨group, hgroup, rfl⟩ := List.mem_map.1 hchunk
    exact v.sizeSum_pos (hchunking.ne_nil group hgroup)
  · intro chunk hchunk
    obtain ⟨group, hgroup, rfl⟩ := List.mem_map.1 hchunk
    exact w.sizeSum_pos (hchunking'.ne_nil group hgroup)
  · exact List.pairwise_map.2 hchunking'.falling
  · rw [chunkPairs, chunkPairs, sizeTotal_map_pairOf, sizeTotal_map_pairOf, flatten_chunksOf,
      flatten_chunksOf, hsize]
  · rw [chunkPairs, chunkPairs, feeTotal_map_pairOf, feeTotal_map_pairOf, flatten_chunksOf,
      flatten_chunksOf]
    exact hfee
  · intro n d hd front hfront
    -- the end of a chunk is the end of a beginning, and the chunks reach its gain
    obtain ⟨groups, hgroups, rfl⟩ : ∃ groups : List (List α),
        groups <+: (chunksOf v items).reverse ∧ front = groups.map (pairOf v) := by
      refine ⟨(chunksOf v items).reverse.take front.length, List.take_prefix _ _, ?_⟩
      rw [List.map_take]
      exact List.prefix_iff_eq_take.1 hfront
    have hstart : groups.flatten <+: items := by
      obtain ⟨rest, hrest⟩ := hgroups
      refine ⟨rest.flatten, ?_⟩
      rw [← List.flatten_append, hrest, flatten_chunksOf]
    obtain ⟨front', hfront', hle⟩ := hgain n d hd _ hstart
    obtain ⟨best, hbest, hvalue⟩ :=
      @groupPass_dominates _ w (fun _ _ => true) items' n d hd front' hfront'
    refine ⟨best.reverse.map (pairOf w), (List.reverse_prefix.2 hbest).map _, ?_⟩
    rw [pairGain_map_pairOf, pairGain_map_pairOf, w.gain_perm n d (List.reverse_perm best).flatten]
    exact hle.trans hvalue

theorem GainsLe.trans {u : Weighing α} {items'' : List α} (h : GainsLe u v items items')
    (h' : GainsLe v w items' items'') : GainsLe u w items items'' := by
  intro n d hd front hfront
  obtain ⟨front', hfront', hle⟩ := h n d hd front hfront
  obtain ⟨front'', hfront'', hle'⟩ := h' n d hd front' hfront'
  exact ⟨front'', hfront'', hle.trans hle'⟩

theorem ReachesGain.exists_front {n d value : Int} (h : ReachesGain w n d groups value) :
    ∃ front, front <+: groups.reverse.flatten ∧ value ≤ w.gain n d front := by
  obtain ⟨front, ⟨rest, rfl⟩, hvalue⟩ := h
  refine ⟨front.reverse.flatten, ⟨rest.reverse.flatten, ?_⟩, ?_⟩
  · rw [List.reverse_append, List.flatten_append]
  · rwa [w.gain_perm n d (List.reverse_perm front).flatten]

theorem Dominates.gainsLe (h : Dominates w groups items) :
    GainsLe w w items groups.reverse.flatten :=
  fun n d hd front hfront => (h n d hd front hfront).exists_front

/-! ## Reversed sequences -/

def Weighing.negated (w : Weighing α) : Weighing α where
  fee x := -w.fee x
  size := w.size
  size_pos := w.size_pos

theorem Weighing.gain_negated (n d : Int) (l : List α) :
    w.negated.gain n d l = -w.gain (-n) d l := by
  have hfee : w.negated.feeSum l = -w.feeSum l := by
    induction l with
    | nil => rfl
    | cons x l ih =>
      rw [feeSum_cons, feeSum_cons, ih, negated]
      ring
  have hsize : w.negated.sizeSum l = w.sizeSum l := rfl
  rw [gain, gain, hfee, hsize]
  ring

/-- What the reversed sequences gain at the negated fees is what the sequences gain, but for
the gain of the whole. -/
theorem GainsLe.of_reverse (hperm : items.Perm items')
    (h : GainsLe w.negated w.negated items.reverse items'.reverse) : GainsLe w w items items' := by
  intro n d hd front hfront
  obtain ⟨rest, rfl⟩ := hfront
  obtain ⟨back, hback, hle⟩ := h (-n) d hd rest.reverse ⟨front.reverse, by simp⟩
  obtain ⟨front', hfront'⟩ := List.reverse_suffix.2 hback
  rw [List.reverse_reverse] at hfront'
  refine ⟨front', ⟨_, hfront'⟩, ?_⟩
  have htotal := w.gain_perm n d hperm
  rw [← hfront', w.gain_append, w.gain_append, w.gain_perm n d (List.reverse_perm back)] at htotal
  rw [Weighing.gain_negated, Weighing.gain_negated, neg_neg,
    w.gain_perm n d (List.reverse_perm rest)] at hle
  omega

end HcsCoin.Foundation
