import HcsCoin.Foundation.Interleave
import HcsCoin.PantaSim.Circuit

/-!
# The gate kernel of the GPU miner

`quantum-miner/shaders/quantum_gates.comp`: a work item finds its pair of
amplitudes by inserting a zero bit into its id, and loads and stores the floats
of the pair.  Work items run against one buffer in any order, their accesses
interleaved at will; the result is the statevector of the sequential gates of
`QSim::Statevector` and `statevector.rs`.
-/

namespace HcsCoin.QuantumMiner

open Foundation QSim

variable {fp : FloatOps} {amps : List (C32 fp)}

structure PushConstants where
  gateType : UInt32
  wire : UInt32
  control : UInt32
  target : UInt32
  size : UInt32

abbrev Kernel (fp : FloatOps) := Thread UInt32 fp.F32

def loadAmp (i : UInt32) (next : C32 fp → Kernel fp) : Kernel fp :=
  .load (2 * i) fun x => .load (2 * i + 1) fun y => next ⟨x, y⟩

def storeAmp (i : UInt32) (v : C32 fp) (next : Kernel fp) : Kernel fp :=
  .store (2 * i) v.re (.store (2 * i + 1) v.im next)

def pairGate (f : C32 fp → C32 fp → C32 fp × C32 fp) (i0 i1 : UInt32) : Kernel fp :=
  loadAmp i0 fun a => loadAmp i1 fun b =>
    storeAmp i0 (f a b).1 (storeAmp i1 (f a b).2 .done)

def hadamard : UInt32 → UInt32 → Kernel fp :=
  pairGate fun a b =>
    let s : C32 fp := ⟨fp.add a.re b.re, fp.add a.im b.im⟩
    let d : C32 fp := ⟨fp.sub a.re b.re, fp.sub a.im b.im⟩
    (⟨fp.mul s.re fp.fracOneSqrt2, fp.mul s.im fp.fracOneSqrt2⟩,
      ⟨fp.mul d.re fp.fracOneSqrt2, fp.mul d.im fp.fracOneSqrt2⟩)

def pauliX : UInt32 → UInt32 → Kernel fp := pairGate fun a b => (b, a)

def pauliZ : UInt32 → UInt32 → Kernel fp := pairGate fun a b => (a, ⟨fp.neg b.re, fp.neg b.im⟩)

def sGate : UInt32 → UInt32 → Kernel fp := pairGate fun a b => (a, ⟨fp.neg b.im, b.re⟩)

def tGate : UInt32 → UInt32 → Kernel fp :=
  pairGate fun a b =>
    let re := fp.mul (fp.sub b.re b.im) fp.fracOneSqrt2
    let im := fp.mul (fp.add b.re b.im) fp.fracOneSqrt2
    (a, ⟨re, im⟩)

/-- The lower index of the pair of a work item: its id with a zero bit inserted at `q`. -/
def insertBit (q tid : UInt32) : UInt32 :=
  let tmask := 1 <<< q
  let lower := tid &&& (tmask - 1)
  let upper := (tid >>> q) <<< (q + 1)
  upper ||| lower

def main (fp : FloatOps) (params : PushConstants) (tid : UInt32) : Kernel fp :=
  let totalPairs := params.size >>> 1
  if tid ≥ totalPairs then .done
  else
    let q := if params.gateType = 5 then params.target else params.wire
    let i0 := insertBit q tid
    let i1 := i0 ||| 1 <<< q
    match params.gateType.toNat with
    | 0 => hadamard i0 i1
    | 1 => pauliX i0 i1
    | 2 => pauliZ i0 i1
    | 3 => sGate i0 i1
    | 4 => tGate i0 i1
    | 5 => if i0 &&& 1 <<< params.control ≠ 0 then pauliX i0 i1 else .done
    | _ => .done

def dispatch (fp : FloatOps) (params : PushConstants) (invocations : Nat) (tid : Nat) : Kernel fp :=
  if tid < invocations then main fp params (UInt32.ofNat tid) else .done

def stateBuffer (amps : List (C32 fp)) (address : UInt32) : fp.F32 :=
  let a := amp amps (address.toNat / 2)
  if address.toNat % 2 = 0 then a.re else a.im

def readBack (size : Nat) (state : UInt32 → fp.F32) : List (C32 fp) :=
  (List.range size).map fun i => ⟨state (UInt32.ofNat (2 * i)), state (UInt32.ofNat (2 * i + 1))⟩

/-! ## Gates -/

inductive Gate where
  | h (w : Nat)
  | x (w : Nat)
  | z (w : Nat)
  | s (w : Nat)
  | t (w : Nat)
  | cnot (c target : Nat)
  deriving DecidableEq

namespace Gate

def Fits (n : Nat) : Gate → Prop
  | h w | x w | z w | s w | t w => w < n
  | cnot c target => c < n ∧ target < n

def EncodedBy (p : PushConstants) : Gate → Prop
  | h w => p.gateType = 0 ∧ p.wire = UInt32.ofNat w
  | x w => p.gateType = 1 ∧ p.wire = UInt32.ofNat w
  | z w => p.gateType = 2 ∧ p.wire = UInt32.ofNat w
  | s w => p.gateType = 3 ∧ p.wire = UInt32.ofNat w
  | t w => p.gateType = 4 ∧ p.wire = UInt32.ofNat w
  | cnot c target =>
    p.gateType = 5 ∧ p.control = UInt32.ofNat c ∧ p.target = UInt32.ofNat target

def cpu : Gate → List (C32 fp) → List (C32 fp)
  | h w => gateH w
  | x w => gateX w
  | z w => gateZ w
  | s w => gateS w
  | t w => gateT w
  | cnot c target => gateCNOT c target

def port : Gate → List (C32 fp) → List (C32 fp)
  | h w => PantaSim.Statevector.h w
  | x w => PantaSim.Statevector.x w
  | z w => PantaSim.Statevector.z w
  | s w => PantaSim.Statevector.s w
  | t w => PantaSim.Statevector.t w
  | cnot c target => PantaSim.Statevector.cnot c target

theorem port_eq_cpu (gate : Gate) (amps : List (C32 fp)) : gate.port amps = gate.cpu amps := by
  cases gate with
  | h w => exact PantaSim.Statevector.h_eq w amps
  | x w => exact PantaSim.Statevector.x_eq w amps
  | z w => exact PantaSim.Statevector.z_eq w amps
  | s w => exact PantaSim.Statevector.s_eq w amps
  | t w => exact PantaSim.Statevector.t_eq w amps
  | cnot c target => exact PantaSim.Statevector.cnot_eq c target amps

end Gate

/-! ## Inserting a bit -/

def insertZero (q tid : Nat) : Nat := tid / 2 ^ q * 2 ^ (q + 1) + tid % 2 ^ q

def removeBit (q i : Nat) : Nat := i / 2 ^ (q + 1) * 2 ^ q + i % 2 ^ q

theorem removeBit_eq (q a : Nat) {b r : Nat} (hb : b ≤ 1) (hr : r < 2 ^ q) :
    removeBit q (a * 2 ^ (q + 1) + (b * 2 ^ q + r)) = a * 2 ^ q + r := by
  have hlow : b * 2 ^ q + r < 2 ^ (q + 1) := by
    have hmul := Nat.mul_le_mul_right (2 ^ q) hb
    rw [Nat.pow_succ]
    omega
  have hdiv : (a * 2 ^ (q + 1) + (b * 2 ^ q + r)) / 2 ^ (q + 1) = a := by
    rw [Nat.mul_comm, Nat.mul_add_div (Nat.two_pow_pos _), Nat.div_eq_of_lt hlow, Nat.add_zero]
  have hmod : (a * 2 ^ (q + 1) + (b * 2 ^ q + r)) % 2 ^ q = r := by
    rw [Nat.pow_succ, ← Nat.mul_assoc, Nat.mul_right_comm, ← Nat.add_assoc, ← Nat.add_mul,
      Nat.mul_add_mod_self_right, Nat.mod_eq_of_lt hr]
  rw [removeBit, hdiv, hmod]

theorem removeBit_insertZero (q tid : Nat) : removeBit q (insertZero q tid) = tid := by
  have h := removeBit_eq q (tid / 2 ^ q) (Nat.zero_le 1) (Nat.mod_lt tid (Nat.two_pow_pos q))
  rw [Nat.zero_mul, Nat.zero_add] at h
  rw [insertZero, h, Nat.div_add_mod']

theorem removeBit_insertZero_add (q tid : Nat) : removeBit q (insertZero q tid + 2 ^ q) = tid := by
  have h := removeBit_eq q (tid / 2 ^ q) (Nat.le_refl 1) (Nat.mod_lt tid (Nat.two_pow_pos q))
  rw [Nat.one_mul] at h
  rw [insertZero, Nat.add_assoc, Nat.add_comm (tid % 2 ^ q), h, Nat.div_add_mod']

variable {o q n : Nat}

theorem insertZero_block (b : Nat) (ho : o < 2 ^ q) :
    insertZero q (b * 2 ^ q + o) = b * 2 ^ (q + 1) + o := by
  have hdiv : (b * 2 ^ q + o) / 2 ^ q = b := by
    rw [Nat.mul_comm, Nat.mul_add_div (Nat.two_pow_pos _), Nat.div_eq_of_lt ho, Nat.add_zero]
  rw [insertZero, hdiv, Nat.mul_add_mod_self_right, Nat.mod_eq_of_lt ho]

theorem insertZero_add_lt {tid : Nat} (hq : q < n) (htid : tid < 2 ^ (n - 1)) :
    insertZero q tid + 2 ^ q < 2 ^ n := by
  have hitems : 2 ^ (n - 1) = 2 ^ q * 2 ^ (n - 1 - q) := by rw [← Nat.pow_add]; congr 1; omega
  have hsize : 2 ^ n = 2 ^ (n - 1 - q) * 2 ^ (q + 1) := by rw [← Nat.pow_add]; congr 1; omega
  have hblock : tid / 2 ^ q + 1 ≤ 2 ^ (n - 1 - q) := Nat.div_lt_of_lt_mul (hitems ▸ htid)
  have hoff := Nat.mod_lt tid (Nat.two_pow_pos q)
  calc insertZero q tid + 2 ^ q
      < tid / 2 ^ q * 2 ^ (q + 1) + 2 ^ (q + 1) := by rw [insertZero, Nat.pow_succ]; omega
    _ = (tid / 2 ^ q + 1) * 2 ^ (q + 1) := by rw [Nat.succ_mul]
    _ ≤ 2 ^ n := hsize ▸ Nat.mul_le_mul_right _ hblock

theorem insertZero_or (q tid : Nat) : insertZero q tid ||| 2 ^ q = insertZero q tid + 2 ^ q := by
  have hr := Nat.mod_lt tid (Nat.two_pow_pos q)
  have hlow : 2 ^ q + tid % 2 ^ q < 2 ^ (q + 1) := by rw [Nat.pow_succ]; omega
  have hinsert : insertZero q tid = (tid / 2 ^ q) <<< (q + 1) ||| tid % 2 ^ q := by
    rw [← Nat.shiftLeft_add_eq_or_of_lt (by omega), Nat.shiftLeft_eq, insertZero]
  have hbit : 2 ^ q + tid % 2 ^ q = 2 ^ q ||| tid % 2 ^ q := by
    have h := Nat.shiftLeft_add_eq_or_of_lt hr 1
    rwa [Nat.shiftLeft_eq, Nat.one_mul] at h
  rw [hinsert, Nat.or_assoc, Nat.or_comm (tid % 2 ^ q), ← hbit,
    ← Nat.shiftLeft_add_eq_or_of_lt hlow, ← Nat.shiftLeft_add_eq_or_of_lt (by omega)]
  omega

theorem toNat_mask {q : UInt32} (hq : q.toNat < 31) : (1 <<< q : UInt32).toNat = 2 ^ q.toNat := by
  have hpow : 2 ^ q.toNat < 2 ^ 32 := Nat.pow_lt_pow_right (by norm_num) (by omega)
  rw [UInt32.toNat_shiftLeft, Nat.mod_eq_of_lt (show q.toNat < 32 by omega), UInt32.toNat_one,
    Nat.shiftLeft_eq, Nat.one_mul, Nat.mod_eq_of_lt hpow]

theorem toNat_insertBit {q tid : UInt32} (hn : n ≤ 30) (hq : q.toNat < n)
    (htid : tid.toNat < 2 ^ (n - 1)) : (insertBit q tid).toNat = insertZero q.toNat tid.toNat := by
  have hsize : insertZero q.toNat tid.toNat + 2 ^ q.toNat < 2 ^ 32 :=
    (insertZero_add_lt hq htid).trans_le (Nat.pow_le_pow_right (by norm_num) (by omega))
  have hsucc : (q + 1).toNat = q.toNat + 1 := by
    rw [UInt32.toNat_add, UInt32.toNat_one]
    omega
  have hlower : (tid &&& ((1 <<< q : UInt32) - 1)).toNat = tid.toNat % 2 ^ q.toNat := by
    have hone : (1 : UInt32) ≤ 1 <<< q := by
      rw [UInt32.le_iff_toNat_le, toNat_mask (by omega), UInt32.toNat_one]
      exact Nat.one_le_two_pow
    rw [UInt32.toNat_and, UInt32.toNat_sub_of_le _ _ hone, toNat_mask (by omega),
      UInt32.toNat_one, Nat.and_two_pow_sub_one_eq_mod]
  have hupper : ((tid >>> q) <<< (q + 1) : UInt32).toNat =
      (tid.toNat / 2 ^ q.toNat) <<< (q.toNat + 1) := by
    rw [UInt32.toNat_shiftLeft, UInt32.toNat_shiftRight, hsucc,
      Nat.mod_eq_of_lt (show q.toNat < 32 by omega),
      Nat.mod_eq_of_lt (show q.toNat + 1 < 32 by omega), Nat.shiftRight_eq_div_pow]
    refine Nat.mod_eq_of_lt ?_
    rw [Nat.shiftLeft_eq]
    rw [insertZero] at hsize
    omega
  have hr := Nat.mod_lt tid.toNat (Nat.two_pow_pos q.toNat)
  rw [insertBit, UInt32.toNat_or, hlower, hupper,
    ← Nat.shiftLeft_add_eq_or_of_lt (by rw [Nat.pow_succ]; omega), Nat.shiftLeft_eq, insertZero]

/-! ## The sequential gates -/

def pairUpdate (f : C32 fp → C32 fp → C32 fp × C32 fp) (i0 i1 : Nat) (amps : List (C32 fp)) :
    List (C32 fp) :=
  (amps.set i0 (f (amp amps i0) (amp amps i1)).1).set i1
    (f (amp amps i0) (amp amps i1)).2

theorem map_range_mul {α : Type} (f : Nat → α) (m k : Nat) :
    (List.range (m * k)).map f =
      (List.range m).flatMap fun b => (List.range k).map fun o => f (b * k + o) := by
  induction m with
  | zero => simp
  | succ m ih =>
    rw [Nat.succ_mul, List.range_add, List.map_append, ih, List.range_succ, List.flatMap_append,
      List.map_map, List.flatMap_singleton]
    rfl

theorem pairs_eq (hq : q < n) :
    pairs (2 ^ n) q =
      (List.range (2 ^ (n - 1))).map fun tid => (insertZero q tid, insertZero q tid + 2 ^ q) := by
  have hitems : 2 ^ (n - 1) = 2 ^ (n - 1 - q) * 2 ^ q := by rw [← Nat.pow_add]; congr 1; omega
  have hsize : 2 ^ n = 2 ^ (n - 1 - q) * 2 ^ (q + 1) := by rw [← Nat.pow_add]; congr 1; omega
  have hblocks : (2 ^ n + 2 ^ (q + 1) - 1) / 2 ^ (q + 1) = 2 ^ (n - 1 - q) := by
    have hpos := Nat.two_pow_pos (q + 1)
    rw [hsize, Nat.add_sub_assoc hpos, Nat.mul_comm, Nat.mul_add_div hpos,
      Nat.div_eq_of_lt (by omega), Nat.add_zero]
  rw [pairs, hblocks, hitems, map_range_mul]
  refine List.flatMap_congr fun b _ => List.map_congr_left fun o ho => ?_
  rw [insertZero_block b (List.mem_range.mp ho)]

theorem forPairs_eq_foldl (hq : q < n) (f : C32 fp → C32 fp → C32 fp × C32 fp)
    (hamps : amps.length = 2 ^ n) :
    forPairs q f amps = (List.range (2 ^ (n - 1))).foldl (fun amps tid =>
      pairUpdate f (insertZero q tid) (insertZero q tid + 2 ^ q) amps) amps := by
  rw [forPairs, hamps, pairs_eq hq, List.foldl_map]
  rfl

theorem and_two_pow_eq_zero (b : Nat) (ho : o < 2 ^ (q + 1)) :
    (b * 2 ^ (q + 1) + o) &&& 2 ^ q = 0 ↔ o < 2 ^ q := by
  have hdiv : (b * 2 ^ (q + 1) + o) / 2 ^ q = b * 2 + o / 2 ^ q := by
    rw [Nat.pow_succ, ← Nat.mul_assoc, Nat.mul_right_comm, Nat.mul_comm,
      Nat.mul_add_div (Nat.two_pow_pos q)]
  have hhigh : o / 2 ^ q < 2 := Nat.div_lt_of_lt_mul (by rw [← Nat.pow_succ]; exact ho)
  rw [Nat.and_two_pow, Nat.testBit_eq_decide_div_mod_eq, hdiv, Nat.mul_add_mod_self_right]
  rcases Nat.lt_or_ge o (2 ^ q) with hlt | hge
  · simp [Nat.div_eq_of_lt hlt, hlt]
  · have hone : o / 2 ^ q = 1 := by
      have hpos := Nat.div_pos hge (Nat.two_pow_pos q)
      omega
    simp [hone, hge]

theorem filter_range_eq (hq : q < n) :
    (List.range (2 ^ n)).filter (fun i => i &&& 2 ^ q = 0) =
      (List.range (2 ^ (n - 1))).map (insertZero q) := by
  have hitems : 2 ^ (n - 1) = 2 ^ (n - 1 - q) * 2 ^ q := by rw [← Nat.pow_add]; congr 1; omega
  have hsize : 2 ^ n = 2 ^ (n - 1 - q) * 2 ^ (q + 1) := by rw [← Nat.pow_add]; congr 1; omega
  rw [hitems, map_range_mul, ← List.map_id (List.range (2 ^ n)), hsize, map_range_mul,
    List.filter_flatMap]
  refine List.flatMap_congr fun b _ => ?_
  have hblock : (List.range (2 ^ (q + 1))).filter
      ((fun i => decide (i &&& 2 ^ q = 0)) ∘ fun o => id (b * 2 ^ (q + 1) + o)) =
        List.range (2 ^ q) := by
    have hhalves : List.range (2 ^ (q + 1)) =
        List.range (2 ^ q) ++ (List.range (2 ^ q)).map (2 ^ q + ·) := by
      rw [← List.range_add, ← Nat.mul_two, ← Nat.pow_succ]
    rw [hhalves, List.filter_append, List.filter_eq_self.mpr, List.filter_eq_nil_iff.mpr,
      List.append_nil]
    · intro o ho
      obtain ⟨r, hr, rfl⟩ := List.mem_map.mp ho
      have hlt : 2 ^ q + r < 2 ^ (q + 1) := by
        rw [Nat.pow_succ]
        have := List.mem_range.mp hr
        omega
      simp [and_two_pow_eq_zero b hlt]
    · intro o ho
      have ho := List.mem_range.mp ho
      have hlt : o < 2 ^ (q + 1) := by
        rw [Nat.pow_succ]
        omega
      simp [and_two_pow_eq_zero b hlt, ho]
  rw [List.filter_map, hblock]
  exact List.map_congr_left fun o ho => (insertZero_block b (List.mem_range.mp ho)).symm

theorem gateCNOT_eq_foldl {c t : Nat} (ht : t < n) (hamps : amps.length = 2 ^ n) :
    gateCNOT c t amps = (List.range (2 ^ (n - 1))).foldl (fun amps tid =>
      if insertZero t tid &&& 2 ^ c ≠ 0 then
        pairUpdate (fun a b => (b, a)) (insertZero t tid) (insertZero t tid + 2 ^ t) amps
      else amps) amps := by
  have hscan : gateCNOT c t amps =
      ((List.range (2 ^ n)).filter (fun i => i &&& 2 ^ t = 0)).foldl (fun amps i =>
        if i &&& 2 ^ c ≠ 0 then
          pairUpdate (fun a b => (b, a)) i (i ||| 2 ^ t) amps
        else amps) amps := by
    rw [gateCNOT, hamps, List.foldl_filter]
    congr 1
    funext amps i
    by_cases hc : i &&& 2 ^ c ≠ 0 <;> by_cases ht : i &&& 2 ^ t = 0 <;>
      simp [hc, ht, pairUpdate]
  rw [hscan, filter_range_eq ht, List.foldl_map]
  simp only [insertZero_or]

namespace Gate

def pairWire : Gate → Nat
  | h w | x w | z w | s w | t w => w
  | cnot _ target => target

def onPair : Gate → C32 fp → C32 fp → C32 fp × C32 fp
  | h _, a, b =>
    (⟨fp.mul (fp.add a.re b.re) fp.fracOneSqrt2, fp.mul (fp.add a.im b.im) fp.fracOneSqrt2⟩,
      ⟨fp.mul (fp.sub a.re b.re) fp.fracOneSqrt2, fp.mul (fp.sub a.im b.im) fp.fracOneSqrt2⟩)
  | x _, a, b | cnot _ _, a, b => (b, a)
  | z _, a, b => (a, ⟨fp.neg b.re, fp.neg b.im⟩)
  | s _, a, b => (a, ⟨fp.neg b.im, b.re⟩)
  | t _, a, b =>
    (a, ⟨fp.mul (fp.sub b.re b.im) fp.fracOneSqrt2, fp.mul (fp.add b.re b.im) fp.fracOneSqrt2⟩)

def active (i0 : Nat) : Gate → Bool
  | cnot c _ => i0 &&& 2 ^ c ≠ 0
  | _ => true

def apply (gate : Gate) (tid : Nat) (amps : List (C32 fp)) : List (C32 fp) :=
  let i0 := insertZero gate.pairWire tid
  if gate.active i0 then pairUpdate gate.onPair i0 (i0 + 2 ^ gate.pairWire) amps else amps

variable {gate : Gate}

theorem apply_of_active (hactive : ∀ i0, gate.active i0 = true) :
    (fun (amps : List (C32 fp)) tid => gate.apply tid amps) = fun amps tid =>
      pairUpdate gate.onPair (insertZero gate.pairWire tid)
        (insertZero gate.pairWire tid + 2 ^ gate.pairWire) amps := by
  funext amps tid
  exact if_pos (hactive _)

theorem cpu_eq_foldl {n : Nat} (hfits : gate.Fits n) {amps : List (C32 fp)}
    (hamps : amps.length = 2 ^ n) :
    gate.cpu amps = (List.range (2 ^ (n - 1))).foldl (fun amps tid => gate.apply tid amps) amps := by
  cases gate with
  | h w =>
    rw [apply_of_active fun _ => rfl]
    exact forPairs_eq_foldl hfits (h w).onPair hamps
  | x w =>
    rw [apply_of_active fun _ => rfl]
    exact forPairs_eq_foldl hfits (x w).onPair hamps
  | z w =>
    rw [apply_of_active fun _ => rfl]
    exact forPairs_eq_foldl hfits (z w).onPair hamps
  | s w =>
    rw [apply_of_active fun _ => rfl]
    exact forPairs_eq_foldl hfits (s w).onPair hamps
  | t w =>
    rw [apply_of_active fun _ => rfl]
    exact forPairs_eq_foldl hfits (t w).onPair hamps
  | cnot c target =>
    rw [cpu, gateCNOT_eq_foldl hfits.2 hamps]
    simp only [apply, active, decide_eq_true_eq]
    rfl

def item (fp : FloatOps) (gate : Gate) (tid : Nat) : Kernel fp :=
  let i0 := insertZero gate.pairWire tid
  if gate.active i0 then
    pairGate gate.onPair (UInt32.ofNat i0) (UInt32.ofNat (i0 + 2 ^ gate.pairWire))
  else .done

end Gate

section WorkItems

variable {n : Nat} {gate : Gate} {p : PushConstants} {tid : Nat}

theorem toNat_ofNat_wire {w : Nat} (hn : n ≤ 30) (hw : w < n) :
    (UInt32.ofNat w).toNat = w := UInt32.toNat_ofNat_of_lt' (by norm_num; omega)

theorem pow_le_word (hn : n ≤ 30) : 2 ^ n ≤ 2 ^ 30 := Nat.pow_le_pow_right (by norm_num) hn

theorem totalPairs (hlow : 1 ≤ n) (hn : n ≤ 30) (hsize : p.size = UInt32.ofNat (2 ^ n)) :
    (p.size >>> 1).toNat = 2 ^ (n - 1) := by
  have hpow := pow_le_word hn
  have hhalf : 2 ^ n = 2 ^ (n - 1) * 2 := by rw [← Nat.pow_succ]; congr 1; omega
  rw [hsize, UInt32.toNat_shiftRight, UInt32.toNat_ofNat_of_lt' (by norm_num; omega), hhalf]
  simp [Nat.shiftRight_eq_div_pow]

theorem indices {w : Nat} (hn : n ≤ 30) (hw : w < n) (htid : tid < 2 ^ (n - 1)) :
    insertBit (UInt32.ofNat w) (UInt32.ofNat tid) = UInt32.ofNat (insertZero w tid) ∧
      UInt32.ofNat (insertZero w tid) ||| 1 <<< UInt32.ofNat w =
        UInt32.ofNat (insertZero w tid + 2 ^ w) := by
  have hw' := toNat_ofNat_wire hn hw
  have hword : 2 ^ (n - 1) ≤ 2 ^ 30 := pow_le_word (by omega)
  have htid' : (UInt32.ofNat tid).toNat = tid := UInt32.toNat_ofNat_of_lt' (by norm_num; omega)
  have hlt := (insertZero_add_lt hw htid).trans_le (pow_le_word hn)
  have hpos := Nat.two_pow_pos w
  have hi0 : (UInt32.ofNat (insertZero w tid)).toNat = insertZero w tid :=
    UInt32.toNat_ofNat_of_lt' (by norm_num; omega)
  constructor
  · apply UInt32.toNat_inj.mp
    rw [toNat_insertBit hn (by rwa [hw']) (by rwa [htid']), hw', htid', hi0]
  · apply UInt32.toNat_inj.mp
    rw [UInt32.toNat_or, toNat_mask (by omega), hw', hi0, insertZero_or,
      UInt32.toNat_ofNat_of_lt' (by norm_num; omega)]

theorem main_eq_item (hlow : 1 ≤ n) (hn : n ≤ 30) (hfits : gate.Fits n)
    (hencoded : gate.EncodedBy p) (hsize : p.size = UInt32.ofNat (2 ^ n))
    (htid : tid < 2 ^ (n - 1)) : main fp p (UInt32.ofNat tid) = gate.item fp tid := by
  have hword : 2 ^ (n - 1) ≤ 2 ^ 30 := pow_le_word (by omega)
  have hbusy : ¬ UInt32.ofNat tid ≥ p.size >>> 1 := by
    rw [ge_iff_le, UInt32.le_iff_toNat_le, totalPairs hlow hn hsize,
      UInt32.toNat_ofNat_of_lt' (by norm_num; omega)]
    omega
  rw [main, if_neg hbusy]
  cases gate with
  | h w | x w | z w | s w | t w =>
    obtain ⟨hcode, hwire⟩ := hencoded
    obtain ⟨hi0, hi1⟩ := indices hn hfits htid
    rw [hcode, if_neg (by decide), hwire]
    dsimp only
    rw [hi0, hi1]
    rfl
  | cnot c target =>
    obtain ⟨hcode, hcontrol, htarget⟩ := hencoded
    obtain ⟨hi0, hi1⟩ := indices hn hfits.2 htid
    have hlt := (insertZero_add_lt hfits.2 htid).trans_le (pow_le_word hn)
    have hpos := Nat.two_pow_pos target
    have hmask : UInt32.ofNat (insertZero target tid) &&& 1 <<< UInt32.ofNat c ≠ 0 ↔
        (Gate.cnot c target).active (insertZero target tid) = true := by
      rw [ne_eq, ← UInt32.toNat_inj, UInt32.toNat_and, toNat_mask, toNat_ofNat_wire hn hfits.1,
        UInt32.toNat_ofNat_of_lt' (by norm_num; omega)]
      · simp [Gate.active]
      · rw [toNat_ofNat_wire hn hfits.1]
        have := hfits.1
        omega
    rw [hcode, if_pos rfl, htarget, hcontrol]
    dsimp only
    rw [hi0, hi1]
    change (if UInt32.ofNat (insertZero target tid) &&& 1 <<< UInt32.ofNat c ≠ 0 then _ else _) = _
    simp only [hmask]
    rfl

theorem main_eq_done (hlow : 1 ≤ n) (hn : n ≤ 30) (hsize : p.size = UInt32.ofNat (2 ^ n))
    (htid : 2 ^ (n - 1) ≤ tid) (hword : tid < 2 ^ 32) : main fp p (UInt32.ofNat tid) = .done := by
  have hidle : UInt32.ofNat tid ≥ p.size >>> 1 := by
    rw [ge_iff_le, UInt32.le_iff_toNat_le, totalPairs hlow hn hsize,
      UInt32.toNat_ofNat_of_lt' hword]
    exact htid
  rw [main, if_pos hidle]

end WorkItems

/-! ## The buffer -/

section Buffer

variable {size i0 i1 : Nat}

theorem two_mul_ofNat (i : Nat) : 2 * UInt32.ofNat i = UInt32.ofNat (2 * i) := by simp

theorem two_mul_ofNat_add (i : Nat) :
    2 * UInt32.ofNat i + 1 = UInt32.ofNat (2 * i + 1) := by simp

theorem ofNat_eq_iff {a b : Nat} (ha : a < 2 ^ 32) (hb : b < 2 ^ 32) :
    UInt32.ofNat a = UInt32.ofNat b ↔ a = b := by
  rw [← UInt32.toNat_inj, UInt32.toNat_ofNat_of_lt' ha, UInt32.toNat_ofNat_of_lt' hb]

theorem readBack_length (state : UInt32 → fp.F32) : (readBack size state).length = size := by
  rw [readBack, List.length_map, List.length_range]

theorem amp_readBack (state : UInt32 → fp.F32) {i : Nat} (hi : i < size) :
    amp (readBack size state) i =
      ⟨state (UInt32.ofNat (2 * i)), state (UInt32.ofNat (2 * i + 1))⟩ := by
  simp [amp, readBack, hi]

theorem readBack_stateBuffer (amps : List (C32 fp)) (hlen : amps.length ≤ 2 ^ 30) :
    readBack amps.length (stateBuffer amps) = amps := by
  apply List.ext_getElem (readBack_length _)
  intro i _ hi
  have heven : (UInt32.ofNat (2 * i)).toNat = 2 * i := UInt32.toNat_ofNat_of_lt' (by norm_num; omega)
  have hodd : (UInt32.ofNat (2 * i + 1)).toNat = 2 * i + 1 :=
    UInt32.toNat_ofNat_of_lt' (by norm_num; omega)
  have hhalf : (2 * i + 1) / 2 = i := by omega
  simp only [readBack, List.getElem_map, List.getElem_range, stateBuffer, heven, hodd, hhalf]
  simp [amp, hi]

theorem readBack_pairGate (f : C32 fp → C32 fp → C32 fp × C32 fp) (hsize : size ≤ 2 ^ 30)
    (h0 : i0 < size) (h1 : i1 < size) (state : UInt32 → fp.F32) :
    readBack size ((pairGate f (UInt32.ofNat i0) (UInt32.ofNat i1)).run state) =
      pairUpdate f i0 i1 (readBack size state) := by
  rw [pairUpdate, amp_readBack state h0, amp_readBack state h1]
  generalize hpair : f _ _ = pair
  have hrun : (pairGate f (UInt32.ofNat i0) (UInt32.ofNat i1)).run state =
      Function.update (Function.update (Function.update (Function.update state
        (UInt32.ofNat (2 * i0)) pair.1.re) (UInt32.ofNat (2 * i0 + 1)) pair.1.im)
        (UInt32.ofNat (2 * i1)) pair.2.re) (UInt32.ofNat (2 * i1 + 1)) pair.2.im := by
    rw [← hpair, ← two_mul_ofNat, ← two_mul_ofNat, ← two_mul_ofNat_add, ← two_mul_ofNat_add]
    rfl
  rw [hrun]
  apply List.ext_getElem
  · rw [readBack_length, List.length_set, List.length_set, readBack_length]
  · intro i hi _
    rw [readBack_length] at hi
    have hword : 2 * size ≤ 2 ^ 31 := by omega
    simp only [readBack, List.getElem_map, List.getElem_range, List.getElem_set,
      Function.update_apply]
    simp (disch := omega) only [ofNat_eq_iff]
    -- Addresses of different amplitudes, and of different halves of one, are different.
    split_ifs <;> first | omega | rfl

end Buffer

/-! ## Any order of the work items -/

section Dispatch

variable {n : Nat} {gate : Gate} {p : PushConstants} {invocations tid : Nat}

def owner (q : Nat) (address : UInt32) : Nat := removeBit q (address.toNat / 2)

theorem Gate.Fits.pairWire_lt (hfits : gate.Fits n) : gate.pairWire < n := by
  cases gate with
  | h w | x w | z w | s w | t w => exact hfits
  | cnot c target => exact hfits.2

theorem pairGate_within {P : UInt32 → Prop} (f : C32 fp → C32 fp → C32 fp × C32 fp)
    {i0 i1 : UInt32} (hre0 : P (2 * i0)) (him0 : P (2 * i0 + 1)) (hre1 : P (2 * i1))
    (him1 : P (2 * i1 + 1)) : (pairGate f i0 i1).Within P :=
  .load hre0 fun _ => .load him0 fun _ => .load hre1 fun _ => .load him1 fun _ =>
    .store hre0 (.store him0 (.store hre1 (.store him1 .done)))

theorem item_within (hn : n ≤ 30) (hwire : gate.pairWire < n) (htid : tid < 2 ^ (n - 1)) :
    (gate.item fp tid).Within fun a => owner gate.pairWire a = tid := by
  have hlt := (insertZero_add_lt hwire htid).trans_le (pow_le_word hn)
  have hpos := Nat.two_pow_pos gate.pairWire
  rw [Gate.item]
  split
  · have howned : ∀ i b, (i = insertZero gate.pairWire tid ∨
        i = insertZero gate.pairWire tid + 2 ^ gate.pairWire) → b ≤ 1 →
        owner gate.pairWire (UInt32.ofNat (2 * i + b)) = tid := by
      intro i b hi hb
      have hhalf : (2 * i + b) / 2 = i := by omega
      rw [owner, UInt32.toNat_ofNat_of_lt' (by norm_num; omega), hhalf]
      rcases hi with rfl | rfl
      · exact removeBit_insertZero _ _
      · exact removeBit_insertZero_add _ _
    refine pairGate_within _ ?_ ?_ ?_ ?_
    · exact two_mul_ofNat _ ▸ howned _ 0 (.inl rfl) (by norm_num)
    · exact two_mul_ofNat_add _ ▸ howned _ 1 (.inl rfl) (by norm_num)
    · exact two_mul_ofNat _ ▸ howned _ 0 (.inr rfl) (by norm_num)
    · exact two_mul_ofNat_add _ ▸ howned _ 1 (.inr rfl) (by norm_num)
  · exact .done

theorem readBack_item (hn : n ≤ 30) (hwire : gate.pairWire < n) (htid : tid < 2 ^ (n - 1))
    (state : UInt32 → fp.F32) :
    readBack (2 ^ n) ((gate.item fp tid).run state) = gate.apply tid (readBack (2 ^ n) state) := by
  have hlt := insertZero_add_lt hwire htid
  have hpos := Nat.two_pow_pos gate.pairWire
  rw [Gate.item, Gate.apply]
  split
  · exact readBack_pairGate _ (pow_le_word hn) (by omega) hlt state
  · rfl

variable (hlow : 1 ≤ n) (hn : n ≤ 30) (hfits : gate.Fits n) (hencoded : gate.EncodedBy p)
  (hsize : p.size = UInt32.ofNat (2 ^ n)) (hall : 2 ^ (n - 1) ≤ invocations)
  (hword : invocations ≤ 2 ^ 32)

include hlow hn hsize hword in
theorem dispatch_idle (htid : 2 ^ (n - 1) ≤ tid) : dispatch fp p invocations tid = .done := by
  rw [dispatch]
  split
  next hlaunched => exact main_eq_done hlow hn hsize htid (hlaunched.trans_le hword)
  next => rfl

include hlow hn hfits hencoded hsize hall in
theorem dispatch_busy (htid : tid < 2 ^ (n - 1)) :
    dispatch fp p invocations tid = gate.item fp tid := by
  rw [dispatch, if_pos (htid.trans_le hall)]
  exact main_eq_item hlow hn hfits hencoded hsize htid

include hlow hn hfits hencoded hsize hall hword in
theorem dispatch_owned : Owned (owner gate.pairWire) (dispatch fp p invocations) := by
  intro tid
  rcases Nat.lt_or_ge tid (2 ^ (n - 1)) with htid | htid
  · rw [dispatch_busy hlow hn hfits hencoded hsize hall htid]
    exact item_within hn hfits.pairWire_lt htid
  · rw [dispatch_idle hlow hn hsize hword htid]
    exact .done

include hlow hn hfits hencoded hsize hall in
theorem readBack_runInOrder_range {items : Nat} (hitems : items ≤ 2 ^ (n - 1))
    (state : UInt32 → fp.F32) :
    readBack (2 ^ n) (runInOrder (dispatch fp p invocations) (List.range items) state) =
      (List.range items).foldl (fun amps tid => gate.apply tid amps) (readBack (2 ^ n) state) := by
  induction items with
  | zero => rfl
  | succ items ih =>
    rw [List.range_succ, List.foldl_append, ← ih (Nat.le_of_succ_le hitems), runInOrder,
      List.foldl_append]
    change readBack (2 ^ n) ((dispatch fp p invocations items).run _) = gate.apply items _
    rw [dispatch_busy hlow hn hfits hencoded hsize hall hitems]
    exact readBack_item hn hfits.pairWire_lt hitems _

include hlow hn hfits hencoded hsize hall hword in
theorem readBack_eq_cpu {amps : List (C32 fp)} (hamps : amps.length = 2 ^ n)
    {state : UInt32 → fp.F32}
    (hstate : ∀ a, state a = (dispatch fp p invocations (owner gate.pairWire a)).run
      (stateBuffer amps) a) :
    readBack (2 ^ n) state = gate.cpu amps := by
  have howned : Owned (owner gate.pairWire) (dispatch fp p invocations) :=
    dispatch_owned hlow hn hfits hencoded hsize hall hword
  have hsequential : state =
      runInOrder (dispatch fp p invocations) (List.range (2 ^ (n - 1))) (stateBuffer amps) := by
    funext a
    rw [hstate a]
    by_cases hmem : owner gate.pairWire a ∈ List.range (2 ^ (n - 1))
    · exact (runInOrder_eq howned List.nodup_range _ hmem).symm
    · rw [runInOrder_of_not_mem howned _ hmem,
        dispatch_idle hlow hn hsize hword (by simpa using hmem)]
      rfl
  have hbuffer := readBack_stateBuffer amps (hamps ▸ pow_le_word hn)
  rw [hamps] at hbuffer
  rw [hsequential, readBack_runInOrder_range hlow hn hfits hencoded hsize hall (Nat.le_refl _),
    hbuffer, Gate.cpu_eq_foldl hfits hamps]

end Dispatch

/-- A dispatch of the kernel leaves the statevector of the sequential gate, for whole work items
in any order and for any interleaving of their accesses. -/
theorem dispatch_eq_sequential_gate {n : Nat} (hlow : 1 ≤ n) (hhigh : n ≤ 30)
    (amps : List (C32 fp)) (hamps : amps.length = 2 ^ n) (gate : Gate) (hfits : gate.Fits n)
    (p : PushConstants) (hencoded : gate.EncodedBy p) (hsize : p.size = UInt32.ofNat (2 ^ n))
    (invocations : Nat) (hall : 2 ^ (n - 1) ≤ invocations) (hword : invocations ≤ 2 ^ 32) :
    gate.port amps = gate.cpu amps ∧
    (∀ order : List Nat, order.Perm (List.range invocations) →
      readBack (2 ^ n) (runInOrder (dispatch fp p invocations) order (stateBuffer amps)) =
        gate.cpu amps) ∧
    (∀ schedule : List Nat,
      ((Pool.mk (stateBuffer amps) (dispatch fp p invocations)).run schedule).Finished →
      readBack (2 ^ n)
        ((Pool.mk (stateBuffer amps) (dispatch fp p invocations)).run schedule).mem =
        gate.cpu amps) := by
  have howned : Owned (owner gate.pairWire) (dispatch fp p invocations) :=
    dispatch_owned hlow hhigh hfits hencoded hsize hall hword
  refine ⟨gate.port_eq_cpu amps, fun order horder => ?_, fun schedule hfinished => ?_⟩
  · refine readBack_eq_cpu hlow hhigh hfits hencoded hsize hall hword hamps fun a => ?_
    by_cases hmem : owner gate.pairWire a ∈ order
    · exact runInOrder_eq howned (horder.nodup_iff.mpr List.nodup_range) _ hmem
    · have hidle : invocations ≤ owner gate.pairWire a := by
        rw [horder.mem_iff, List.mem_range] at hmem
        omega
      rw [runInOrder_of_not_mem howned _ hmem,
        dispatch_idle hlow hhigh hsize hword (hall.trans hidle)]
      rfl
  · refine readBack_eq_cpu hlow hhigh hfits hencoded hsize hall hword hamps fun a => ?_
    exact Pool.Finished.mem_eq howned hfinished a

theorem dispatch_cnot_eq_sequential_gate :
    (Gate.cnot 0 1).port (init .ieee 2) = (Gate.cnot 0 1).cpu (init .ieee 2) ∧
    (∀ order : List Nat, order.Perm (List.range 256) →
      readBack (2 ^ 2) (runInOrder (dispatch .ieee ⟨5, 0, 0, 1, 4⟩ 256) order
        (stateBuffer (init .ieee 2))) = (Gate.cnot 0 1).cpu (init .ieee 2)) ∧
    (∀ schedule : List Nat,
      ((Pool.mk (stateBuffer (init .ieee 2)) (dispatch .ieee ⟨5, 0, 0, 1, 4⟩ 256)).run
        schedule).Finished →
      readBack (2 ^ 2) ((Pool.mk (stateBuffer (init .ieee 2))
        (dispatch .ieee ⟨5, 0, 0, 1, 4⟩ 256)).run schedule).mem =
        (Gate.cnot 0 1).cpu (init .ieee 2)) :=
  dispatch_eq_sequential_gate (by norm_num) (by norm_num) (init .ieee 2) rfl (.cnot 0 1)
    ⟨by norm_num, by norm_num⟩ ⟨5, 0, 0, 1, 4⟩ ⟨rfl, rfl, rfl⟩ rfl 256 (by norm_num) (by norm_num)

end HcsCoin.QuantumMiner
