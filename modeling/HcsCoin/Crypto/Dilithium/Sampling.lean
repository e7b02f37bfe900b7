import HcsCoin.Crypto.Dilithium.Packing
import HcsCoin.Crypto.Dilithium.Poly

/-!
# Sampling in dilithium.c

SHAKE is a parameter: a stream of bytes for every string of absorbed bytes.  The
rejection loops have no bound in the source; here each is given a number of
rounds, and a loop that has not ended by then fails with `timeout`.
-/

namespace HcsCoin.Dilithium

open Foundation

/-- What the two functions squeeze out once the given bytes have been absorbed. -/
structure Shake where
  shake128 : Bytes → Nat → UInt8
  shake256 : Bytes → Nat → UInt8

def squeeze (stream : Nat → UInt8) (count : Nat) : Bytes := (List.range count).map stream

@[simp] theorem length_squeeze (stream : Nat → UInt8) (count : Nat) :
    (squeeze stream count).length = count := by
  simp [squeeze]

def SHAKE128_RATE : Nat := 168
def SHAKE256_RATE : Nat := 136

def withNonce (seed : Bytes) (nonce : UInt16) : Bytes := seed ++ leBytes 2 nonce.toNat

/-! ## Rejection sampling of polynomials -/

/-- What is added to the coefficients at a position of a block. -/
abbrev SampleStep := (Nat → UInt8) → List Int → Nat → List Int

/-- Blocks of output are taken until all 256 coefficients are there. -/
def sampleBlocks (step : SampleStep) (positions : List Nat) (rate : Nat) (stream : Nat → UInt8) :
    (fuel start : Nat) → List Int → Exec (List Int)
  | 0, _, _ => throw .timeout
  | fuel + 1, start, coeffs =>
    if coeffs.length < 256 then
      sampleBlocks step positions rate stream fuel (start + rate)
        (positions.foldl (step fun p => stream (start + p)) coeffs)
    else pure coeffs

def polyOfCoeffs (coeffs : List Int) : Poly := Vector.ofFn fun j => coeffs.getD j 0

def samplePoly (step : SampleStep) (positions : List Nat) (rate : Nat) (stream : Nat → UInt8)
    (fuel : Nat) : Exec Poly := do
  pure (polyOfCoeffs (← sampleBlocks step positions rate stream fuel 0 []))

def uniformStep (buf : Nat → UInt8) (coeffs : List Int) (pos : Nat) : List Int :=
  if coeffs.length < 256 then
    let t := (buf pos).toNat ||| (buf (pos + 1)).toNat <<< 8 ||| (buf (pos + 2)).toNat <<< 16
    let t := t &&& 0x7FFFFF
    if t < 8380417 then coeffs ++ [(t : Int)] else coeffs
  else coeffs

def dilPolyUniform (shake : Shake) (fuel : Nat) (rho : Bytes) (nonce : UInt16) : Exec Poly :=
  samplePoly uniformStep (List.range' 0 (SHAKE128_RATE / 3) 3) SHAKE128_RATE
    (shake.shake128 (withNonce rho nonce)) fuel

/-- A nibble becomes a coefficient; 15 is rejected. -/
def etaNibble (coeffs : List Int) (t : Nat) : List Int :=
  if t < 15 then coeffs ++ [2 - ((t - 205 * t / 2 ^ 10 * 5 : Nat) : Int)] else coeffs

def etaStep (buf : Nat → UInt8) (coeffs : List Int) (pos : Nat) : List Int :=
  if coeffs.length < 256 then
    let coeffs := etaNibble coeffs ((buf pos).toNat % 16)
    if coeffs.length < 256 then etaNibble coeffs ((buf pos).toNat / 16) else coeffs
  else coeffs

def dilPolyUniformEta (shake : Shake) (fuel : Nat) (rhoprime : Bytes) (nonce : UInt16) :
    Exec Poly :=
  samplePoly etaStep (List.range SHAKE256_RATE) SHAKE256_RATE
    (shake.shake256 (withNonce rhoprime nonce)) fuel

/-! ## Uniform sampling from a power of two -/

def gamma1Pair (buf : Nat → UInt8) (i : Nat) : Nat × Nat :=
  let t0 := (buf (5 * i)).toNat ||| (buf (5 * i + 1)).toNat <<< 8 ||| (buf (5 * i + 2)).toNat <<< 16
  let t1 := (buf (5 * i + 2)).toNat >>> 4 ||| (buf (5 * i + 3)).toNat <<< 4 |||
    (buf (5 * i + 4)).toNat <<< 12
  (t0 &&& 0xFFFFF, t1)

def dilPolyUniformGamma1 (shake : Shake) (rhoprime : Bytes) (nonce : UInt16) : Exec Poly :=
  let outbuf := shake.shake256 (withNonce rhoprime nonce)
  tabulate 256 fun j =>
    let t := gamma1Pair outbuf (j / 2)
    int32 (DIL_GAMMA1 - (if j.val % 2 = 0 then t.1 else t.2 : Nat))

def dilPolyveclUniformGamma1 (shake : Shake) (rhoprime : Bytes) (nonce : UInt16) : Exec PolyVecL :=
  tabulate 7 fun i => dilPolyUniformGamma1 shake rhoprime (.ofNat (7 * nonce.toNat + i))

/-! ## The challenge -/

/-- The inner loop of `dil_poly_challenge`: the next byte up to `i`, and where the one
after it stands.  Refilling `buf` at its end goes on with the stream. -/
def challengeIndex (stream : Nat → UInt8) (i : Fin 256) : (fuel pos : Nat) → Exec (Fin 256 × Nat)
  | 0, _ => throw .timeout
  | fuel + 1, pos =>
    let j := (stream pos).toFin
    if j ≤ i then pure (j, pos + 1) else challengeIndex stream i fuel (pos + 1)

structure ChallengeState where
  pos : Nat
  signs : Nat
  c : Poly

def challengeStep (stream : Nat → UInt8) (fuel : Nat) (s : ChallengeState) (i : Fin 256) :
    Exec ChallengeState := do
  let (j, pos) ← challengeIndex stream i fuel s.pos
  let c := s.c.set i s.c[j]
  pure ⟨pos, s.signs >>> 1, c.set j (if s.signs &&& 1 = 1 then -1 else 1)⟩

def dilPolyChallenge (shake : Shake) (fuel : Nat) (seed : Bytes) : Exec Poly := do
  let stream := shake.shake256 seed
  let s ← ((List.range' 196 60).map (Fin.ofNat 256)).foldlM (challengeStep stream fuel)
    ⟨8, leNat (squeeze stream 8), .replicate 256 0⟩
  pure s.c

/-! ## The matrix -/

def dilExpandMat (shake : Shake) (fuel : Nat) (rho : Bytes) : Exec (Vector PolyVecL 8) :=
  tabulate 8 fun i => tabulate 7 fun j =>
    dilPolyUniform shake fuel rho (.ofNat ((i.val <<< 8) + j))

/-! ## What the samplers return -/

section Judgements

variable {E : Fault → Prop} (hE : E .timeout) {coeffs : List Int} {P : Int → Prop}

def Drawn (P : Int → Prop) (coeffs : List Int) : Prop :=
  coeffs.length ≤ 256 ∧ ∀ c ∈ coeffs, P c

theorem drawn_nil : Drawn P [] := ⟨Nat.zero_le _, fun _ hc => absurd hc List.not_mem_nil⟩

theorem Drawn.append {c : Int} (h : Drawn P coeffs) (hlength : coeffs.length < 256) (hc : P c) :
    Drawn P (coeffs ++ [c]) := by
  refine ⟨by simpa using hlength, fun x hx => ?_⟩
  rcases List.mem_append.mp hx with hx | hx
  · exact h.2 x hx
  · rwa [List.mem_singleton.mp hx]

theorem foldl_drawn {step : List Int → Nat → List Int}
    (hstep : ∀ coeffs pos, Drawn P coeffs → Drawn P (step coeffs pos)) (positions : List Nat)
    (h : Drawn P coeffs) : Drawn P (positions.foldl step coeffs) := by
  induction positions generalizing coeffs with
  | nil => exact h
  | cons pos positions ih => exact ih (hstep coeffs pos h)

variable (buf : Nat → UInt8)

theorem uniformStep_drawn (coeffs : List Int) (pos : Nat)
    (h : Drawn (fun c => 0 ≤ c ∧ c < DIL_Q) coeffs) :
    Drawn (fun c => 0 ≤ c ∧ c < DIL_Q) (uniformStep buf coeffs pos) := by
  rw [uniformStep]
  split
  case isFalse => exact h
  case isTrue hlength =>
    dsimp only
    split
    case isFalse => exact h
    case isTrue ht => exact h.append hlength ⟨Int.natCast_nonneg _, Int.ofNat_lt.mpr ht⟩

theorem etaNibble_drawn (t : Nat) (hlength : coeffs.length < 256) (h : Drawn (|·| ≤ 2) coeffs) :
    Drawn (|·| ≤ 2) (etaNibble coeffs t) := by
  rw [etaNibble]
  split
  case isFalse => exact h
  case isTrue ht =>
    refine h.append hlength ?_
    rw [abs_le]
    omega

theorem etaStep_drawn (coeffs : List Int) (pos : Nat) (h : Drawn (|·| ≤ 2) coeffs) :
    Drawn (|·| ≤ 2) (etaStep buf coeffs pos) := by
  rw [etaStep]
  split
  case isFalse => exact h
  case isTrue hlength =>
    have hfirst := etaNibble_drawn ((buf pos).toNat % 16) hlength h
    dsimp only
    split
    case isFalse => exact hfirst
    case isTrue hlength => exact etaNibble_drawn _ hlength hfirst

variable {step : SampleStep} {positions : List Nat} {rate rounds fuel start : Nat}
  {stream : Nat → UInt8}

theorem toList_polyOfCoeffs (hlength : coeffs.length = 256) :
    (polyOfCoeffs coeffs).toList = coeffs := by
  refine List.ext_getElem (by simp [hlength]) fun j _ hj => ?_
  simp [polyOfCoeffs, hj]

section Loop

variable (hdraw : ∀ start coeffs pos, Drawn P coeffs →
  Drawn P (step (fun p => stream (start + p)) coeffs pos))
include hE hdraw

theorem sampleBlocks_ensures (h : Drawn P coeffs) :
    Ensures E (sampleBlocks step positions rate stream fuel start coeffs) fun coeffs =>
      coeffs.length = 256 ∧ ∀ c ∈ coeffs, P c := by
  induction fuel generalizing start coeffs with
  | zero => exact ⟨fun x hx => (by cases hx), fun e he => (by cases he; exact hE)⟩
  | succ fuel ih =>
    rw [sampleBlocks]
    split
    case isTrue => exact ih (foldl_drawn (hdraw start) positions h)
    case isFalse hlength => exact Ensures.pure ⟨le_antisymm h.1 (not_lt.mp hlength), h.2⟩

theorem samplePoly_ensures :
    Ensures E (samplePoly step positions rate stream fuel) fun r => ∀ j : Fin 256, P r[j] := by
  refine (sampleBlocks_ensures hE hdraw drawn_nil).bind fun coeffs h => Ensures.pure fun j => ?_
  have hmem : (polyOfCoeffs coeffs)[j] ∈ (polyOfCoeffs coeffs).toList := by simp
  rw [toList_polyOfCoeffs h.1] at hmem
  exact h.2 _ hmem

omit hE in
/-- What a sampler returns is what its loop has drawn. -/
theorem sampleBlocks_toList {a : Poly} (h : samplePoly step positions rate stream fuel = .ok a) :
    sampleBlocks step positions rate stream fuel 0 [] = .ok a.toList := by
  cases hloop : sampleBlocks step positions rate stream fuel 0 [] with
  | error e =>
    rw [samplePoly, hloop] at h
    cases h
  | ok coeffs =>
    have hdrawn := (sampleBlocks_ensures (E := fun _ => True) trivial hdraw drawn_nil).apply hloop
    rw [samplePoly, hloop, ok_bind] at h
    rw [← Except.ok.inj h, toList_polyOfCoeffs hdrawn.1]

end Loop

/-- How many coefficients the first blocks hold, with no end at 256. -/
def accepted (step : SampleStep) (positions : List Nat) (rate : Nat) (stream : Nat → UInt8) :
    (rounds start : Nat) → Nat
  | 0, _ => 0
  | rounds + 1, start =>
    (positions.map fun pos => (step (fun p => stream (start + p)) [] pos).length).sum +
      accepted step positions rate stream rounds (start + rate)

/-- Until there are 256 coefficients, a step adds as many as it would add to none. -/
def Accepts (step : SampleStep) : Prop :=
  ∀ buf coeffs pos,
    min 256 (coeffs.length + (step buf [] pos).length) ≤ (step buf coeffs pos).length

theorem uniformStep_accepts : Accepts uniformStep := by
  intro buf coeffs pos
  simp only [uniformStep, List.length_nil]
  split_ifs <;> (simp; try omega)

theorem etaStep_accepts : Accepts etaStep := by
  intro buf coeffs pos
  simp only [etaStep, etaNibble, List.length_nil]
  split_ifs <;> simp at * <;> omega

theorem Accepts.foldl (hstep : Accepts step) (coeffs : List Int) (positions : List Nat) :
    min 256 (coeffs.length + (positions.map fun pos => (step buf [] pos).length).sum) ≤
      (positions.foldl (step buf) coeffs).length := by
  induction positions generalizing coeffs with
  | nil => simp
  | cons pos positions ih =>
    rw [List.map_cons, List.sum_cons, List.foldl_cons]
    have hrest := ih (step buf coeffs pos)
    have hpos := hstep buf coeffs pos
    omega

theorem sampleBlocks_ok (hstep : Accepts step)
    (h : 256 ≤ coeffs.length + accepted step positions rate stream rounds start)
    (hfuel : rounds < fuel) :
    ∃ r, sampleBlocks step positions rate stream fuel start coeffs = .ok r := by
  induction fuel generalizing rounds start coeffs with
  | zero => omega
  | succ fuel ih =>
    rw [sampleBlocks]
    split
    case isFalse => exact ⟨coeffs, rfl⟩
    case isTrue hlength =>
      obtain _ | rounds := rounds
      · rw [accepted] at h
        omega
      · have hblock := hstep.foldl (fun p => stream (start + p)) coeffs positions
        rw [accepted] at h
        refine ih ?_ (show rounds < fuel by omega)
        omega

theorem samplePoly_ok (hstep : Accepts step)
    (h : 256 ≤ accepted step positions rate stream rounds 0) (hfuel : rounds < fuel) :
    ∃ a, samplePoly step positions rate stream fuel = .ok a := by
  obtain ⟨r, hr⟩ := sampleBlocks_ok hstep (show 256 ≤ ([] : List Int).length + _ by simpa) hfuel
  exact ⟨polyOfCoeffs r, by rw [samplePoly, hr]; rfl⟩

include hE

variable (shake : Shake) (fuel : Nat)

theorem dilPolyUniform_ensures (rho : Bytes) (nonce : UInt16) :
    Ensures E (dilPolyUniform shake fuel rho nonce) fun r =>
      ∀ j : Fin 256, 0 ≤ r[j] ∧ r[j] < DIL_Q :=
  samplePoly_ensures hE fun _ => uniformStep_drawn _

variable (rhoprime : Bytes) (nonce : UInt16)

theorem dilPolyUniformEta_ensures :
    Ensures E (dilPolyUniformEta shake fuel rhoprime nonce) fun r => Bounded 2 r :=
  samplePoly_ensures hE fun _ => etaStep_drawn _

theorem challengeIndex_ensures (stream : Nat → UInt8) (i : Fin 256) (fuel pos : Nat) :
    Ensures E (challengeIndex stream i fuel pos) fun r => r.1 ≤ i := by
  induction fuel generalizing pos with
  | zero => exact ⟨fun x hx => (by cases hx), fun e he => (by cases he; exact hE)⟩
  | succ fuel ih =>
    rw [challengeIndex]
    split
    case isTrue hle => exact Ensures.pure hle
    case isFalse => exact ih (pos + 1)

/-- The shuffle come to entry `i`: each round has added one entry, and those from `i` on are
still zero. -/
structure Shuffled (i : Nat) (a : Poly) : Prop where
  unit : ∀ k : Fin 256, a[k] ≠ 0 → a[k] = 1 ∨ a[k] = -1
  above : ∀ k : Fin 256, i ≤ k → a[k] = 0
  weight : a.countP (· ≠ 0) + 196 = i

variable {i : Fin 256} {count k : Nat} {s : ChallengeState} {stream : Nat → UInt8} {p : Nat → Nat}

omit hE in
theorem Shuffled.round {a : Poly} {n : Nat} {j : Fin 256} {sign : Int} (h : Shuffled n a)
    (hi : i.val = n) (hj : j ≤ i) (hsign : sign = 1 ∨ sign = -1) :
    Shuffled (n + 1) ((a.set i a[j] i.isLt).set j sign j.isLt) := by
  have hzero : a[i] = 0 := h.above i hi.ge
  -- whether or not `j` is `i`, the sign overwrites a copy of the old entry `j`
  have hcopy : (a.set i a[j] i.isLt)[j] = a[j] := by
    rw [vector_getElem_fin, Vector.getElem_set]
    split <;> rfl
  refine ⟨fun k => ?_, fun k hk => ?_, ?_⟩
  · rw [vector_getElem_fin, Vector.getElem_set]
    split
    · exact fun _ => hsign
    · rw [Vector.getElem_set]
      split
      · exact h.unit j
      · exact h.unit k
  · rw [vector_getElem_fin, Vector.getElem_set_ne _ _ (by omega), Vector.getElem_set_ne _ _ (by omega)]
    exact h.above k (by omega)
  · have hsign : sign ≠ 0 := by omega
    rw [vector_getElem_fin] at hzero hcopy
    rw [Vector.countP_set, Vector.countP_set, hzero, hcopy, ← h.weight]
    by_cases hne : a[j] = 0
    · simp [hne, hsign]
    · simp [hsign]

theorem challengeLoop_ensures (stream : Nat → UInt8) {i : Nat} (hend : i + count = 256)
    (h : Shuffled i s.c) :
    Ensures E (((List.range' i count).map (Fin.ofNat 256)).foldlM (challengeStep stream fuel) s)
      fun s => Shuffled 256 s.c := by
  induction count generalizing i s with
  | zero =>
    obtain rfl : i = 256 := hend
    exact Ensures.pure h
  | succ count ih =>
    have hi : (Fin.ofNat 256 i).val = i := Nat.mod_eq_of_lt (by omega)
    rw [List.range'_succ, List.map_cons, List.foldlM_cons]
    refine Ensures.bind (P := fun s => Shuffled (i + 1) s.c) ?_ fun s hs => ih (by omega) hs
    refine (challengeIndex_ensures hE _ _ fuel s.pos).bind fun r hr => Ensures.pure ?_
    exact h.round hi hr (by split <;> simp)

omit hE in
theorem challengeIndex_ok {pos q : Nat} (hle : pos ≤ q) (hlt : q < pos + fuel)
    (hq : (stream q).toFin ≤ i) :
    Ensures (fun _ => False) (challengeIndex stream i fuel pos) fun r => r.2 ≤ q + 1 := by
  induction fuel generalizing pos with
  | zero => omega
  | succ fuel ih =>
    rw [challengeIndex]
    split
    case isTrue => exact Ensures.pure (Nat.succ_le_succ hle)
    case isFalse hnot =>
      have hne : pos ≠ q := by
        rintro rfl
        exact hnot hq
      exact ih (by omega) (by omega)

omit hE in
/-- The loop has come to `196 + k` by the byte `p k` if one up to there is always in reach. -/
theorem challengeLoop_ok (hp : StrictMono p)
    (hnext : ∀ k < 60, ∀ pos ≤ p k, ∃ q, pos ≤ q ∧ q ≤ p k ∧ q < pos + fuel ∧
      (stream q).toNat ≤ 196 + k) (hend : k + count = 60) (hpos : s.pos ≤ p k) :
    Ensures (fun _ => False) (((List.range' (196 + k) count).map (Fin.ofNat 256)).foldlM
      (challengeStep stream fuel) s) fun _ => True := by
  induction count generalizing k s with
  | zero => exact Ensures.pure trivial
  | succ count ih =>
    obtain ⟨q, hle, hqk, hlt, hbyte⟩ := hnext k (by omega) s.pos hpos
    have hi : (stream q).toFin ≤ Fin.ofNat 256 (196 + k) :=
      hbyte.trans_eq (Nat.mod_eq_of_lt (by omega)).symm
    rw [List.range'_succ, List.map_cons, List.foldlM_cons]
    refine Ensures.bind (P := fun s => s.pos ≤ p (k + 1)) ?_ fun s hs => ih (by omega) hs
    refine (challengeIndex_ok fuel hle hlt hi).bind fun r hr => Ensures.pure ?_
    exact hr.trans ((Nat.succ_le_succ hqk).trans (hp (Nat.lt_succ_self k)))

omit hE in
theorem dilPolyChallenge_ok {seed : Bytes} (hp : StrictMono p) (h0 : 8 ≤ p 0)
    (hnext : ∀ k < 60, ∀ pos ≤ p k, ∃ q, pos ≤ q ∧ q ≤ p k ∧ q < pos + fuel ∧
      (shake.shake256 seed q).toNat ≤ 196 + k) : ∃ a, dilPolyChallenge shake fuel seed = .ok a := by
  obtain ⟨s, hs, -⟩ := (challengeLoop_ok fuel hp hnext (k := 0)
    (s := ⟨8, leNat (squeeze (shake.shake256 seed) 8), .replicate 256 0⟩) (Nat.zero_add 60) h0).exists_ok
  refine ⟨s.c, ?_⟩
  rw [Nat.add_zero] at hs
  rw [dilPolyChallenge, hs]
  rfl

theorem dilPolyChallenge_shuffled (seed : Bytes) :
    Ensures E (dilPolyChallenge shake fuel seed) (Shuffled 256) := by
  have hstart : Shuffled 196 (.replicate 256 0) := ⟨by simp, by simp, by simp⟩
  exact (challengeLoop_ensures hE fuel _ rfl hstart).bind fun s hs => Ensures.pure hs

theorem dilPolyChallenge_ensures (seed : Bytes) :
    Ensures E (dilPolyChallenge shake fuel seed) fun a => Bounded 1 a := by
  refine (dilPolyChallenge_shuffled hE shake fuel seed).mono fun a hc k => ?_
  by_cases hk : a[k] = 0
  · simp [hk]
  · rcases hc.unit k hk with hk | hk <;> simp [hk]

theorem dilExpandMat_ensures (rho : Bytes) : Ensures E (dilExpandMat shake fuel rho) fun mat =>
      ∀ (i : Fin 8) (j : Fin 7), Bounded DIL_Q mat[i][j] := by
  have hpoly : ∀ (i : Fin 8) (j : Fin 7),
      Ensures E (dilPolyUniform shake fuel rho (.ofNat ((i.val <<< 8) + j))) (Bounded DIL_Q) := by
    intro i j
    refine (dilPolyUniform_ensures hE _ _ _ _).mono fun r hr k => ?_
    rw [abs_of_nonneg (hr k).1]
    exact (hr k).2.le
  have hrow : ∀ i : Fin 8, Ensures E (tabulate 7 fun j =>
      dilPolyUniform shake fuel rho (.ofNat ((i.val <<< 8) + j))) fun row =>
        ∀ j : Fin 7, Bounded DIL_Q row[j] :=
    fun i => Ensures.tabulate (hpoly i)
  exact Ensures.tabulate hrow

omit hE

structure Samples (E : Fault → Prop) (shake : Shake) (fuel : Nat) : Prop where
  expandMat : ∀ rho, Ensures E (dilExpandMat shake fuel rho) fun mat =>
    ∀ (i : Fin 8) (j : Fin 7), Bounded DIL_Q mat[i][j]
  eta : ∀ rhoprime nonce, Ensures E (dilPolyUniformEta shake fuel rhoprime nonce) (Bounded 2)
  challenge : ∀ seed, Ensures E (dilPolyChallenge shake fuel seed) (Bounded 1)

theorem Samples.of_timeout (hE : E .timeout) (shake : Shake) (fuel : Nat) : Samples E shake fuel :=
  ⟨dilExpandMat_ensures hE shake fuel, dilPolyUniformEta_ensures hE shake fuel,
    dilPolyChallenge_ensures hE shake fuel⟩

theorem getD_squeeze (stream : Nat → UInt8) (hk : k < count) :
    (squeeze stream count).getD k 0 = stream k := by
  simp [squeeze, hk]

/-- Five bytes are two values of 20 bits. -/
theorem gamma1Pair_eq {i y : Nat} (hbytes : ∀ k < 5, (buf (5 * i + k)).toNat = y / 256 ^ k % 256) :
    gamma1Pair buf i = (y % 2 ^ 20, y / 2 ^ 20 % 2 ^ 20) := by
  have h0 := hbytes 0 (by decide)
  have h1 := hbytes 1 (by decide)
  have h2 := hbytes 2 (by decide)
  have h3 := hbytes 3 (by decide)
  have h4 := hbytes 4 (by decide)
  rw [Nat.add_zero] at h0
  have hjoin : ∀ {a b c k m : Nat}, a < 2 ^ k → a + 2 ^ k * b < 2 ^ m →
      a ||| b <<< k ||| c <<< m = a + 2 ^ k * b + 2 ^ m * c := by
    intro a b c k m ha hb
    rw [or_shiftLeft ha, or_shiftLeft hb]
  dsimp only [gamma1Pair]
  rw [h0, h1, h2, h3, h4, Nat.shiftRight_eq_div_pow, hjoin (by omega) (by omega),
    hjoin (by omega) (by omega), show 0xFFFFF = 2 ^ 20 - 1 from rfl,
    Nat.and_two_pow_sub_one_eq_mod]
  refine Prod.ext ?_ ?_ <;> dsimp only <;> omega

theorem dilPolyUniformGamma1_eq :
    dilPolyUniformGamma1 shake rhoprime nonce =
      dilPolyzUnpack (squeeze (shake.shake256 (withNonce rhoprime nonce)) 640) := by
  rw [dilPolyUniformGamma1, dilPolyzUnpack, unpackOffset]
  generalize shake.shake256 (withNonce rhoprime nonce) = stream
  refine congrArg (tabulate 256) (funext fun j => ?_)
  have hbytes : ∀ k < 5, (stream (5 * (j / 2) + k)).toNat =
      leNat (squeeze stream 640) / 256 ^ (5 * (j.val / 2)) / 256 ^ k % 256 := by
    intro k hk
    rw [← getD_squeeze stream (show 5 * (j / 2) + k < 640 by omega), toNat_getD_eq,
      Nat.div_div_eq_div_mul, ← pow_add]
  have hpow : 256 ^ (5 * (j.val / 2)) = (2 ^ 20) ^ (2 * (j.val / 2)) := by
    rw [pow_mul, pow_mul, show 256 ^ 5 = (2 ^ 20) ^ 2 by norm_num]
  rw [hpow] at hbytes
  rw [gamma1Pair_eq stream hbytes, dilUnpackBits_eq (by decide), List.getD_eq_getElem?_getD,
    getElem?_toDigits _ j.isLt, Option.getD_some, Nat.div_div_eq_div_mul, ← pow_succ]
  split
  · rw [show 2 * (j.val / 2) = j.val by omega]
  · rw [show 2 * (j.val / 2) + 1 = j.val by omega]

theorem dilPolyUniformGamma1_ensures :
    Ensures E (dilPolyUniformGamma1 shake rhoprime nonce) (Bounded (2 ^ 19)) := by
  rw [dilPolyUniformGamma1_eq]
  exact unpackOffset_bounded (by decide) (by decide) (by decide) _

theorem dilPolyveclUniformGamma1_ensures :
    Ensures E (dilPolyveclUniformGamma1 shake rhoprime nonce) fun y =>
      ∀ i : Fin 7, Bounded (2 ^ 19) y[i] :=
  Ensures.tabulate fun _ => dilPolyUniformGamma1_ensures _ _ _

/-- What the samplers return, where their loops end: the lists drawn have 256 entries, and the
last sampler reads its bytes as `dilPolyzUnpack` does.  The loops end on every stream with enough
bytes to accept. -/
theorem samplers_fill (shake : Shake) (fuel : Nat) :
    (∀ seed a, dilPolyChallenge shake fuel seed = .ok a →
      a.countP (· ≠ 0) = 60 ∧ ∀ k : Fin 256, a[k] ≠ 0 → a[k] = 1 ∨ a[k] = -1) ∧
    (∀ rho nonce a, dilPolyUniform shake fuel rho nonce = .ok a →
      (∀ k : Fin 256, 0 ≤ a[k] ∧ a[k] < DIL_Q) ∧
        sampleBlocks uniformStep (List.range' 0 (SHAKE128_RATE / 3) 3) SHAKE128_RATE
          (shake.shake128 (withNonce rho nonce)) fuel 0 [] = .ok a.toList) ∧
    (∀ rhoprime nonce a, dilPolyUniformEta shake fuel rhoprime nonce = .ok a →
      (∀ k : Fin 256, -2 ≤ a[k] ∧ a[k] ≤ 2) ∧
        sampleBlocks etaStep (List.range SHAKE256_RATE) SHAKE256_RATE
          (shake.shake256 (withNonce rhoprime nonce)) fuel 0 [] = .ok a.toList) ∧
    (∀ rhoprime nonce, dilPolyUniformGamma1 shake rhoprime nonce =
      dilPolyzUnpack (squeeze (shake.shake256 (withNonce rhoprime nonce)) 640)) ∧
    (∀ seed (p : Nat → Nat), StrictMono p → 8 ≤ p 0 →
      (∀ k < 60, (shake.shake256 seed (p k)).toNat ≤ 196 + k) → p 59 < fuel →
      ∃ a, dilPolyChallenge shake fuel seed = .ok a) ∧
    (∀ rho nonce rounds, 256 ≤ accepted uniformStep (List.range' 0 (SHAKE128_RATE / 3) 3)
        SHAKE128_RATE (shake.shake128 (withNonce rho nonce)) rounds 0 → rounds < fuel →
      ∃ a, dilPolyUniform shake fuel rho nonce = .ok a) ∧
    ∀ rhoprime nonce rounds, 256 ≤ accepted etaStep (List.range SHAKE256_RATE) SHAKE256_RATE
        (shake.shake256 (withNonce rhoprime nonce)) rounds 0 → rounds < fuel →
      ∃ a, dilPolyUniformEta shake fuel rhoprime nonce = .ok a := by
  refine ⟨fun seed a h => ?_, fun rho nonce a h => ?_, fun rhoprime nonce a h => ?_,
    dilPolyUniformGamma1_eq shake, fun seed p hp h0 hbyte hfuel => ?_,
    fun rho nonce rounds h hfuel => ?_, fun rhoprime nonce rounds h hfuel => ?_⟩
  · have hc := (dilPolyChallenge_shuffled (E := fun _ => True) trivial shake fuel seed).apply h
    exact ⟨Nat.add_right_cancel hc.weight, hc.unit⟩
  · exact ⟨(dilPolyUniform_ensures (E := fun _ => True) trivial shake fuel rho nonce).apply h,
      sampleBlocks_toList (fun _ => uniformStep_drawn _) h⟩
  · have ha := (dilPolyUniformEta_ensures (E := fun _ => True) trivial shake fuel rhoprime
      nonce).apply h
    exact ⟨fun k => abs_le.mp (ha k),
      sampleBlocks_toList (fun _ => etaStep_drawn _) h⟩
  · refine dilPolyChallenge_ok shake fuel hp h0 fun k hk pos hle => ⟨p k, hle, le_rfl, ?_, hbyte k hk⟩
    have hlast := hp.monotone (Nat.le_of_lt_succ hk)
    omega
  · exact samplePoly_ok uniformStep_accepts h hfuel
  · exact samplePoly_ok etaStep_accepts h hfuel

end Judgements

/-- Bytes that every sampler accepts. -/
def constantShake : Shake := ⟨fun _ _ => 0, fun _ _ => 0x22⟩

theorem samplers_fill_constantShake :
    (∃ a, dilPolyChallenge constantShake 68 [] = .ok a ∧ a.countP (· ≠ 0) = 60) ∧
    (∃ a, dilPolyUniform constantShake 68 [] 0 = .ok a ∧
      ∀ k : Fin 256, 0 ≤ a[k] ∧ a[k] < DIL_Q) ∧
    ∃ a, dilPolyUniformEta constantShake 68 [] 0 = .ok a ∧ ∀ k : Fin 256, -2 ≤ a[k] ∧ a[k] ≤ 2 := by
  obtain ⟨hchallenge, huniform, heta, -, hchallengeEnds, huniformEnds, hetaEnds⟩ :=
    samplers_fill constantShake 68
  obtain ⟨c, hc⟩ := hchallengeEnds [] (8 + ·) (fun _ _ h => Nat.add_lt_add_left h 8) le_rfl
    (fun k _ => (show 34 ≤ 196 + k by omega)) (by decide)
  obtain ⟨a, ha⟩ := huniformEnds [] 0 5 (by decide +kernel) (by decide)
  obtain ⟨e, he⟩ := hetaEnds [] 0 1 (by decide +kernel) (by decide)
  exact ⟨⟨c, hc, (hchallenge _ _ hc).1⟩, ⟨a, ha, (huniform _ _ _ ha).1⟩, ⟨e, he, (heta _ _ _ he).1⟩⟩

/-! ## More rounds -/

section Fuel

variable {fuel fuel' : Nat} (hfuel : fuel ≤ fuel')

include hfuel

theorem sampleBlocks_extends (step : SampleStep) (positions : List Nat) (rate : Nat)
    (stream : Nat → UInt8) (start : Nat) (coeffs : List Int) :
    Extends (sampleBlocks step positions rate stream fuel start coeffs)
      (sampleBlocks step positions rate stream fuel' start coeffs) := by
  induction fuel generalizing fuel' start coeffs with
  | zero => exact fun x hx => (by cases hx)
  | succ fuel ih =>
    obtain _ | fuel' := fuel'
    · omega
    rw [sampleBlocks, sampleBlocks]
    split
    case isTrue => exact ih (Nat.le_of_succ_le_succ hfuel) _ _
    case isFalse => exact Extends.refl _

theorem challengeIndex_extends (stream : Nat → UInt8) (i : Fin 256) (pos : Nat) :
    Extends (challengeIndex stream i fuel pos) (challengeIndex stream i fuel' pos) := by
  induction fuel generalizing fuel' pos with
  | zero => exact fun x hx => (by cases hx)
  | succ fuel ih =>
    obtain _ | fuel' := fuel'
    · omega
    rw [challengeIndex, challengeIndex]
    split
    case isTrue => exact Extends.refl _
    case isFalse => exact ih (Nat.le_of_succ_le_succ hfuel) _

theorem dilPolyChallenge_extends (shake : Shake) (seed : Bytes) :
    Extends (dilPolyChallenge shake fuel seed) (dilPolyChallenge shake fuel' seed) := by
  refine Extends.bind (Extends.foldlM (fun s i => ?_) _) fun s => Extends.refl _
  exact Extends.bind (challengeIndex_extends hfuel _ i s.pos) fun r => Extends.refl _

theorem dilExpandMat_extends (shake : Shake) (rho : Bytes) :
    Extends (dilExpandMat shake fuel rho) (dilExpandMat shake fuel' rho) := by
  refine Extends.tabulate fun i => Extends.tabulate fun j => ?_
  exact Extends.bind (sampleBlocks_extends hfuel _ _ _ _ _ _) fun coeffs => Extends.refl _

end Fuel

end HcsCoin.Dilithium
