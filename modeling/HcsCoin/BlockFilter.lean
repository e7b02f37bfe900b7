import HcsCoin.Util.GolombRice

/-!
# Golomb-coded sets

The filter of `blockfilter.cpp`.  The hash function of the elements is a parameter.
-/

namespace HcsCoin

open Foundation

structure GCSParams where
  siphashK0 : UInt64
  siphashK1 : UInt64
  P : UInt8
  M : UInt32

structure GCSFilter where
  params : GCSParams
  N : Nat
  F : Nat
  encoded : Bytes

inductive GCSException
  | tooManyElements
  | excessData
  | assertion
  | stream (e : StreamException)
  deriving DecidableEq

def liftStream {α : Type} : Except StreamException α → Except GCSException α
  | .error e => .error (.stream e)
  | .ok x => .ok x

def fastRange64 (x n : Nat) : Nat := (x * n) >>> 64

section

variable (sipHash : UInt64 → UInt64 → Bytes → UInt64)

def GCSFilter.hashToRange (filter : GCSFilter) (element : Bytes) : Nat :=
  fastRange64 (sipHash filter.params.siphashK0 filter.params.siphashK1 element).toNat filter.F

def GCSFilter.buildHashedSet (filter : GCSFilter) (elements : List Bytes) : List Nat :=
  (elements.map (filter.hashToRange sipHash)).mergeSort

def encodeValues (P : Nat) : BitStreamWriter → Nat → List Nat → Except StreamException BitStreamWriter
  | w, _, [] => .ok w
  | w, lastValue, value :: values =>
    match golombRiceEncode w P ((value + 2 ^ 64 - lastValue) % 2 ^ 64) with
    | .error e => .error e
    | .ok w => encodeValues P w value values

def GCSFilter.ofElements (params : GCSParams) (elements : List Bytes) :
    Except GCSException GCSFilter := do
  let N := elements.length % 2 ^ 32
  if N ≠ elements.length then throw .tooManyElements
  let filter : GCSFilter := ⟨params, N, N * params.M.toNat % 2 ^ 64, writeCompactSize N⟩
  if elements.isEmpty then return filter
  let bitwriter ← liftStream (encodeValues params.P.toNat (.onto filter.encoded) 0
    (filter.buildHashedSet sipHash elements))
  return { filter with encoded := bitwriter.flush.ostream }

end

def decodeValues (P : Nat) : Nat → BitStreamReader → Except StreamException BitStreamReader
  | 0, r => .ok r
  | n + 1, r =>
    match golombRiceDecode r P with
    | .error e => .error e
    | .ok (_, r) => decodeValues P n r

def GCSFilter.ofEncoded (params : GCSParams) (encoded : Bytes) (skipDecodeCheck : Bool) :
    Except GCSException GCSFilter := do
  match (readCompactSize true).run encoded with
  | .error e => throw (.stream (.failure e))
  | .ok (size, stream) =>
    let N := size % 2 ^ 32
    if N ≠ size then throw .tooManyElements
    let filter : GCSFilter := ⟨params, N, N * params.M.toNat % 2 ^ 64, encoded⟩
    if skipDecodeCheck then return filter
    let bitreader ← liftStream (decodeValues params.P.toNat N (.of stream))
    if !bitreader.istream.isEmpty then throw .excessData
    return filter

inductive Advance
  | exhausted
  | found
  | beyond (hashes : List Nat)

def advance (value : Nat) : List Nat → Advance
  | [] => .exhausted
  | hash :: hashes =>
    if hash = value then .found
    else if hash > value then .beyond (hash :: hashes)
    else advance value hashes

def matchValues (P : Nat) : Nat → BitStreamReader → Nat → List Nat → Except StreamException Bool
  | 0, _, _, _ => .ok false
  | n + 1, r, value, hashes =>
    match golombRiceDecode r P with
    | .error e => .error e
    | .ok (delta, r) =>
      let value := (value + delta) % 2 ^ 64
      match advance value hashes with
      | .exhausted => .ok false
      | .found => .ok true
      | .beyond hashes => matchValues P n r value hashes

def GCSFilter.matchInternal (filter : GCSFilter) (hashes : List Nat) : Except GCSException Bool := do
  match (readCompactSize true).run filter.encoded with
  | .error e => throw (.stream (.failure e))
  | .ok (N, stream) =>
    if N ≠ filter.N then throw .assertion
    liftStream (matchValues filter.params.P.toNat filter.N (.of stream) 0 hashes)

section

variable (sipHash : UInt64 → UInt64 → Bytes → UInt64)

def GCSFilter.matchElement (filter : GCSFilter) (element : Bytes) : Except GCSException Bool :=
  filter.matchInternal [filter.hashToRange sipHash element]

def GCSFilter.matchAny (filter : GCSFilter) (elements : List Bytes) : Except GCSException Bool :=
  filter.matchInternal (filter.buildHashedSet sipHash elements)

end

/-! ## Codes of sorted values -/

def valuesBits (P : Nat) : Nat → List Nat → List Bool
  | _, [] => []
  | lastValue, value :: values => golombRiceBits P (value - lastValue) ++ valuesBits P value values

variable {values : List Nat} {filter : GCSFilter} {sipHash : UInt64 → UInt64 → Bytes → UInt64}
  {elements : List Bytes} {lastValue : Nat} {r : BitStreamReader} {P : Nat}

theorem encodeValues_spec (hP : P < 64) {w : BitStreamWriter} (hw : w.Clean)
    (hsorted : (lastValue :: values).Pairwise (· ≤ ·))
    (hvalues : ∀ value ∈ values, value < 2 ^ 64) :
    ∃ w', encodeValues P w lastValue values = .ok w' ∧ w'.Clean ∧
      w'.bits = w.bits ++ valuesBits P lastValue values := by
  induction values generalizing w lastValue with
  | nil => exact ⟨w, rfl, hw, by simp [valuesBits]⟩
  | cons value values ih =>
    rw [List.pairwise_cons] at hsorted
    simp only [List.mem_cons, forall_eq_or_imp] at hvalues hsorted
    have hdelta : (value + 2 ^ 64 - lastValue) % 2 ^ 64 = value - lastValue := by omega
    obtain ⟨next, hnext, hclean, hbits⟩ := golombRiceEncode_spec hw hP (value - lastValue)
    obtain ⟨last, hlast, hcleanLast, hbitsLast⟩ := ih hclean hsorted.2 hvalues.2
    refine ⟨last, ?_, hcleanLast, ?_⟩
    · rw [encodeValues, hdelta, hnext]
      exact hlast
    · rw [hbitsLast, hbits, valuesBits, List.append_assoc]

variable {rest : List Bool} {hashes : List Nat} {value : Nat} {params : GCSParams}

theorem decodeValues_spec (hP : P < 64) (hvalues : ∀ value ∈ values, value < 2 ^ 64)
    (hbits : r.bits = valuesBits P lastValue values ++ rest) :
    ∃ r', decodeValues P values.length r = .ok r' ∧ r'.bits = rest := by
  induction values generalizing r lastValue with
  | nil => exact ⟨r, rfl, hbits⟩
  | cons value values ih =>
    simp only [List.mem_cons, forall_eq_or_imp] at hvalues
    rw [valuesBits, List.append_assoc] at hbits
    obtain ⟨next, hnext, hrest⟩ := golombRiceDecode_spec hP (by omega) hbits
    obtain ⟨last, hlast, hbitsLast⟩ := ih hvalues.2 hrest
    refine ⟨last, ?_, hbitsLast⟩
    rw [List.length_cons, decodeValues, hnext]
    exact hlast

/-! ## Merging -/

theorem advance_spec (hsorted : hashes.Pairwise (· ≤ ·)) :
    match advance value hashes with
    | .exhausted => ∀ hash ∈ hashes, hash < value
    | .found => value ∈ hashes
    | .beyond rest => rest.Pairwise (· ≤ ·) ∧ value ∉ hashes ∧
        ∀ later ≥ value, later ∈ hashes ↔ later ∈ rest := by
  induction hashes with
  | nil => simp [advance]
  | cons hash hashes ih =>
    have ih := ih (List.pairwise_cons.1 hsorted).2
    have hle := (List.pairwise_cons.1 hsorted).1
    rw [advance]
    by_cases heq : hash = value
    · simp [heq]
    rw [if_neg heq]
    by_cases hgt : hash > value
    · simp only [if_pos hgt]
      refine ⟨hsorted, fun hmem => ?_, fun _ _ => trivial⟩
      rcases List.mem_cons.1 hmem with rfl | hmem
      · exact heq rfl
      · exact absurd (hle value hmem) (not_le.2 hgt)
    rw [if_neg hgt]
    have hlt : hash < value := by omega
    cases hadvance : advance value hashes with
    | exhausted =>
      rw [hadvance] at ih
      simpa [hlt] using ih
    | found =>
      rw [hadvance] at ih
      exact List.mem_cons_of_mem _ ih
    | beyond rest =>
      rw [hadvance] at ih
      refine ⟨ih.1, by simp [Ne.symm heq, ih.2.1], fun later hlater => ?_⟩
      rw [List.mem_cons, ← ih.2.2 later hlater, or_iff_right (by omega)]

theorem matchValues_spec (hP : P < 64) (hsorted : (lastValue :: values).Pairwise (· ≤ ·))
    (hvalues : ∀ value ∈ values, value < 2 ^ 64) (hhashes : hashes.Pairwise (· ≤ ·))
    (hbits : r.bits = valuesBits P lastValue values ++ rest) :
    ∃ found, matchValues P values.length r lastValue hashes = .ok found ∧
      (found = true ↔ ∃ value ∈ values, value ∈ hashes) := by
  induction values generalizing r lastValue hashes with
  | nil => exact ⟨false, rfl, by simp⟩
  | cons value values ih =>
    rw [List.pairwise_cons] at hsorted
    simp only [List.mem_cons, forall_eq_or_imp] at hvalues hsorted
    rw [valuesBits, List.append_assoc] at hbits
    obtain ⟨next, hnext, hrest⟩ := golombRiceDecode_spec hP (by omega) hbits
    have hvalue : (lastValue + (value - lastValue)) % 2 ^ 64 = value := by omega
    have hlater : ∀ later ∈ values, value ≤ later := (List.pairwise_cons.1 hsorted.2).1
    have hadvance := @advance_spec _ value hhashes
    rw [List.length_cons, matchValues, hnext]
    simp only [hvalue]
    cases hcase : advance value hashes with
    | exhausted =>
      rw [hcase] at hadvance
      refine ⟨false, rfl, ?_⟩
      simp only [Bool.false_eq_true, List.mem_cons, exists_eq_or_imp, false_iff, not_or,
        not_exists, not_and]
      exact ⟨fun hmem => lt_irrefl _ (hadvance value hmem), fun later hmem hhash =>
        absurd (hadvance later hhash) (not_lt.2 (hlater later hmem))⟩
    | found =>
      rw [hcase] at hadvance
      exact ⟨true, rfl, by simp [hadvance]⟩
    | beyond left =>
      rw [hcase] at hadvance
      obtain ⟨found, hfound, hiff⟩ := ih hsorted.2 hvalues.2 hadvance.1 hrest
      refine ⟨found, hfound, ?_⟩
      rw [hiff]
      simp only [List.mem_cons, exists_eq_or_imp, hadvance.2.1, false_or]
      exact exists_congr fun later => and_congr_right fun hmem =>
        (hadvance.2.2 later (hlater later hmem)).symm

/-! ## Filters -/

theorem GCSFilter.hashToRange_lt (sipHash : UInt64 → UInt64 → Bytes → UInt64)
    (hF : filter.F < 2 ^ 64) (element : Bytes) : filter.hashToRange sipHash element < 2 ^ 64 := by
  rw [hashToRange, fastRange64, Nat.shiftRight_eq_div_pow]
  refine Nat.div_lt_of_lt_mul ?_
  exact Nat.mul_lt_mul'' (UInt64.toNat_lt _) hF

theorem GCSFilter.pairwise_buildHashedSet (sipHash : UInt64 → UInt64 → Bytes → UInt64)
    (filter : GCSFilter) (elements : List Bytes) :
    (filter.buildHashedSet sipHash elements).Pairwise (· ≤ ·) := by
  exact List.pairwise_mergeSort' (· ≤ ·) (elements.map (filter.hashToRange sipHash))

theorem GCSFilter.mem_buildHashedSet :
    value ∈ filter.buildHashedSet sipHash elements ↔
      ∃ element ∈ elements, filter.hashToRange sipHash element = value := by
  rw [buildHashedSet, List.mem_mergeSort, List.mem_map]

structure GCSFilter.Holds (sipHash : UInt64 → UInt64 → Bytes → UInt64) (filter : GCSFilter)
    (elements : List Bytes) : Prop where
  P_lt : filter.params.P.toNat < 64
  length : filter.N = elements.length
  length_le : elements.length ≤ MAX_SIZE
  range : filter.F = filter.N * filter.params.M.toNat % 2 ^ 64
  encoded : ∃ codes padding, filter.encoded = writeCompactSize filter.N ++ codes ∧ padding < 8 ∧
    bytesBits codes = valuesBits filter.params.P.toNat 0 (filter.buildHashedSet sipHash elements) ++
      List.replicate padding false

theorem GCSFilter.Holds.value_lt (h : filter.Holds sipHash elements) :
    ∀ value ∈ filter.buildHashedSet sipHash elements, value < 2 ^ 64 := by
  intro value hvalue
  obtain ⟨element, -, rfl⟩ := mem_buildHashedSet.1 hvalue
  exact hashToRange_lt sipHash (by rw [h.range]; exact Nat.mod_lt _ (by decide)) element

theorem GCSFilter.Holds.length_buildHashedSet (h : filter.Holds sipHash elements) :
    (filter.buildHashedSet sipHash elements).length = filter.N := by
  rw [buildHashedSet, List.length_mergeSort, List.length_map, h.length]

theorem GCSFilter.pairwise_zero_buildHashedSet (sipHash : UInt64 → UInt64 → Bytes → UInt64)
    (filter : GCSFilter) (elements : List Bytes) :
    (0 :: filter.buildHashedSet sipHash elements).Pairwise (· ≤ ·) :=
  List.pairwise_cons.2 ⟨fun _ _ => Nat.zero_le _, pairwise_buildHashedSet sipHash filter elements⟩

theorem GCSFilter.exists_ofElements (sipHash : UInt64 → UInt64 → Bytes → UInt64)
    (hP : params.P.toNat < 64) (hlength : elements.length ≤ MAX_SIZE) :
    ∃ filter, ofElements sipHash params elements = .ok filter ∧ filter.params = params ∧
      filter.Holds sipHash elements := by
  have hN : elements.length % 2 ^ 32 = elements.length :=
    Nat.mod_eq_of_lt (Nat.lt_of_le_of_lt hlength (by decide))
  let filter : GCSFilter := ⟨params, elements.length, elements.length * params.M.toNat % 2 ^ 64,
    writeCompactSize elements.length⟩
  have hvalues : ∀ value ∈ filter.buildHashedSet sipHash elements, value < 2 ^ 64 := by
    intro value hvalue
    obtain ⟨element, -, rfl⟩ := mem_buildHashedSet.1 hvalue
    exact hashToRange_lt sipHash (Nat.mod_lt _ (by decide)) element
  simp only [ofElements, hN, ne_eq, not_true_eq_false, if_false]
  cases elements with
  | nil =>
    refine ⟨filter, rfl, rfl, hP, rfl, hlength, rfl, [], 0, ?_⟩
    simp [filter, buildHashedSet, bytesBits, valuesBits]
  | cons element elements =>
    obtain ⟨w, hw, hclean, hbits⟩ := encodeValues_spec hP
      (BitStreamWriter.clean_onto filter.encoded)
      (pairwise_zero_buildHashedSet sipHash filter (element :: elements)) hvalues
    obtain ⟨padding, hpadding, hflush⟩ := BitStreamWriter.bits_flush hclean
    refine ⟨{ filter with encoded := w.flush.ostream }, ?_, rfl, hP, rfl, hlength, rfl, ?_⟩
    · change (liftStream (encodeValues _ (.onto filter.encoded) 0 _) >>= _) = _
      rw [hw]
      rfl
    · rw [hbits, BitStreamWriter.bits_onto, List.append_assoc] at hflush
      obtain ⟨codes, hcodes, hcodesBits⟩ := exists_append_of_bytesBits hflush
      exact ⟨codes, padding, hcodes, hpadding, hcodesBits⟩

theorem GCSFilter.Holds.readCompactSize (h : filter.Holds sipHash elements) {codes : Bytes}
    (hencoded : filter.encoded = writeCompactSize filter.N ++ codes) :
    (HcsCoin.readCompactSize true).run filter.encoded = .ok (filter.N, codes) := by
  have hsize : filter.N ≤ MAX_SIZE := by
    rw [h.length]
    exact h.length_le
  rw [hencoded]
  exact decodes_readCompactSize (Nat.lt_of_le_of_lt hsize (by decide)) (fun _ => hsize) codes

theorem GCSFilter.Holds.ofEncoded (h : filter.Holds sipHash elements) (skipDecodeCheck : Bool) :
    GCSFilter.ofEncoded filter.params filter.encoded skipDecodeCheck = .ok filter := by
  obtain ⟨codes, padding, hencoded, hpadding, hbits⟩ := h.encoded
  have hsize : filter.N < 2 ^ 32 := by
    rw [h.length]
    exact Nat.lt_of_le_of_lt h.length_le (by decide)
  rw [GCSFilter.ofEncoded, h.readCompactSize hencoded]
  simp only [Nat.mod_eq_of_lt hsize, ← h.range, ne_eq, not_true_eq_false, if_false]
  cases skipDecodeCheck with
  | true => rfl
  | false =>
    obtain ⟨r, hr, hrest⟩ := decodeValues_spec h.P_lt h.value_lt
      ((BitStreamReader.bits_of codes).trans hbits)
    rw [h.length_buildHashedSet] at hr
    have hempty : r.istream = [] := by
      have hlengths := congrArg List.length hrest
      rw [BitStreamReader.bits, List.length_append, length_lowBits, length_bytesBits,
        List.length_replicate] at hlengths
      exact List.length_eq_zero_iff.1 (by omega)
    change (liftStream (decodeValues _ filter.N (.of codes)) >>= _) = _
    rw [hr]
    simp only [liftStream, bind, Except.bind, hempty, List.isEmpty_nil]
    rfl

theorem GCSFilter.Holds.matchInternal (h : filter.Holds sipHash elements)
    (hhashes : hashes.Pairwise (· ≤ ·)) :
    ∃ found, filter.matchInternal hashes = .ok found ∧
      (found = true ↔ ∃ element ∈ elements, filter.hashToRange sipHash element ∈ hashes) := by
  obtain ⟨codes, padding, hencoded, hpadding, hbits⟩ := h.encoded
  obtain ⟨found, hfound, hiff⟩ := matchValues_spec h.P_lt
    (pairwise_zero_buildHashedSet sipHash filter elements) h.value_lt hhashes
    ((BitStreamReader.bits_of codes).trans hbits)
  rw [h.length_buildHashedSet] at hfound
  refine ⟨found, ?_, ?_⟩
  · rw [GCSFilter.matchInternal, h.readCompactSize hencoded]
    simp only [ne_eq, not_true_eq_false, if_false]
    rw [hfound]
    rfl
  · rw [hiff]
    simp only [mem_buildHashedSet]
    exact ⟨fun ⟨value, ⟨element, helement, hvalue⟩, hmem⟩ => ⟨element, helement, hvalue ▸ hmem⟩,
      fun ⟨element, helement, hmem⟩ => ⟨_, ⟨element, helement, rfl⟩, hmem⟩⟩

/-- Filters are read back from their bytes, and match what has the hash value of an element. -/
theorem GCSFilter.ofElements_matches (sipHash : UInt64 → UInt64 → Bytes → UInt64)
    {params : GCSParams} (hP : params.P ≤ 32) {elements : List Bytes}
    (hlength : elements.length ≤ 0x02000000) :
    ∃ filter, ofElements sipHash params elements = .ok filter ∧
      (∀ skipDecodeCheck, ofEncoded params filter.encoded skipDecodeCheck = .ok filter) ∧
      (∀ element ∈ elements, filter.matchElement sipHash element = .ok true) ∧
      ∀ queries : List Bytes, ∃ found, filter.matchAny sipHash queries = .ok found ∧
        (found = true ↔ ∃ query ∈ queries, ∃ element ∈ elements,
          filter.hashToRange sipHash query = filter.hashToRange sipHash element) := by
  have hP' : params.P.toNat < 64 := Nat.lt_of_le_of_lt (UInt8.le_iff_toNat_le.1 hP) (by decide)
  obtain ⟨filter, hfilter, rfl, hholds⟩ := exists_ofElements sipHash hP' hlength
  refine ⟨filter, hfilter, hholds.ofEncoded, fun element helement => ?_, fun queries => ?_⟩
  · obtain ⟨found, hfound, hiff⟩ := hholds.matchInternal
      (List.pairwise_singleton _ (filter.hashToRange sipHash element))
    rw [matchElement, hfound, hiff.2 ⟨element, helement, List.mem_singleton_self _⟩]
  · obtain ⟨found, hfound, hiff⟩ :=
      hholds.matchInternal (pairwise_buildHashedSet sipHash filter queries)
    refine ⟨found, hfound, ?_⟩
    rw [hiff]
    simp only [mem_buildHashedSet]
    exact ⟨fun ⟨element, helement, query, hquery, heq⟩ => ⟨query, hquery, element, helement, heq⟩,
      fun ⟨query, hquery, element, helement, heq⟩ => ⟨element, helement, query, hquery, heq⟩⟩

theorem GCSFilter.ofElements_matches_pair :
    let sipHash : UInt64 → UInt64 → Bytes → UInt64 := fun k0 _ element =>
      k0 + UInt64.ofNat (element.length * 2 ^ 60)
    let params : GCSParams := ⟨1, 2, 19, 784931⟩
    ∃ filter, ofElements sipHash params [[1], [2, 3]] = .ok filter ∧
      (∀ skipDecodeCheck, ofEncoded params filter.encoded skipDecodeCheck = .ok filter) ∧
      (∀ element ∈ [[1], [2, 3]], filter.matchElement sipHash element = .ok true) ∧
      ∀ queries : List Bytes, ∃ found, filter.matchAny sipHash queries = .ok found ∧
        (found = true ↔ ∃ query ∈ queries, ∃ element ∈ [[1], [2, 3]],
          filter.hashToRange sipHash query = filter.hashToRange sipHash element) :=
  ofElements_matches _ (by decide) (by decide)

end HcsCoin
