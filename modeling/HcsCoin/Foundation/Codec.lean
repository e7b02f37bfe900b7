import HcsCoin.Foundation.Positional

/-!
# Self-delimiting byte decoders

A decoder consumes a prefix of a byte string and returns the rest.  The
structure carries the proof that its answer depends on the consumed bytes
only, so a decoder assembled with `bind` is self-delimiting by construction.

`Decodes d enc x` is the round-trip law used throughout: whatever follows the
encoding `enc`, the decoder returns `x` and leaves exactly what follows.
`Yields d P` says that every value the decoder can return satisfies `P`.
-/

namespace HcsCoin.Foundation

abbrev Bytes := List UInt8

theorem forall_byte {P : UInt8 → Prop} (h : ∀ i : Fin 256, P (UInt8.ofNat i)) (c : UInt8) : P c := by
  have hc := h ⟨c.toNat, c.toNat_lt⟩
  rwa [UInt8.ofNat_toNat] at hc

theorem mapM_eq_some_map {α β : Type*} {f : α → Option β} {g : α → β} {l : List α}
    (h : ∀ a ∈ l, f a = some (g a)) : l.mapM f = some (l.map g) := by
  induction l with
  | nil => rfl
  | cons a l ih =>
    simp only [List.mem_cons, forall_eq_or_imp] at h
    simp [h.1, ih h.2]

/-! ## Little-endian integers -/

def leNat (bs : Bytes) : Nat := positionalValue UInt8.toNat 256 bs

def leBytes : Nat → Nat → Bytes
  | 0, _ => []
  | width + 1, n => UInt8.ofNat n :: leBytes width (n / 256)

@[simp] theorem leBytes_length (width n : Nat) : (leBytes width n).length = width := by
  induction width generalizing n with
  | zero => rfl
  | succ width ih => simp [leBytes, ih]

theorem leNat_lt (bs : Bytes) : leNat bs < 256 ^ bs.length :=
  positionalValue_lt (fun d => d.toNat_lt) bs

theorem leNat_leBytes (width n : Nat) : leNat (leBytes width n) = n % 256 ^ width := by
  induction width generalizing n with
  | zero => simp [leBytes, leNat, Nat.mod_one]
  | succ width ih =>
    have htail : leNat (leBytes (width + 1) n) =
        n % 256 + 256 * leNat (leBytes width (n / 256)) := by
      simp [leBytes, leNat]
    rw [htail, ih, Nat.pow_succ', Nat.mod_mul]

variable {width i size : Nat} {xs ys : Bytes}

theorem leNat_leBytes_of_lt {n : Nat} (h : n < 256 ^ width) : leNat (leBytes width n) = n := by
  rw [leNat_leBytes, Nat.mod_eq_of_lt h]

theorem leNat_injective (hlength : xs.length = ys.length) (hvalue : leNat xs = leNat ys) :
    xs = ys :=
  positionalValue_injective (fun d => d.toNat_lt)
    (fun _ _ h => UInt8.toNat_inj.mp h) hlength hvalue

variable {bs data : Bytes} {offset count : Nat} {blocks : List Bytes}

theorem leBytes_leNat (h : bs.length = width) : leBytes width (leNat bs) = bs := by
  apply leNat_injective (by simp [h])
  rw [leNat_leBytes_of_lt]
  simpa [h] using leNat_lt bs

theorem leBytes_mod (width n : Nat) : leBytes width (n % 256 ^ width) = leBytes width n := by
  apply leNat_injective (by simp)
  rw [leNat_leBytes, leNat_leBytes, Nat.mod_mod]

/-! ## Fixed layouts -/

def slice (bs : Bytes) (offset count : Nat) : Bytes := (bs.drop offset).take count

def writeAt (bs : Bytes) (offset : Nat) (data : Bytes) : Bytes :=
  bs.take offset ++ (data ++ bs.drop (offset + data.length))

theorem getElem?_slice (bs : Bytes) (hi : i < count) :
    (slice bs offset count)[i]? = bs[offset + i]? := by
  rw [slice, List.getElem?_take_of_lt hi, List.getElem?_drop]

theorem slice_length (h : offset + count ≤ bs.length) : (slice bs offset count).length = count := by
  rw [slice, List.length_take, List.length_drop]
  omega

theorem slice_append_left (h : offset + count ≤ xs.length) :
    slice (xs ++ ys) offset count = slice xs offset count := by
  rw [slice, slice, List.drop_append_of_le_length (by omega),
    List.take_append_of_le_length (by rw [List.length_drop]; omega)]

theorem slice_append_right (xs ys : Bytes) (offset count : Nat) :
    slice (xs ++ ys) (xs.length + offset) count = slice ys offset count := by
  rw [slice, slice, List.drop_append, List.drop_eq_nil_of_le (by omega), List.nil_append,
    Nat.add_sub_cancel_left]

theorem slice_middle (xs ys zs : Bytes) : slice (xs ++ (ys ++ zs)) xs.length ys.length = ys := by
  rw [slice, List.drop_left, List.take_left]

theorem slice_flatten (hi : i < blocks.length) (hsize : ∀ block ∈ blocks, block.length = size) :
    slice blocks.flatten (i * size) size = blocks[i] := by
  induction blocks generalizing i with
  | nil => exact absurd hi (Nat.not_lt_zero i)
  | cons block blocks ih =>
    obtain ⟨hblock, hblocks⟩ := List.forall_mem_cons.mp hsize
    rw [List.flatten_cons]
    cases i with
    | zero =>
      rw [Nat.zero_mul, slice_append_left (by omega), slice, List.drop_zero, ← hblock,
        List.take_length]
      rfl
    | succ i =>
      rw [Nat.succ_mul, Nat.add_comm, ← hblock, slice_append_right, hblock,
        ih (Nat.lt_of_succ_lt_succ hi) hblocks, List.getElem_cons_succ]

theorem length_flatten_of_size (hsize : ∀ block ∈ blocks, block.length = size) :
    blocks.flatten.length = blocks.length * size := by
  rw [List.length_flatten, List.map_congr_left hsize, List.map_const', List.sum_replicate,
    smul_eq_mul]

theorem flatten_slices (bs : Bytes) (offset size n : Nat) :
    ((List.range n).map fun i => slice bs (offset + i * size) size).flatten =
      slice bs offset (n * size) := by
  induction n with
  | zero => simp [slice]
  | succ n ih =>
    rw [List.range_succ, List.map_append, List.flatten_append, ih, Nat.succ_mul, slice, slice,
      List.take_add, List.drop_drop]
    simp [slice]

@[simp] theorem writeAt_length
    (h : offset + data.length ≤ bs.length) : (writeAt bs offset data).length = bs.length := by
  simp only [writeAt, List.length_append, List.length_take, List.length_drop]
  omega

theorem take_writeAt (h : offset ≤ bs.length) (data : Bytes) :
    (writeAt bs offset data).take (offset + data.length) = bs.take offset ++ data := by
  have hlength : (bs.take offset ++ data).length = offset + data.length := by
    rw [List.length_append, List.length_take]
    omega
  rw [writeAt, ← List.append_assoc, ← hlength, List.take_left]

theorem getElem?_writeAt (h : offset + data.length ≤ bs.length) (i : Nat) :
    (writeAt bs offset data)[i]? =
      if offset ≤ i ∧ i < offset + data.length then data[i - offset]? else bs[i]? := by
  have hlength : (bs.take offset).length = offset := by
    rw [List.length_take]
    omega
  rw [writeAt, List.getElem?_append, hlength]
  split
  next hlow => rw [if_neg (by omega), List.getElem?_take_of_lt hlow]
  next hge =>
    rw [List.getElem?_append]
    split
    next hin => rw [if_pos (by omega)]
    next hout =>
      rw [if_neg (by omega), List.getElem?_drop]
      congr 1
      omega

private theorem slice_ext {offset' : Nat} (h : ∀ i < count, xs[offset + i]? = ys[offset' + i]?) :
    slice xs offset count = slice ys offset' count := by
  apply List.ext_getElem?
  intro i
  by_cases hi : i < count
  · rw [getElem?_slice xs hi, getElem?_slice ys hi, h i hi]
  · simp only [slice, List.getElem?_take]
    simp [hi]

theorem slice_writeAt_self (h : offset + data.length ≤ bs.length) :
    slice (writeAt bs offset data) offset data.length = data := by
  have hwhole : slice data 0 data.length = data := by simp [slice]
  conv_rhs => rw [← hwhole]
  apply slice_ext
  intro i hi
  rw [getElem?_writeAt h, if_pos (by omega)]
  congr 1
  omega

theorem slice_writeAt_of_disjoint (h : offset + data.length ≤ bs.length) {start : Nat}
    (hdisjoint : start + count ≤ offset ∨ offset + data.length ≤ start) :
    slice (writeAt bs offset data) start count = slice bs start count := by
  apply slice_ext
  intro i hi
  rw [getElem?_writeAt h, if_neg (by omega)]

structure Field where
  offset : Nat
  data : Bytes

namespace Field

def Carried (f : Field) (bs : Bytes) : Prop := slice bs f.offset f.data.length = f.data

def Apart (f g : Field) : Prop :=
  f.offset + f.data.length ≤ g.offset ∨ g.offset + g.data.length ≤ f.offset

def Fits (f : Field) (size : Nat) : Prop := f.offset + f.data.length ≤ size

end Field

def writeFields (bs : Bytes) (fields : List Field) : Bytes :=
  fields.foldl (fun bs f => writeAt bs f.offset f.data) bs

theorem writeFields_length {fields : List Field}
    (hfit : ∀ f ∈ fields, f.Fits bs.length) : (writeFields bs fields).length = bs.length := by
  induction fields generalizing bs with
  | nil => rfl
  | cons f fields ih =>
    have hlength := writeAt_length (hfit f (by simp))
    have htail : (writeFields (writeAt bs f.offset f.data) fields).length =
        (writeAt bs f.offset f.data).length := by
      apply ih
      intro g hg
      rw [hlength]
      exact hfit g (by simp [hg])
    exact htail.trans hlength

theorem Field.Carried.writeFields {f : Field} (h : f.Carried bs)
    {fields : List Field} (hfit : ∀ g ∈ fields, g.Fits bs.length)
    (hapart : ∀ g ∈ fields, f.Apart g) : f.Carried (writeFields bs fields) := by
  induction fields generalizing bs with
  | nil => exact h
  | cons g fields ih =>
    have hg := hfit g (by simp)
    have hhead : f.Carried (writeAt bs g.offset g.data) := by
      rw [Field.Carried, slice_writeAt_of_disjoint hg (hapart g (by simp))]
      exact h
    refine ih hhead (fun other hother => ?_) fun other hother => hapart other (by simp [hother])
    rw [writeAt_length hg]
    exact hfit other (by simp [hother])

theorem carried_writeFields {fields : List Field}
    (hfit : ∀ f ∈ fields, f.Fits bs.length) (hapart : fields.Pairwise Field.Apart) :
    ∀ f ∈ fields, f.Carried (writeFields bs fields) := by
  induction fields generalizing bs with
  | nil => simp
  | cons g fields ih =>
    obtain ⟨hg, htail⟩ := List.pairwise_cons.mp hapart
    have hfitg := hfit g (by simp)
    have hfit' : ∀ f ∈ fields, f.Fits (writeAt bs g.offset g.data).length := by
      intro f hf
      rw [writeAt_length hfitg]
      exact hfit f (by simp [hf])
    intro f hf
    rcases List.mem_cons.mp hf with rfl | hmem
    · exact Field.Carried.writeFields (slice_writeAt_self hfitg) hfit' hg
    · exact ih hfit' htail f hmem

theorem Field.Carried.getElem?_eq {f : Field} (hx : f.Carried xs) (hy : f.Carried ys)
    (hlow : f.offset ≤ i) (hhigh : i < f.offset + f.data.length) : xs[i]? = ys[i]? := by
  obtain ⟨k, rfl⟩ := Nat.exists_eq_add_of_le hlow
  rw [← getElem?_slice xs (by omega : k < f.data.length), hx.trans hy.symm,
    getElem?_slice ys (by omega)]

/-! ## Decoders -/

theorem some_bind {α β : Type} (x : α) (f : α → Option β) : (some x >>= f) = f x := rfl

structure Decoder (ε α : Type) where
  run : Bytes → Except ε (α × Bytes)
  selfDelimiting : ∀ {bs x rest}, run bs = .ok (x, rest) →
    ∃ used, bs = used ++ rest ∧ ∀ more, run (used ++ more) = .ok (x, more)

namespace Decoder

variable {ε α β : Type}

def ret (x : α) : Decoder ε α where
  run bs := .ok (x, bs)
  selfDelimiting := by
    intro bs y rest h
    simp only [Except.ok.injEq, Prod.mk.injEq] at h
    obtain ⟨rfl, rfl⟩ := h
    exact ⟨[], rfl, fun _ => rfl⟩

def throw (e : ε) : Decoder ε α where
  run _ := .error e
  selfDelimiting := by
    intro bs x rest h
    simp at h

def andThen (d : Decoder ε α) (f : α → Decoder ε β) : Decoder ε β where
  run bs := d.run bs >>= fun (x, rest) => (f x).run rest
  selfDelimiting := by
    intro bs y rest h
    cases hd : d.run bs with
    | error e => simp [hd, bind, Except.bind] at h
    | ok result =>
      obtain ⟨x, middle⟩ := result
      simp only [hd, bind, Except.bind] at h
      obtain ⟨first, rfl, hfirst⟩ := d.selfDelimiting hd
      obtain ⟨second, rfl, hsecond⟩ := (f x).selfDelimiting h
      refine ⟨first ++ second, by simp, fun more => ?_⟩
      simp [hfirst, hsecond, bind, Except.bind]

instance : Monad (Decoder ε) where
  pure := ret
  bind := andThen

@[simp] theorem run_pure (x : α) (bs : Bytes) :
    (pure x : Decoder ε α).run bs = .ok (x, bs) := rfl

@[simp] theorem run_throw (e : ε) (bs : Bytes) :
    (throw e : Decoder ε α).run bs = .error e := rfl

theorem run_bind (d : Decoder ε α) (f : α → Decoder ε β) (bs : Bytes) :
    (d >>= f).run bs = d.run bs >>= fun (x, rest) => (f x).run rest := rfl

variable {d : Decoder ε α} {f : α → Decoder ε β} {bs enc : Bytes} {x : α} {P : α → Prop}
  {rest : Bytes} {y : β}

theorem run_bind_of_ok (h : d.run bs = .ok (x, rest)) : (d >>= f).run bs = (f x).run rest := by
  rw [run_bind, h]
  rfl

theorem run_bind_of_error {e : ε} (h : d.run bs = .error e) : (d >>= f).run bs = .error e := by
  rw [run_bind, h]
  rfl

theorem run_bind_eq_ok :
    (d >>= f).run bs = .ok (y, rest) ↔
      ∃ x middle, d.run bs = .ok (x, middle) ∧ (f x).run middle = .ok (y, rest) := by
  rw [run_bind]
  cases d.run bs with
  | error e => simp [bind, Except.bind]
  | ok result =>
    obtain ⟨x, middle⟩ := result
    simp [bind, Except.bind]

def take (eof : ε) (count : Nat) : Decoder ε Bytes where
  run bs := if count ≤ bs.length then .ok (bs.take count, bs.drop count) else .error eof
  selfDelimiting := by
    intro bs x rest h
    by_cases hc : count ≤ bs.length
    · simp only [hc, if_true, Except.ok.injEq, Prod.mk.injEq] at h
      obtain ⟨rfl, rfl⟩ := h
      refine ⟨bs.take count, (List.take_append_drop count bs).symm, fun more => ?_⟩
      have hlength : (bs.take count).length = count := by simp [hc]
      simp [hlength]
    · simp [hc] at h

def readMany (d : Decoder ε α) : Nat → Decoder ε (List α)
  | 0 => pure []
  | count + 1 => do
    let x ← d
    let xs ← d.readMany count
    pure (x :: xs)

/-! ### Round trips -/

def Decodes (d : Decoder ε α) (enc : Bytes) (x : α) : Prop :=
  ∀ rest, d.run (enc ++ rest) = .ok (x, rest)

theorem Decodes.pure (x : α) : Decodes (Pure.pure x : Decoder ε α) [] x := fun _ => rfl

theorem Decodes.unique {y : α} (hx : Decodes d enc x) (hy : Decodes d enc y) : x = y :=
  (Prod.mk.inj (Except.ok.inj ((hx []).symm.trans (hy [])))).1

theorem Decodes.bind {first second : Bytes} (hd : Decodes d first x) (hf : Decodes (f x) second y) :
    Decodes (d >>= f) (first ++ second) y := by
  intro rest
  rw [List.append_assoc, run_bind_of_ok (hd _)]
  exact hf rest

theorem Decodes.step {first second : Bytes} (hd : Decodes d first x)
    (henc : enc = first ++ second) (hf : Decodes (f x) second y) : Decodes (d >>= f) enc y :=
  henc ▸ hd.bind hf

theorem Decodes.last (hd : Decodes d enc x) (hf : Decodes (f x) [] y) : Decodes (d >>= f) enc y :=
  hd.step (List.append_nil enc).symm hf

theorem Decodes.take (eof : ε) {count : Nat} (h : bs.length = count) :
    Decodes (take eof count) bs bs := by
  intro rest
  simp [Decoder.take, ← h]

theorem Decodes.readMany {d : Decoder ε β} {encode : α → Bytes} {view : α → β} {xs : List α}
    (h : ∀ x ∈ xs, Decodes d (encode x) (view x)) :
    Decodes (d.readMany xs.length) (xs.flatMap encode) (xs.map view) := by
  induction xs with
  | nil => exact Decodes.pure []
  | cons x xs ih =>
    have htail := ih fun y hy => h y (by simp [hy])
    exact (h x (by simp)).bind (htail.last (Decodes.pure (view x :: xs.map view)))

theorem run_append (h : d.run bs = .ok (x, rest)) (more : Bytes) :
    d.run (bs ++ more) = .ok (x, rest ++ more) := by
  obtain ⟨used, rfl, hused⟩ := d.selfDelimiting h
  rw [List.append_assoc]
  exact hused _

theorem Decodes.not_run_truncated {more : Bytes}
    (hd : Decodes d enc x) (henc : enc = bs ++ more) (hmore : more ≠ []) :
    ∀ y rest, d.run bs ≠ .ok (y, rest) := by
  intro y rest hrun
  have hwhole := run_append hrun more
  have henc' := hd []
  rw [List.append_nil, henc, hwhole] at henc'
  simp only [Except.ok.injEq, Prod.mk.injEq, List.append_eq_nil_iff] at henc'
  exact hmore henc'.2.2

/-! ### What a decoder can return -/

def Yields (d : Decoder ε α) (P : α → Prop) : Prop :=
  ∀ bs x rest, d.run bs = .ok (x, rest) → P x

theorem Yields.pure (h : P x) : Yields (Pure.pure x : Decoder ε α) P := by
  intro bs y rest hrun
  simp only [run_pure, Except.ok.injEq, Prod.mk.injEq] at hrun
  exact hrun.1 ▸ h

theorem Yields.throw (e : ε) : Yields (throw e : Decoder ε α) P := by
  intro bs y rest hrun
  simp at hrun

theorem Yields.trivial (d : Decoder ε α) : Yields d fun _ => True := fun _ _ _ _ => True.intro

theorem Yields.bind {Q : β → Prop} (hd : Yields d P) (hf : ∀ x, P x → Yields (f x) Q) :
    Yields (d >>= f) Q := by
  intro bs y rest hrun
  obtain ⟨x, middle, hx, hy⟩ := run_bind_eq_ok.mp hrun
  exact hf x (hd _ _ _ hx) _ _ _ hy

theorem Yields.readMany (hd : Yields d P) (count : Nat) :
    Yields (d.readMany count) fun xs => xs.length = count ∧ ∀ x ∈ xs, P x := by
  induction count with
  | zero => exact Yields.pure ⟨rfl, by simp⟩
  | succ count ih =>
    refine hd.bind fun x hx => ih.bind fun xs hxs => Yields.pure ?_
    refine ⟨by simp [hxs.1], ?_⟩
    intro y hy
    rcases List.mem_cons.mp hy with rfl | hmem
    · exact hx
    · exact hxs.2 y hmem

theorem Yields.take (eof : ε) (count : Nat) :
    Yields (take eof count) fun bs => bs.length = count := by
  intro bs x rest hrun
  by_cases hc : count ≤ bs.length
  · simp only [Decoder.take, hc, if_true, Except.ok.injEq, Prod.mk.injEq] at hrun
    simp [← hrun.1, hc]
  · simp [Decoder.take, hc] at hrun

end Decoder

end HcsCoin.Foundation
