import HcsCoin.Crypto.Sha256
import HcsCoin.Foundation.Streaming

/-!
# SHA-256 in panta-sim

The incremental hasher of `panta-sim/src/sha256.rs`, with its own compression
function and padding loop, and the seed expansion built on it.  However its
input is cut into pieces, the hasher computes the function of `CSHA256`.
-/

namespace HcsCoin.PantaSim

open Foundation

def rotateRight (x n : UInt32) : UInt32 := x >>> n ||| x <<< (32 - n)

/-- `state`, the block buffer with the number of bytes in it, and the total length. -/
structure Sha256 where
  state : HcsCoin.Sha256.State
  buf : Bytes
  buflen : Nat
  total : UInt64

namespace Sha256

def new : Sha256 :=
  { state := ⟨0x6a09e667, 0xbb67ae85, 0x3c6ef372, 0xa54ff53a,
      0x510e527f, 0x9b05688c, 0x1f83d9ab, 0x5be0cd19⟩
    buf := List.replicate 64 0
    buflen := 0
    total := 0 }

def word (w : List UInt32) (i : Nat) : UInt32 := w.getD i 0

def schedule (block : Bytes) : List UInt32 :=
  (List.range 48).foldl (fun w k =>
    let i := k + 16
    let s0 := rotateRight (word w (i - 15)) 7 ^^^ rotateRight (word w (i - 15)) 18 ^^^
      (word w (i - 15) >>> 3)
    let s1 := rotateRight (word w (i - 2)) 17 ^^^ rotateRight (word w (i - 2)) 19 ^^^
      (word w (i - 2) >>> 10)
    w ++ [word w (i - 16) + s0 + word w (i - 7) + s1]) (HcsCoin.Sha256.readBE32 block)

def round (s : HcsCoin.Sha256.State) (k w : UInt32) : HcsCoin.Sha256.State :=
  let s1 := rotateRight s.e 6 ^^^ rotateRight s.e 11 ^^^ rotateRight s.e 25
  let ch := (s.e &&& s.f) ^^^ (~~~s.e &&& s.g)
  let t1 := s.h + s1 + ch + k + w
  let s0 := rotateRight s.a 2 ^^^ rotateRight s.a 13 ^^^ rotateRight s.a 22
  let maj := (s.a &&& s.b) ^^^ (s.a &&& s.c) ^^^ (s.b &&& s.c)
  let t2 := s0 + maj
  ⟨t1 + t2, s.a, s.b, s.c, s.d + t1, s.e, s.f, s.g⟩

def compress (s : HcsCoin.Sha256.State) (block : Bytes) : HcsCoin.Sha256.State :=
  let t := (List.zip HcsCoin.Sha256.roundConstants (schedule block)).foldl
    (fun s (k, w) => round s k w) s
  ⟨s.a + t.a, s.b + t.b, s.c + t.c, s.d + t.d, s.e + t.e, s.f + t.f, s.g + t.g, s.h + t.h⟩

/-- The first step of `update`: fill the buffer and compress it once full.  Also
returns what is left of the data. -/
def fillBuffer (h : Sha256) (data : Bytes) : Sha256 × Bytes :=
  if h.buflen > 0 then
    let need := 64 - h.buflen
    let take := min need data.length
    let buf := writeAt h.buf h.buflen (data.take take)
    let buflen := h.buflen + take
    if buflen = 64 then
      ({ h with state := compress h.state buf, buf := buf, buflen := 0 }, data.drop take)
    else ({ h with buf := buf, buflen := buflen }, data.drop take)
  else (h, data)

def compressBlocks : Nat → HcsCoin.Sha256.State → Bytes → HcsCoin.Sha256.State × Bytes
  | 0, s, data => (s, data)
  | blocks + 1, s, data => compressBlocks blocks (compress s (data.take 64)) (data.drop 64)

def update (h : Sha256) (data : Bytes) : Sha256 :=
  let (h, data) := fillBuffer { h with total := h.total + UInt64.ofNat data.length } data
  let (state, data) := compressBlocks (data.length / 64) h.state data
  let h := { h with state := state }
  if data.isEmpty then h
  else { h with buf := writeAt h.buf 0 data, buflen := data.length }

/-- The loop `while self.buflen != 56`; a zero byte is appended at most 63 times. -/
def padTo56 : Nat → Sha256 → Sha256
  | 0, h => h
  | rounds + 1, h => if h.buflen ≠ 56 then padTo56 rounds (h.update [0]) else h

def finish (h : Sha256) : Uint256 :=
  let bits := h.total * 8
  let h := padTo56 63 (h.update [0x80])
  let h := h.update (leBytes 8 bits.toNat).reverse
  ⟨HcsCoin.Sha256.output h.state, rfl⟩

/-! ## The compression function is the one of `CSHA256` -/

theorem ch_eq (x y z : UInt32) : (x &&& y) ^^^ (~~~x &&& z) = HcsCoin.Sha256.ch x y z := by
  rw [HcsCoin.Sha256.ch]
  apply UInt32.toBitVec_inj.mp
  apply BitVec.eq_of_getLsbD_eq
  intro i hi
  simp only [UInt32.toBitVec_xor, UInt32.toBitVec_and, UInt32.toBitVec_not, BitVec.getLsbD_xor,
    BitVec.getLsbD_and, BitVec.getLsbD_not, hi, decide_true, Bool.true_and]
  cases x.toBitVec.getLsbD i <;> cases y.toBitVec.getLsbD i <;> cases z.toBitVec.getLsbD i <;> rfl

theorem maj_eq (x y z : UInt32) :
    (x &&& y) ^^^ (x &&& z) ^^^ (y &&& z) = HcsCoin.Sha256.maj x y z := by
  rw [HcsCoin.Sha256.maj]
  apply UInt32.toBitVec_inj.mp
  apply BitVec.eq_of_getLsbD_eq
  intro i hi
  simp only [UInt32.toBitVec_xor, UInt32.toBitVec_and, UInt32.toBitVec_or, BitVec.getLsbD_xor,
    BitVec.getLsbD_and, BitVec.getLsbD_or]
  cases x.toBitVec.getLsbD i <;> cases y.toBitVec.getLsbD i <;> cases z.toBitVec.getLsbD i <;> rfl

variable (s : HcsCoin.Sha256.State)

theorem round_eq (k w : UInt32) : round s k w = HcsCoin.Sha256.round s (k + w) := by
  simp only [round, HcsCoin.Sha256.round, ch_eq, maj_eq, ← UInt32.add_assoc]
  rfl

def scheduleWord (w : List UInt32) (k : Nat) : UInt32 :=
  word w k + HcsCoin.Sha256.smallSigma0 (word w (k + 1)) + word w (k + 9) +
    HcsCoin.Sha256.smallSigma1 (word w (k + 14))

def extend (w : List UInt32) (n : Nat) : List UInt32 :=
  (List.range n).foldl (fun w k => w ++ [scheduleWord w k]) w

theorem schedule_eq (block : Bytes) : schedule block = extend (HcsCoin.Sha256.readBE32 block) 48 :=
  rfl

variable (w : List UInt32)

theorem extend_succ (n : Nat) : extend w (n + 1) = extend w n ++ [scheduleWord (extend w n) n] := by
  rw [extend, List.range_succ, List.foldl_append]
  rfl

theorem extend_length (n : Nat) : (extend w n).length = w.length + n := by
  induction n with
  | zero => rfl
  | succ n ih => rw [extend_succ, List.length_append, ih, List.length_singleton, Nat.add_assoc]

theorem extend_add (n m : Nat) : ∃ more, extend w (n + m) = extend w n ++ more := by
  induction m with
  | zero => exact ⟨[], by simp⟩
  | succ m ih =>
    obtain ⟨more, hmore⟩ := ih
    exact ⟨more ++ [_], by rw [← Nat.add_assoc, extend_succ, hmore, List.append_assoc]⟩

theorem extend_cons (x : UInt32) (w : List UInt32) (n : Nat) :
    extend (x :: w) (n + 1) = x :: extend (w ++ [scheduleWord (x :: w) 0]) n := by
  induction n with
  | zero => rfl
  | succ n ih =>
    rw [extend_succ, ih, extend_succ (w ++ _), List.cons_append]
    rfl

theorem nextWord_eq {w : List UInt32} (h : w.length = 16) :
    HcsCoin.Sha256.nextWord w = scheduleWord w 0 := by
  match w, h with
  | [w0, w1, _, _, _, _, _, _, _, w9, _, _, _, _, w14, _], _ =>
    change w0 + (HcsCoin.Sha256.smallSigma1 w14 + w9 + HcsCoin.Sha256.smallSigma0 w1) =
      w0 + HcsCoin.Sha256.smallSigma0 w1 + w9 + HcsCoin.Sha256.smallSigma1 w14
    ac_rfl

theorem rounds_eq (ks : List UInt32) {w : List UInt32} (hw : w.length = 16)
    (s : HcsCoin.Sha256.State) :
    HcsCoin.Sha256.rounds ks w s =
      (List.zip ks (extend w ks.length)).foldl (fun s (k, w) => round s k w) s := by
  induction ks generalizing w s with
  | nil => rfl
  | cons k ks ih =>
    obtain ⟨x, w, rfl⟩ := List.exists_cons_of_length_eq_add_one hw
    have hnext : (w ++ [scheduleWord (x :: w) 0]).length = 16 := by
      rw [List.length_append, List.length_singleton, ← hw, List.length_cons]
    rw [HcsCoin.Sha256.rounds, nextWord_eq hw, List.tail_cons, ih hnext, List.length_cons,
      extend_cons, List.zip_cons_cons, List.foldl_cons, List.headD_cons, ← round_eq]

theorem readBE32_length (bs : Bytes) : (HcsCoin.Sha256.readBE32 bs).length = bs.length / 4 := by
  induction bs using HcsCoin.Sha256.readBE32.induct with
  | case1 a b c d rest ih =>
    rw [HcsCoin.Sha256.readBE32, List.length_cons, ih]
    simp only [List.length_cons]
    omega
  | case2 bs h =>
    match bs, h with
    | [], _ | [_], _ | [_, _], _ | [_, _, _], _ => simp [HcsCoin.Sha256.readBE32]
    | a :: b :: c :: d :: rest, h => exact absurd rfl (h a b c d rest)

theorem compress_eq {block : Bytes} (h : block.length = 64) :
    compress s block = HcsCoin.Sha256.transform s block := by
  have hwords : (HcsCoin.Sha256.readBE32 block).length = 16 := by rw [readBE32_length, h]
  -- The window also computes 16 words the rounds never read.
  obtain ⟨more, hmore⟩ := extend_add (HcsCoin.Sha256.readBE32 block) 48 16
  have hzip : List.zip HcsCoin.Sha256.roundConstants
      (extend (HcsCoin.Sha256.readBE32 block) HcsCoin.Sha256.roundConstants.length) =
        List.zip HcsCoin.Sha256.roundConstants (schedule block) := by
    have hlength : HcsCoin.Sha256.roundConstants.length =
        (extend (HcsCoin.Sha256.readBE32 block) 48).length := by
      rw [extend_length, hwords]
      rfl
    rw [show HcsCoin.Sha256.roundConstants.length = 48 + 16 from rfl, hmore, schedule_eq]
    rw [← List.append_nil HcsCoin.Sha256.roundConstants, List.zip_append hlength,
      List.zip_nil_left, List.append_nil, List.append_nil]
  rw [compress, HcsCoin.Sha256.transform, rounds_eq _ hwords, hzip]

/-! ## Buffering -/

def pending (h : Sha256) : Bytes := h.buf.take h.buflen

structure Holds (h : Sha256) (data : Bytes) : Prop where
  buf_length : h.buf.length = 64
  absorbed : absorb compress 64 new.state data = (h.state, h.pending)
  total_eq : h.total = UInt64.ofNat data.length

variable {h : Sha256} {data : Bytes}

theorem Holds.pending_length (hh : h.Holds data) : h.pending.length = data.length % 64 := by
  rw [← absorb_pending_length compress (by norm_num) new.state data, hh.absorbed]

theorem Holds.buflen_eq (hh : h.Holds data) : h.buflen = data.length % 64 := by
  have hlength := hh.pending_length
  rw [pending, List.length_take, hh.buf_length] at hlength
  omega

theorem holds_new : new.Holds [] where
  buf_length := rfl
  absorbed := absorb_of_lt (by norm_num)
  total_eq := rfl

theorem compressBlocks_eq (data : Bytes) :
    compressBlocks (data.length / 64) s data = absorb compress 64 s data :=
  eq_absorb_of_count id compressBlocks (by norm_num) (fun _ _ => rfl) (fun _ _ _ => rfl) s data

/-- Filling the buffer only moves bytes from the data to the buffer or the state,
and leaves data only when the buffer is empty. -/
structure Filled (h : Sha256) (data : Bytes) (h' : Sha256) (rest : Bytes) : Prop where
  buf_length : h'.buf.length = 64
  buflen_lt : h'.buflen < 64
  total_eq : h'.total = h.total
  absorb_eq : absorb compress 64 h.state (h.pending ++ data) =
    absorb compress 64 h'.state (h'.pending ++ rest)
  exhausted : h'.buflen = 0 ∨ rest = []

theorem fillBuffer_filled (hbuf : h.buf.length = 64) (hlen : h.buflen < 64)
    (data : Bytes) : Filled h data (h.fillBuffer data).1 (h.fillBuffer data).2 := by
  by_cases hzero : h.buflen = 0
  · rw [fillBuffer, if_neg (by omega)]
    exact ⟨hbuf, hlen, rfl, rfl, .inl hzero⟩
  rw [fillBuffer, if_pos (by omega)]
  dsimp only
  generalize htake : min (64 - h.buflen) data.length = take
  have htaken : (data.take take).length = take := by
    rw [List.length_take]
    omega
  have hwritten : (writeAt h.buf h.buflen (data.take take)).take (h.buflen + take) =
      h.pending ++ data.take take := by
    have hprefix := take_writeAt (hbuf ▸ hlen.le) (data.take take)
    rwa [htaken] at hprefix
  have hbuf' : (writeAt h.buf h.buflen (data.take take)).length = 64 := by
    rw [writeAt_length (by omega), hbuf]
  have hdata : data = data.take take ++ data.drop take := (List.take_append_drop take data).symm
  by_cases hfull : h.buflen + take = 64
  · -- The buffer is exactly one block.
    rw [if_pos hfull]
    rw [hfull, List.take_of_length_le hbuf'.le] at hwritten
    refine ⟨hbuf', by norm_num, rfl, ?_, .inl rfl⟩
    have hblock : (h.pending ++ data.take take).length = 64 := by rw [← hwritten, hbuf']
    dsimp only [pending, List.take_zero, List.nil_append]
    rw [hwritten, ← absorb_block _ (by norm_num) hblock, List.append_assoc, ← hdata]
    rfl
  · rw [if_neg hfull]
    have hall : take = data.length := by omega
    refine ⟨hbuf', by dsimp only; omega, rfl, ?_, .inr (List.drop_eq_nil_of_le (by omega))⟩
    dsimp only [pending]
    rw [hwritten, List.append_assoc, ← hdata]
    rfl

theorem Holds.update (hh : h.Holds data) (more : Bytes) : (h.update more).Holds (data ++ more) := by
  have hlen : h.buflen < 64 := hh.buflen_eq ▸ Nat.mod_lt _ (by norm_num)
  have hfilled := fillBuffer_filled (h := { h with total := h.total + UInt64.ofNat more.length })
    hh.buf_length hlen more
  rw [Sha256.update]
  generalize fillBuffer { h with total := h.total + UInt64.ofNat more.length } more = filled at hfilled
  obtain ⟨h', rest⟩ := filled
  obtain ⟨hbuf, hlen', htotal, habsorb, hexhausted⟩ := hfilled
  dsimp only at hbuf hlen' htotal habsorb hexhausted ⊢
  have hdata : absorb compress 64 new.state (data ++ more) =
      absorb compress 64 h'.state (h'.pending ++ rest) := by
    rw [absorb_append (by norm_num), hh.absorbed]
    exact habsorb
  have htotal' : h'.total = UInt64.ofNat (data ++ more).length := by
    rw [htotal, hh.total_eq, List.length_append, UInt64.ofNat_add]
  rw [compressBlocks_eq]
  rcases hexhausted with hempty | rfl
  · have hpending : h'.pending = [] := by rw [pending, hempty, List.take_zero]
    rw [hpending, List.nil_append] at hdata
    rw [← hdata]
    have hlast := absorb_pending_length compress (show 0 < 64 by norm_num) new.state (data ++ more)
    generalize hfinal : absorb compress 64 new.state (data ++ more) = final at hlast ⊢
    obtain ⟨state, last⟩ := final
    dsimp only at hlast ⊢
    cases last with
    | nil => exact ⟨hbuf, hfinal.trans (congrArg (Prod.mk state) hpending.symm), htotal'⟩
    | cons b last =>
      refine ⟨?_, ?_, htotal'⟩
      · change (writeAt h'.buf 0 (b :: last)).length = 64
        rw [writeAt_length (by omega), hbuf]
      · have hwritten := take_writeAt (Nat.zero_le h'.buf.length) (b :: last)
        rw [List.take_zero, List.nil_append, Nat.zero_add] at hwritten
        exact hfinal.trans (congrArg (Prod.mk state) hwritten.symm)
  · have hshort : h'.pending.length < 64 := by
      rw [pending, List.length_take]
      omega
    rw [absorb_of_lt (by norm_num)]
    refine ⟨hbuf, ?_, htotal'⟩
    rw [hdata, List.append_nil, absorb_of_lt hshort]
    rfl

/-! ## Padding -/

theorem Holds.padTo56 {rounds : Nat} (hh : h.Holds data)
    (hrounds : (120 - data.length % 64) % 64 ≤ rounds) :
    (padTo56 rounds h).Holds (data ++ List.replicate ((120 - data.length % 64) % 64) 0) := by
  induction rounds generalizing h data with
  | zero =>
    rw [Nat.le_zero.mp hrounds, List.replicate_zero, List.append_nil]
    exact hh
  | succ rounds ih =>
    rw [Sha256.padTo56]
    by_cases hfull : h.buflen = 56
    · have hmod : (120 - data.length % 64) % 64 = 0 := by rw [← hh.buflen_eq, hfull]
      rw [if_neg (not_not.mpr hfull), hmod, List.replicate_zero, List.append_nil]
      exact hh
    · -- One zero byte brings the buffer one byte closer to position 56.
      have hlength : (data ++ [0]).length = data.length + 1 := by simp
      have hbuflen := hh.buflen_eq
      have hstep : (120 - data.length % 64) % 64 = (120 - (data ++ [0]).length % 64) % 64 + 1 := by
        rw [hlength]
        omega
      rw [if_pos hfull, hstep, Nat.add_comm, List.replicate_add, List.replicate_one,
        ← List.append_assoc]
      exact ih (hh.update [0]) (by omega)

theorem Holds.finish (hh : h.Holds data) : h.finish = HcsCoin.sha256 data := by
  have hbits : leBytes 8 (h.total * 8).toNat = leBytes 8 (data.length * 8) := by
    rw [hh.total_eq, ← leBytes_mod 8 (data.length * 8)]
    congr 1
    simp
  have hone := hh.update [0x80]
  have hzeros := hone.padTo56 (show _ ≤ 63 by omega)
  have hlast := hzeros.update (leBytes 8 (h.total * 8).toNat).reverse
  have hcount : (120 - (data ++ [0x80]).length % 64) % 64 = (119 - data.length % 64) % 64 := by
    rw [List.length_append, List.length_singleton]
    omega
  have hpadded : data ++ [0x80] ++ List.replicate ((120 - (data ++ [0x80]).length % 64) % 64) 0 ++
      (leBytes 8 (h.total * 8).toNat).reverse = data ++ HcsCoin.Sha256.padding data.length := by
    rw [hcount, hbits, HcsCoin.Sha256.padding]
    simp
  rw [hpadded] at hlast
  have hstate := hlast.absorbed
  rw [absorb_congr (fun s _ hblock => compress_eq s hblock)] at hstate
  have hblocks := eq_absorb_of_count Prod.fst HcsCoin.Sha256.transformBlocks
    (show 0 < 64 by norm_num) (fun _ _ => rfl) (fun _ _ _ => rfl) HcsCoin.Sha256.initialize256
    (data ++ HcsCoin.Sha256.padding data.length)
  apply BaseBlob.ext
  change HcsCoin.Sha256.output _ = HcsCoin.Sha256.output _
  congr 1
  rw [hblocks]
  exact (congrArg Prod.fst hstate).symm

end Sha256

def sha256 (data : Bytes) : Uint256 := (Sha256.new.update data).finish

theorem sha256_eq (data : Bytes) : sha256 data = HcsCoin.sha256 data :=
  (Sha256.holds_new.update data).finish

def expandSeed (seed : Bytes) (n : Nat) : Bytes :=
  ((List.range ((n + 31) / 32)).flatMap fun i =>
    ((Sha256.new.update seed).update (leBytes 4 i)).finish.mData).take n

end HcsCoin.PantaSim
