import HcsCoin.Crypto.SipHash
import HcsCoin.Validation

/-!
# Compact blocks

`CBlockHeaderAndShortTxIDs` and `PartiallyDownloadedBlock` of
`blockencodings.cpp`: a block is announced by its header, its first transaction
and a 6-byte short id of every other transaction; the receiver fills the slots
from the mempool and a list of extra transactions and asks for the rest.

`none` stands for an exception or an access outside a vector.
-/

namespace HcsCoin

open Foundation Foundation.Decoder

structure PrefilledTransaction where
  index : UInt16
  tx : CTransaction
  deriving DecidableEq

structure CBlockHeaderAndShortTxIDs where
  header : CBlockHeader
  nonce : UInt64
  shorttxids : List UInt64
  prefilledtxn : List PrefilledTransaction
  deriving DecidableEq

inductive ReadStatus where
  | ok
  | invalid
  | failed
  deriving DecidableEq

/-! ## The message -/

def shortTxIDSelector (header : CBlockHeader) (nonce : UInt64) : PresaltedSipHasher :=
  let shorttxidhash := sha256 (header.serialize ++ serUInt64 nonce)
  .ofKeys (shorttxidhash.getUint64 0) (shorttxidhash.getUint64 1)

def shortID (header : CBlockHeader) (nonce : UInt64) (wtxid : Uint256) : UInt64 :=
  (shortTxIDSelector header nonce).hash wtxid &&& 0xffffffffffff

namespace CBlockHeaderAndShortTxIDs

def getShortID (c : CBlockHeaderAndShortTxIDs) (wtxid : Uint256) : UInt64 :=
  shortID c.header c.nonce wtxid

def ofBlock (block : CBlock) (nonce : UInt64) : Option CBlockHeaderAndShortTxIDs :=
  match block.vtx with
  | [] => none
  | first :: rest => some
      { header := block.toCBlockHeader
        nonce := nonce
        shorttxids := rest.map fun tx => shortID block.toCBlockHeader nonce tx.getWitnessHash
        prefilledtxn := [⟨0, first⟩] }

def blockTxCount (c : CBlockHeaderAndShortTxIDs) : Nat :=
  c.shorttxids.length + c.prefilledtxn.length

/-- `CustomUintFormatter<6>` refuses numbers that do not fit. -/
def serialize (c : CBlockHeaderAndShortTxIDs) : Option Bytes :=
  if c.shorttxids.any fun id => id.toNat ≥ 256 ^ 6 then none
  else some (c.header.serialize ++ (serUInt64 c.nonce ++
    (serVector (fun id => leBytes 6 id.toNat) c.shorttxids ++
      serVector (fun t => writeCompactSize t.index.toNat ++ serializeTransaction true t.tx)
        c.prefilledtxn)))

end CBlockHeaderAndShortTxIDs

def readShortID : Reader UInt64 := do
  let raw ← readLE 6
  pure (UInt64.ofNat raw)

def readPrefilledTransaction : Reader PrefilledTransaction := do
  let index ← readCompactSize true
  if index > 0xffff then throw .compactSizeExceedsLimitOfType
  else do
    let tx ← unserializeTransaction true
    pure ⟨UInt16.ofNat index, tx⟩

def readCompactBlock : Reader CBlockHeaderAndShortTxIDs := do
  let header ← readBlockHeader
  let nonce ← readUInt64
  let shorttxids ← readVector readShortID
  let prefilledtxn ← readVector readPrefilledTransaction
  if shorttxids.length + prefilledtxn.length > 0xffff then throw .indexesOverflowed16Bits
  else pure { header, nonce, shorttxids, prefilledtxn }

/-! ## Reconstruction -/

def MIN_SERIALIZABLE_TRANSACTION_WEIGHT : Nat := WITNESS_SCALE_FACTOR * 10

abbrev ShortIdMap := List (UInt64 × Nat)

namespace ShortIdMap

def assign (map : ShortIdMap) (id : UInt64) (position : Nat) : ShortIdMap :=
  (id, position) :: map.filter fun entry => entry.1 != id

def find (map : ShortIdMap) (id : UInt64) : Option Nat := map.lookup id

def bucketSize (bucket : UInt64 → Nat) (map : ShortIdMap) (id : UInt64) : Nat :=
  map.countP fun entry => bucket entry.1 == bucket id

end ShortIdMap

/-- The members that decide what `InitData` and `FillBlock` return. -/
structure PartiallyDownloadedBlock where
  header : CBlockHeader := {}
  txnAvailable : List (Option CTransaction) := []
  mempoolCount : Nat := 0
  deriving DecidableEq

/-- What the receiver knows besides the message: the mempool and the extra
transactions in the order they are looked at, and the bucket of each key in an
`unordered_map` made for the given number of keys. -/
structure CompactBlockEnv where
  pool : List (Uint256 × CTransaction)
  extraTxn : List (Uint256 × CTransaction)
  bucket : Nat → UInt64 → Nat

namespace PartiallyDownloadedBlock

/-- The loop over `prefilledtxn`, with `next` for `lastprefilledindex + 1`. -/
def placePrefilled (shortCount : Nat) :
    Nat → Nat → List PrefilledTransaction → List (Option CTransaction) →
      Option (ReadStatus × List (Option CTransaction))
  | _, _, [], available => some (.ok, available)
  | i, next, prefilled :: rest, available =>
    if prefilled.tx.isNull then some (.invalid, available)
    else if next + prefilled.index.toNat > 0xffff then some (.invalid, available)
    else if next + prefilled.index.toNat > shortCount + i then some (.invalid, available)
    else if next + prefilled.index.toNat < available.length then
      placePrefilled shortCount (i + 1) (next + prefilled.index.toNat + 1) rest
        (available.set (next + prefilled.index.toNat) (some prefilled.tx))
    else none

/-- `while (txn_available[i + index_offset]) index_offset++`, from position `i + index_offset`. -/
def nextFree (available : List (Option CTransaction)) (position : Nat) : Option Nat :=
  ((available.drop position).findIdx? Option.isNone).map (position + ·)

/-- The loop over `shorttxids`, where `position` is `i + index_offset`. -/
def mapShortIds (bucket : UInt64 → Nat) (available : List (Option CTransaction)) :
    Nat → ShortIdMap → List UInt64 → Option (ReadStatus × ShortIdMap)
  | _, map, [] => some (.ok, map)
  | position, map, id :: ids =>
    (nextFree available position).bind fun free =>
      if (map.assign id (free % 2 ^ 16)).bucketSize bucket id > 12 then
        some (.failed, map.assign id (free % 2 ^ 16))
      else mapShortIds bucket available (free + 1) (map.assign id (free % 2 ^ 16)) ids

/-- `txn_available`, `have_txn` and `mempool_count` while the transactions at hand are
matched with the short ids. -/
structure Matching where
  available : List (Option CTransaction)
  haveTxn : List Bool
  mempoolCount : Nat

namespace Matching

def fill (m : Matching) (position : Nat) (tx : CTransaction) : Matching :=
  { available := m.available.set position (some tx)
    haveTxn := m.haveTxn.set position true
    mempoolCount := m.mempoolCount + 1 }

def reset (m : Matching) (position : Nat) : Matching :=
  { m with available := m.available.set position none, mempoolCount := m.mempoolCount - 1 }

/-- A transaction whose short id is that of the slot; `clash` says whether it counts as
another one than the one already there. -/
def offer (clash : CTransaction → CTransaction → Bool) (m : Matching) (position : Nat)
    (tx : CTransaction) : Option Matching :=
  match m.haveTxn[position]?, m.available[position]? with
  | some false, some _ => some (m.fill position tx)
  | some true, some (some held) => if clash held tx then some (m.reset position) else some m
  | some true, some none => some m
  | _, _ => none

def scan (clash : CTransaction → CTransaction → Bool) (c : CBlockHeaderAndShortTxIDs)
    (map : ShortIdMap) : Matching → List (Uint256 × CTransaction) → Option Matching
  | m, [] => some m
  | m, entry :: rest =>
    (match map.find (c.getShortID entry.1) with
      | none => some m
      | some position => m.offer clash position entry.2).bind fun m =>
    if m.mempoolCount = map.length then some m else scan clash c map m rest

end Matching

def poolClash (_ _ : CTransaction) : Bool := true

def extraClash (held tx : CTransaction) : Bool := held.getWitnessHash != tx.getWitnessHash

def matchTransactions (env : CompactBlockEnv) (c : CBlockHeaderAndShortTxIDs) (map : ShortIdMap)
    (p : PartiallyDownloadedBlock) : Option PartiallyDownloadedBlock := do
  let fromPool ← Matching.scan poolClash c map
    ⟨p.txnAvailable, List.replicate p.txnAvailable.length false, p.mempoolCount⟩ env.pool
  let fromExtra ← Matching.scan extraClash c map fromPool env.extraTxn
  some { p with txnAvailable := fromExtra.available, mempoolCount := fromExtra.mempoolCount }

def mapAndMatch (env : CompactBlockEnv) (c : CBlockHeaderAndShortTxIDs)
    (p : PartiallyDownloadedBlock) : Option (ReadStatus × PartiallyDownloadedBlock) :=
  (mapShortIds (env.bucket c.shorttxids.length) p.txnAvailable 0 [] c.shorttxids).bind fun r =>
    if r.1 ≠ .ok then some (r.1, p)
    else if r.2.length ≠ c.shorttxids.length then some (.failed, p)
    else (matchTransactions env c r.2 p).map fun p => (.ok, p)

def initData (env : CompactBlockEnv) (p : PartiallyDownloadedBlock)
    (c : CBlockHeaderAndShortTxIDs) : Option (ReadStatus × PartiallyDownloadedBlock) :=
  if c.header.isNull || (c.shorttxids.isEmpty && c.prefilledtxn.isEmpty) then some (.invalid, p)
  else if c.shorttxids.length + c.prefilledtxn.length >
      MAX_BLOCK_WEIGHT / MIN_SERIALIZABLE_TRANSACTION_WEIGHT then some (.invalid, p)
  else if !p.header.isNull || !p.txnAvailable.isEmpty then some (.invalid, p)
  else
    (placePrefilled c.shorttxids.length 0 0 c.prefilledtxn
      (List.replicate c.blockTxCount none)).bind fun r =>
    if r.1 ≠ .ok then some (r.1, { p with header := c.header, txnAvailable := r.2 })
    else mapAndMatch env c { p with header := c.header, txnAvailable := r.2 }

/-- The loop of `FillBlock`: the transactions of the block and what is left of those
that were sent. -/
def fillSlots : List (Option CTransaction) → List CTransaction →
    Option (List CTransaction × List CTransaction)
  | [], vtxMissing => some ([], vtxMissing)
  | some tx :: available, vtxMissing =>
    (fillSlots available vtxMissing).map fun r => (tx :: r.1, r.2)
  | none :: _, [] => none
  | none :: available, tx :: vtxMissing =>
    (fillSlots available vtxMissing).map fun r => (tx :: r.1, r.2)

/-- The block a header and a list of transactions make up: a block assigned from a
header has no quantum proof. -/
def blockOver (header : CBlockHeader) (vtx : List CTransaction) : CBlock :=
  { toCBlockHeader := header, vtx := vtx }

def fillBlock (p : PartiallyDownloadedBlock) (vtxMissing : List CTransaction)
    (segwitActive : Bool) : Option (ReadStatus × Option CBlock) :=
  if p.header.isNull then some (.invalid, none)
  else
    match fillSlots p.txnAvailable vtxMissing with
    | none => some (.invalid, none)
    | some (_, _ :: _) => some (.invalid, none)
    | some (vtx, []) =>
      (isBlockMutated (blockOver p.header vtx) {} segwitActive).map fun mutated =>
        if mutated then (.failed, none) else (.ok, some (blockOver p.header vtx))

end PartiallyDownloadedBlock

/-! ## Decoding -/

theorem toNat_shortID_lt (header : CBlockHeader) (nonce : UInt64) (wtxid : Uint256) :
    (shortID header nonce wtxid).toNat < 256 ^ 6 := by
  rw [shortID, UInt64.toNat_and]
  exact Nat.lt_of_le_of_lt Nat.and_le_right (by decide)

theorem decodes_readShortID {id : UInt64} (h : id.toNat < 256 ^ 6) :
    Decodes readShortID (leBytes 6 id.toNat) id := by
  refine (decodes_readLE 6 h).last ?_
  rw [UInt64.ofNat_toNat]
  exact Decodes.pure id

def announcedIds (block : CBlock) (nonce : UInt64) : List UInt64 :=
  block.vtx.tail.map fun tx => shortID block.toCBlockHeader nonce tx.getWitnessHash

def announcement (block : CBlock) (nonce : UInt64) (first : CTransaction) :
    CBlockHeaderAndShortTxIDs where
  header := block.toCBlockHeader
  nonce := nonce
  shorttxids := announcedIds block nonce
  prefilledtxn := [⟨0, first⟩]

variable {block : CBlock} {left : Bytes}

theorem ofBlock_eq {first : CTransaction} {rest : List CTransaction}
    (h : block.vtx = first :: rest) (nonce : UInt64) :
    CBlockHeaderAndShortTxIDs.ofBlock block nonce = some (announcement block nonce first) := by
  rw [CBlockHeaderAndShortTxIDs.ofBlock, announcement, announcedIds, h]
  rfl

private theorem run_readPrefilledTransaction (enc : Bytes) {t : PrefilledTransaction} :
    readPrefilledTransaction.run (writeCompactSize 0 ++ enc) = .ok (t, left) ↔
      ∃ tx, (unserializeTransaction true).run enc = .ok (tx, left) ∧ t = ⟨0, tx⟩ := by
  have hindex : Decodes (readCompactSize true) (writeCompactSize 0) 0 :=
    decodes_readCompactSize (by decide) fun _ => by decide
  rw [readPrefilledTransaction, run_bind_of_ok (hindex enc), if_neg (by decide), run_bind_eq_ok]
  constructor
  · rintro ⟨tx, middle, htx, hpure⟩
    cases hpure
    exact ⟨tx, htx, rfl⟩
  · rintro ⟨tx, htx, rfl⟩
    exact ⟨tx, left, htx, rfl⟩

private theorem run_readPrefilledVector (enc : Bytes) {ts : List PrefilledTransaction} :
    (readVector readPrefilledTransaction).run (writeCompactSize 1 ++ (writeCompactSize 0 ++ enc)) =
        .ok (ts, left) ↔
      ∃ tx, (unserializeTransaction true).run enc = .ok (tx, left) ∧ ts = [⟨0, tx⟩] := by
  have hsize : Decodes (readCompactSize true) (writeCompactSize 1) 1 :=
    decodes_readCompactSize (by decide) fun _ => by decide
  rw [readVector, run_bind_of_ok (hsize _), readMany, run_bind_eq_ok]
  constructor
  · rintro ⟨t, middle, ht, hrest⟩
    cases hrest
    obtain ⟨tx, htx, rfl⟩ := (run_readPrefilledTransaction enc).mp ht
    exact ⟨tx, htx, rfl⟩
  · rintro ⟨tx, htx, rfl⟩
    exact ⟨⟨0, tx⟩, left, (run_readPrefilledTransaction enc).mpr ⟨tx, htx, rfl⟩, rfl⟩

theorem run_readCompactBlock (nonce : UInt64) (first : CTransaction)
    (hcount : block.vtx.tail.length < 0xffff) :
    ∃ enc, (announcement block nonce first).serialize = some enc ∧
      ∀ c left, readCompactBlock.run enc = .ok (c, left) ↔
        ∃ tx, (unserializeTransaction true).run (serializeTransaction true first) =
          .ok (tx, left) ∧ c = announcement block nonce tx := by
  have hfits : (announcement block nonce first).shorttxids.any
      (fun id => id.toNat ≥ 256 ^ 6) = false := by
    rw [List.any_eq_false]
    intro id hid
    obtain ⟨tx, -, rfl⟩ := List.mem_map.mp hid
    simpa using toNat_shortID_lt block.toCBlockHeader nonce tx.getWitnessHash
  have hids : Decodes (readVector readShortID)
      (serVector (fun id => leBytes 6 id.toNat) (announcement block nonce first).shorttxids)
      (announcement block nonce first).shorttxids := by
    refine decodes_readVector ?_ fun id hid => ?_
    · rw [announcement, announcedIds, List.length_map]
      exact hcount.le.trans (by decide)
    · obtain ⟨tx, -, rfl⟩ := List.mem_map.mp hid
      exact decodes_readShortID (toNat_shortID_lt block.toCBlockHeader nonce tx.getWitnessHash)
  refine ⟨_, by rw [CBlockHeaderAndShortTxIDs.serialize, if_neg (Bool.eq_false_iff.mp hfits)], ?_⟩
  intro c left
  have hvector : serVector
      (fun t : PrefilledTransaction =>
        writeCompactSize t.index.toNat ++ serializeTransaction true t.tx)
      (announcement block nonce first).prefilledtxn =
      writeCompactSize 1 ++ (writeCompactSize 0 ++ serializeTransaction true first) := by
    simp [serVector, announcement]
  rw [readCompactBlock, run_bind_of_ok (decodes_readBlockHeader _ _),
    run_bind_of_ok (decodes_readUInt64 _ _), run_bind_of_ok (hids _), hvector, run_bind_eq_ok]
  constructor
  · rintro ⟨ts, middle, hts, hrest⟩
    obtain ⟨tx, htx, rfl⟩ := (run_readPrefilledVector _).mp hts
    rw [if_neg (by simp [announcement, announcedIds] at hcount ⊢; omega)] at hrest
    cases hrest
    exact ⟨tx, htx, rfl⟩
  · rintro ⟨tx, htx, rfl⟩
    refine ⟨_, left, (run_readPrefilledVector _).mpr ⟨tx, htx, rfl⟩, ?_⟩
    rw [if_neg (by simp [announcement, announcedIds] at hcount ⊢; omega)]
    rfl

/-! ## Positions of the short ids -/

namespace ShortIdMap

/-- The keys are the ids seen so far, each with the position of one of its
occurrences; position 0 is that of the first transaction. -/
structure Lists (map : ShortIdMap) (ids : List UInt64) : Prop where
  nodup : (map.map Prod.fst).Nodup
  mem_keys : ∀ id, id ∈ map.map Prod.fst ↔ id ∈ ids
  position : ∀ entry ∈ map, ∃ i, ids[i]? = some entry.1 ∧ entry.2 = i + 1

theorem Lists.nil : Lists [] [] :=
  ⟨List.nodup_nil, fun _ => Iff.rfl, fun _ h => absurd h List.not_mem_nil⟩

variable {map : ShortIdMap} {ids : List UInt64}

theorem Lists.assign (h : map.Lists ids) (id : UInt64) :
    (map.assign id (ids.length + 1)).Lists (ids ++ [id]) where
  nodup := by
    have hkeys : ((map.filter fun entry => entry.1 != id).map Prod.fst).Nodup :=
      h.nodup.sublist (List.filter_sublist.map Prod.fst)
    refine List.nodup_cons.mpr ⟨?_, hkeys⟩
    simp
  mem_keys := by
    intro key
    have hold := h.mem_keys key
    by_cases hkey : key = id
    · simp [ShortIdMap.assign, hkey]
    · simp only [List.mem_map, Prod.exists, exists_and_right, exists_eq_right] at hold
      simp [ShortIdMap.assign, hkey, hold]
  position := by
    intro entry hentry
    rcases List.mem_cons.mp hentry with rfl | hentry
    · exact ⟨ids.length, by simp, rfl⟩
    · obtain ⟨i, hi, hpos⟩ := h.position entry (List.mem_of_mem_filter hentry)
      exact ⟨i, List.getElem?_append_left (List.getElem?_eq_some_iff.mp hi).1 ▸ hi, hpos⟩

theorem Lists.length_eq (h : map.Lists ids) : map.length = ids.dedup.length := by
  have hperm : (map.map Prod.fst).Perm ids.dedup :=
    (List.perm_ext_iff_of_nodup h.nodup ids.nodup_dedup).mpr fun id => by
      rw [h.mem_keys, List.mem_dedup]
  simpa using hperm.length_eq

theorem Lists.length_eq_iff (h : map.Lists ids) : map.length = ids.length ↔ ids.Nodup := by
  rw [h.length_eq]
  constructor
  · intro hlength
    rw [← ids.dedup_sublist.eq_of_length hlength]
    exact ids.nodup_dedup
  · intro hnodup
    rw [hnodup.dedup]

theorem Lists.bucketSize_le {all : List UInt64} (h : map.Lists ids)
    (hsub : ids ⊆ all) (bucket : UInt64 → Nat) (id : UInt64) :
    map.bucketSize bucket id ≤ all.dedup.countP fun key => bucket key == bucket id := by
  have hkeys : map.map Prod.fst ⊆ all.dedup := fun key hkey =>
    List.mem_dedup.mpr (hsub ((h.mem_keys key).mp hkey))
  have hcount := (List.subperm_of_subset h.nodup hkeys).countP_le
    fun key => bucket key == bucket id
  rwa [List.countP_map] at hcount

theorem Lists.find (h : map.Lists ids) {id : UInt64}
    {position : Nat} (hfind : map.find id = some position) :
    ∃ i, ids[i]? = some id ∧ position = i + 1 := by
  obtain ⟨before, after, hmap, -⟩ := List.lookup_eq_some_iff.mp hfind
  exact h.position (id, position) (by simp [hmap])

end ShortIdMap

namespace PartiallyDownloadedBlock

def BucketsFit (bucket : UInt64 → Nat) (ids : List UInt64) : Prop :=
  ∀ id ∈ ids, (ids.dedup.countP fun key => bucket key == bucket id) ≤ 12

variable (tx : CTransaction) {count position i : Nat} {ids : List UInt64}

theorem nextFree_afterFirst (hpos : position < count) :
    nextFree (some tx :: List.replicate count none) (position + 1) = some (position + 1) := by
  obtain ⟨k, rfl⟩ := Nat.exists_eq_add_of_lt hpos
  have hdrop : (some tx :: List.replicate (position + k + 1) none).drop (position + 1) =
      List.replicate (k + 1) (none : Option CTransaction) := by
    rw [List.drop_succ_cons, List.drop_replicate]
    congr 1
    omega
  rw [nextFree, hdrop]
  rfl

variable {map : ShortIdMap} {bucket : UInt64 → Nat}

theorem mapShortIds_afterFirst (hcount : count < 2 ^ 16 - 1) {done : List UInt64}
    (hmap : map.Lists done) (hlength : (done ++ ids).length = count)
    (hbucket : BucketsFit bucket (done ++ ids)) :
    ∃ map', mapShortIds bucket (some tx :: List.replicate count none) (done.length + 1) map ids =
        some (.ok, map') ∧ map'.Lists (done ++ ids) := by
  induction ids generalizing done map with
  | nil => exact ⟨map, rfl, by rwa [List.append_nil]⟩
  | cons id ids ih =>
    have hpos : done.length < count := by
      rw [← hlength, List.length_append, List.length_cons]
      omega
    have hnext := hmap.assign id
    have hsub : done ++ [id] ⊆ done ++ id :: ids := by simp
    have hfit : ¬ (map.assign id (done.length + 1)).bucketSize bucket id > 12 :=
      Nat.not_lt.mpr ((hnext.bucketSize_le hsub bucket id).trans (hbucket id (by simp)))
    have hsplit : done ++ id :: ids = done ++ [id] ++ ids := by simp
    rw [hsplit] at hlength hbucket ⊢
    obtain ⟨map', hrun, hmap'⟩ := ih hnext hlength hbucket
    rw [List.length_append, List.length_singleton] at hrun
    refine ⟨map', ?_, hmap'⟩
    rw [mapShortIds, nextFree_afterFirst tx hpos, Option.bind_some,
      Nat.mod_eq_of_lt (by omega : done.length + 1 < 2 ^ 16), if_neg hfit, hrun]

theorem exists_mapShortIds (hcount : ids.length < 2 ^ 16 - 1) (hbucket : BucketsFit bucket ids) :
    ∃ map, mapShortIds bucket (some tx :: List.replicate ids.length none) 0 [] ids =
      some (.ok, map) ∧ map.Lists ids := by
  obtain ⟨map, hrun, hmap⟩ := mapShortIds_afterFirst tx hcount ShortIdMap.Lists.nil rfl hbucket
  refine ⟨map, ?_, hmap⟩
  rw [← hrun]
  cases ids with
  | nil => rfl
  | cons id ids => rfl

/-! ## Matching -/

structure Holds (available : List (Option CTransaction)) (vtx : List CTransaction) : Prop where
  length_eq : available.length = vtx.length
  held : ∀ (i : Nat) tx, available[i]? = some (some tx) → vtx[i]? = some tx

variable {available : List (Option CTransaction)} {vtx : List CTransaction}
  {first tx : CTransaction} {m : Matching} {c : CBlockHeaderAndShortTxIDs} {env : CompactBlockEnv}
  {slot : Option CTransaction}

theorem Holds.set (h : Holds available vtx)
    (hslot : ∀ tx, slot = some tx → vtx[position]? = some tx) :
    Holds (available.set position slot) vtx where
  length_eq := by rw [List.length_set, h.length_eq]
  held := by
    intro i tx hi
    rw [List.getElem?_set] at hi
    split at hi
    case isTrue heq =>
      split at hi
      case isTrue => exact heq ▸ hslot tx (Option.some.inj hi)
      case isFalse => exact absurd hi (by simp)
    case isFalse => exact h.held i tx hi

structure Matches (first : CTransaction) (vtx : List CTransaction) (m : Matching) : Prop where
  holds : Holds m.available vtx
  have_length : m.haveTxn.length = vtx.length
  first_held : m.available[0]? = some (some first)

theorem Matches.fill (h : Matches first vtx m) (htx : vtx[i + 1]? = some tx) :
    Matches first vtx (m.fill (i + 1) tx) where
  holds := h.holds.set fun _ heq => (Option.some.inj heq) ▸ htx
  have_length := by rw [Matching.fill, List.length_set, h.have_length]
  first_held := by rw [Matching.fill, List.getElem?_set_ne (Nat.succ_ne_zero i), h.first_held]

theorem Matches.reset
    (h : Matches first vtx m) (i : Nat) : Matches first vtx (m.reset (i + 1)) where
  holds := h.holds.set fun _ heq => absurd heq (by simp)
  have_length := h.have_length
  first_held := by rw [Matching.reset, List.getElem?_set_ne (Nat.succ_ne_zero i), h.first_held]

theorem Matches.offer (h : Matches first vtx m) (clash : CTransaction → CTransaction → Bool)
    (htx : vtx[i + 1]? = some tx) :
    ∃ m', m.offer clash (i + 1) tx = some m' ∧ Matches first vtx m' := by
  have hlt : i + 1 < vtx.length := (List.getElem?_eq_some_iff.mp htx).1
  obtain ⟨have', hhave⟩ : ∃ b, m.haveTxn[i + 1]? = some b :=
    ⟨_, List.getElem?_eq_getElem (h.have_length ▸ hlt)⟩
  obtain ⟨slot, hslot⟩ : ∃ a, m.available[i + 1]? = some a :=
    ⟨_, List.getElem?_eq_getElem (h.holds.length_eq ▸ hlt)⟩
  rw [Matching.offer, hhave, hslot]
  cases have' with
  | false => exact ⟨_, rfl, h.fill htx⟩
  | true =>
    cases slot with
    | none => exact ⟨m, rfl, h⟩
    | some held =>
      dsimp only
      split
      · exact ⟨_, rfl, h.reset i⟩
      · exact ⟨m, rfl, h⟩

def NoCollisions (shortIDOf : Uint256 → UInt64) (entries : List (Uint256 × CTransaction))
    (txs : List CTransaction) : Prop :=
  ∀ entry ∈ entries, ∀ tx ∈ txs, shortIDOf entry.1 = shortIDOf tx.getWitnessHash → entry.2 = tx

section

variable (hmap : map.Lists c.shorttxids)
  (hids : c.shorttxids = vtx.tail.map fun tx => c.getShortID tx.getWitnessHash)
include hmap hids

theorem Matches.scan (clash : CTransaction → CTransaction → Bool) {entries : List (Uint256 × CTransaction)}
    (hclear : NoCollisions c.getShortID entries vtx.tail) (h : Matches first vtx m) :
    ∃ m', m.scan clash c map entries = some m' ∧ Matches first vtx m' := by
  induction entries generalizing m with
  | nil => exact ⟨m, rfl, h⟩
  | cons entry rest ih =>
    have hrest : NoCollisions c.getShortID rest vtx.tail := (List.forall_mem_cons.mp hclear).2
    obtain ⟨next, hnext, hmatches⟩ : ∃ next,
        (match map.find (c.getShortID entry.1) with
          | none => some m
          | some position => m.offer clash position entry.2) = some next ∧
        Matches first vtx next := by
      cases hfind : map.find (c.getShortID entry.1) with
      | none => exact ⟨m, rfl, h⟩
      | some position =>
        obtain ⟨i, hi, rfl⟩ := hmap.find hfind
        rw [hids, List.getElem?_map] at hi
        obtain ⟨tx, htx, hid⟩ := Option.map_eq_some_iff.mp hi
        -- the only transaction at hand with this short id is the one of the block
        have heq : entry.2 = tx :=
          hclear entry List.mem_cons_self tx (List.mem_of_getElem? htx) hid.symm
        have hslot : vtx[i + 1]? = some entry.2 := by rw [heq, ← htx, List.getElem?_tail]
        exact h.offer clash hslot
    rw [Matching.scan, hnext, Option.bind_some]
    split
    case isTrue => exact ⟨next, rfl, hmatches⟩
    case isFalse => exact ih hrest hmatches

theorem matchTransactions_afterFirst
    (hclear : NoCollisions c.getShortID (env.pool ++ env.extraTxn) vtx.tail)
    {p : PartiallyDownloadedBlock} (hholds : Holds p.txnAvailable vtx)
    (hfirst : p.txnAvailable[0]? = some (some first)) :
    ∃ p', matchTransactions env c map p = some p' ∧ p'.header = p.header ∧
      Holds p'.txnAvailable vtx ∧ p'.txnAvailable[0]? = some (some first) := by
  have hstart : Matches first vtx
      ⟨p.txnAvailable, List.replicate p.txnAvailable.length false, p.mempoolCount⟩ :=
    ⟨hholds, by rw [List.length_replicate, hholds.length_eq], hfirst⟩
  obtain ⟨fromPool, hpool, hm⟩ := Matches.scan hmap hids poolClash
    (fun e he => hclear e (List.mem_append_left _ he)) hstart
  obtain ⟨fromExtra, hextra, hm⟩ := Matches.scan hmap hids extraClash
    (fun e he => hclear e (List.mem_append_right _ he)) hm
  refine ⟨⟨p.header, fromExtra.available, fromExtra.mempoolCount⟩, ?_, rfl, hm.holds, hm.first_held⟩
  rw [matchTransactions, hpool]
  change (fromPool.scan extraClash c map env.extraTxn).bind _ = _
  rw [hextra]
  rfl

end

theorem holds_afterFirst (first : CTransaction) (rest : List CTransaction) :
    Holds (some first :: List.replicate rest.length none) (first :: rest) where
  length_eq := by simp
  held := by
    intro i tx hi
    cases i with
    | zero => exact congrArg some (Option.some.inj (Option.some.inj hi))
    | succ i =>
      rw [List.getElem?_cons_succ, List.getElem?_replicate] at hi
      split at hi <;> simp at hi

theorem placePrefilled_first (count : Nat) :
    placePrefilled count 0 0 [⟨0, tx⟩] (List.replicate (count + 1) none) =
      if tx.isNull then some (.invalid, List.replicate (count + 1) none)
      else some (.ok, some tx :: List.replicate count none) := by
  rw [placePrefilled]
  split
  case isTrue => rfl
  case isFalse =>
    rw [if_neg (by simp), if_neg (by simp), if_pos (by simp)]
    rfl

def seeded (header : CBlockHeader) (tx : CTransaction) (count : Nat) :
    PartiallyDownloadedBlock :=
  ⟨header, some tx :: List.replicate count none, 0⟩

theorem initData_announcement (env : CompactBlockEnv) {block : CBlock} (nonce : UInt64)
    (tx : CTransaction) (hbits : block.nBits ≠ 0) (hcount : block.vtx.tail.length < 0xffff) :
    initData env {} (announcement block nonce tx) =
      if tx.isNull then
        some (.invalid, ⟨block.toCBlockHeader, List.replicate (block.vtx.tail.length + 1) none, 0⟩)
      else mapAndMatch env (announcement block nonce tx)
        (seeded block.toCBlockHeader tx block.vtx.tail.length) := by
  have hheader : (announcement block nonce tx).header.isNull = false := by
    simpa [announcement, CBlockHeader.isNull] using hbits
  have hids : (announcement block nonce tx).shorttxids.length = block.vtx.tail.length := by
    simp [announcement, announcedIds]
  have hsize : ¬ (announcement block nonce tx).shorttxids.length +
      (announcement block nonce tx).prefilledtxn.length >
        MAX_BLOCK_WEIGHT / MIN_SERIALIZABLE_TRANSACTION_WEIGHT := by
    have hmax : MAX_BLOCK_WEIGHT / MIN_SERIALIZABLE_TRANSACTION_WEIGHT = 100000 := rfl
    rw [hids, hmax]
    simp only [announcement, List.length_singleton]
    omega
  have hprefilled : (announcement block nonce tx).prefilledtxn = [⟨0, tx⟩] := rfl
  rw [initData, hheader, if_neg (by simp [hprefilled]), if_neg hsize, if_neg (by decide),
    CBlockHeaderAndShortTxIDs.blockTxCount, hids, hprefilled, List.length_singleton,
    placePrefilled_first]
  split
  case isTrue => rfl
  case isFalse => rfl

variable (header : CBlockHeader)

theorem mapAndMatch_of_nodup {rest : List CTransaction} (tx : CTransaction)
    (hids : c.shorttxids = rest.map fun tx => c.getShortID tx.getWitnessHash)
    (hcount : rest.length < 0xffff)
    (hbucket : BucketsFit (env.bucket c.shorttxids.length) c.shorttxids)
    (hclear : NoCollisions c.getShortID (env.pool ++ env.extraTxn) rest)
    (hnodup : c.shorttxids.Nodup) :
    ∃ p, mapAndMatch env c (seeded header tx rest.length) = some (.ok, p) ∧ p.header = header ∧
      Holds p.txnAvailable (tx :: rest) ∧ p.txnAvailable[0]? = some (some tx) := by
  have hlength : c.shorttxids.length = rest.length := by rw [hids, List.length_map]
  obtain ⟨map, hrun, hmap⟩ := exists_mapShortIds tx (by omega) hbucket
  have hseeded : Holds (seeded header tx rest.length).txnAvailable (tx :: rest) :=
    holds_afterFirst tx rest
  obtain ⟨p, hmatch, hheader, hholds, hheld⟩ :=
    matchTransactions_afterFirst hmap (by rw [hids]; rfl) hclear hseeded rfl
  refine ⟨p, ?_, hheader, hholds, hheld⟩
  rw [mapAndMatch, seeded, ← hlength, hrun, Option.bind_some]
  dsimp only
  rw [if_neg (not_not_intro rfl), if_neg (not_not_intro (hmap.length_eq_iff.mpr hnodup)), hlength,
    ← seeded, hmatch]
  rfl

theorem mapAndMatch_of_not_nodup (tx : CTransaction) (hcount : c.shorttxids.length < 0xffff)
    (hbucket : BucketsFit (env.bucket c.shorttxids.length) c.shorttxids)
    (hdup : ¬ c.shorttxids.Nodup) : mapAndMatch env c (seeded header tx c.shorttxids.length) =
      some (.failed, seeded header tx c.shorttxids.length) := by
  obtain ⟨map, hrun, hmap⟩ := exists_mapShortIds tx (by omega) hbucket
  rw [mapAndMatch, seeded, hrun, Option.bind_some]
  dsimp only
  rw [if_neg (not_not_intro rfl), if_pos (mt hmap.length_eq_iff.mp hdup)]

/-! ## Filling the block -/

def missing (available : List (Option CTransaction)) (vtx : List CTransaction) :
    List CTransaction :=
  ((available.zip vtx).filter fun slot => slot.1.isNone).map Prod.snd

theorem Holds.tail (h : Holds (slot :: available) (tx :: vtx)) : Holds available vtx where
  length_eq := Nat.succ.inj h.length_eq
  held := fun i tx' hi => h.held (i + 1) tx' hi

theorem fillSlots_missing
    (h : Holds available vtx) : fillSlots available (missing available vtx) = some (vtx, []) := by
  induction available generalizing vtx with
  | nil =>
    rw [List.length_eq_zero_iff.mp h.length_eq.symm]
    rfl
  | cons slot available ih =>
    cases vtx with
    | nil => exact absurd h.length_eq (by simp)
    | cons tx vtx =>
      cases slot with
      | none =>
        change (fillSlots available (missing available vtx)).map _ = _
        rw [ih h.tail]
        rfl
      | some held =>
        obtain rfl : held = tx := (Option.some.inj (h.held 0 held rfl)).symm
        change (fillSlots available (missing available vtx)).map _ = _
        rw [ih h.tail]
        rfl

theorem head_of_fillSlots {sent left : List CTransaction} (hfirst : available[0]? = some (some tx))
    (h : fillSlots available sent = some (vtx, left)) : vtx.head? = some tx := by
  cases available with
  | nil => simp at hfirst
  | cons slot available =>
    obtain rfl : slot = some tx := Option.some.inj hfirst
    obtain ⟨r, -, hr⟩ := Option.map_eq_some_iff.mp h
    rw [← (Prod.mk.inj hr).1]
    rfl

theorem isBlockMutated_blockOver (block : CBlock) (flags : BlockFlags) (segwitActive : Bool) :
    isBlockMutated (blockOver block.toCBlockHeader block.vtx) flags segwitActive =
      isBlockMutated block flags segwitActive := rfl

/-- The block is encoded and decoded, `InitData` accepts it, and `FillBlock` with the
missing transactions returns the block. -/
def Reconstructs (env : CompactBlockEnv) (block : CBlock) (nonce : UInt64) (segwitActive : Bool) :
    Prop :=
  ∃ sent enc received left p,
    CBlockHeaderAndShortTxIDs.ofBlock block nonce = some sent ∧ sent.serialize = some enc ∧
    readCompactBlock.run enc = .ok (received, left) ∧
    initData env {} received = some (.ok, p) ∧
    fillBlock p (missing p.txnAvailable block.vtx) segwitActive = some (.ok, some block)

theorem fillBlock_eq_ok_iff (p : PartiallyDownloadedBlock) (sent : List CTransaction)
    (segwitActive : Bool) (block : CBlock) :
    fillBlock p sent segwitActive = some (.ok, some block) ↔
      p.header.isNull = false ∧ fillSlots p.txnAvailable sent = some (block.vtx, []) ∧
        isBlockMutated (blockOver p.header block.vtx) {} segwitActive = some false ∧
        blockOver p.header block.vtx = block := by
  rw [fillBlock]
  cases p.header.isNull with
  | true => simp
  | false =>
    rcases hslots : fillSlots p.txnAvailable sent with _ | ⟨vtx, _ | ⟨tx, left⟩⟩
    · simp
    · constructor
      · intro h
        rw [if_neg Bool.false_ne_true] at h
        obtain ⟨mutated, hmutated, heq⟩ := Option.map_eq_some_iff.mp h
        cases mutated with
        | true => simp at heq
        | false =>
          simp only [Bool.false_eq_true, if_false, Prod.mk.injEq, Option.some.injEq,
            true_and] at heq
          subst heq
          exact ⟨rfl, rfl, hmutated, rfl⟩
      · rintro ⟨-, hvtx, hmutated, heq⟩
        obtain rfl : vtx = block.vtx := (Prod.mk.inj (Option.some.inj hvtx)).1
        rw [if_neg Bool.false_ne_true]
        dsimp only
        rw [hmutated, heq]
        rfl
    · simp

/-- A compact block brings back the block exactly if the block has no quantum proof,
the short ids of its transactions differ, and its first transaction is one that the
message can carry. -/
theorem reconstructs_iff {env : CompactBlockEnv} {block : CBlock} {nonce : UInt64}
    {segwitActive : Bool} (hbits : block.nBits ≠ 0) {first : CTransaction}
    {rest : List CTransaction} (hvtx : block.vtx = first :: rest) (hcount : rest.length < 0xffff)
    (hclear : NoCollisions (shortID block.toCBlockHeader nonce) (env.pool ++ env.extraTxn) rest)
    (hbucket : BucketsFit (env.bucket rest.length) (announcedIds block nonce))
    (hmutated : isBlockMutated block {} segwitActive = some false) :
    Reconstructs env block nonce segwitActive ↔
      block.vQuantumProof = [] ∧ (announcedIds block nonce).Nodup ∧
        first.Serializable ∧ first.isNull = false := by
  obtain rfl : block.vtx.tail = rest := by rw [hvtx, List.tail_cons]
  obtain ⟨enc, henc, hread⟩ := run_readCompactBlock nonce first hcount
  have hids (tx : CTransaction) : (announcement block nonce tx).shorttxids.length =
      block.vtx.tail.length := List.length_map _
  have hfit (tx : CTransaction) : BucketsFit
      (env.bucket (announcement block nonce tx).shorttxids.length)
      (announcement block nonce tx).shorttxids := by
    rw [hids]
    exact hbucket
  constructor
  · rintro ⟨sent, enc', received, left, p, hsent, henc', hreceived, hinit, hfill⟩
    rw [ofBlock_eq hvtx] at hsent
    cases hsent
    cases henc.symm.trans henc'
    obtain ⟨tx, htx, rfl⟩ := (hread received left).mp hreceived
    rw [initData_announcement env nonce tx hbits hcount] at hinit
    obtain ⟨-, hslots, -, hblock⟩ := (fillBlock_eq_ok_iff ..).mp hfill
    split at hinit
    case isTrue => simp at hinit
    case isFalse hnull =>
      by_cases hnodup : (announcedIds block nonce).Nodup
      · obtain ⟨p', hmatch, -, -, hheld⟩ := mapAndMatch_of_nodup block.toCBlockHeader tx rfl hcount
          (hfit tx) hclear hnodup
        rw [hmatch] at hinit
        cases hinit
        -- the slot filled by the message is the first of the block
        have hhead := head_of_fillSlots hheld hslots
        rw [hvtx] at hhead
        cases hhead
        have hproof : block.vQuantumProof = [] := by rw [← hblock]; rfl
        exact ⟨hproof, hnodup, yields_unserializeTransaction _ _ _ htx, by simpa using hnull⟩
      · have hfailed := mapAndMatch_of_not_nodup block.toCBlockHeader tx
          (by rw [hids]; exact hcount) (hfit tx) hnodup
        rw [hids, hinit] at hfailed
        simp at hfailed
  · rintro ⟨hproof, hnodup, hserializable, hnull⟩
    obtain ⟨p, hmatch, hheader, hholds, -⟩ := mapAndMatch_of_nodup block.toCBlockHeader first rfl
      hcount (hfit first) hclear hnodup
    have htx : (unserializeTransaction true).run (serializeTransaction true first) =
        .ok (first, []) := by
      simpa using decodes_unserializeTransaction hserializable []
    have hblock : blockOver block.toCBlockHeader block.vtx = block := by
      rw [blockOver, ← hproof]
    refine ⟨_, enc, _, [], p, ofBlock_eq hvtx nonce, henc, (hread _ []).mpr ⟨first, htx, rfl⟩, ?_,
      (fillBlock_eq_ok_iff ..).mpr ⟨?_, ?_, ?_, ?_⟩⟩
    · rw [initData_announcement env nonce first hbits hcount, hnull, if_neg Bool.false_ne_true,
        hmatch]
    · rw [hheader]
      simpa [CBlockHeader.isNull] using hbits
    · rw [← hvtx] at hholds
      exact fillSlots_missing hholds
    · rw [hheader]
      exact hmutated
    · rw [hheader, hblock]

def sampleSpend : CTransaction where
  vin := [⟨⟨.null, 0⟩, [], 0, []⟩]
  vout := [⟨1, []⟩]
  version := 1
  nLockTime := 0

def relayedBlock (vQuantumProof : Bytes) : CBlock where
  hashMerkleRoot := .ofHex 0xd52ca7fd669c8e7355641d427462fd993b17ba338e0073eb12e709a62442299e
  nBits := 1
  vtx := [sampleCoinBase, sampleSpend]
  vQuantumProof := vQuantumProof

def relayEnv : CompactBlockEnv where
  pool := [(sampleSpend.getWitnessHash, sampleSpend)]
  extraTxn := []
  bucket := fun count key => key.toNat % count

variable (proof : Bytes)

private theorem relay_noCollisions :
    NoCollisions (shortID (relayedBlock proof).toCBlockHeader 7)
      (relayEnv.pool ++ relayEnv.extraTxn) [sampleSpend] := by
  intro entry hentry tx htx _
  rw [List.mem_singleton.mp htx, List.mem_singleton.mp hentry]

private theorem relay_bucketsFit :
    BucketsFit (relayEnv.bucket 1) (announcedIds (relayedBlock proof) 7) := by
  intro id _
  exact List.countP_le_length.trans ((List.dedup_sublist _).length_le.trans (by decide : 1 ≤ 12))

private theorem relayedBlock_not_mutated :
    isBlockMutated (relayedBlock proof) {} true = some false := by
  rw [← isBlockMutated_blockOver]
  change isBlockMutated (relayedBlock []) {} true = some false
  decide +kernel

theorem reconstructs_without_proof : Reconstructs relayEnv (relayedBlock []) 7 true := by
  have hfirst : sampleCoinBase.Serializable := by constructor <;> decide
  exact (reconstructs_iff (by decide) rfl (by decide) (relay_noCollisions []) (relay_bucketsFit [])
    (relayedBlock_not_mutated [])).mpr ⟨rfl, List.nodup_singleton _, hfirst, rfl⟩

theorem reconstruction_drops_proof :
    NoCollisions (shortID (relayedBlock [1]).toCBlockHeader 7)
        (relayEnv.pool ++ relayEnv.extraTxn) [sampleSpend] ∧
      BucketsFit (relayEnv.bucket 1) (announcedIds (relayedBlock [1]) 7) ∧
      (announcedIds (relayedBlock [1]) 7).Nodup ∧
      isBlockMutated (relayedBlock [1]) {} true = some false ∧
      (∃ p, initData relayEnv {} (announcement (relayedBlock [1]) 7 sampleCoinBase) =
          some (.ok, p) ∧
        fillBlock p (missing p.txnAvailable (relayedBlock [1]).vtx) true =
          some (.ok, some (relayedBlock []))) ∧
      ¬ Reconstructs relayEnv (relayedBlock [1]) 7 true := by
  refine ⟨relay_noCollisions [1], relay_bucketsFit [1], List.nodup_singleton _,
    relayedBlock_not_mutated [1], ?_, ?_⟩
  · have hrun : ((initData relayEnv {} (announcement (relayedBlock [1]) 7 sampleCoinBase)).bind
        fun r => (fillBlock r.2 (missing r.2.txnAvailable (relayedBlock [1]).vtx) true).map
          fun filled => (r.1, filled)) = some (.ok, .ok, some (relayedBlock [])) := by
      decide +kernel
    obtain ⟨⟨status, p⟩, hinit, hfill⟩ := Option.bind_eq_some_iff.mp hrun
    obtain ⟨filled, hfilled, heq⟩ := Option.map_eq_some_iff.mp hfill
    cases heq
    exact ⟨p, hinit, hfilled⟩
  · rintro ⟨_, _, _, _, p, -, -, -, -, hfill⟩
    obtain ⟨-, -, -, hblock⟩ := (fillBlock_eq_ok_iff ..).mp hfill
    have hproof : ([] : Bytes) = [1] := congrArg CBlock.vQuantumProof hblock
    exact absurd hproof (by decide)

end PartiallyDownloadedBlock

end HcsCoin
