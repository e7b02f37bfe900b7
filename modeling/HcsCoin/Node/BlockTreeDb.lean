import HcsCoin.Node.BlockIndex
import HcsCoin.Validation

/-!
# The block tree database

`CDiskBlockIndex` of `chain.h` is the record an entry is stored as;
`LoadBlockIndexGuts` reads the records back and files each entry under the hash
it computes from the stored header fields.
-/

namespace HcsCoin

open Foundation Foundation.Decoder CBlockIndex BlockManager

structure CDiskBlockIndex extends CBlockIndex where
  hashPrev : Uint256 := .null

def serWhen (bits : UInt32) (n : Nat) : Bytes := if bits ≠ 0 then writeVarInt 4 n else []

def readWhen (bits : UInt32) (max : Nat) : Reader Nat :=
  if bits ≠ 0 then readVarInt max else pure 0

def MAX_INT : Nat := 2 ^ 31 - 1
def MAX_UINT : Nat := 2 ^ 32 - 1

namespace CDiskBlockIndex

def DUMMY_VERSION : Nat := 259900

def ofIndex (find : BlockHeap) (pindex : CBlockIndex) : Option CDiskBlockIndex := do
  let hashPrev ← pindex.prevHash find
  some ⟨pindex, hashPrev⟩

def serialize (obj : CDiskBlockIndex) : Bytes :=
  writeVarInt 4 DUMMY_VERSION ++ (writeVarInt 4 obj.nHeight ++
    (writeVarInt 4 obj.nStatus.toNat ++ (writeVarInt 4 obj.nTx.toNat ++
    (serWhen (obj.nStatus &&& (BLOCK_HAVE_DATA ||| BLOCK_HAVE_UNDO)) obj.nFile ++
    (serWhen (obj.nStatus &&& BLOCK_HAVE_DATA) obj.nDataPos.toNat ++
    (serWhen (obj.nStatus &&& BLOCK_HAVE_UNDO) obj.nUndoPos.toNat ++
    (serInt32 obj.nVersion ++ (obj.hashPrev.mData ++ (obj.hashMerkleRoot.mData ++
    (serUInt32 obj.nTime ++ (serUInt32 obj.nBits ++ serUInt32 obj.nNonce)))))))))))

def constructBlockHash (obj : CDiskBlockIndex) : Uint256 :=
  (obj.toCBlockIndex.headerOver obj.hashPrev).getHash

end CDiskBlockIndex

def readDiskBlockIndex : Reader CDiskBlockIndex := do
  let _ ← readVarInt MAX_INT
  let nHeight ← readVarInt MAX_INT
  let nStatus ← readVarInt MAX_UINT
  let nTx ← readVarInt MAX_UINT
  let status := UInt32.ofNat nStatus
  let nFile ← readWhen (status &&& (BLOCK_HAVE_DATA ||| BLOCK_HAVE_UNDO)) MAX_INT
  let nDataPos ← readWhen (status &&& BLOCK_HAVE_DATA) MAX_UINT
  let nUndoPos ← readWhen (status &&& BLOCK_HAVE_UNDO) MAX_UINT
  let nVersion ← readInt32
  let hashPrev ← readUint256
  let hashMerkleRoot ← readUint256
  let nTime ← readUInt32
  let nBits ← readUInt32
  let nNonce ← readUInt32
  pure
    { nHeight := nHeight, nStatus := status, nTx := UInt32.ofNat nTx, nFile := nFile
      nDataPos := UInt32.ofNat nDataPos, nUndoPos := UInt32.ofNat nUndoPos
      nVersion, hashPrev, hashMerkleRoot, nTime, nBits, nNonce }

def blockRecord (index : BlockHeap) (key : Uint256) : Option (Uint256 × Bytes) := do
  let bi ← index key
  let hash ← bi.getBlockHash
  let obj ← CDiskBlockIndex.ofIndex index bi
  some (hash, obj.serialize)

def writeBlockIndex (index : BlockHeap) (blockinfo : List Uint256) :
    Option (List (Uint256 × Bytes)) :=
  blockinfo.mapM (blockRecord index)

def CBlockIndex.takeRecord (pindexNew : CBlockIndex) (pprev : Option Uint256)
    (diskindex : CDiskBlockIndex) : CBlockIndex :=
  { pindexNew with
    pprev := pprev
    nHeight := diskindex.nHeight
    nFile := diskindex.nFile
    nDataPos := diskindex.nDataPos
    nUndoPos := diskindex.nUndoPos
    nVersion := diskindex.nVersion
    hashMerkleRoot := diskindex.hashMerkleRoot
    nTime := diskindex.nTime
    nBits := diskindex.nBits
    nNonce := diskindex.nNonce
    nStatus := diskindex.nStatus
    nTx := diskindex.nTx }

/-- The entry of a record, and whether it has proof of work.  `none` is the use of the
null pointer that the null hash leads to. -/
def loadEntry (params : Params) (index : BlockHeap) (diskindex : CDiskBlockIndex) :
    Option (Bool × BlockHeap) :=
  let withSelf := insertBlockIndex index diskindex.constructBlockHash
  let withPrev := insertBlockIndex withSelf.1 diskindex.hashPrev
  withSelf.2.bind fun key => (withPrev.1 key).bind fun place =>
    let entry := place.takeRecord withPrev.2 diskindex
    entry.getBlockHash.map fun hash =>
      (checkProofOfWork hash entry.nBits params, Function.update withPrev.1 key (some entry))

def loadRecord (params : Params) (index : BlockHeap) (value : Bytes) :
    Option (Bool × BlockHeap) :=
  match readDiskBlockIndex.run value with
  | .error _ => some (false, index)
  | .ok (diskindex, _) => loadEntry params index diskindex

def loadBlockIndexGuts (params : Params) :
    List (Uint256 × Bytes) → BlockHeap → Option (Bool × BlockHeap)
  | [], index => some (true, index)
  | (_, value) :: rest, index => do
    let (ok, index) ← loadRecord params index value
    if ok then loadBlockIndexGuts params rest index else some (false, index)

/-! ## Records -/

/-- What a record needs of an entry: heights and file numbers are nonnegative
`int`s, and a position that is not written is zero. -/
structure CBlockIndex.Storable (b : CBlockIndex) : Prop where
  height_lt : b.nHeight < 2 ^ 31
  file_lt : b.nFile < 2 ^ 31
  no_file : b.nStatus &&& (BLOCK_HAVE_DATA ||| BLOCK_HAVE_UNDO) = 0 → b.nFile = 0
  no_data : b.nStatus &&& BLOCK_HAVE_DATA = 0 → b.nDataPos = 0
  no_undo : b.nStatus &&& BLOCK_HAVE_UNDO = 0 → b.nUndoPos = 0

variable {b : CBlockIndex}

theorem CBlockIndex.Storable.ofStatus (h : b.Storable) {nStatus : UInt32}
    (hbits : nStatus &&& BLOCK_HAVE_MASK = b.nStatus &&& BLOCK_HAVE_MASK) :
    Storable { b with nStatus := nStatus } := by
  have hmask (s : UInt32) {bit : UInt32} (hbit : BLOCK_HAVE_MASK &&& bit = bit) :
      s &&& bit = (s &&& BLOCK_HAVE_MASK) &&& bit := by
    rw [UInt32.and_assoc, hbit]
  refine ⟨h.height_lt, h.file_lt, fun hzero => h.no_file ?_, fun hzero => h.no_data ?_,
    fun hzero => h.no_undo ?_⟩
  · exact hbits.symm.trans hzero
  · rwa [hmask _ (by decide), ← hbits, ← hmask _ (by decide)]
  · rwa [hmask _ (by decide), ← hbits, ← hmask _ (by decide)]

theorem EntryUpdate.storable (u : EntryUpdate) (h : b.Storable) : (u.apply b).Storable := by
  have hset (s bit mask : UInt32) (hbit : bit &&& mask ≠ 0) : (s ||| bit) &&& mask ≠ 0 := by
    rw [UInt32.or_and_mask]
    exact fun hzero => hbit (UInt32.or_eq_zero_iff.mp hzero).2
  cases u with
  | receivedBlockTransactions nTx pos segwitActive =>
    obtain ⟨nStatus, heq, hbits⟩ := (b.withData nTx pos segwitActive).raiseValidity_eq
      (by decide : BLOCK_VALID_TRANSACTIONS &&& ~~~BLOCK_VALID_MASK = 0)
    have hbit (mask : UInt32) (hmask : BLOCK_HAVE_DATA &&& mask ≠ 0) :
        (b.withData nTx pos segwitActive).nStatus &&& mask ≠ 0 := by
      rw [withData, UInt32.or_and_mask]
      exact fun hzero => hset _ _ _ hmask (UInt32.or_eq_zero_iff.mp hzero).1
    have hdata : (b.withData nTx pos segwitActive).Storable :=
      ⟨h.height_lt, pos.nFile_lt, fun hzero => absurd hzero (hbit _ (by decide)),
        fun hzero => absurd hzero (hbit _ (by decide)), fun _ => rfl⟩
    rw [EntryUpdate.apply, heq]
    exact hdata.ofStatus hbits
  | writeBlockUndo nPos =>
    refine ⟨h.height_lt, h.file_lt, fun hzero => ?_, fun hzero => ?_, fun hzero => ?_⟩
    · exact absurd hzero (hset _ _ _ (by decide))
    · have hzero : (b.nStatus ||| BLOCK_HAVE_UNDO) &&& BLOCK_HAVE_DATA = 0 := hzero
      rw [UInt32.or_and_mask] at hzero
      exact h.no_data (UInt32.or_eq_zero_iff.mp hzero).1
    · exact absurd hzero (hset _ _ _ (by decide))
  | pruneOneBlockFile =>
    exact ⟨h.height_lt, Nat.two_pow_pos 31, fun _ => rfl, fun _ => rfl, fun _ => rfl⟩
  | raiseValidity nUpTo hvalid =>
    obtain ⟨nStatus, heq, hbits⟩ := b.raiseValidity_eq hvalid
    rw [EntryUpdate.apply, heq]
    exact h.ofStatus hbits
  | setFailed =>
    refine h.ofStatus ?_
    rw [UInt32.or_and_mask, show BLOCK_FAILED_VALID &&& BLOCK_HAVE_MASK = 0 by decide,
      UInt32.or_zero]
  | clearFailed =>
    refine h.ofStatus ?_
    rw [UInt32.and_assoc, show ~~~BLOCK_FAILED_VALID &&& BLOCK_HAVE_MASK = BLOCK_HAVE_MASK by
      decide]

/-- What comes back of a record: everything that is written. -/
def CDiskBlockIndex.stored (obj : CDiskBlockIndex) : CDiskBlockIndex :=
  { nHeight := obj.nHeight, nStatus := obj.nStatus, nTx := obj.nTx, nFile := obj.nFile
    nDataPos := obj.nDataPos, nUndoPos := obj.nUndoPos, nVersion := obj.nVersion
    hashPrev := obj.hashPrev, hashMerkleRoot := obj.hashMerkleRoot, nTime := obj.nTime
    nBits := obj.nBits, nNonce := obj.nNonce }

private theorem decodes_readInt {n : Nat} (h : n < 2 ^ 31) :
    Decodes (readVarInt MAX_INT) (writeVarInt 4 n) n :=
  decodes_readVarInt (by norm_num) (by decide) (Nat.le_pred_of_lt h)

private theorem decodes_readUInt (n : UInt32) :
    Decodes (readVarInt MAX_UINT) (writeVarInt 4 n.toNat) n.toNat :=
  decodes_readVarInt (by norm_num) (by decide) (Nat.le_pred_of_lt n.toNat_lt)

private theorem decodes_readWhen {bits : UInt32} {n max : Nat}
    (hread : Decodes (readVarInt max) (writeVarInt 4 n) n) (hzero : bits = 0 → n = 0) :
    Decodes (readWhen bits max) (serWhen bits n) n := by
  by_cases hbits : bits = 0
  · rw [readWhen, serWhen, if_neg (not_not.mpr hbits), if_neg (not_not.mpr hbits), hzero hbits]
    exact Decodes.pure 0
  · rw [readWhen, serWhen, if_pos hbits, if_pos hbits]
    exact hread

theorem decodes_readDiskBlockIndex {obj : CDiskBlockIndex} (h : obj.toCBlockIndex.Storable) :
    Decodes readDiskBlockIndex obj.serialize obj.stored := by
  refine (decodes_readInt (by decide)).bind <| (decodes_readInt h.height_lt).bind <|
    (decodes_readUInt obj.nStatus).bind <| (decodes_readUInt obj.nTx).bind ?_
  simp only [UInt32.ofNat_toNat]
  refine (decodes_readWhen (decodes_readInt h.file_lt) h.no_file).bind <|
    (decodes_readWhen (decodes_readUInt obj.nDataPos) fun hbits => by
      rw [h.no_data hbits]; rfl).bind <|
    (decodes_readWhen (decodes_readUInt obj.nUndoPos) fun hbits => by
      rw [h.no_undo hbits]; rfl).bind ?_
  simp only [UInt32.ofNat_toNat]
  exact (decodes_readInt32 _).bind <| (decodes_readUint256 _).bind <|
    (decodes_readUint256 _).bind <| (decodes_readUInt32 _).bind <|
    (decodes_readUInt32 _).bind <| (decodes_readUInt32 _).last <| Decodes.pure obj.stored

/-! ## Indexes that come about by accepting headers -/

/-- The accepted headers, latest first, and the state they and later changes to the
entries lead to.  Only a first header has no parent. -/
inductive AcceptRun (params : Params) : List CBlockHeader → BlockManager → Prop
  | start : AcceptRun params [] {}
  | accept {blocks : List CBlockHeader} {m m' : BlockManager} {block : CBlockHeader}
      {key : Uint256} (hrun : AcceptRun params blocks m)
      (hcheck : checkBlockHeader block params true = .ok ())
      (hfresh : m.mBlockIndex block.getHash = none)
      (hprev : block.hashPrevBlock = .null ∨
        ∃ parent, m.mBlockIndex block.hashPrevBlock = some parent)
      (hadd : m.addToBlockIndex block = some (m', key)) : AcceptRun params (block :: blocks) m'
  | update {blocks : List CBlockHeader} {m : BlockManager} {key : Uint256} {e : CBlockIndex}
      (u : EntryUpdate) (hrun : AcceptRun params blocks m) (he : m.mBlockIndex key = some e) :
      AcceptRun params blocks
        { m with mBlockIndex := Function.update m.mBlockIndex key (some (u.apply e)) }

structure Filed (blocks : List CBlockHeader) (index : BlockHeap) (key : Uint256)
    (e : CBlockIndex) : Prop where
  block : ∃ block ∈ blocks, key = block.getHash ∧ e.prevHash index = some block.hashPrevBlock ∧
    ∀ hashPrev, e.headerOver hashPrev = { block.clearQuantum with hashPrevBlock := hashPrev }
  parent : ∀ p, e.pprev = some p → ∃ parent, index p = some parent
  storable : e.Storable

structure IndexOf (blocks : List CBlockHeader) (m : BlockManager) : Prop where
  sound : m.Sound
  filed : ∀ k e, m.mBlockIndex k = some e → Filed blocks m.mBlockIndex k e
  keys : ∀ k, k ∈ blocks.map CBlockHeader.getHash ↔ ∃ e, m.mBlockIndex k = some e
  nodup : (blocks.map CBlockHeader.getHash).Nodup

variable {blocks : List CBlockHeader} {index : BlockHeap} {key : Uint256} {e : CBlockIndex}
  {block : CBlockHeader} {m : BlockManager} {params : Params} {done : List Uint256}
  {orig : BlockHeap} {hash : Uint256} {index' : BlockHeap}

theorem Filed.mono (hext : Extends index index') (h : Filed blocks index key e)
    (block : CBlockHeader) : Filed (block :: blocks) index' key e := by
  obtain ⟨b, hmem, hkey, hprev, hheader⟩ := h.block
  refine ⟨⟨b, List.mem_cons_of_mem _ hmem, hkey, hext.prevHash hprev, hheader⟩, ?_, h.storable⟩
  intro p hp
  obtain ⟨parent, hparent⟩ := h.parent p hp
  exact ⟨parent, hext p parent hparent⟩

theorem EntryOf.filed (hsound : SoundIndex index) (hext : Extends index index')
    (hentry : EntryOf index block e)
    (hprev : block.hashPrevBlock = .null ∨ ∃ parent, index block.hashPrevBlock = some parent) :
    Filed (block :: blocks) index' block.getHash e := by
  obtain ⟨hnTx, hnFile, hnDataPos, hnUndoPos⟩ := hentry.no_data
  refine ⟨⟨block, List.mem_cons_self, rfl, ?_, hentry.header⟩, ?_,
    hentry.height_lt, by rw [hnFile]; norm_num, fun _ => hnFile, fun _ => hnDataPos,
    fun _ => hnUndoPos⟩
  · rw [prevHash, hentry.prev]
    cases hparent : index block.hashPrevBlock with
    | none =>
      rcases hprev with hnull | ⟨parent, hsome⟩
      · rw [hnull]
        rfl
      · cases hparent.symm.trans hsome
    | some parent => simp [hext _ _ hparent, getBlockHash, hsound.keyed _ _ hparent]
  · intro p hp
    rw [hentry.prev] at hp
    obtain ⟨parent, hparent, rfl⟩ := Option.map_eq_some_iff.mp hp
    exact ⟨parent, hext _ _ hparent⟩

theorem Filed.modify (he : index key = some e) (u : EntryUpdate) {k : Uint256}
    (h : Filed blocks index k b) :
    Filed blocks (Function.update index key (some (u.apply e))) k b := by
  have hfind : ∀ p, (Function.update index key (some (u.apply e)) p).bind getBlockHash =
      (index p).bind getBlockHash := by
    intro p
    by_cases hp : p = key
    · rw [hp, Function.update_self, he]
      exact u.keepsLinks.hash e
    · rw [Function.update_of_ne hp]
  have hprev : b.prevHash (Function.update index key (some (u.apply e))) = b.prevHash index := by
    rw [prevHash, prevHash]
    cases b.pprev with
    | none => rfl
    | some p => exact hfind p
  obtain ⟨block, hmem, hkey, hhash, hheader⟩ := h.block
  refine ⟨⟨block, hmem, hkey, hprev.trans hhash, hheader⟩, ?_, h.storable⟩
  intro p hp
  by_cases hpk : p = key
  · exact ⟨u.apply e, by rw [hpk, Function.update_self]⟩
  · rw [Function.update_of_ne hpk]
    exact h.parent p hp

theorem Filed.apply (h : Filed blocks index key e) (u : EntryUpdate) :
    Filed blocks index key (u.apply e) := by
  have hstorable := u.storable h.storable
  obtain ⟨_, _, _, _, _, heq⟩ := u.apply_eq e
  rw [heq] at hstorable ⊢
  exact ⟨h.block, h.parent, hstorable⟩

theorem IndexOf.accept {m' : BlockManager}
    (h : IndexOf blocks m) (hfresh : m.mBlockIndex block.getHash = none)
    (hprev : block.hashPrevBlock = .null ∨
      ∃ parent, m.mBlockIndex block.hashPrevBlock = some parent)
    (hhash : block.getHash ≠ .null) (hadd : m.addToBlockIndex block = some (m', key)) :
    IndexOf (block :: blocks) m' := by
  have hne : block.hashPrevBlock ≠ block.getHash := by
    rcases hprev with hnull | ⟨parent, hparent⟩
    · rw [hnull]
      exact hhash.symm
    · exact hashPrevBlock_ne_getHash hparent hfresh
  obtain ⟨-, hsound', e, hindex, hentry⟩ := addToBlockIndex_spec h.sound hfresh hne hadd
  have hext : Extends m.mBlockIndex m'.mBlockIndex := by
    rw [hindex]
    exact extends_update hfresh e
  have hself : m'.mBlockIndex block.getHash = some e := by rw [hindex, Function.update_self]
  have hother : ∀ {k}, k ≠ block.getHash → m'.mBlockIndex k = m.mBlockIndex k := by
    intro k hk
    rw [hindex, Function.update_of_ne hk]
  refine ⟨hsound', ?_, ?_, ?_⟩
  · intro k b hk
    by_cases hkb : k = block.getHash
    · subst hkb
      cases hk.symm.trans hself
      exact hentry.filed h.sound.index hext hprev
    · rw [hother hkb] at hk
      exact (h.filed k b hk).mono hext block
  · intro k
    rw [List.map_cons, List.mem_cons]
    by_cases hkb : k = block.getHash
    · subst hkb
      exact iff_of_true (.inl rfl) ⟨e, hself⟩
    · rw [hother hkb, ← h.keys]
      exact or_iff_right hkb
  · rw [List.map_cons, List.nodup_cons, h.keys]
    refine ⟨?_, h.nodup⟩
    rintro ⟨b, hb⟩
    cases hfresh.symm.trans hb

theorem IndexOf.update (h : IndexOf blocks m) (he : m.mBlockIndex key = some e) (u : EntryUpdate) :
    IndexOf blocks
      { m with mBlockIndex := Function.update m.mBlockIndex key (some (u.apply e)) } := by
  have hdomain : ∀ k, (∃ b, Function.update m.mBlockIndex key (some (u.apply e)) k = some b) ↔
      ∃ b, m.mBlockIndex k = some b := by
    intro k
    by_cases hk : k = key
    · rw [hk, Function.update_self]
      exact iff_of_true ⟨_, rfl⟩ ⟨e, he⟩
    · rw [Function.update_of_ne hk]
  refine ⟨⟨h.sound.index.modify he u.keepsLinks, ?_⟩, ?_, ?_, h.nodup⟩
  · intro k hbest
    exact (hdomain k).mpr (h.sound.best k hbest)
  · intro k b hk
    dsimp only at hk
    by_cases hkey : k = key
    · subst hkey
      rw [Function.update_self] at hk
      cases hk
      exact ((h.filed k e he).apply u).modify he u
    · rw [Function.update_of_ne hkey] at hk
      exact (h.filed k b hk).modify he u
  · intro k
    exact (h.keys k).trans (hdomain k).symm

/-- Along a run whose headers have hashes other than zero, every entry is that of one
accepted header. -/
theorem AcceptRun.indexOf
    (hrun : AcceptRun params blocks m) (hhash : ∀ block ∈ blocks, block.getHash ≠ .null) :
    IndexOf blocks m := by
  induction hrun with
  | start => exact ⟨sound_empty, nofun, fun k => by simp, List.nodup_nil⟩
  | accept hrun hcheck hfresh hprev hadd ih =>
    obtain ⟨hblock, hblocks⟩ := List.forall_mem_cons.mp hhash
    exact (ih hblocks).accept hfresh hprev hblock hadd
  | update u hrun he ih => exact (ih hhash).update he u

/-! ## Loading what was stored -/

/-- The fields of an entry that a record carries; the others are set anew on
start-up. -/
def CBlockIndex.persistent (e : CBlockIndex) : CBlockIndex :=
  { e with
    pskip := none
    nChainWork := BaseUint.zero
    nSequenceId := SEQ_ID_INIT_FROM_DISK
    nTimeMax := 0 }

/-- The map after the records of `done`: their entries are back, and of the other
entries there is at most the place, made when a child named it as its parent. -/
structure Loaded (orig : BlockHeap) (done : List Uint256) (index : BlockHeap) : Prop where
  restored : ∀ k ∈ done, index k = (orig k).map persistent
  pending : ∀ k ∉ done, index k = none ∨
    (index k = some { phashBlock := some k } ∧ ∃ e, orig k = some e)

theorem insertBlockIndex_of_ne (hne : hash ≠ .null) (index : BlockHeap) :
    ∃ index', insertBlockIndex index hash = (index', some hash) ∧
      index' hash = some ((index hash).getD { phashBlock := some hash }) ∧
      ∀ k ≠ hash, index' k = index k := by
  have hnull : ¬ hash.isNull = true := mt (BaseBlob.isNull_iff hash).mp hne
  rw [insertBlockIndex, if_neg hnull]
  cases hfind : index hash with
  | none =>
    refine ⟨_, rfl, ?_, fun k hk => ?_⟩
    · rw [Function.update_self]
      rfl
    · rw [Function.update_of_ne hk]
  | some e => exact ⟨index, rfl, hfind, fun k _ => rfl⟩

theorem Loaded.insert (h : Loaded orig done index) (hne : hash ≠ .null)
    (horig : ∃ e, orig hash = some e) :
    ∃ index', insertBlockIndex index hash = (index', some hash) ∧ Loaded orig done index' ∧
      index' hash ≠ none ∧ ∀ k, index k ≠ none → index' k ≠ none := by
  obtain ⟨index', heq, hself, hother⟩ := insertBlockIndex_of_ne hne index
  refine ⟨index', heq, ⟨fun k hk => ?_, fun k hk => ?_⟩, by rw [hself]; exact nofun, fun k hk => ?_⟩
  · by_cases hkh : k = hash
    · subst hkh
      obtain ⟨e, he⟩ := horig
      rw [hself, h.restored k hk, he]
      rfl
    · rw [hother k hkh, h.restored k hk]
  · by_cases hkh : k = hash
    · subst hkh
      refine .inr ⟨?_, horig⟩
      rw [hself]
      rcases h.pending k hk with hnone | ⟨hplace, -⟩
      · rw [hnone]
        rfl
      · rw [hplace]
        rfl
    · rw [hother k hkh]
      exact h.pending k hk
  · by_cases hkh : k = hash
    · rw [hkh, hself]
      exact nofun
    · rwa [hother k hkh]

theorem Loaded.finish (h : Loaded orig done index) (he : orig key = some e) :
    Loaded orig (key :: done) (Function.update index key (some e.persistent)) := by
  constructor
  · intro k hk
    by_cases hkk : k = key
    · rw [hkk, Function.update_self, he]
      rfl
    · rw [Function.update_of_ne hkk]
      exact h.restored k ((List.mem_cons.mp hk).resolve_left hkk)
  · intro k hk
    rw [List.mem_cons, not_or] at hk
    rw [Function.update_of_ne hk.1]
    exact h.pending k hk.2

structure Reloadable (params : Params) (block : CBlockHeader) : Prop where
  quantumNull : block.QuantumNull
  hash_ne : block.getHash ≠ .null
  pow : checkProofOfWork block.getHash block.nBits params = true

theorem Reloadable.headerOver_eq (h : Reloadable params block)
    (hheader : ∀ hashPrev, e.headerOver hashPrev =
      { block.clearQuantum with hashPrevBlock := hashPrev }) :
    e.headerOver block.hashPrevBlock = block := by
  have hclear := (CBlockHeader.clearQuantum_eq_self_iff block).mpr h.quantumNull
  rw [hheader, hclear]

theorem Loaded.insert_prev (h : Loaded orig done index) (hsound : SoundIndex orig)
    (hnull : orig .null = none) (hparent : ∀ p, e.pprev = some p → ∃ parent, orig p = some parent)
    {hashPrev : Uint256} (hprev : e.prevHash orig = some hashPrev) :
    ∃ index', insertBlockIndex index hashPrev = (index', e.pprev) ∧ Loaded orig done index' ∧
      ∀ k, index k ≠ none → index' k ≠ none := by
  rw [prevHash] at hprev
  cases hp : e.pprev with
  | none =>
    rw [hp] at hprev
    cases hprev
    refine ⟨index, ?_, h, fun _ hk => hk⟩
    rw [insertBlockIndex, if_pos ((BaseBlob.isNull_iff _).mpr rfl)]
  | some p =>
    obtain ⟨parent, hfind⟩ := hparent p hp
    have hhash : hashPrev = p := by
      rw [hp] at hprev
      simp only [hfind, Option.bind_some, getBlockHash,
        hsound.keyed p parent hfind, Option.some.injEq] at hprev
      exact hprev.symm
    have hne : p ≠ .null := by
      rintro rfl
      cases hnull.symm.trans hfind
    obtain ⟨index', heq, hloaded, -, hkeep⟩ := h.insert hne ⟨parent, hfind⟩
    rw [hhash]
    exact ⟨index', heq, hloaded, hkeep⟩

private theorem takeRecord_eq (hkey : e.phashBlock = some key) (hashPrev : Uint256) :
    takeRecord { phashBlock := some key } e.pprev
      (CDiskBlockIndex.stored ⟨e, hashPrev⟩) = e.persistent := by
  rw [← hkey]
  rfl

private theorem loadEntry_eq {index₁ index₂ : BlockHeap} {diskindex : CDiskBlockIndex}
    {pprev : Option Uint256} {place entry : CBlockIndex}
    (hself : insertBlockIndex index diskindex.constructBlockHash = (index₁, some key))
    (hprev : insertBlockIndex index₁ diskindex.hashPrev = (index₂, pprev))
    (hplace : index₂ key = some place) (htake : place.takeRecord pprev diskindex = entry)
    (hhash : entry.phashBlock = some hash) : loadEntry params index diskindex =
      some (checkProofOfWork hash entry.nBits params, Function.update index₂ key (some entry)) := by
  simp only [loadEntry, hself, hprev, Option.bind_some, hplace, htake, getBlockHash,
    hhash, Option.map_some]

theorem loadRecord_spec
    (hindex : IndexOf blocks m) (hblocks : ∀ block ∈ blocks, Reloadable params block)
    (he : m.mBlockIndex key = some e)
    (hdone : key ∉ done) (h : Loaded m.mBlockIndex done index) :
    ∃ obj index', CDiskBlockIndex.ofIndex m.mBlockIndex e = some obj ∧
      loadRecord params index obj.serialize = some (true, index') ∧
      Loaded m.mBlockIndex (key :: done) index' := by
  have hfiled := hindex.filed key e he
  obtain ⟨block, hmem, rfl, hprev, hheader⟩ := hfiled.block
  have hblock := hblocks block hmem
  have hkey := hindex.sound.index.keyed _ e he
  have hback := hblock.headerOver_eq hheader
  have hnull : m.mBlockIndex .null = none := by
    by_contra hsome
    obtain ⟨b, hb⟩ := Option.ne_none_iff_exists'.mp hsome
    obtain ⟨other, hother, heq⟩ := List.mem_map.mp ((hindex.keys .null).mpr ⟨b, hb⟩)
    exact (hblocks other hother).hash_ne heq
  obtain ⟨index₁, hinsert₁, h₁, hself, -⟩ := h.insert hblock.hash_ne ⟨e, he⟩
  obtain ⟨index₂, hinsert₂, h₂, hkeep⟩ :=
    h₁.insert_prev hindex.sound.index hnull hfiled.parent hprev
  have hplace : index₂ block.getHash = some { phashBlock := some block.getHash } := by
    rcases h₂.pending _ hdone with hnone | ⟨hplace, -⟩
    · exact absurd hnone (hkeep _ hself)
    · exact hplace
  refine ⟨⟨e, block.hashPrevBlock⟩, _, ?_, ?_, h₂.finish he⟩
  · rw [CDiskBlockIndex.ofIndex, hprev]
    rfl
  · have hrun : readDiskBlockIndex.run (CDiskBlockIndex.serialize ⟨e, block.hashPrevBlock⟩) =
        .ok (CDiskBlockIndex.stored ⟨e, block.hashPrevBlock⟩, []) := by
      rw [← List.append_nil (CDiskBlockIndex.serialize ⟨e, block.hashPrevBlock⟩)]
      exact decodes_readDiskBlockIndex hfiled.storable []
    have hheader : (CDiskBlockIndex.stored ⟨e, block.hashPrevBlock⟩).toCBlockIndex.headerOver
        block.hashPrevBlock = block := hback
    have hhash : (CDiskBlockIndex.stored ⟨e, block.hashPrevBlock⟩).constructBlockHash =
        block.getHash := by
      rw [CDiskBlockIndex.constructBlockHash]
      exact congrArg CBlockHeader.getHash hheader
    have hinsert : insertBlockIndex index
        (CDiskBlockIndex.stored ⟨e, block.hashPrevBlock⟩).constructBlockHash =
          (index₁, some block.getHash) := by
      rw [hhash]
      exact hinsert₁
    have hentry : loadEntry params index (CDiskBlockIndex.stored ⟨e, block.hashPrevBlock⟩) =
        some (checkProofOfWork block.getHash e.persistent.nBits params,
          Function.update index₂ block.getHash (some e.persistent)) :=
      loadEntry_eq hinsert hinsert₂ hplace (takeRecord_eq hkey block.hashPrevBlock) hkey
    have hbits : e.persistent.nBits = block.nBits := congrArg CBlockHeader.nBits hback
    rw [loadRecord, hrun]
    dsimp only
    rw [hentry, hbits, hblock.pow]

theorem loadBlockIndexGuts_spec
    (hindex : IndexOf blocks m) (hblocks : ∀ block ∈ blocks, Reloadable params block)
    {keys : List Uint256} (hnodup : keys.Nodup) (hdone : ∀ k ∈ keys, k ∉ done)
    (hkeys : ∀ k ∈ keys, ∃ e, m.mBlockIndex k = some e)
    (h : Loaded m.mBlockIndex done index) :
    ∃ records index', writeBlockIndex m.mBlockIndex keys = some records ∧
      loadBlockIndexGuts params records index = some (true, index') ∧
      Loaded m.mBlockIndex (keys.reverse ++ done) index' := by
  induction keys generalizing done index with
  | nil => exact ⟨[], index, rfl, rfl, h⟩
  | cons key keys ih =>
    obtain ⟨hfirst, hrest⟩ := List.forall_mem_cons.mp hdone
    obtain ⟨⟨e, he⟩, hothers⟩ := List.forall_mem_cons.mp hkeys
    obtain ⟨hnot, hnodup⟩ := List.nodup_cons.mp hnodup
    obtain ⟨obj, index₁, hobj, hload, hloaded⟩ := loadRecord_spec hindex hblocks he hfirst h
    obtain ⟨records, index₂, hrecords, hloads, hloaded⟩ := ih hnodup
      (fun k hk hmem => by
        rcases List.mem_cons.mp hmem with rfl | hmem
        · exact hnot hk
        · exact hrest k hk hmem)
      hothers hloaded
    have hrecord : blockRecord m.mBlockIndex key = some (key, obj.serialize) := by
      simp [blockRecord, he, hobj, getBlockHash, hindex.sound.index.keyed key e he]
    refine ⟨(key, obj.serialize) :: records, index₂, ?_, ?_, by simpa using hloaded⟩
    · rw [writeBlockIndex] at hrecords ⊢
      simp [List.mapM_cons, hrecord, hrecords]
    · rw [loadBlockIndexGuts, hload]
      exact hloads

/-- The index of accepted headers whose quantum fields are null and whose identity
hash is not zero and meets the target is restored from its records, in whatever order
they are stored, with one entry for each. -/
theorem loadBlockIndexGuts_restores_index {params : Params} {blocks : List CBlockHeader}
    {m : BlockManager} (hrun : AcceptRun params blocks m)
    (hblocks : ∀ block ∈ blocks, Reloadable params block) {keys : List Uint256}
    (hkeys : keys.Perm (blocks.map CBlockHeader.getHash)) :
    ∃ records index, writeBlockIndex m.mBlockIndex keys = some records ∧
      loadBlockIndexGuts params records (fun _ => none) = some (true, index) ∧
      ∀ k, index k = (m.mBlockIndex k).map persistent := by
  have hindex := hrun.indexOf fun block hmem => (hblocks block hmem).hash_ne
  have hdomain : ∀ k, k ∈ keys ↔ ∃ e, m.mBlockIndex k = some e :=
    fun k => hkeys.mem_iff.trans (hindex.keys k)
  obtain ⟨records, index, hrecords, hload, hloaded⟩ :=
    loadBlockIndexGuts_spec hindex hblocks (hkeys.nodup_iff.mpr hindex.nodup)
      (fun _ _ => List.not_mem_nil) (fun k hk => (hdomain k).mp hk)
      (⟨nofun, fun _ _ => .inl rfl⟩ : Loaded m.mBlockIndex [] fun _ => none)
  rw [List.append_nil] at hloaded
  refine ⟨records, index, hrecords, hload, fun k => ?_⟩
  by_cases hk : k ∈ keys
  · exact hloaded.restored k (List.mem_reverse.mpr hk)
  · have hnone : m.mBlockIndex k = none := by
      by_contra hsome
      exact hk ((hdomain k).mpr (Option.ne_none_iff_exists'.mp hsome))
    rcases hloaded.pending k (mt List.mem_reverse.mp hk) with hpending | ⟨-, e, he⟩
    · rw [hpending, hnone]
      rfl
    · cases hnone.symm.trans he

def reloads (params : Params) (index : BlockHeap) (keys : List Uint256) : Option Bool := do
  let records ← writeBlockIndex index keys
  let result ← loadBlockIndexGuts params records fun _ => none
  some result.1

/-- A first header on regtest and a child with its transactions received, which meet their
targets under both hashes; the record of the child is read first. -/
theorem loadBlockIndexGuts_restores_regtest :
    let root : CBlockHeader := { nBits := 0x207fffff, nNonce := 2 }
    let child : CBlockHeader := { hashPrevBlock := root.getHash, nBits := 0x207fffff, nNonce := 1 }
    ∃ m, AcceptRun (consensusParams .regtest) [child, root] m ∧ ∃ records index,
      writeBlockIndex m.mBlockIndex [child.getHash, root.getHash] = some records ∧
        loadBlockIndexGuts (consensusParams .regtest) records (fun _ => none) = some (true, index) ∧
        ∀ k, index k = (m.mBlockIndex k).map persistent := by
  intro root child
  have hblocks : ∀ block ∈ [child, root], Reloadable (consensusParams .regtest) block := by
    simp only [List.forall_mem_cons]
    exact ⟨⟨⟨rfl, rfl⟩, by decide +kernel, by decide +kernel⟩,
      ⟨⟨rfl, rfl⟩, by decide +kernel, by decide +kernel⟩, nofun⟩
  obtain ⟨⟨m, _⟩, hadd⟩ : ∃ r, ({} : BlockManager).addToBlockIndex root = some r :=
    Option.isSome_iff_exists.mp (by decide +kernel)
  obtain ⟨⟨m', _⟩, hadd'⟩ : ∃ r, m.addToBlockIndex child = some r := by
    have hboth : ((({} : BlockManager).addToBlockIndex root).bind fun added =>
        added.1.addToBlockIndex child).isSome = true := by decide +kernel
    rw [hadd] at hboth
    exact Option.isSome_iff_exists.mp hboth
  obtain ⟨-, -, e, hindex, -⟩ := addToBlockIndex_spec sound_empty rfl
    (hblocks root (by simp)).hash_ne.symm hadd
  have hroot : m.mBlockIndex root.getHash = some e := by rw [hindex, Function.update_self]
  have hfresh : m.mBlockIndex child.getHash = none := by
    rw [hindex, Function.update_of_ne (by decide +kernel)]
  have hrun : AcceptRun (consensusParams .regtest) [child, root] m' :=
    .accept (.accept .start (by decide +kernel) rfl (.inl rfl) hadd) (by decide +kernel) hfresh
      (.inr ⟨e, hroot⟩) hadd'
  obtain ⟨e', he'⟩ := ((hrun.indexOf fun block hmem => (hblocks block hmem).hash_ne).keys
    child.getHash).mp (by simp)
  have hrun' := AcceptRun.update (.receivedBlockTransactions 1 ⟨0, 8, by norm_num⟩ true) hrun he'
  exact ⟨_, hrun', loadBlockIndexGuts_restores_index hrun' hblocks (List.Perm.refl _)⟩

/-- A first header that `CheckBlockHeader` accepts and whose record is refused. -/
theorem loadBlockIndexGuts_refuses_accepted :
    let root : CBlockHeader := { nBits := 0x207fffff, nNonce := 1 }
    ∃ m, AcceptRun (consensusParams .regtest) [root] m ∧
      reloads (consensusParams .regtest) m.mBlockIndex [root.getHash] = some false := by
  intro root
  have hhash : root.getHash ≠ .null := by decide +kernel
  obtain ⟨m, hadd⟩ := exists_addToBlockIndex sound_empty
    (rfl : ({} : BlockManager).mBlockIndex root.getHash = none) hhash.symm fun _ h => by cases h
  have hcheck : checkBlockHeader root (consensusParams .regtest) true = .ok () := by
    decide +kernel
  have hreload : ((({} : BlockManager).addToBlockIndex root).bind fun added =>
      reloads (consensusParams .regtest) added.1.mBlockIndex [root.getHash]) = some false := by
    decide +kernel
  rw [hadd, Option.bind_some] at hreload
  exact ⟨m, .accept .start hcheck rfl (.inl rfl) hadd, hreload⟩

end HcsCoin
