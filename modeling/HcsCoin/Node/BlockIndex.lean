import HcsCoin.Chain

/-!
# The block index

`AddToBlockIndex` and `InsertBlockIndex` of `node/blockstorage.cpp`.  The index is
a map from block hashes to entries; an entry that has been added keeps its place,
so a growing index only extends the memory that pointers lead into.
-/

namespace HcsCoin

open Foundation CBlockIndex

structure BlockManager where
  mBlockIndex : BlockHeap := fun _ => none
  mBestHeader : Option Uint256 := none
  mDirtyBlockindex : List Uint256 := []

namespace BlockManager

/-- The entry of a header that is linked to its parent, if the parent is known.
The entry is in the map before its parent is looked up.  `none` is the overflow of
the signed height. -/
def linkEntry (index : BlockHeap) (block : CBlockHeader) (entry : CBlockIndex) :
    Option CBlockIndex :=
  match index block.hashPrevBlock with
  | none => some entry
  | some prev =>
    if 2 ^ 31 ≤ prev.nHeight + 1 then none
    else
      let entry := { entry with pprev := some block.hashPrevBlock, nHeight := prev.nHeight + 1 }
      entry.buildSkip (Function.update index block.getHash (some entry))

/-- `nTimeMax`, `nChainWork` and the validity of a linked entry. -/
def finishEntry (prev : Option CBlockIndex) (entry : CBlockIndex) (work : ArithUint256) :
    CBlockIndex :=
  { entry with
    nTimeMax := (prev.map fun (p : CBlockIndex) => max p.nTimeMax entry.nTime).getD entry.nTime
    nChainWork := ((prev.map nChainWork).getD BaseUint.zero).add work
  }.raiseValidity BLOCK_VALID_TREE

def bareEntry (block : CBlockHeader) : CBlockIndex :=
  { ofHeader block with
    nSequenceId := SEQ_ID_INIT_FROM_DISK
    phashBlock := some block.getHash }

def newEntry (index : BlockHeap) (block : CBlockHeader) : Option CBlockIndex := do
  let index := Function.update index block.getHash (some (bareEntry block))
  let entry ← linkEntry index block (bareEntry block)
  let work ← getBitsProof entry.nBits
  some (finishEntry (index block.hashPrevBlock) entry work)

def betterHeader (m : BlockManager) (key : Uint256) (entry : CBlockIndex) : Option Uint256 :=
  match m.mBestHeader with
  | none => some key
  | some best => do
    let bestEntry ← m.mBlockIndex best
    some (if bestEntry.nChainWork.compareTo entry.nChainWork = .lt then key else best)

def addToBlockIndex (m : BlockManager) (block : CBlockHeader) : Option (BlockManager × Uint256) :=
  let key := block.getHash
  match m.mBlockIndex key with
  | some _ => some (m, key)
  | none => do
    let entry ← newEntry m.mBlockIndex block
    let best ← m.betterHeader key entry
    some ({ mBlockIndex := Function.update m.mBlockIndex key (some entry)
            mBestHeader := some best
            mDirtyBlockindex := m.mDirtyBlockindex.insert key }, key)

end BlockManager

/-- The entry filed under `hash` and the map; the null hash has no entry. -/
def insertBlockIndex (index : BlockHeap) (hash : Uint256) : BlockHeap × Option Uint256 :=
  if hash.isNull then (index, none)
  else
    match index hash with
    | some _ => (index, some hash)
    | none => (Function.update index hash (some { phashBlock := some hash }), some hash)

/-! ## Later changes to an entry -/

structure FlatFilePos where
  nFile : Nat
  nPos : UInt32
  nFile_lt : nFile < 2 ^ 31

/-- The parts of `ReceivedBlockTransactions`, `WriteBlockUndo`, `PruneOneBlockFile`
and of validation that write to an entry once it is in the index. -/
inductive EntryUpdate where
  | receivedBlockTransactions (nTx : UInt32) (pos : FlatFilePos) (segwitActive : Bool)
  | writeBlockUndo (nPos : UInt32)
  | pruneOneBlockFile
  | raiseValidity (nUpTo : UInt32) (onlyValidity : nUpTo &&& ~~~BLOCK_VALID_MASK = 0)
  | setFailed
  | clearFailed

def CBlockIndex.withData (b : CBlockIndex) (nTx : UInt32) (pos : FlatFilePos)
    (segwitActive : Bool) : CBlockIndex :=
  { b with
    nTx := nTx
    nFile := pos.nFile
    nDataPos := pos.nPos
    nUndoPos := 0
    nStatus := (b.nStatus ||| BLOCK_HAVE_DATA) ||| (if segwitActive then BLOCK_OPT_WITNESS else 0) }

def EntryUpdate.apply : EntryUpdate → CBlockIndex → CBlockIndex
  | receivedBlockTransactions nTx pos segwitActive, b =>
    (b.withData nTx pos segwitActive).raiseValidity BLOCK_VALID_TRANSACTIONS
  | writeBlockUndo nPos, b =>
    { b with nUndoPos := nPos, nStatus := b.nStatus ||| BLOCK_HAVE_UNDO }
  | pruneOneBlockFile, b =>
    { b with
      nStatus := (b.nStatus &&& ~~~BLOCK_HAVE_DATA) &&& ~~~BLOCK_HAVE_UNDO
      nFile := 0
      nDataPos := 0
      nUndoPos := 0 }
  | raiseValidity nUpTo _, b => b.raiseValidity nUpTo
  | setFailed, b => { b with nStatus := b.nStatus ||| BLOCK_FAILED_VALID }
  | clearFailed, b => { b with nStatus := b.nStatus &&& ~~~BLOCK_FAILED_VALID }

/-! ## What a new entry is -/

/-- An entry as a header puts it into the index, before anything is known of the
block's data. -/
structure EntryOf (index : BlockHeap) (block : CBlockHeader) (e : CBlockIndex) : Prop where
  hash : e.phashBlock = some block.getHash
  header : ∀ hashPrev, e.headerOver hashPrev = { block.clearQuantum with hashPrevBlock := hashPrev }
  prev : e.pprev = (index block.hashPrevBlock).map fun _ => block.hashPrevBlock
  height : e.nHeight = ((index block.hashPrevBlock).map fun prev => prev.nHeight + 1).getD 0
  height_lt : e.nHeight < 2 ^ 31
  status : e.nStatus = BLOCK_VALID_TREE
  no_data : e.nTx = 0 ∧ e.nFile = 0 ∧ e.nDataPos = 0 ∧ e.nUndoPos = 0

structure SoundIndex (index : BlockHeap) : Prop where
  keyed : ∀ k e, index k = some e → e.phashBlock = some k
  linked : ∀ k e, index k = some e → e.Linked index

theorem soundIndex_empty : SoundIndex fun _ => none := ⟨nofun, nofun⟩

variable {index : BlockHeap} {key : Uint256} {e : CBlockIndex}

theorem extends_update (hfresh : index key = none) (e : CBlockIndex) :
    Extends index (Function.update index key (some e)) := by
  intro p e' hp
  have hne : p ≠ key := by
    rintro rfl
    exact absurd (hfresh.symm.trans hp) nofun
  rw [Function.update_of_ne hne]
  exact hp

theorem SoundIndex.update (hsound : SoundIndex index) (hfresh : index key = none)
    (hkey : e.phashBlock = some key) (hlinked : e.Linked (Function.update index key (some e))) :
    SoundIndex (Function.update index key (some e)) := by
  constructor
  · intro k e' hk
    by_cases hkk : k = key
    · subst hkk
      rw [Function.update_self] at hk
      cases hk
      exact hkey
    · rw [Function.update_of_ne hkk] at hk
      exact hsound.keyed k e' hk
  · intro k e' hk
    by_cases hkk : k = key
    · subst hkk
      rw [Function.update_self] at hk
      cases hk
      exact hlinked
    · rw [Function.update_of_ne hkk] at hk
      exact (hsound.linked k e' hk).mono hsound.linked (extends_update hfresh e)

theorem SoundIndex.modify (hsound : SoundIndex index) (he : index key = some e)
    {f : CBlockIndex → CBlockIndex} (hf : KeepsLinks f) :
    SoundIndex (Function.update index key (some (f e))) := by
  -- Entries know their keys, so the change is the same as mapping this over the heap.
  let g : CBlockIndex → CBlockIndex := fun b => if b.phashBlock = some key then f b else b
  have hg : KeepsLinks g := by
    constructor <;> intro b <;> simp only [g] <;> split
    · exact hf.hash b
    · rfl
    · exact hf.prev b
    · rfl
    · exact hf.skip b
    · rfl
    · exact hf.height b
    · rfl
  have hmap : ∀ p, Function.update index key (some (f e)) p = (index p).map g := by
    intro p
    by_cases hp : p = key
    · rw [hp, Function.update_self, he, Option.map_some]
      simp only [g, hsound.keyed key e he, if_true]
    · rw [Function.update_of_ne hp]
      cases hfind : index p with
      | none => rfl
      | some b =>
        have hkey : b.phashBlock ≠ some key := by
          rw [hsound.keyed p b hfind]
          simpa using hp
        simp only [Option.map_some, g, if_neg hkey]
  constructor
  · intro k b hk
    rw [hmap] at hk
    obtain ⟨b', hb', rfl⟩ := Option.map_eq_some_iff.mp hk
    rw [hg.hash]
    exact hsound.keyed k b' hb'
  · intro k b hk
    rw [hmap] at hk
    obtain ⟨b', hb', rfl⟩ := Option.map_eq_some_iff.mp hk
    exact (hsound.linked k b' hb').map hg hmap

def BLOCK_HAVE_MASK : UInt32 := BLOCK_HAVE_DATA ||| BLOCK_HAVE_UNDO

theorem UInt32.or_and_mask (a b mask : UInt32) :
    (a ||| b) &&& mask = (a &&& mask) ||| (b &&& mask) :=
  UInt32.toBitVec_inj.mp BitVec.and_or_distrib_right

theorem CBlockIndex.raiseValidity_eq (b : CBlockIndex) {nUpTo : UInt32}
    (hvalid : nUpTo &&& ~~~BLOCK_VALID_MASK = 0) :
    ∃ nStatus, b.raiseValidity nUpTo = { b with nStatus := nStatus } ∧
      nStatus &&& BLOCK_HAVE_MASK = b.nStatus &&& BLOCK_HAVE_MASK := by
  rw [raiseValidity]
  split
  · exact ⟨_, rfl, rfl⟩
  · split
    · refine ⟨_, rfl, ?_⟩
      have hbits : ~~~BLOCK_VALID_MASK &&& BLOCK_HAVE_MASK = BLOCK_HAVE_MASK := by decide
      have hupto : nUpTo &&& BLOCK_HAVE_MASK = 0 := by
        rw [← hbits, ← UInt32.and_assoc, hvalid, UInt32.zero_and]
      rw [UInt32.or_and_mask, hupto, UInt32.or_zero, UInt32.and_assoc, hbits]
    · exact ⟨_, rfl, rfl⟩

theorem EntryUpdate.apply_eq (u : EntryUpdate) (b : CBlockIndex) :
    ∃ nTx nFile nDataPos nUndoPos nStatus, u.apply b =
      { b with
        nTx := nTx, nFile := nFile, nDataPos := nDataPos, nUndoPos := nUndoPos,
        nStatus := nStatus } := by
  cases u with
  | receivedBlockTransactions nTx pos segwitActive =>
    obtain ⟨nStatus, heq, -⟩ := (b.withData nTx pos segwitActive).raiseValidity_eq
      (by decide : BLOCK_VALID_TRANSACTIONS &&& ~~~BLOCK_VALID_MASK = 0)
    exact ⟨_, _, _, _, nStatus, heq⟩
  | raiseValidity nUpTo hvalid =>
    obtain ⟨nStatus, heq, -⟩ := b.raiseValidity_eq hvalid
    exact ⟨_, _, _, _, nStatus, heq⟩
  | writeBlockUndo _ | pruneOneBlockFile | setFailed | clearFailed => exact ⟨_, _, _, _, _, rfl⟩

theorem EntryUpdate.keepsLinks (u : EntryUpdate) : KeepsLinks u.apply := by
  constructor <;> intro b <;> obtain ⟨_, _, _, _, _, heq⟩ := u.apply_eq b <;> rw [heq]

namespace BlockManager

theorem finishEntry_of_status {entry : CBlockIndex} (h : entry.nStatus = 0)
    (prev : Option CBlockIndex) (work : ArithUint256) :
    ∃ nTimeMax nChainWork, finishEntry prev entry work =
      { entry with nTimeMax := nTimeMax, nChainWork := nChainWork, nStatus := BLOCK_VALID_TREE } := by
  rw [finishEntry, raiseValidity, h, if_neg (by decide), if_pos (by decide)]
  exact ⟨_, _, rfl⟩

variable {index : BlockHeap} {block : CBlockHeader}

theorem linkEntry_of_parent (hsound : SoundIndex index)
    (hfresh : index block.getHash = none) {prev : CBlockIndex}
    (hprev : index block.hashPrevBlock = some prev) (hheight : prev.nHeight + 1 < 2 ^ 31) :
    ∃ k ancestor,
      linkEntry (Function.update index block.getHash (some (bareEntry block))) block
          (bareEntry block) =
        some { bareEntry block with
          pprev := some block.hashPrevBlock, nHeight := prev.nHeight + 1, pskip := some k } ∧
      index k = some ancestor ∧
      backBy index (prev.nHeight - getSkipHeight (prev.nHeight + 1)) prev = some ancestor := by
  have hne : block.hashPrevBlock ≠ block.getHash := by
    intro heq
    rw [heq, hfresh] at hprev
    exact absurd hprev nofun
  set linked : CBlockIndex :=
    { bareEntry block with pprev := some block.hashPrevBlock, nHeight := prev.nHeight + 1 }
    with hlinkedDef
  set heap := Function.update index block.getHash (some linked) with hheap
  have hext : Extends index heap := extends_update hfresh linked
  -- The entry as it stands has no skip pointer yet, so the heap with it is sound.
  have hlinked : linked.Linked heap := by
    constructor
    · intro
      exact ⟨prev, hext _ _ hprev, rfl⟩
    · exact fun hskip => absurd hskip (by decide : ¬ (none : Option Uint256).isSome = true)
  have hsound' : SoundIndex heap := hsound.update hfresh rfl hlinked
  have hlt : getSkipHeight (prev.nHeight + 1) < prev.nHeight + 1 :=
    getSkipHeight_lt (Nat.succ_pos _)
  obtain ⟨ancestor, hback, -, -⟩ := (hsound.linked _ _ hprev).exists_backBy hsound.linked
    (Nat.sub_le prev.nHeight (getSkipHeight (prev.nHeight + 1)))
  obtain ⟨k, hk⟩ := exists_find_of_backBy ⟨_, hprev⟩ hback
  refine ⟨k, ancestor, ?_, hk, hback⟩
  have hancestor : prev.getAncestor heap (getSkipHeight (prev.nHeight + 1)) =
      some (some ancestor) := by
    rw [getAncestor_eq hsound'.linked
      (hsound'.linked _ _ (hext _ _ hprev)) (Nat.le_of_lt_succ hlt), hext.backBy hback]
    rfl
  rw [linkEntry, Function.update_of_ne hne, hprev]
  dsimp only
  rw [if_neg (Nat.not_le.mpr hheight), Function.update_idem, ← hlinkedDef, ← hheap, buildSkip]
  simp only [hlinkedDef, hext _ _ hprev, some_bind, Option.bind_some, hancestor,
    getBlockHash, hsound.keyed _ _ hk]

variable {e parent : CBlockIndex} {m m' : BlockManager}

section

variable (hsound : SoundIndex index) (hfresh : index block.getHash = none)
  (hne : block.hashPrevBlock ≠ block.getHash)
include hsound hfresh hne

theorem newEntry_spec (h : newEntry index block = some e) :
    EntryOf index block e ∧ e.Linked (Function.update index block.getHash (some e)) := by
  obtain ⟨entry, hlink, h⟩ := Option.bind_eq_some_iff.mp h
  obtain ⟨work, -, h⟩ := Option.bind_eq_some_iff.mp h
  cases hprev : index block.hashPrevBlock with
  | none =>
    rw [linkEntry, Function.update_of_ne hne, hprev] at hlink
    cases hlink
    obtain ⟨nTimeMax, nChainWork, hfinish⟩ :=
      finishEntry_of_status (rfl : (bareEntry block).nStatus = 0) _ work
    cases h.symm.trans (congrArg some hfinish)
    refine ⟨⟨rfl, fun _ => rfl, ?_, ?_, Nat.two_pow_pos 31, rfl, rfl, rfl, rfl, rfl⟩, ?_, ?_⟩
    · rw [hprev]; rfl
    · rw [hprev]; rfl
    · exact fun hheight => absurd rfl hheight
    · exact fun hskip => absurd hskip (by decide : ¬ (none : Option Uint256).isSome = true)
  | some prev =>
    by_cases hheight : prev.nHeight + 1 < 2 ^ 31
    case neg =>
      rw [linkEntry, Function.update_of_ne hne, hprev] at hlink
      dsimp only at hlink
      rw [if_pos (Nat.le_of_not_lt hheight)] at hlink
      exact absurd hlink nofun
    obtain ⟨k, ancestor, hlinked, hk, hback⟩ := linkEntry_of_parent hsound hfresh hprev hheight
    cases hlink.symm.trans hlinked
    obtain ⟨nTimeMax, nChainWork, hfinish⟩ := finishEntry_of_status
      (rfl : nStatus { bareEntry block with
        pprev := some block.hashPrevBlock, nHeight := prev.nHeight + 1, pskip := some k } = 0)
      _ work
    cases h.symm.trans (congrArg some hfinish)
    refine ⟨⟨rfl, fun _ => rfl, ?_, ?_, hheight, rfl, rfl, rfl, rfl, rfl⟩, ?_⟩
    · rw [hprev]; rfl
    · rw [hprev]; rfl
    · have hext := extends_update hfresh
      exact linked_of_parent (hext _ _ _ hprev) rfl rfl (hext _ _ _ hk) ((hext _).backBy hback)

theorem exists_newEntry
    (hheight : ∀ prev, index block.hashPrevBlock = some prev → prev.nHeight + 1 < 2 ^ 31) :
    ∃ e, newEntry index block = some e := by
  have hlink : ∃ entry, linkEntry (Function.update index block.getHash (some (bareEntry block)))
      block (bareEntry block) = some entry := by
    cases hprev : index block.hashPrevBlock with
    | none =>
      rw [linkEntry, Function.update_of_ne hne, hprev]
      exact ⟨_, rfl⟩
    | some prev =>
      obtain ⟨k, _, hlink, -⟩ := linkEntry_of_parent hsound hfresh hprev (hheight prev hprev)
      exact ⟨_, hlink⟩
  obtain ⟨entry, hlink⟩ := hlink
  obtain ⟨work, hwork⟩ := Option.isSome_iff_exists.mp (getBitsProof_isSome entry.nBits)
  rw [newEntry, hlink, some_bind, hwork]
  exact ⟨_, rfl⟩

end

/-! ## Adding a header -/

structure Sound (m : BlockManager) : Prop where
  index : SoundIndex m.mBlockIndex
  best : ∀ k, m.mBestHeader = some k → ∃ e, m.mBlockIndex k = some e

theorem sound_empty : ({} : BlockManager).Sound := ⟨soundIndex_empty, nofun⟩

/-- A header that is new and does not name itself as its parent adds one entry and
changes nothing else in the map. -/
theorem addToBlockIndex_spec (hsound : m.Sound) {key : Uint256}
    (hfresh : m.mBlockIndex block.getHash = none) (hne : block.hashPrevBlock ≠ block.getHash)
    (h : m.addToBlockIndex block = some (m', key)) :
    key = block.getHash ∧ m'.Sound ∧
      ∃ e, m'.mBlockIndex = Function.update m.mBlockIndex block.getHash (some e) ∧
        EntryOf m.mBlockIndex block e := by
  rw [addToBlockIndex, hfresh] at h
  obtain ⟨e, hnew, h⟩ := Option.bind_eq_some_iff.mp h
  obtain ⟨best, hbest, h⟩ := Option.bind_eq_some_iff.mp h
  cases h
  obtain ⟨hentry, hlinked⟩ := newEntry_spec hsound.index hfresh hne hnew
  refine ⟨rfl, ⟨hsound.index.update hfresh hentry.hash hlinked, ?_⟩, e, rfl, hentry⟩
  rintro k ⟨rfl⟩
  by_cases hk : best = block.getHash
  · exact ⟨e, by rw [hk]; exact Function.update_self ..⟩
  -- A best header other than the new entry is the one there was before.
  · rw [betterHeader] at hbest
    cases hold : m.mBestHeader with
    | none =>
      rw [hold] at hbest
      cases hbest
      exact absurd rfl hk
    | some old =>
      rw [hold] at hbest
      obtain ⟨bestEntry, hfind, hbest⟩ := Option.bind_eq_some_iff.mp hbest
      simp only [Option.some.injEq] at hbest
      split at hbest
      · exact absurd hbest.symm hk
      · subst hbest
        exact ⟨bestEntry, extends_update hfresh e _ _ hfind⟩

theorem exists_addToBlockIndex (hsound : m.Sound) (hfresh : m.mBlockIndex block.getHash = none)
    (hne : block.hashPrevBlock ≠ block.getHash)
    (hheight : ∀ prev, m.mBlockIndex block.hashPrevBlock = some prev → prev.nHeight + 1 < 2 ^ 31) :
    ∃ m', m.addToBlockIndex block = some (m', block.getHash) := by
  obtain ⟨e, hnew⟩ := exists_newEntry hsound.index hfresh hne hheight
  have hbest : ∃ best, m.betterHeader block.getHash e = some best := by
    rw [betterHeader]
    cases hold : m.mBestHeader with
    | none => exact ⟨_, rfl⟩
    | some old =>
      obtain ⟨bestEntry, hfind⟩ := hsound.best old hold
      dsimp only
      rw [Option.bind_eq_bind, hfind]
      exact ⟨_, rfl⟩
  obtain ⟨best, hbest⟩ := hbest
  rw [addToBlockIndex, hfresh]
  dsimp only
  rw [hnew, some_bind, hbest]
  exact ⟨_, rfl⟩

/-- Headers that are new and have their parent in the index, added one after another. -/
inductive Adds : BlockManager → List CBlockHeader → BlockManager → Prop
  | nil (m : BlockManager) : Adds m [] m
  | cons {m m' m'' : BlockManager} {block : CBlockHeader} {blocks : List CBlockHeader}
      {parent : CBlockIndex} {key : Uint256}
      (hparent : m.mBlockIndex block.hashPrevBlock = some parent)
      (hfresh : m.mBlockIndex block.getHash = none)
      (hadd : m.addToBlockIndex block = some (m', key))
      (hrest : Adds m' blocks m'') : Adds m (block :: blocks) m''

theorem hashPrevBlock_ne_getHash (hparent : index block.hashPrevBlock = some parent)
    (hfresh : index block.getHash = none) : block.hashPrevBlock ≠ block.getHash := by
  intro heq
  rw [heq, hfresh] at hparent
  exact absurd hparent nofun

theorem Adds.extends {blocks : List CBlockHeader} (hrun : Adds m blocks m') (hsound : m.Sound) :
    Extends m.mBlockIndex m'.mBlockIndex := by
  induction hrun with
  | nil => exact fun _ _ h => h
  | cons hparent hfresh hadd hrest ih =>
    obtain ⟨-, hsound', e, hindex, -⟩ := addToBlockIndex_spec hsound hfresh
      (hashPrevBlock_ne_getHash hparent hfresh) hadd
    intro k e' hk
    refine ih hsound' k e' ?_
    rw [hindex]
    exact extends_update hfresh e k e' hk

theorem getBlockHeader_entryOf {index' : BlockHeap} (hsound : SoundIndex index)
    (hext : Extends index index') (hparent : index block.hashPrevBlock = some parent)
    (hentry : EntryOf index block e) : e.getBlockHeader index' = some block.clearQuantum := by
  have hprev : e.prevHash index' = some block.hashPrevBlock := by
    rw [prevHash, hentry.prev, hparent]
    simp [hext _ _ hparent, getBlockHash, hsound.keyed _ _ hparent]
  rw [getBlockHeader, hprev]
  exact congrArg some (hentry.header _)

/-- Along any chain of added headers, exactly the headers whose quantum fields are
null come back from the index as they went in. -/
theorem getBlockHeader_eq_added_iff {m m' : BlockManager} (hsound : m.Sound)
    {blocks : List CBlockHeader} (hrun : Adds m blocks m') :
    ∀ h ∈ blocks, ∃ e, m'.mBlockIndex h.getHash = some e ∧
      ((e.getBlockHeader m'.mBlockIndex = some h ∧
          (e.getBlockHeader m'.mBlockIndex).map CBlockHeader.getHash = some h.getHash) ↔
        h.QuantumNull) := by
  induction hrun with
  | nil => exact nofun
  | @cons m m' m'' block blocks parent key hparent hfresh hadd hrest ih =>
    obtain ⟨-, hsound', e, hindex, hentry⟩ := addToBlockIndex_spec hsound hfresh
      (hashPrevBlock_ne_getHash hparent hfresh) hadd
    refine List.forall_mem_cons.mpr ⟨⟨e, ?_, ?_⟩, ih hsound'⟩
    · refine hrest.extends hsound' _ _ ?_
      rw [hindex, Function.update_self]
    · have hext : Extends m.mBlockIndex m''.mBlockIndex :=
        Adds.extends (.cons hparent hfresh hadd hrest) hsound
      rw [getBlockHeader_entryOf hsound.index hext hparent hentry,
        ← CBlockHeader.clearQuantum_eq_self_iff]
      constructor
      · rintro ⟨heq, -⟩
        exact Option.some.inj heq
      · intro heq
        rw [heq]
        exact ⟨rfl, rfl⟩

theorem getBlockHeader_eq_added_child :
    ∃ m m' : BlockManager, ∃ child : CBlockHeader, Adds m [child] m' ∧ child.QuantumNull ∧
      ∃ e, m'.mBlockIndex child.getHash = some e ∧
        e.getBlockHeader m'.mBlockIndex = some child := by
  obtain ⟨m, hroot⟩ := exists_addToBlockIndex sound_empty rfl
    (by decide +kernel : ({} : CBlockHeader).hashPrevBlock ≠ ({} : CBlockHeader).getHash) nofun
  obtain ⟨-, hsound, e, hindex, hentry⟩ :=
    addToBlockIndex_spec sound_empty rfl (by decide +kernel) hroot
  have hparent : m.mBlockIndex (({} : CBlockHeader).getHash) = some e := by
    rw [hindex, Function.update_self]
  have hfresh : m.mBlockIndex
      (CBlockHeader.getHash { hashPrevBlock := ({} : CBlockHeader).getHash }) = none := by
    rw [hindex, Function.update_of_ne (by decide +kernel)]
  have hheight : e.nHeight = 0 := hentry.height
  obtain ⟨m', hchild⟩ := exists_addToBlockIndex hsound hfresh
    (hashPrevBlock_ne_getHash hparent hfresh) (by
      intro prev hprev
      cases hprev.symm.trans hparent
      rw [hheight]
      norm_num)
  have hrun : Adds m [{ hashPrevBlock := ({} : CBlockHeader).getHash }] m' :=
    .cons hparent hfresh hchild (.nil m')
  obtain ⟨e', he', hiff⟩ := getBlockHeader_eq_added_iff hsound hrun _ (List.mem_singleton_self _)
  exact ⟨m, m', _, hrun, ⟨rfl, rfl⟩, e', he', (hiff.mpr ⟨rfl, rfl⟩).1⟩

/-- A child with a quantum nonce comes back without it, under another hash. -/
theorem getBlockHeader_loses_quantum_nonce :
    let root : CBlockHeader := {}
    let child : CBlockHeader := { hashPrevBlock := root.getHash, nQuantumNonce := 1 }
    let back : Option CBlockHeader := do
      let (m, _) ← addToBlockIndex {} root
      let (m, key) ← m.addToBlockIndex child
      let e ← m.mBlockIndex key
      e.getBlockHeader m.mBlockIndex
    back = some { child with nQuantumNonce := 0 } ∧ back ≠ some child ∧
      back.map CBlockHeader.getHash ≠ some child.getHash := by
  decide +kernel

end BlockManager

end HcsCoin
