import HcsCoin.Foundation.HashChain
import HcsCoin.Crypto.SipHash
import HcsCoin.Pow

/-!
# Headers pre-synchronisation

`HeadersSyncState` of `headerssync.cpp`.  In the PRESYNC phase a peer's headers
are checked and dropped, except for one salted commitment bit every
`commitment_period` headers.  Once their work is enough the headers are
downloaded again: in the REDOWNLOAD phase they are compared with the
commitments and kept in a buffer, without their parent hashes, until enough of
them stand behind them to be released.

`none` stands for an exception, which only the arithmetic of the difficulty
rule can throw.  Heights are natural numbers: the next height of the PRESYNC phase,
an `int`, is supposed to stay below `2^31`.
-/

namespace HcsCoin

open Foundation

/-- A header without its parent hash; the quantum fields are not kept either. -/
structure CompressedHeader where
  nVersion : Int32
  hashMerkleRoot : Uint256
  nTime : UInt32
  nBits : UInt32
  nNonce : UInt32
  deriving DecidableEq

namespace CompressedHeader

def ofHeader (header : CBlockHeader) : CompressedHeader :=
  { nVersion := header.nVersion
    hashMerkleRoot := header.hashMerkleRoot
    nTime := header.nTime
    nBits := header.nBits
    nNonce := header.nNonce }

def getFullHeader (c : CompressedHeader) (hashPrevBlock : Uint256) : CBlockHeader :=
  { nVersion := c.nVersion
    hashPrevBlock := hashPrevBlock
    hashMerkleRoot := c.hashMerkleRoot
    nTime := c.nTime
    nBits := c.nBits
    nNonce := c.nNonce }

theorem getFullHeader_ofHeader (header : CBlockHeader) :
    (ofHeader header).getFullHeader header.hashPrevBlock = header.clearQuantum := rfl

end CompressedHeader

/-- Connection by `hashPrevBlock` and `GetHash()`. -/
abbrev HeadersConnected (start : Uint256) (headers : List CBlockHeader) : Prop :=
  Connected CBlockHeader.hashPrevBlock CBlockHeader.getHash start headers

abbrev headersTip (start : Uint256) (headers : List CBlockHeader) : Uint256 :=
  tipHash CBlockHeader.getHash start headers

/-- The headers released one after the other from a buffer, each over the hash of
the one released before it. -/
abbrev fullHeaders (start : Uint256) (buffer : List CompressedHeader) : List CBlockHeader :=
  relink CompressedHeader.getFullHeader CBlockHeader.getHash start buffer

structure HeadersSyncParams where
  commitmentPeriod : Nat
  redownloadBufferSize : Nat

/-- The constant members of `HeadersSyncState`.  The offset and the hasher's keys are
drawn at random, and `maxCommitments` is computed from the clock. -/
structure HeadersSyncConfig where
  consensusParams : Params
  params : HeadersSyncParams
  commitOffset : Nat
  commitOffset_lt : commitOffset < params.commitmentPeriod
  hasher : PresaltedSipHasher
  maxCommitments : Nat
  chainStart : CBlockIndex
  chainStartHash : Uint256
  getBlockHash_chainStart : chainStart.getBlockHash = some chainStartHash
  minimumRequiredWork : ArithUint256

inductive DownloadState where
  | presync
  | redownload
  | final
  deriving DecidableEq

structure HeadersSyncState where
  mHeaderCommitments : List Bool := []
  mCurrentChainWork : ArithUint256
  mLastHeaderReceived : CBlockHeader
  mCurrentHeight : Nat
  mRedownloadedHeaders : List CompressedHeader := []
  mRedownloadBufferLastHeight : Nat := 0
  mRedownloadBufferLastHash : Uint256 := .null
  mRedownloadBufferFirstPrevHash : Uint256 := .null
  mRedownloadChainWork : ArithUint256 := BaseUint.zero
  mProcessAllRemainingHeaders : Bool := false
  mDownloadState : DownloadState := .presync

structure ProcessingResult where
  powValidatedHeaders : List CBlockHeader := []
  success : Bool := false
  requestMore : Bool := false
  deriving DecidableEq

/-- The `for` loops over a batch: the first header that is refused ends them. -/
def whileAccepted {σ α : Type*} (step : σ → α → Option (Bool × σ)) :
    σ → List α → Option (Bool × σ)
  | s, [] => some (true, s)
  | s, x :: batch =>
    (step s x).bind fun r => if r.1 then whileAccepted step r.2 batch else some (false, r.2)

namespace HeadersSyncConfig

def commitment (cfg : HeadersSyncConfig) (header : CBlockHeader) : Bool :=
  cfg.hasher.hash header.getHash &&& 1 == 1

def commitsAt (cfg : HeadersSyncConfig) (height : Nat) : Bool :=
  height % cfg.params.commitmentPeriod == cfg.commitOffset

def enoughWork (cfg : HeadersSyncConfig) (work : ArithUint256) : Bool :=
  work.compareTo cfg.minimumRequiredWork != .lt

end HeadersSyncConfig

namespace HeadersSyncState

def start (cfg : HeadersSyncConfig) (find : BlockHeap) : Option HeadersSyncState :=
  (cfg.chainStart.getBlockHeader find).map fun header =>
    { mCurrentChainWork := cfg.chainStart.nChainWork
      mLastHeaderReceived := header
      mCurrentHeight := cfg.chainStart.nHeight }

def finalize (s : HeadersSyncState) : HeadersSyncState :=
  { s with
    mHeaderCommitments := []
    mLastHeaderReceived := {}
    mRedownloadedHeaders := []
    mRedownloadBufferLastHash := .null
    mRedownloadBufferFirstPrevHash := .null
    mProcessAllRemainingHeaders := false
    mCurrentHeight := 0
    mDownloadState := .final }

/-! ## PRESYNC -/

def recordHeader (s : HeadersSyncState) (current : CBlockHeader) :
    Option (Bool × HeadersSyncState) :=
  (getBitsProof current.nBits).map fun proof =>
    (true, { s with
      mCurrentChainWork := s.mCurrentChainWork.add proof
      mLastHeaderReceived := current
      mCurrentHeight := s.mCurrentHeight + 1 })

def addCommitment (cfg : HeadersSyncConfig) (s : HeadersSyncState) (current : CBlockHeader) :
    HeadersSyncState :=
  { s with mHeaderCommitments := s.mHeaderCommitments ++ [cfg.commitment current] }

def validateAndProcessSingleHeader (cfg : HeadersSyncConfig) (s : HeadersSyncState)
    (current : CBlockHeader) : Option (Bool × HeadersSyncState) :=
  if s.mDownloadState ≠ .presync then some (false, s)
  else
    (permittedDifficultyTransition cfg.consensusParams (s.mCurrentHeight + 1)
      s.mLastHeaderReceived.nBits current.nBits).bind fun permitted =>
    if !permitted then some (false, s)
    else if cfg.commitsAt (s.mCurrentHeight + 1) then
      if (addCommitment cfg s current).mHeaderCommitments.length > cfg.maxCommitments then
        some (false, addCommitment cfg s current)
      else (addCommitment cfg s current).recordHeader current
    else s.recordHeader current

def enterRedownload (cfg : HeadersSyncConfig) (s : HeadersSyncState) : HeadersSyncState :=
  { s with
    mRedownloadedHeaders := []
    mRedownloadBufferLastHeight := cfg.chainStart.nHeight
    mRedownloadBufferFirstPrevHash := cfg.chainStartHash
    mRedownloadBufferLastHash := cfg.chainStartHash
    mRedownloadChainWork := cfg.chainStart.nChainWork
    mDownloadState := .redownload }

def validateAndStoreHeadersCommitments (cfg : HeadersSyncConfig) (s : HeadersSyncState) :
    List CBlockHeader → Option (Bool × HeadersSyncState)
  | [] => some (true, s)
  | first :: rest =>
    if s.mDownloadState ≠ .presync then some (false, s)
    else if first.hashPrevBlock ≠ s.mLastHeaderReceived.getHash then some (false, s)
    else
      (whileAccepted (validateAndProcessSingleHeader cfg) s (first :: rest)).map fun r =>
        if r.1 && cfg.enoughWork r.2.mCurrentChainWork then (true, enterRedownload cfg r.2)
        else r

/-! ## REDOWNLOAD -/

def previousBits (cfg : HeadersSyncConfig) (s : HeadersSyncState) : UInt32 :=
  match s.mRedownloadedHeaders.getLast? with
  | some back => back.nBits
  | none => cfg.chainStart.nBits

def addRedownloadWork (cfg : HeadersSyncConfig) (s : HeadersSyncState) (proof : ArithUint256) :
    HeadersSyncState :=
  { s with
    mRedownloadChainWork := s.mRedownloadChainWork.add proof
    mProcessAllRemainingHeaders :=
      s.mProcessAllRemainingHeaders || cfg.enoughWork (s.mRedownloadChainWork.add proof) }

def storeHeader (s : HeadersSyncState) (header : CBlockHeader) : HeadersSyncState :=
  { s with
    mRedownloadedHeaders := s.mRedownloadedHeaders ++ [CompressedHeader.ofHeader header]
    mRedownloadBufferLastHeight := s.mRedownloadBufferLastHeight + 1
    mRedownloadBufferLastHash := header.getHash }

/-- The commitment of a header is compared with the oldest one left, which is used
up by that. -/
def checkCommitment (cfg : HeadersSyncConfig) (s : HeadersSyncState) (header : CBlockHeader) :
    Bool × HeadersSyncState :=
  match s.mHeaderCommitments with
  | [] => (false, s)
  | expected :: commitments =>
    (cfg.commitment header == expected, { s with mHeaderCommitments := commitments })

def verifyAndStore (cfg : HeadersSyncConfig) (s : HeadersSyncState) (header : CBlockHeader) :
    Bool × HeadersSyncState :=
  if !s.mProcessAllRemainingHeaders && cfg.commitsAt (s.mRedownloadBufferLastHeight + 1) then
    if (checkCommitment cfg s header).1 then
      (true, (checkCommitment cfg s header).2.storeHeader header)
    else (false, (checkCommitment cfg s header).2)
  else (true, s.storeHeader header)

def validateAndStoreRedownloadedHeader (cfg : HeadersSyncConfig) (s : HeadersSyncState)
    (header : CBlockHeader) : Option (Bool × HeadersSyncState) :=
  if s.mDownloadState ≠ .redownload then some (false, s)
  else if header.hashPrevBlock ≠ s.mRedownloadBufferLastHash then some (false, s)
  else
    (permittedDifficultyTransition cfg.consensusParams (s.mRedownloadBufferLastHeight + 1)
      (previousBits cfg s) header.nBits).bind fun permitted =>
    if !permitted then some (false, s)
    else (getBitsProof header.nBits).map fun proof =>
      verifyAndStore cfg (addRedownloadWork cfg s proof) header

/-- The loop of `PopHeadersReadyForAcceptance`: the released headers, what is left of
the buffer and the hash the next released header has to carry. -/
def popLoop (redownloadBufferSize : Nat) (processAll : Bool) :
    List CompressedHeader → Uint256 → List CBlockHeader × List CompressedHeader × Uint256
  | [], prevHash => ([], [], prevHash)
  | front :: buffer, prevHash =>
    if buffer.length + 1 > redownloadBufferSize || processAll then
      let header := front.getFullHeader prevHash
      let popped := popLoop redownloadBufferSize processAll buffer header.getHash
      (header :: popped.1, popped.2.1, popped.2.2)
    else ([], front :: buffer, prevHash)

def popHeadersReadyForAcceptance (cfg : HeadersSyncConfig) (s : HeadersSyncState) :
    List CBlockHeader × HeadersSyncState :=
  if s.mDownloadState ≠ .redownload then ([], s)
  else
    let popped := popLoop cfg.params.redownloadBufferSize s.mProcessAllRemainingHeaders
      s.mRedownloadedHeaders s.mRedownloadBufferFirstPrevHash
    (popped.1, { s with
      mRedownloadedHeaders := popped.2.1
      mRedownloadBufferFirstPrevHash := popped.2.2 })

/-! ## The step on a batch -/

def processPresync (cfg : HeadersSyncConfig) (s : HeadersSyncState) (headers : List CBlockHeader)
    (fullHeadersMessage : Bool) : Option (ProcessingResult × HeadersSyncState) :=
  (validateAndStoreHeadersCommitments cfg s headers).map fun r =>
    ({ success := r.1
       requestMore := r.1 && (fullHeadersMessage || r.2.mDownloadState == .redownload) }, r.2)

def releaseHeaders (cfg : HeadersSyncConfig) (s : HeadersSyncState) (fullHeadersMessage : Bool) :
    ProcessingResult × HeadersSyncState :=
  let popped := popHeadersReadyForAcceptance cfg s
  ({ powValidatedHeaders := popped.1
     success := true
     requestMore := fullHeadersMessage &&
       !(popped.2.mRedownloadedHeaders.isEmpty && popped.2.mProcessAllRemainingHeaders) },
   popped.2)

def processRedownload (cfg : HeadersSyncConfig) (s : HeadersSyncState)
    (headers : List CBlockHeader) (fullHeadersMessage : Bool) :
    Option (ProcessingResult × HeadersSyncState) :=
  (whileAccepted (validateAndStoreRedownloadedHeader cfg) s headers).map fun r =>
    if r.1 then releaseHeaders cfg r.2 fullHeadersMessage else ({}, r.2)

def finalizeUnlessMore (r : ProcessingResult × HeadersSyncState) :
    ProcessingResult × HeadersSyncState :=
  if r.1.success && r.1.requestMore then r else (r.1, r.2.finalize)

def processNextHeaders (cfg : HeadersSyncConfig) (s : HeadersSyncState)
    (receivedHeaders : List CBlockHeader) (fullHeadersMessage : Bool) :
    Option (ProcessingResult × HeadersSyncState) :=
  if receivedHeaders.isEmpty then some ({}, s)
  else match s.mDownloadState with
    | .presync => (processPresync cfg s receivedHeaders fullHeadersMessage).map finalizeUnlessMore
    | .redownload =>
      (processRedownload cfg s receivedHeaders fullHeadersMessage).map finalizeUnlessMore
    | .final => some ({}, s)

/-! ## Runs -/

def redownloaded (s : HeadersSyncState) (headers : List CBlockHeader) : List CBlockHeader :=
  if s.mDownloadState = .redownload then headers else []

/-- A state with the headers received in the REDOWNLOAD phase and all headers
returned so far. -/
structure Trace where
  received : List CBlockHeader
  released : List CBlockHeader
  state : HeadersSyncState

def Trace.next (cfg : HeadersSyncConfig) (t : Trace) (message : List CBlockHeader × Bool) :
    Option Trace :=
  (processNextHeaders cfg t.state message.1 message.2).map fun r =>
    { received := t.received ++ t.state.redownloaded message.1
      released := t.released ++ r.1.powValidatedHeaders
      state := r.2 }

def run (cfg : HeadersSyncConfig) (find : BlockHeap) (messages : List (List CBlockHeader × Bool)) :
    Option Trace :=
  (start cfg find).bind fun s => messages.foldlM (Trace.next cfg) ⟨[], [], s⟩

/-! ## Invariants -/

theorem whileAccepted_accepted {σ α : Type*} {step : σ → α → Option (Bool × σ)}
    (Inv : List α → σ → Prop)
    (hstep : ∀ done s x s', Inv done s → step s x = some (true, s') → Inv (done ++ [x]) s')
    (done : List α) {batch : List α} {s s' : σ} (hinv : Inv done s)
    (hrun : whileAccepted step s batch = some (true, s')) : Inv (done ++ batch) s' := by
  induction batch generalizing done s with
  | nil =>
    cases hrun
    simpa using hinv
  | cons x batch ih =>
    obtain ⟨⟨accepted, t⟩, ht, hrest⟩ := Option.bind_eq_some_iff.mp hrun
    cases accepted with
    | false => simp at hrest
    | true =>
      have htail := ih _ (hstep done s x t hinv ht) hrest
      simpa using htail

variable {s s' : HeadersSyncState} {cfg : HeadersSyncConfig}
  {headers received released : List CBlockHeader} {header : CBlockHeader}
  {r : ProcessingResult × HeadersSyncState} {messages : List (List CBlockHeader × Bool)}
  {full : Bool} {current : CBlockHeader} {find : BlockHeap}

theorem mDownloadState_of_recordHeader (h : s.recordHeader current = some (true, s')) :
    s'.mDownloadState = s.mDownloadState := by
  obtain ⟨proof, -, heq⟩ := Option.map_eq_some_iff.mp h
  cases heq
  rfl

theorem mDownloadState_of_validateAndProcessSingleHeader
    (h : validateAndProcessSingleHeader cfg s current = some (true, s')) :
    s'.mDownloadState = s.mDownloadState := by
  rw [validateAndProcessSingleHeader] at h
  split at h
  case isTrue => simp at h
  case isFalse =>
    obtain ⟨permitted, -, h⟩ := Option.bind_eq_some_iff.mp h
    split at h
    case isTrue => simp at h
    case isFalse =>
      split at h
      case isTrue =>
        split at h
        case isTrue => simp at h
        case isFalse => exact (mDownloadState_of_recordHeader h).trans rfl
      case isFalse => exact mDownloadState_of_recordHeader h

theorem validateAndStoreHeadersCommitments_accepted (hs : s.mDownloadState = .presync)
    (h : validateAndStoreHeadersCommitments cfg s headers = some (true, s')) :
    s'.mDownloadState = .presync ∨ ∃ t, s' = enterRedownload cfg t := by
  cases headers with
  | nil =>
    cases h
    exact .inl hs
  | cons first rest =>
    rw [validateAndStoreHeadersCommitments, if_neg (not_not_intro hs)] at h
    split at h
    case isTrue => simp at h
    case isFalse =>
      obtain ⟨⟨accepted, t⟩, ht, h⟩ := Option.map_eq_some_iff.mp h
      cases accepted with
      | false => simp at h
      | true =>
        have hphase : t.mDownloadState = .presync :=
          whileAccepted_accepted (fun _ t => t.mDownloadState = .presync)
            (fun _ _ _ _ hinv hstep =>
              (mDownloadState_of_validateAndProcessSingleHeader hstep).trans hinv) [] hs ht
        split at h
        case isTrue =>
          cases h
          exact .inr ⟨t, rfl⟩
        case isFalse =>
          cases h
          exact .inl hphase

/-- The REDOWNLOAD phase.  What was released and what the buffer will be restored to
make up the restored form of the headers received. -/
structure Buffered (cfg : HeadersSyncConfig) (received released : List CBlockHeader)
    (s : HeadersSyncState) : Prop where
  phase : s.mDownloadState = .redownload
  received_connected : HeadersConnected cfg.chainStartHash received
  restored : released ++ fullHeaders s.mRedownloadBufferFirstPrevHash s.mRedownloadedHeaders =
    fullHeaders cfg.chainStartHash (received.map CompressedHeader.ofHeader)
  first_prev : s.mRedownloadBufferFirstPrevHash = headersTip cfg.chainStartHash released
  last : s.mRedownloadBufferLastHash = headersTip cfg.chainStartHash received

def Served (cfg : HeadersSyncConfig) (received released : List CBlockHeader) : Prop :=
  ∃ stored, stored <+: received ∧ HeadersConnected cfg.chainStartHash stored ∧
    released <+: fullHeaders cfg.chainStartHash (stored.map CompressedHeader.ofHeader)

def RunInv (cfg : HeadersSyncConfig) (received released : List CBlockHeader)
    (s : HeadersSyncState) : Prop :=
  match s.mDownloadState with
  | .presync => received = [] ∧ released = []
  | .redownload => Buffered cfg received released s
  | .final => Served cfg received released

theorem Buffered.of_enterRedownload (cfg : HeadersSyncConfig) (s : HeadersSyncState) :
    Buffered cfg [] [] (enterRedownload cfg s) :=
  ⟨rfl, trivial, rfl, rfl, rfl⟩

theorem Buffered.congr {t : HeadersSyncState} (h : Buffered cfg received released s)
    (hphase : t.mDownloadState = s.mDownloadState)
    (hbuffer : t.mRedownloadedHeaders = s.mRedownloadedHeaders)
    (hfirst : t.mRedownloadBufferFirstPrevHash = s.mRedownloadBufferFirstPrevHash)
    (hlast : t.mRedownloadBufferLastHash = s.mRedownloadBufferLastHash) :
    Buffered cfg received released t where
  phase := hphase.trans h.phase
  received_connected := h.received_connected
  restored := by rw [hfirst, hbuffer, h.restored]
  first_prev := hfirst.trans h.first_prev
  last := hlast.trans h.last

theorem Buffered.storeHeader (h : Buffered cfg received released s)
    (hlink : header.hashPrevBlock = s.mRedownloadBufferLastHash) :
    Buffered cfg (received ++ [header]) released (s.storeHeader header) where
  phase := h.phase
  received_connected :=
    (connected_append ..).mpr ⟨h.received_connected, hlink.trans h.last, trivial⟩
  restored := by
    have hrestored := h.restored
    rw [h.first_prev] at hrestored
    change released ++ fullHeaders s.mRedownloadBufferFirstPrevHash
      (s.mRedownloadedHeaders ++ [CompressedHeader.ofHeader header]) = _
    rw [List.map_append, h.first_prev]
    exact append_relink_concat (CompressedHeader.ofHeader header) hrestored
  first_prev := h.first_prev
  last := by
    rw [headersTip, tipHash_append]
    rfl

private theorem checkCommitment_snd (cfg : HeadersSyncConfig) (s : HeadersSyncState)
    (header : CBlockHeader) :
    ∃ commitments, (checkCommitment cfg s header).2 =
      { s with mHeaderCommitments := commitments } := by
  rw [checkCommitment]
  split
  · exact ⟨_, rfl⟩
  · exact ⟨_, rfl⟩

theorem Buffered.of_verifyAndStore (hinv : Buffered cfg received released s)
    (hlink : header.hashPrevBlock = s.mRedownloadBufferLastHash)
    (h : verifyAndStore cfg s header = (true, s')) :
    Buffered cfg (received ++ [header]) released s' := by
  rw [verifyAndStore] at h
  split at h
  case isTrue =>
    split at h
    case isTrue =>
      cases h
      obtain ⟨commitments, heq⟩ := checkCommitment_snd cfg s header
      have hchecked : Buffered cfg received released (checkCommitment cfg s header).2 := by
        rw [heq]
        exact hinv.congr rfl rfl rfl rfl
      exact hchecked.storeHeader (by rw [heq]; exact hlink)
    case isFalse => simp at h
  case isFalse =>
    cases h
    exact hinv.storeHeader hlink

theorem Buffered.of_validateAndStoreRedownloadedHeader (hinv : Buffered cfg received released s)
    (h : validateAndStoreRedownloadedHeader cfg s header = some (true, s')) :
    Buffered cfg (received ++ [header]) released s' := by
  rw [validateAndStoreRedownloadedHeader, if_neg (not_not_intro hinv.phase)] at h
  split at h
  case isTrue => simp at h
  case isFalse hlink =>
    obtain ⟨permitted, -, h⟩ := Option.bind_eq_some_iff.mp h
    split at h
    case isTrue => simp at h
    case isFalse =>
      obtain ⟨proof, -, h⟩ := Option.map_eq_some_iff.mp h
      have hwork : Buffered cfg received released (addRedownloadWork cfg s proof) :=
        hinv.congr rfl rfl rfl rfl
      exact hwork.of_verifyAndStore (not_not.mp hlink) h

theorem popLoop_spec (redownloadBufferSize : Nat) (processAll : Bool)
    (buffer : List CompressedHeader) (prevHash : Uint256) :
    let popped := popLoop redownloadBufferSize processAll buffer prevHash
    popped.1 ++ fullHeaders popped.2.2 popped.2.1 = fullHeaders prevHash buffer ∧
      popped.2.2 = headersTip prevHash popped.1 := by
  induction buffer generalizing prevHash with
  | nil => exact ⟨rfl, rfl⟩
  | cons front buffer ih =>
    rw [popLoop]
    split
    case isTrue =>
      obtain ⟨hsplit, htip⟩ := ih (front.getFullHeader prevHash).getHash
      exact ⟨congrArg (front.getFullHeader prevHash :: ·) hsplit, htip⟩
    case isFalse => exact ⟨rfl, rfl⟩

theorem Buffered.popHeadersReadyForAcceptance (h : Buffered cfg received released s) :
    Buffered cfg received (released ++ (HeadersSyncState.popHeadersReadyForAcceptance cfg s).1)
      (HeadersSyncState.popHeadersReadyForAcceptance cfg s).2 := by
  obtain ⟨hsplit, htip⟩ := popLoop_spec cfg.params.redownloadBufferSize
    s.mProcessAllRemainingHeaders s.mRedownloadedHeaders s.mRedownloadBufferFirstPrevHash
  rw [HeadersSyncState.popHeadersReadyForAcceptance, if_neg (not_not_intro h.phase)]
  dsimp only
  constructor
  case phase => exact h.phase
  case received_connected => exact h.received_connected
  case restored => rw [List.append_assoc, hsplit, h.restored]
  case first_prev => rw [htip, headersTip, headersTip, tipHash_append, h.first_prev]
  case last => exact h.last

theorem Buffered.served (h : Buffered cfg received released s) : Served cfg received released :=
  ⟨received, List.prefix_rfl, h.received_connected, _, h.restored⟩

theorem Served.nil (cfg : HeadersSyncConfig) : Served cfg [] [] :=
  ⟨[], List.prefix_rfl, trivial, List.prefix_rfl⟩

theorem Served.append (h : Served cfg received released) (batch : List CBlockHeader) :
    Served cfg (received ++ batch) released := by
  obtain ⟨stored, hstored, hrest⟩ := h
  exact ⟨stored, hstored.trans (List.prefix_append received batch), hrest⟩

theorem RunInv.served (h : RunInv cfg received released s) : Served cfg received released := by
  rw [RunInv] at h
  split at h
  next =>
    obtain ⟨rfl, rfl⟩ := h
    exact Served.nil cfg
  next => exact h.served
  next => exact h

theorem RunInv.finalizeUnlessMore
    (hserved : Served cfg received (released ++ r.1.powValidatedHeaders))
    (hmore : r.1.success = true → RunInv cfg received (released ++ r.1.powValidatedHeaders) r.2) :
    RunInv cfg received (released ++ (finalizeUnlessMore r).1.powValidatedHeaders)
      (finalizeUnlessMore r).2 := by
  rw [HeadersSyncState.finalizeUnlessMore]
  split
  case isTrue h => exact hmore (Bool.and_eq_true_iff.mp h).1
  case isFalse => exact hserved

theorem Buffered.runInv (h : Buffered cfg received released s) :
    RunInv cfg received released s := by
  rw [RunInv, h.phase]
  exact h

theorem RunInv.processPresync (hs : s.mDownloadState = .presync)
    (h : processPresync cfg s headers full = some r) :
    r.1.powValidatedHeaders = [] ∧ (r.1.success = true → RunInv cfg [] [] r.2) := by
  obtain ⟨⟨accepted, t⟩, ht, rfl⟩ := Option.map_eq_some_iff.mp h
  refine ⟨rfl, fun haccepted => ?_⟩
  cases haccepted
  rcases validateAndStoreHeadersCommitments_accepted hs ht with hphase | ⟨t, rfl⟩
  · change RunInv cfg [] [] t
    rw [RunInv, hphase]
    exact ⟨rfl, rfl⟩
  · exact (Buffered.of_enterRedownload cfg t).runInv

theorem Buffered.processRedownload (hinv : Buffered cfg received released s)
    (h : processRedownload cfg s headers full = some r) :
    Served cfg (received ++ headers) (released ++ r.1.powValidatedHeaders) ∧
      (r.1.success = true →
        Buffered cfg (received ++ headers) (released ++ r.1.powValidatedHeaders) r.2) := by
  obtain ⟨⟨accepted, t⟩, ht, rfl⟩ := Option.map_eq_some_iff.mp h
  cases accepted with
  | false =>
    refine ⟨?_, fun haccepted => Bool.noConfusion haccepted⟩
    change Served cfg (received ++ headers) (released ++ [])
    rw [List.append_nil]
    exact hinv.served.append headers
  | true =>
    have hstored : Buffered cfg (received ++ headers) released t :=
      whileAccepted_accepted (fun done t => Buffered cfg done released t)
        (fun _ _ _ _ => Buffered.of_validateAndStoreRedownloadedHeader) received hinv ht
    exact ⟨hstored.popHeadersReadyForAcceptance.served,
      fun _ => hstored.popHeadersReadyForAcceptance⟩

theorem RunInv.processNextHeaders (hinv : RunInv cfg received released s)
    (h : processNextHeaders cfg s headers full = some r) :
    RunInv cfg (received ++ s.redownloaded headers) (released ++ r.1.powValidatedHeaders) r.2 := by
  rw [HeadersSyncState.processNextHeaders] at h
  split at h
  case isTrue hempty =>
    cases h
    have hnone : s.redownloaded headers = [] := by
      rw [redownloaded, List.isEmpty_iff.mp hempty, ite_self]
    simpa [hnone] using hinv
  case isFalse =>
    split at h
    next hphase =>
      obtain ⟨rfl, rfl⟩ : received = [] ∧ released = [] := by
        rw [RunInv, hphase] at hinv
        exact hinv
      obtain ⟨t, ht, rfl⟩ := Option.map_eq_some_iff.mp h
      obtain ⟨hnone, hmore⟩ := RunInv.processPresync hphase ht
      rw [redownloaded, if_neg (by simp [hphase])]
      refine RunInv.finalizeUnlessMore ?_ fun hsuccess => ?_
      · rw [hnone]
        exact Served.nil cfg
      · rw [hnone]
        exact hmore hsuccess
    next hphase =>
      rw [RunInv, hphase] at hinv
      obtain ⟨t, ht, rfl⟩ := Option.map_eq_some_iff.mp h
      obtain ⟨hserved, hmore⟩ := Buffered.processRedownload hinv ht
      rw [redownloaded, if_pos hphase]
      exact RunInv.finalizeUnlessMore hserved fun hsuccess => (hmore hsuccess).runInv
    next hphase =>
      cases h
      rw [redownloaded, if_neg (by simp [hphase])]
      simpa using hinv

theorem RunInv.of_start (h : start cfg find = some s) : RunInv cfg [] [] s := by
  obtain ⟨header, -, rfl⟩ := Option.map_eq_some_iff.mp h
  exact ⟨rfl, rfl⟩

theorem RunInv.foldlM {t t' : Trace} (hinv : RunInv cfg t.received t.released t.state)
    (h : messages.foldlM (Trace.next cfg) t = some t') :
    RunInv cfg t'.received t'.released t'.state := by
  induction messages generalizing t with
  | nil =>
    cases h
    exact hinv
  | cons message messages ih =>
    rw [List.foldlM_cons] at h
    obtain ⟨u, hu, hrest⟩ := Option.bind_eq_some_iff.mp h
    obtain ⟨r, hr, rfl⟩ := Option.map_eq_some_iff.mp hu
    exact ih (hinv.processNextHeaders hr) hrest

theorem served_of_run {t : Trace} (h : run cfg find messages = some t) :
    Served cfg t.received t.released := by
  obtain ⟨s, hstart, hrest⟩ := Option.bind_eq_some_iff.mp h
  have hinit : RunInv cfg (Trace.mk [] [] s).received (Trace.mk [] [] s).released s :=
    RunInv.of_start hstart
  exact (RunInv.foldlM hinit hrest).served

theorem Served.connected
    (h : Served cfg received released) : HeadersConnected cfg.chainStartHash released := by
  obtain ⟨stored, -, -, hreleased⟩ := h
  exact (connected_relink (fun _ _ => rfl) _ _ _).of_isPrefix hreleased

theorem Served.isPrefix
    (h : Served cfg received released) (hnull : ∀ header ∈ received, header.QuantumNull) :
    released <+: received := by
  obtain ⟨stored, hstored, hconnected, hreleased⟩ := h
  have hrestored : fullHeaders cfg.chainStartHash (stored.map CompressedHeader.ofHeader) = stored :=
    relink_map hconnected fun header hmem =>
      (CompressedHeader.getFullHeader_ofHeader header).trans
        ((CBlockHeader.clearQuantum_eq_self_iff header).mpr
          (hnull header (hstored.subset hmem)))
  rw [hrestored] at hreleased
  exact hreleased.trans hstored

/-- As long as no header with a quantum field set is received in the REDOWNLOAD phase,
the headers returned are the first of those received, connected to the chain start. -/
theorem released_isPrefix_received {cfg : HeadersSyncConfig} {find : BlockHeap}
    {messages : List (List CBlockHeader × Bool)} {t : Trace}
    (hrun : run cfg find messages = some t)
    (hnull : ∀ header ∈ t.received, header.QuantumNull) :
    t.released <+: t.received ∧ HeadersConnected cfg.chainStartHash t.released :=
  ⟨(served_of_run hrun).isPrefix hnull, (served_of_run hrun).connected⟩

def regtestSync : HeadersSyncConfig where
  consensusParams := consensusParams .regtest
  params := ⟨275, 7017⟩
  commitOffset := 0
  commitOffset_lt := by decide
  hasher := .ofKeys 0 0
  maxCommitments := 1
  chainStart := { phashBlock := some ({} : CBlockHeader).getHash }
  chainStartHash := ({} : CBlockHeader).getHash
  getBlockHash_chainStart := rfl
  minimumRequiredWork := BaseUint.zero

def resentHeader (nQuantumNonce : UInt32) : CBlockHeader where
  hashPrevBlock := ({} : CBlockHeader).getHash
  nTime := 1
  nQuantumNonce := nQuantumNonce

def resent (nQuantumNonce : UInt32) : List (List CBlockHeader × Bool) :=
  [([resentHeader nQuantumNonce], true), ([resentHeader nQuantumNonce], true)]

def resentPair : List CBlockHeader :=
  [resentHeader 0, { hashPrevBlock := (resentHeader 0).getHash, nTime := 2 }]

theorem released_isPrefix_received_regtest :
    ∃ t, run regtestSync (fun _ => none) [(resentPair, true), (resentPair, true)] = some t ∧
      t.released = resentPair ∧ t.released <+: t.received ∧
      HeadersConnected regtestSync.chainStartHash t.released := by
  have hrun : (run regtestSync (fun _ => none) [(resentPair, true), (resentPair, true)]).map
      (fun t => (t.received, t.released)) = some (resentPair, resentPair) := by
    decide +kernel
  obtain ⟨t, ht, heq⟩ := Option.map_eq_some_iff.mp hrun
  obtain ⟨hreceived, hreleased⟩ := Prod.mk.inj heq
  have hnull : ∀ header ∈ t.received, header.QuantumNull := by
    rw [hreceived]
    decide
  exact ⟨t, ht, hreleased, released_isPrefix_received ht hnull⟩

/-- The header comes back with another quantum nonce than it was received with. -/
theorem released_differ_from_received :
    ∃ t, run regtestSync (fun _ => none) (resent 1) = some t ∧
      t.received = [resentHeader 1] ∧ t.released = [resentHeader 0] ∧
      ¬ t.released <+: t.received := by
  have hrun : (run regtestSync (fun _ => none) (resent 1)).map
      (fun t => (t.received, t.released)) = some ([resentHeader 1], [resentHeader 0]) := by
    decide +kernel
  obtain ⟨t, ht, heq⟩ := Option.map_eq_some_iff.mp hrun
  obtain ⟨hreceived, hreleased⟩ := Prod.mk.inj heq
  refine ⟨t, ht, hreceived, hreleased, ?_⟩
  rw [hreceived, hreleased]
  simp [resentHeader]

end HeadersSyncState

end HcsCoin
