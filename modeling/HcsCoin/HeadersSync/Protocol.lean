import HcsCoin.HeadersSync

/-!
# Whole runs of the headers sync

What the PRESYNC phase has seen of a peer's chain before anything is released,
how much is kept in memory on the way, and what happens when the peer serves the
same chain once more: every batch is taken, and the headers up to the batch in
which the work is reached come out, in the form the buffer restores them to.
-/

namespace HcsCoin

open Foundation HeadersSyncConfig

/-! ## Chains of headers -/

def CBlockHeader.proof (header : CBlockHeader) : ArithUint256 :=
  (getBitsProof header.nBits).getD BaseUint.zero

theorem CBlockHeader.getBitsProof_eq (header : CBlockHeader) :
    getBitsProof header.nBits = some header.proof := by
  obtain ⟨proof, hproof⟩ := Option.isSome_iff_exists.mp (getBitsProof_isSome header.nBits)
  rw [CBlockHeader.proof, hproof]
  rfl

def chainWork (work : ArithUint256) (chain : List CBlockHeader) : ArithUint256 :=
  chain.foldl (fun work header => work.add header.proof) work

def lastBits (nBits : UInt32) (chain : List CBlockHeader) : UInt32 :=
  chain.foldl (fun _ header => header.nBits) nBits

/-- The difficulty transitions from a block of the given height and difficulty on. -/
def PermittedChain (params : Params) : Nat → UInt32 → List CBlockHeader → Prop
  | _, _, [] => True
  | height, nBits, header :: chain =>
    permittedDifficultyTransition params (height + 1) nBits header.nBits = some true ∧
      PermittedChain params (height + 1) header.nBits chain

def sent (messages : List (List CBlockHeader × Bool)) : List CBlockHeader :=
  messages.flatMap Prod.fst

namespace HeadersSyncConfig

variable (cfg : HeadersSyncConfig)

def commitmentsFrom : Nat → List CBlockHeader → List Bool
  | _, [] => []
  | height, header :: chain =>
    (if cfg.commitsAt (height + 1) then [cfg.commitment header] else []) ++
      commitmentsFrom (height + 1) chain

def reaches : ArithUint256 → List CBlockHeader → Bool
  | _, [] => false
  | work, header :: chain =>
    cfg.enoughWork (work.add header.proof) || reaches (work.add header.proof) chain

/-- A connected chain of permitted difficulty transitions with the minimum work. -/
structure Reached (chain : List CBlockHeader) : Prop where
  connected : HeadersConnected cfg.chainStartHash chain
  permitted : PermittedChain cfg.consensusParams cfg.chainStart.nHeight cfg.chainStart.nBits chain
  work : cfg.minimumRequiredWork.toNat ≤
    cfg.chainStart.nChainWork.toNat + (chain.map fun header => header.proof.toNat).sum

end HeadersSyncConfig

section Chains

variable {cfg : HeadersSyncConfig} {work : ArithUint256} {nBits : UInt32} {height : Nat}
  {chain rest : List CBlockHeader}

theorem chainWork_append (work : ArithUint256) (chain rest : List CBlockHeader) :
    chainWork work (chain ++ rest) = chainWork (chainWork work chain) rest := List.foldl_append

theorem lastBits_append (nBits : UInt32) (chain rest : List CBlockHeader) :
    lastBits nBits (chain ++ rest) = lastBits (lastBits nBits chain) rest := List.foldl_append

theorem permittedChain_append {params : Params} :
    PermittedChain params height nBits (chain ++ rest) ↔
      PermittedChain params height nBits chain ∧
        PermittedChain params (height + chain.length) (lastBits nBits chain) rest := by
  induction chain generalizing height nBits with
  | nil => simp [PermittedChain, lastBits]
  | cons header chain ih =>
    rw [List.cons_append, PermittedChain, PermittedChain, ih, and_assoc, List.length_cons,
      Nat.add_right_comm, Nat.add_assoc height]
    rfl

theorem commitmentsFrom_append :
    cfg.commitmentsFrom height (chain ++ rest) =
      cfg.commitmentsFrom height chain ++ cfg.commitmentsFrom (height + chain.length) rest := by
  induction chain generalizing height with
  | nil => rfl
  | cons header chain ih =>
    rw [List.cons_append, commitmentsFrom, commitmentsFrom,
      ih, List.append_assoc, List.length_cons, Nat.add_right_comm, Nat.add_assoc height]

theorem reaches_append :
    cfg.reaches work (chain ++ rest) =
      (cfg.reaches work chain || cfg.reaches (chainWork work chain) rest) := by
  induction chain generalizing work with
  | nil => rfl
  | cons header chain ih =>
    rw [List.cons_append, reaches, reaches, ih, Bool.or_assoc]
    rfl

theorem reaches_of_enoughWork (hne : chain ≠ [])
    (h : cfg.enoughWork (chainWork work chain) = true) : cfg.reaches work chain = true := by
  induction chain generalizing work with
  | nil => exact absurd rfl hne
  | cons header chain ih =>
    rw [reaches, Bool.or_eq_true]
    cases chain with
    | nil => exact .inl h
    | cons next chain => exact .inr (ih (List.cons_ne_nil _ _) h)

theorem toNat_chainWork_le (work : ArithUint256) (chain : List CBlockHeader) :
    (chainWork work chain).toNat ≤
      work.toNat + (chain.map fun header => header.proof.toNat).sum := by
  induction chain generalizing work with
  | nil => exact le_rfl
  | cons header chain ih =>
    have hadd : (work.add header.proof).toNat ≤ work.toNat + header.proof.toNat := by
      rw [BaseUint.toNat_add]
      exact Nat.mod_le _ _
    have hrest := ih (work.add header.proof)
    rw [List.map_cons, List.sum_cons]
    exact hrest.trans (by omega)

theorem le_of_enoughWork (h : cfg.enoughWork work = true) :
    cfg.minimumRequiredWork.toNat ≤ work.toNat := by
  simpa [enoughWork, BaseUint.compareTo_eq, Nat.compare_eq_lt] using h

theorem sent_append (messages rest : List (List CBlockHeader × Bool)) :
    sent (messages ++ rest) = sent messages ++ sent rest := List.flatMap_append

theorem sent_concat (messages : List (List CBlockHeader × Bool))
    (message : List CBlockHeader × Bool) :
    sent (messages ++ [message]) = sent messages ++ message.1 := by
  rw [sent_append]
  simp [sent]

end Chains

namespace HeadersSyncState

theorem whileAccepted_result {σ α : Type*} {step : σ → α → Option (Bool × σ)} {Inv Out : σ → Prop}
    (hout : ∀ s, Inv s → Out s)
    (hstep : ∀ s x r, Inv s → step s x = some r → (r.1 = true → Inv r.2) ∧ Out r.2)
    {batch : List α} {s : σ} {r : Bool × σ} (hinv : Inv s)
    (h : whileAccepted step s batch = some r) : (r.1 = true → Inv r.2) ∧ Out r.2 := by
  induction batch generalizing s with
  | nil =>
    obtain rfl := Option.some.inj h
    exact ⟨fun _ => hinv, hout s hinv⟩
  | cons x batch ih =>
    obtain ⟨t, ht, hrest⟩ := Option.bind_eq_some_iff.mp h
    obtain ⟨haccepted, hleft⟩ := hstep s x t hinv ht
    cases htrue : t.1 with
    | true =>
      rw [htrue, if_pos rfl] at hrest
      exact ih (haccepted htrue) hrest
    | false =>
      rw [htrue, if_neg Bool.false_ne_true] at hrest
      obtain rfl := Option.some.inj hrest
      exact ⟨nofun, hleft⟩

/-! ## PRESYNC -/

section Presync

variable {cfg : HeadersSyncConfig} {chain : List CBlockHeader} {s s' : HeadersSyncState}
  {header : CBlockHeader}

structure Presynced (cfg : HeadersSyncConfig) (chain : List CBlockHeader) (s : HeadersSyncState) :
    Prop where
  phase : s.mDownloadState = .presync
  work : s.mCurrentChainWork = chainWork cfg.chainStart.nChainWork chain
  bits : s.mLastHeaderReceived.nBits = lastBits cfg.chainStart.nBits chain
  last : s.mLastHeaderReceived.getHash = headersTip cfg.chainStartHash chain
  height : s.mCurrentHeight = cfg.chainStart.nHeight + chain.length
  commitments : s.mHeaderCommitments = cfg.commitmentsFrom cfg.chainStart.nHeight chain
  few : s.mHeaderCommitments.length ≤ cfg.maxCommitments
  permitted : PermittedChain cfg.consensusParams cfg.chainStart.nHeight cfg.chainStart.nBits chain
  buffer : s.mRedownloadedHeaders = []
  processAll : s.mProcessAllRemainingHeaders = false

theorem presynced_start {find : BlockHeap}
    (hhash : (cfg.chainStart.getBlockHeader find).map CBlockHeader.getHash =
      some cfg.chainStartHash) (h : start cfg find = some s) : Presynced cfg [] s := by
  obtain ⟨first, hfirst, rfl⟩ := Option.map_eq_some_iff.mp h
  obtain ⟨prevHash, -, hheader⟩ := Option.bind_eq_some_iff.mp hfirst
  obtain rfl := Option.some.inj hheader
  rw [hfirst] at hhash
  exact ⟨rfl, rfl, rfl, Option.some.inj hhash, rfl, rfl, Nat.zero_le _, trivial, rfl, rfl⟩

theorem recordHeader_eq (s : HeadersSyncState) (header : CBlockHeader) :
    s.recordHeader header = some (true, { s with
      mCurrentChainWork := s.mCurrentChainWork.add header.proof
      mLastHeaderReceived := header
      mCurrentHeight := s.mCurrentHeight + 1 }) := by
  rw [recordHeader, header.getBitsProof_eq]
  rfl

theorem validateAndProcessSingleHeader_accepted
    (h : validateAndProcessSingleHeader cfg s header = some (true, s')) :
    permittedDifficultyTransition cfg.consensusParams (s.mCurrentHeight + 1)
        s.mLastHeaderReceived.nBits header.nBits = some true ∧
      ∃ commitments, commitments = s.mHeaderCommitments ++
          (if cfg.commitsAt (s.mCurrentHeight + 1) then [cfg.commitment header] else []) ∧
        (s.mHeaderCommitments.length ≤ cfg.maxCommitments →
          commitments.length ≤ cfg.maxCommitments) ∧
        s' = { s with
          mHeaderCommitments := commitments
          mCurrentChainWork := s.mCurrentChainWork.add header.proof
          mLastHeaderReceived := header
          mCurrentHeight := s.mCurrentHeight + 1 } := by
  rw [validateAndProcessSingleHeader] at h
  split at h
  case isTrue => simp at h
  case isFalse =>
    obtain ⟨permitted, hpermitted, h⟩ := Option.bind_eq_some_iff.mp h
    cases permitted with
    | false => simp at h
    | true =>
      refine ⟨hpermitted, ?_⟩
      rw [Bool.not_true, if_neg Bool.false_ne_true] at h
      split at h
      case isTrue hcommits =>
        split at h
        case isTrue => simp at h
        case isFalse hfew =>
          rw [recordHeader_eq] at h
          refine ⟨_, rfl, fun _ => ?_, (Prod.mk.inj (Option.some.inj h)).2.symm.trans ?_⟩
          · rw [if_pos hcommits]
            exact Nat.not_lt.mp hfew
          · rw [if_pos hcommits]
            rfl
      case isFalse hcommits =>
        rw [recordHeader_eq] at h
        refine ⟨_, rfl, fun hfew => ?_, (Prod.mk.inj (Option.some.inj h)).2.symm.trans ?_⟩
        · rw [if_neg hcommits, List.append_nil]
          exact hfew
        · rw [if_neg hcommits, List.append_nil]

theorem Presynced.concat (h : Presynced cfg chain s)
    (hstep : validateAndProcessSingleHeader cfg s header = some (true, s')) :
    Presynced cfg (chain ++ [header]) s' := by
  obtain ⟨hpermitted, commitments, hcommitments, hfew, rfl⟩ :=
    validateAndProcessSingleHeader_accepted hstep
  rw [h.height, h.bits] at hpermitted
  constructor
  case phase => exact h.phase
  case work =>
    rw [chainWork_append, ← h.work]
    rfl
  case bits =>
    rw [lastBits_append]
    rfl
  case last =>
    rw [headersTip, tipHash_append]
    rfl
  case height =>
    change s.mCurrentHeight + 1 = _
    rw [h.height, List.length_append, Nat.add_assoc]
    rfl
  case commitments =>
    change commitments = _
    rw [hcommitments, h.commitments, h.height, commitmentsFrom_append]
    exact congrArg _ (List.append_nil _).symm
  case few => exact hfew h.few
  case permitted => exact permittedChain_append.mpr ⟨h.permitted, hpermitted, trivial⟩
  case buffer => exact h.buffer
  case processAll => exact h.processAll

theorem length_commitments_of_single {r : Bool × HeadersSyncState}
    (hfew : s.mHeaderCommitments.length ≤ cfg.maxCommitments)
    (h : validateAndProcessSingleHeader cfg s header = some r) :
    (r.1 = true → r.2.mHeaderCommitments.length ≤ cfg.maxCommitments) ∧
      r.2.mHeaderCommitments.length ≤ cfg.maxCommitments + 1 := by
  obtain ⟨accepted, s'⟩ := r
  cases accepted with
  | true =>
    obtain ⟨-, commitments, -, hle, rfl⟩ := validateAndProcessSingleHeader_accepted h
    exact ⟨fun _ => hle hfew, Nat.le_succ_of_le (hle hfew)⟩
  | false =>
    refine ⟨nofun, ?_⟩
    have hsame : ∀ {t}, some (false, t) = some (false, s') → t.mHeaderCommitments.length ≤
        cfg.maxCommitments + 1 → s'.mHeaderCommitments.length ≤ cfg.maxCommitments + 1 := by
      intro t heq hle
      rw [← (Prod.mk.inj (Option.some.inj heq)).2]
      exact hle
    rw [validateAndProcessSingleHeader] at h
    split at h
    case isTrue => exact hsame h (by omega)
    case isFalse =>
      obtain ⟨permitted, -, h⟩ := Option.bind_eq_some_iff.mp h
      split at h
      case isTrue => exact hsame h (by omega)
      case isFalse =>
        split at h
        case isTrue =>
          split at h
          case isTrue =>
            refine hsame h ?_
            rw [addCommitment, List.length_append]
            exact Nat.succ_le_succ hfew
          case isFalse =>
            rw [recordHeader_eq] at h
            cases h
        case isFalse =>
          rw [recordHeader_eq] at h
          cases h

theorem Presynced.batch (h : Presynced cfg chain s)
    (hchain : HeadersConnected cfg.chainStartHash chain) {batch : List CBlockHeader}
    (hbatch : ∃ prev, HeadersConnected prev batch)
    (hstep : validateAndStoreHeadersCommitments cfg s batch = some (true, s')) :
    HeadersConnected cfg.chainStartHash (chain ++ batch) ∧
      (Presynced cfg (chain ++ batch) s' ∨ ∃ t, Presynced cfg (chain ++ batch) t ∧
        cfg.enoughWork t.mCurrentChainWork = true ∧ batch ≠ [] ∧ s' = enterRedownload cfg t) := by
  cases batch with
  | nil =>
    obtain rfl := (Prod.mk.inj (Option.some.inj hstep)).2
    rw [List.append_nil]
    exact ⟨hchain, .inl h⟩
  | cons first rest =>
    rw [validateAndStoreHeadersCommitments, if_neg (not_not_intro h.phase)] at hstep
    split at hstep
    case isTrue => simp at hstep
    case isFalse hlink =>
      obtain ⟨prev, -, hrest⟩ := hbatch
      refine ⟨(connected_append ..).mpr ⟨hchain, (not_not.mp hlink).trans h.last, hrest⟩, ?_⟩
      obtain ⟨⟨accepted, t⟩, ht, hdone⟩ := Option.map_eq_some_iff.mp hstep
      cases accepted with
      | false => simp at hdone
      | true =>
        have hpresynced : Presynced cfg (chain ++ first :: rest) t :=
          whileAccepted_accepted (Presynced cfg) (fun _ _ _ _ => Presynced.concat) chain h ht
        split at hdone
        case isTrue henough =>
          exact .inr ⟨t, hpresynced, henough, List.cons_ne_nil _ _, (Prod.mk.inj hdone).2.symm⟩
        case isFalse =>
          rw [← (Prod.mk.inj hdone).2]
          exact .inl hpresynced

theorem buffer_of_validateAndStoreHeadersCommitments {batch : List CBlockHeader}
    (hs : s.mRedownloadedHeaders = [])
    (h : validateAndStoreHeadersCommitments cfg s batch = some (true, s')) :
    s'.mRedownloadedHeaders = [] := by
  cases batch with
  | nil =>
    obtain rfl := (Prod.mk.inj (Option.some.inj h)).2
    exact hs
  | cons first rest =>
    rw [validateAndStoreHeadersCommitments] at h
    split at h
    case isTrue => simp at h
    case isFalse =>
      split at h
      case isTrue => simp at h
      case isFalse =>
        obtain ⟨⟨accepted, t⟩, ht, hdone⟩ := Option.map_eq_some_iff.mp h
        cases accepted with
        | false => simp at hdone
        | true =>
          have hbuffer : t.mRedownloadedHeaders = [] :=
            whileAccepted_accepted (fun _ t => t.mRedownloadedHeaders = [])
              (fun _ s header s' hinv hstep => by
                obtain ⟨-, commitments, -, -, rfl⟩ := validateAndProcessSingleHeader_accepted hstep
                exact hinv) [] hs ht
          split at hdone
          case isTrue =>
            rw [← (Prod.mk.inj hdone).2]
            rfl
          case isFalse =>
            rw [← (Prod.mk.inj hdone).2]
            exact hbuffer

theorem Presynced.reached (h : Presynced cfg chain s)
    (hchain : HeadersConnected cfg.chainStartHash chain)
    (henough : cfg.enoughWork s.mCurrentChainWork = true) : cfg.Reached chain := by
  refine ⟨hchain, h.permitted, (le_of_enoughWork henough).trans ?_⟩
  rw [h.work]
  exact toNat_chainWork_le _ _

end Presync

/-! ## REDOWNLOAD -/

section Redownload

variable {cfg : HeadersSyncConfig} {chain done rest released : List CBlockHeader}
  {s s' : HeadersSyncState} {header : CBlockHeader} {r : Bool × HeadersSyncState}

/-- What a header does not change in the REDOWNLOAD phase: commitments are only used up. -/
structure Keeps (s s' : HeadersSyncState) : Prop where
  phase : s'.mDownloadState = s.mDownloadState
  commitments : s'.mHeaderCommitments.length ≤ s.mHeaderCommitments.length

theorem Keeps.rfl (s : HeadersSyncState) : Keeps s s := ⟨Eq.refl _, le_refl _⟩

theorem keeps_checkCommitment (cfg : HeadersSyncConfig) (s : HeadersSyncState)
    (header : CBlockHeader) : Keeps s (checkCommitment cfg s header).2 := by
  rw [checkCommitment]
  split
  case h_1 => exact .rfl s
  case h_2 expected commitments heq =>
    refine ⟨Eq.refl _, ?_⟩
    rw [heq]
    exact Nat.le_succ _

theorem keeps_validateAndStoreRedownloadedHeader
    (h : validateAndStoreRedownloadedHeader cfg s header = some r) : Keeps s r.2 := by
  rw [validateAndStoreRedownloadedHeader] at h
  split at h
  case isTrue => exact Option.some.inj h ▸ .rfl s
  case isFalse =>
    split at h
    case isTrue => exact Option.some.inj h ▸ .rfl s
    case isFalse =>
      obtain ⟨permitted, -, h⟩ := Option.bind_eq_some_iff.mp h
      split at h
      case isTrue => exact Option.some.inj h ▸ .rfl s
      case isFalse =>
        obtain ⟨proof, -, rfl⟩ := Option.map_eq_some_iff.mp h
        obtain ⟨hphase, hcommitments⟩ :=
          keeps_checkCommitment cfg (addRedownloadWork cfg s proof) header
        rw [verifyAndStore]
        split
        case isTrue => split <;> exact ⟨hphase, hcommitments⟩
        case isFalse => exact ⟨Eq.refl _, le_refl _⟩

theorem keeps_whileAccepted {batch : List CBlockHeader}
    (h : whileAccepted (validateAndStoreRedownloadedHeader cfg) s batch = some r) :
    Keeps s r.2 := by
  refine (@whileAccepted_result _ _ (validateAndStoreRedownloadedHeader cfg) (Keeps s) (Keeps s)
    (fun _ h => h) (fun t header r ht hstep => ?_) batch s r (.rfl s) h).2
  have hkeeps := keeps_validateAndStoreRedownloadedHeader hstep
  have hboth : Keeps s r.2 := ⟨hkeeps.phase.trans ht.phase, hkeeps.commitments.trans ht.commitments⟩
  exact ⟨fun _ => hboth, hboth⟩

variable (redownloadBufferSize : Nat) (processAll : Bool) (buffer : List CompressedHeader)
  (prevHash : Uint256)

theorem popLoop_buffer :
    (popLoop redownloadBufferSize processAll buffer prevHash).2.1 =
      if processAll then [] else buffer.drop (buffer.length - redownloadBufferSize) := by
  induction buffer generalizing prevHash with
  | nil => simp [popLoop]
  | cons front buffer ih =>
    rw [popLoop]
    cases processAll with
    | true => simpa using ih _
    | false =>
      rw [Bool.or_false]
      split
      case isTrue hlong =>
        have hlt : redownloadBufferSize ≤ buffer.length := by simpa using hlong
        dsimp only
        rw [ih, List.length_cons, Nat.succ_sub hlt]
        rfl
      case isFalse hshort =>
        have hle : buffer.length + 1 ≤ redownloadBufferSize := by simpa using hshort
        simp [Nat.sub_eq_zero_of_le hle]

theorem length_popLoop_le :
    (popLoop redownloadBufferSize processAll buffer prevHash).2.1.length ≤
      redownloadBufferSize := by
  rw [popLoop_buffer]
  split
  case isTrue => exact Nat.zero_le _
  case isFalse =>
    rw [List.length_drop]
    omega

theorem keeps_popHeadersReadyForAcceptance (cfg : HeadersSyncConfig) (s : HeadersSyncState) :
    Keeps s (popHeadersReadyForAcceptance cfg s).2 := by
  rw [popHeadersReadyForAcceptance]
  split
  case isTrue => exact .rfl s
  case isFalse => exact ⟨Eq.refl _, le_refl _⟩

theorem length_popHeadersReadyForAcceptance_le (hphase : s.mDownloadState = .redownload) :
    (popHeadersReadyForAcceptance cfg s).2.mRedownloadedHeaders.length ≤
      cfg.params.redownloadBufferSize := by
  rw [popHeadersReadyForAcceptance, if_neg (not_not_intro hphase)]
  exact length_popLoop_le _ _ _ _

structure Reserving (cfg : HeadersSyncConfig) (done rest released : List CBlockHeader)
    (s : HeadersSyncState) : Prop where
  buffered : Buffered cfg done released s
  height : s.mRedownloadBufferLastHeight = cfg.chainStart.nHeight + done.length
  work : s.mRedownloadChainWork = chainWork cfg.chainStart.nChainWork done
  bits : previousBits cfg s = lastBits cfg.chainStart.nBits done
  processAll : s.mProcessAllRemainingHeaders = cfg.reaches cfg.chainStart.nChainWork done
  commitments : s.mProcessAllRemainingHeaders = false →
    s.mHeaderCommitments = cfg.commitmentsFrom (cfg.chainStart.nHeight + done.length) rest

theorem Presynced.reserving (h : Presynced cfg chain s) :
    Reserving cfg [] chain [] (enterRedownload cfg s) :=
  ⟨Buffered.of_enterRedownload cfg s, rfl, rfl, rfl, h.processAll, fun _ => h.commitments⟩

theorem previousBits_storeHeader (s : HeadersSyncState) (header : CBlockHeader) :
    previousBits cfg (s.storeHeader header) = header.nBits := by
  rw [previousBits, storeHeader]
  simp [CompressedHeader.ofHeader]

theorem exists_verifyAndStore (hcommitments : s.mProcessAllRemainingHeaders = false →
      s.mHeaderCommitments = cfg.commitmentsFrom s.mRedownloadBufferLastHeight (header :: rest)) :
    ∃ commitments,
      verifyAndStore cfg s header =
        (true, { s with mHeaderCommitments := commitments }.storeHeader header) ∧
      (s.mProcessAllRemainingHeaders = false →
        commitments = cfg.commitmentsFrom (s.mRedownloadBufferLastHeight + 1) rest) := by
  rw [verifyAndStore]
  split
  case isTrue hchecked =>
    rw [Bool.and_eq_true, Bool.not_eq_true'] at hchecked
    have hqueue := hcommitments hchecked.1
    rw [commitmentsFrom, if_pos hchecked.2, List.singleton_append] at hqueue
    have hcheck : checkCommitment cfg s header = (true, { s with
        mHeaderCommitments := cfg.commitmentsFrom (s.mRedownloadBufferLastHeight + 1) rest }) := by
      rw [checkCommitment, hqueue]
      simp
    refine ⟨_, ?_, fun _ => rfl⟩
    rw [hcheck]
    rfl
  case isFalse hunchecked =>
    refine ⟨s.mHeaderCommitments, rfl, fun hall => ?_⟩
    rw [hall] at hunchecked
    have hcommits : cfg.commitsAt (s.mRedownloadBufferLastHeight + 1) = false := by
      simpa using hunchecked
    rw [hcommitments hall, commitmentsFrom, hcommits]
    rfl

theorem Reserving.concat (h : Reserving cfg done (header :: rest) released s)
    (hchain : HeadersConnected cfg.chainStartHash (done ++ header :: rest))
    (hpermitted : PermittedChain cfg.consensusParams cfg.chainStart.nHeight cfg.chainStart.nBits
      (done ++ header :: rest)) :
    ∃ s', validateAndStoreRedownloadedHeader cfg s header = some (true, s') ∧
      Reserving cfg (done ++ [header]) rest released s' := by
  have hlink : header.hashPrevBlock = s.mRedownloadBufferLastHash := by
    rw [h.buffered.last]
    exact ((connected_append ..).mp hchain).2.1
  have htransition := (permittedChain_append.mp hpermitted).2.1
  rw [← h.height, ← h.bits] at htransition
  obtain ⟨commitments, hverify, hcommitments⟩ :=
    @exists_verifyAndStore cfg rest (addRedownloadWork cfg s header.proof) header fun hall => by
      have hbefore : s.mProcessAllRemainingHeaders = false := (Bool.or_eq_false_iff.mp hall).1
      change s.mHeaderCommitments = cfg.commitmentsFrom s.mRedownloadBufferLastHeight _
      rw [h.commitments hbefore, h.height]
  have hstep : validateAndStoreRedownloadedHeader cfg s header = some (true,
      { addRedownloadWork cfg s header.proof with
        mHeaderCommitments := commitments }.storeHeader header) := by
    rw [validateAndStoreRedownloadedHeader, if_neg (not_not_intro h.buffered.phase),
      if_neg (not_not_intro hlink), htransition, header.getBitsProof_eq, ← hverify]
    rfl
  have hlength : cfg.chainStart.nHeight + (done ++ [header]).length =
      s.mRedownloadBufferLastHeight + 1 := by
    rw [h.height, List.length_append, Nat.add_assoc]
    rfl
  refine ⟨_, hstep, h.buffered.of_validateAndStoreRedownloadedHeader hstep, hlength.symm, ?_, ?_,
    ?_, fun hall => ?_⟩
  · rw [chainWork_append, ← h.work]
    rfl
  · rw [previousBits_storeHeader, lastBits_append]
    rfl
  · change (s.mProcessAllRemainingHeaders ||
      cfg.enoughWork (s.mRedownloadChainWork.add header.proof)) = _
    rw [reaches_append, h.processAll, h.work]
    simp [reaches]
  · rw [hlength]
    exact hcommitments hall

theorem Reserving.batch {batch : List CBlockHeader}
    (h : Reserving cfg done (batch ++ rest) released s)
    (hchain : HeadersConnected cfg.chainStartHash (done ++ (batch ++ rest)))
    (hpermitted : PermittedChain cfg.consensusParams cfg.chainStart.nHeight cfg.chainStart.nBits
      (done ++ (batch ++ rest))) :
    ∃ s', whileAccepted (validateAndStoreRedownloadedHeader cfg) s batch = some (true, s') ∧
      Reserving cfg (done ++ batch) rest released s' := by
  induction batch generalizing done s with
  | nil =>
    rw [List.append_nil]
    exact ⟨s, rfl, h⟩
  | cons header batch ih =>
    obtain ⟨t, hstep, ht⟩ := h.concat hchain hpermitted
    rw [List.cons_append, ← List.singleton_append, ← List.append_assoc] at hchain hpermitted
    obtain ⟨s', hrest, hs'⟩ := ih ht hchain hpermitted
    refine ⟨s', ?_, ?_⟩
    · rw [whileAccepted, hstep]
      exact hrest
    · rw [← List.singleton_append, ← List.append_assoc]
      exact hs'

theorem Reserving.pop (hsize : 0 < cfg.params.redownloadBufferSize)
    (h : Reserving cfg done rest released s)
    (hall : cfg.reaches cfg.chainStart.nChainWork done = false) :
    Reserving cfg done rest (released ++ (popHeadersReadyForAcceptance cfg s).1)
      (popHeadersReadyForAcceptance cfg s).2 := by
  have hprocess := h.processAll.trans hall
  have hpopped : (popHeadersReadyForAcceptance cfg s).2.mRedownloadedHeaders =
      s.mRedownloadedHeaders.drop
        (s.mRedownloadedHeaders.length - cfg.params.redownloadBufferSize) := by
    rw [popHeadersReadyForAcceptance, if_neg (not_not_intro h.buffered.phase)]
    dsimp only
    rw [popLoop_buffer, hprocess, if_neg Bool.false_ne_true]
  have hbits : previousBits cfg (popHeadersReadyForAcceptance cfg s).2 = previousBits cfg s := by
    rw [previousBits, previousBits, hpopped, List.getLast?_drop]
    by_cases hnil : s.mRedownloadedHeaders = []
    case pos => simp [hnil]
    case neg =>
      have hpos := List.length_pos_of_ne_nil hnil
      rw [if_neg (by omega)]
  have hsame : ∃ buffer first, (popHeadersReadyForAcceptance cfg s).2 = { s with
      mRedownloadedHeaders := buffer, mRedownloadBufferFirstPrevHash := first } := by
    rw [popHeadersReadyForAcceptance, if_neg (not_not_intro h.buffered.phase)]
    exact ⟨_, _, rfl⟩
  have hbuffered := h.buffered.popHeadersReadyForAcceptance
  obtain ⟨buffer, first, heq⟩ := hsame
  rw [heq] at hbuffered hbits ⊢
  exact ⟨hbuffered, h.height, h.work, hbits.trans h.bits, h.processAll, h.commitments⟩

theorem Reserving.released_eq (h : Reserving cfg done rest released s)
    (hall : cfg.reaches cfg.chainStart.nChainWork done = true) :
    released ++ (popHeadersReadyForAcceptance cfg s).1 =
        fullHeaders cfg.chainStartHash (done.map CompressedHeader.ofHeader) ∧
      (popHeadersReadyForAcceptance cfg s).2.mRedownloadedHeaders = [] ∧
      (popHeadersReadyForAcceptance cfg s).2.mProcessAllRemainingHeaders = true := by
  have hprocess := h.processAll.trans hall
  have hrestored := h.buffered.popHeadersReadyForAcceptance.restored
  have hempty : (popHeadersReadyForAcceptance cfg s).2.mRedownloadedHeaders = [] := by
    rw [popHeadersReadyForAcceptance, if_neg (not_not_intro h.buffered.phase)]
    dsimp only
    rw [popLoop_buffer, hprocess, if_pos rfl]
  refine ⟨?_, hempty, ?_⟩
  · rw [hempty] at hrestored
    rw [← hrestored]
    exact (List.append_nil _).symm
  · rw [popHeadersReadyForAcceptance, if_neg (not_not_intro h.buffered.phase)]
    exact hprocess

end Redownload

/-! ## Runs -/

section Runs

variable {cfg : HeadersSyncConfig} {find : BlockHeap} {done rest released : List CBlockHeader}
  {s : HeadersSyncState} {messages : List (List CBlockHeader × Bool)} {t : Trace}
  {r : ProcessingResult × HeadersSyncState} {message : List CBlockHeader × Bool}
  {headers : List CBlockHeader}

def responses (cfg : HeadersSyncConfig) : HeadersSyncState → List (List CBlockHeader × Bool) →
    Option (List ProcessingResult × HeadersSyncState)
  | s, [] => some ([], s)
  | s, message :: messages => do
    let r ← processNextHeaders cfg s message.1 message.2
    let replies ← responses cfg r.2 messages
    some (r.1 :: replies.1, replies.2)

theorem processNextHeaders_redownload {full : Bool} {s' : HeadersSyncState}
    (hphase : s.mDownloadState = .redownload) (hne : headers ≠ [])
    (h : whileAccepted (validateAndStoreRedownloadedHeader cfg) s headers = some (true, s')) :
    processNextHeaders cfg s headers full =
      some (finalizeUnlessMore (releaseHeaders cfg s' full)) := by
  rw [processNextHeaders, if_neg (by simpa using hne), hphase]
  dsimp only
  rw [processRedownload, h]
  rfl

/-- The batches of a chain that is served again are taken one by one, until the work is
reached. -/
theorem Reserving.exists_responses (hsize : 0 < cfg.params.redownloadBufferSize)
    (h : Reserving cfg done rest released s)
    (hchain : HeadersConnected cfg.chainStartHash (done ++ rest))
    (hpermitted : PermittedChain cfg.consensusParams cfg.chainStart.nHeight cfg.chainStart.nBits
      (done ++ rest)) (hsame : sent messages = rest) (hne : ∀ message ∈ messages, message.1 ≠ [])
    (hfull : ∀ message ∈ messages.dropLast, message.2 = true)
    (hbefore : cfg.reaches cfg.chainStart.nChainWork done = false)
    (hreaches : cfg.reaches cfg.chainStart.nChainWork (done ++ rest) = true) :
    ∃ before batch after replies s', messages = before ++ batch :: after ∧
      cfg.reaches cfg.chainStart.nChainWork (done ++ sent before) = false ∧
      cfg.reaches cfg.chainStart.nChainWork (done ++ sent (before ++ [batch])) = true ∧
      responses cfg s (before ++ [batch]) = some (replies, s') ∧
      (∀ reply ∈ replies, reply.success = true) ∧ s'.mDownloadState = .final ∧
      released ++ replies.flatMap ProcessingResult.powValidatedHeaders =
        fullHeaders cfg.chainStartHash
          ((done ++ sent (before ++ [batch])).map CompressedHeader.ofHeader) := by
  induction messages generalizing done rest released s with
  | nil =>
    rw [← hsame, show sent [] = [] from rfl, List.append_nil, hbefore] at hreaches
    cases hreaches
  | cons message messages ih =>
    have hrest : rest = message.1 ++ sent messages := by
      rw [← hsame]
      rfl
    rw [hrest] at h hchain hpermitted hreaches
    obtain ⟨t, hloop, ht⟩ := h.batch hchain hpermitted
    have hprocess := @processNextHeaders_redownload cfg s message.1 message.2 t
      h.buffered.phase (hne message List.mem_cons_self) hloop
    rw [← List.append_assoc] at hchain hpermitted hreaches
    cases hall : cfg.reaches cfg.chainStart.nChainWork (done ++ message.1) with
    | true =>
      obtain ⟨hreleased, hempty, hprocessAll⟩ := ht.released_eq hall
      have hresponse : processNextHeaders cfg s message.1 message.2 =
          some (⟨(popHeadersReadyForAcceptance cfg t).1, true, false⟩,
            (popHeadersReadyForAcceptance cfg t).2.finalize) := by
        rw [hprocess, releaseHeaders, hempty, hprocessAll, finalizeUnlessMore]
        simp
      refine ⟨[], message, messages, [⟨(popHeadersReadyForAcceptance cfg t).1, true, false⟩],
        (popHeadersReadyForAcceptance cfg t).2.finalize, rfl, by simpa [sent] using hbefore,
        by simpa [sent] using hall, ?_, by simp, rfl, ?_⟩
      · simp only [List.nil_append, responses, hresponse, some_bind]
      · simpa [sent] using hreleased
    | false =>
      have hmore : messages ≠ [] := by
        rintro rfl
        rw [show sent [] = [] from rfl, List.append_nil, hall] at hreaches
        cases hreaches
      have hmessage : message.2 = true := by
        refine hfull message ?_
        rw [List.dropLast_cons_of_ne_nil hmore]
        exact List.mem_cons_self
      have hpopped := ht.pop hsize hall
      have hresponse : processNextHeaders cfg s message.1 message.2 =
          some (⟨(popHeadersReadyForAcceptance cfg t).1, true, true⟩,
            (popHeadersReadyForAcceptance cfg t).2) := by
        rw [hprocess, releaseHeaders, hpopped.processAll, hall, finalizeUnlessMore, hmessage]
        simp
      obtain ⟨before, batch, after, replies, s', hsplit, hnot, hyes, hreplies, hsuccess, hfinal,
          hrestored⟩ := ih hpopped hchain hpermitted rfl
        (List.forall_mem_cons.mp hne).2
        (fun m hm => hfull m (by
          rw [List.dropLast_cons_of_ne_nil hmore]
          exact List.mem_cons_of_mem _ hm)) hall hreaches
      have hsent : ∀ ms, sent (message :: ms) = message.1 ++ sent ms := fun _ => rfl
      refine ⟨message :: before, batch, after,
        ⟨(popHeadersReadyForAcceptance cfg t).1, true, true⟩ :: replies, s',
        by rw [hsplit]; rfl, ?_, ?_, ?_, ?_, hfinal, ?_⟩
      · rw [hsent, ← List.append_assoc]
        exact hnot
      · rw [List.cons_append, hsent, ← List.append_assoc]
        exact hyes
      · simp only [List.cons_append, responses, hresponse, hreplies, some_bind]
      · intro reply hreply
        obtain rfl | hreply := List.mem_cons.mp hreply
        · rfl
        · exact hsuccess reply hreply
      · rw [List.flatMap_cons, ← List.append_assoc, hrestored, List.cons_append, hsent,
          ← List.append_assoc]

theorem fullHeaders_eq_iff {chain : List CBlockHeader}
    (hchain : HeadersConnected cfg.chainStartHash chain) :
    fullHeaders cfg.chainStartHash (chain.map CompressedHeader.ofHeader) = chain ↔
      ∀ header ∈ chain, header.QuantumNull := by
  have hnull : ∀ start (buffer : List CompressedHeader),
      ∀ header ∈ fullHeaders start buffer, header.QuantumNull := by
    intro start buffer
    induction buffer generalizing start with
    | nil => nofun
    | cons front buffer ih =>
      intro header hmem
      obtain rfl | hmem := List.mem_cons.mp hmem
      · exact ⟨rfl, rfl⟩
      · exact ih _ header hmem
  constructor
  · intro heq header hmem
    rw [← heq] at hmem
    exact hnull _ _ header hmem
  · intro hall
    exact relink_map hchain fun header hmem =>
      (CompressedHeader.getFullHeader_ofHeader header).trans
        ((CBlockHeader.clearQuantum_eq_self_iff header).mpr (hall header hmem))

def Entered (cfg : HeadersSyncConfig) (find : BlockHeap)
    (messages : List (List CBlockHeader × Bool)) : Prop :=
  ∃ presync t, presync <+: messages ∧ run cfg find presync = some t ∧ t.released = [] ∧
    cfg.Reached (sent presync)

theorem Entered.append (h : Entered cfg find messages)
    (more : List (List CBlockHeader × Bool)) : Entered cfg find (messages ++ more) := by
  obtain ⟨presync, t, hprefix, hrest⟩ := h
  exact ⟨presync, t, hprefix.trans (List.prefix_append _ _), hrest⟩

def Fresh (cfg : HeadersSyncConfig) (chain : List CBlockHeader) (s : HeadersSyncState) : Prop :=
  ∃ presynced, Presynced cfg chain presynced ∧ HeadersConnected cfg.chainStartHash chain ∧
    chain ≠ [] ∧ cfg.enoughWork presynced.mCurrentChainWork = true ∧
    s = enterRedownload cfg presynced

def ProtocolInv (cfg : HeadersSyncConfig) (find : BlockHeap)
    (messages : List (List CBlockHeader × Bool)) (t : Trace) : Prop :=
  match t.state.mDownloadState with
  | .presync => t.received = [] ∧ t.released = [] ∧
      HeadersConnected cfg.chainStartHash (sent messages) ∧ Presynced cfg (sent messages) t.state
  | .redownload => Entered cfg find messages ∧
      t.state.mHeaderCommitments.length ≤ cfg.maxCommitments ∧
      (t.received = [] → Fresh cfg (sent messages) t.state)
  | .final => (t.released ≠ [] → Entered cfg find messages) ∧ t.state.mHeaderCommitments = []

theorem run_concat (cfg : HeadersSyncConfig) (find : BlockHeap)
    (messages : List (List CBlockHeader × Bool)) (message : List CBlockHeader × Bool) :
    run cfg find (messages ++ [message]) =
      (run cfg find messages).bind fun t => Trace.next cfg t message := by
  rw [run, run]
  cases start cfg find with
  | none => rfl
  | some s =>
    rw [Option.bind_some, Option.bind_some, List.foldlM_append]
    congr 1
    funext t
    simp

theorem ProtocolInv.presync
    (hconnected : ∃ prev, HeadersConnected prev message.1)
    (hphase : t.state.mDownloadState = .presync)
    (hinv : ProtocolInv cfg find messages t)
    (hnext : run cfg find (messages ++ [message]) =
      some ⟨t.received, t.released ++ r.1.powValidatedHeaders, r.2⟩)
    (h : (processPresync cfg t.state message.1 message.2).map finalizeUnlessMore = some r) :
    ProtocolInv cfg find (messages ++ [message])
      ⟨t.received, t.released ++ r.1.powValidatedHeaders, r.2⟩ := by
  rw [ProtocolInv, hphase] at hinv
  obtain ⟨hreceived, hreleased, hchain, hpresynced⟩ := hinv
  obtain ⟨r', hr', rfl⟩ := Option.map_eq_some_iff.mp h
  obtain ⟨⟨accepted, s'⟩, hbatch, rfl⟩ := Option.map_eq_some_iff.mp hr'
  have hnone : (finalizeUnlessMore (({ success := accepted, requestMore := accepted && (message.2 ||
      s'.mDownloadState == .redownload) } : ProcessingResult), s')).1.powValidatedHeaders = [] := by
    rw [finalizeUnlessMore]
    split <;> rfl
  dsimp only at hnext ⊢
  rw [hnone, List.append_nil] at hnext ⊢
  rw [finalizeUnlessMore] at hnext ⊢
  split
  case isFalse => exact ⟨fun hne => absurd hreleased hne, rfl⟩
  case isTrue hmore =>
    rw [if_pos hmore] at hnext
    cases accepted with
    | false => cases hmore
    | true =>
      obtain ⟨hchain', hcase⟩ := hpresynced.batch hchain hconnected hbatch
      rw [← sent_concat messages message] at hchain' hcase
      obtain hpresynced' | ⟨presynced, hpresynced', henough, hne, rfl⟩ := hcase
      · rw [ProtocolInv, hpresynced'.phase]
        exact ⟨hreceived, hreleased, hchain', hpresynced'⟩
      · refine ⟨⟨_, _, List.prefix_rfl, hnext, hreleased,
          hpresynced'.reached hchain' henough⟩, hpresynced'.few, fun _ =>
          ⟨presynced, hpresynced', hchain', ?_, henough, rfl⟩⟩
        rw [sent_concat]
        exact List.append_ne_nil_of_right_ne_nil _ hne

theorem ProtocolInv.next {t' : Trace} (hconnected : ∃ prev, HeadersConnected prev message.1)
    (hrun : run cfg find messages = some t) (hinv : ProtocolInv cfg find messages t)
    (h : Trace.next cfg t message = some t') : ProtocolInv cfg find (messages ++ [message]) t' := by
  have hnext : run cfg find (messages ++ [message]) = some t' := by
    rw [run_concat, hrun]
    exact h
  obtain ⟨r, hr, rfl⟩ := Option.map_eq_some_iff.mp h
  rw [processNextHeaders] at hr
  split at hr
  case isTrue hempty =>
    obtain rfl := Option.some.inj hr
    have hnil : message.1 = [] := List.isEmpty_iff.mp hempty
    have hsent : sent (messages ++ [message]) = sent messages := by
      rw [sent_concat, hnil, List.append_nil]
    have hnone : t.state.redownloaded message.1 = [] := by rw [redownloaded, hnil, ite_self]
    dsimp only
    rw [hnone, List.append_nil, List.append_nil]
    rw [ProtocolInv] at hinv ⊢
    rw [hsent]
    cases hphase : t.state.mDownloadState with
    | presync =>
      rw [hphase] at hinv
      exact hinv
    | redownload =>
      rw [hphase] at hinv
      exact ⟨hinv.1.append _, hinv.2⟩
    | final =>
      rw [hphase] at hinv
      exact ⟨fun hne => (hinv.1 hne).append _, hinv.2⟩
  case isFalse hne =>
    cases hphase : t.state.mDownloadState with
    | presync =>
      rw [hphase] at hr
      rw [redownloaded, if_neg (by simp [hphase]), List.append_nil] at hnext ⊢
      exact ProtocolInv.presync hconnected hphase hinv hnext hr
    | redownload =>
      rw [hphase] at hr
      rw [ProtocolInv, hphase] at hinv
      obtain ⟨hentered, hfew, -⟩ := hinv
      obtain ⟨r', hr', rfl⟩ := Option.map_eq_some_iff.mp hr
      obtain ⟨⟨accepted, s'⟩, hloop, rfl⟩ := Option.map_eq_some_iff.mp hr'
      rw [redownloaded, if_pos hphase]
      have hreceived : t.received ++ message.1 ≠ [] :=
        List.append_ne_nil_of_right_ne_nil _ (by simpa using hne)
      have hkeeps := keeps_whileAccepted hloop
      cases accepted with
      | false => exact ⟨fun _ => hentered.append _, rfl⟩
      | true =>
        dsimp only at hkeeps ⊢
        rw [if_pos rfl, finalizeUnlessMore]
        split
        case isFalse => exact ⟨fun _ => hentered.append _, rfl⟩
        case isTrue =>
          have hpopped := keeps_popHeadersReadyForAcceptance cfg s'
          rw [ProtocolInv, releaseHeaders]
          dsimp only
          rw [hpopped.phase, hkeeps.phase, hphase]
          exact ⟨hentered.append _, hpopped.commitments.trans (hkeeps.commitments.trans hfew),
            fun hnil => absurd hnil hreceived⟩
    | final =>
      rw [hphase] at hr
      obtain rfl := Option.some.inj hr
      rw [redownloaded, if_neg (by simp [hphase]), List.append_nil]
      dsimp only
      rw [List.append_nil]
      rw [ProtocolInv, hphase] at hinv ⊢
      exact ⟨fun hne => (hinv.1 hne).append _, hinv.2⟩

theorem protocolInv_of_run
    (hstart : (cfg.chainStart.getBlockHeader find).map CBlockHeader.getHash =
      some cfg.chainStartHash)
    (hconnected : ∀ message ∈ messages, ∃ prev, HeadersConnected prev message.1)
    (hrun : run cfg find messages = some t) : ProtocolInv cfg find messages t := by
  induction messages using List.reverseRecOn generalizing t with
  | nil =>
    obtain ⟨s, hs, hdone⟩ := Option.bind_eq_some_iff.mp hrun
    obtain rfl := Option.some.inj hdone
    have hpresynced := presynced_start hstart hs
    rw [ProtocolInv, hpresynced.phase]
    exact ⟨rfl, rfl, trivial, hpresynced⟩
  | append_singleton messages message ih =>
    rw [List.forall_mem_append] at hconnected
    rw [run_concat] at hrun
    obtain ⟨t', ht', hnext⟩ := Option.bind_eq_some_iff.mp hrun
    exact (ih hconnected.1 ht').next (hconnected.2 message List.mem_cons_self) ht' hnext

section
variable (hinv : ProtocolInv cfg find messages t)
include hinv

theorem ProtocolInv.commitments : t.state.mHeaderCommitments.length ≤ cfg.maxCommitments := by
  rw [ProtocolInv] at hinv
  split at hinv
  next => exact hinv.2.2.2.few
  next => exact hinv.2.1
  next =>
    rw [hinv.2]
    exact Nat.zero_le _

theorem ProtocolInv.entered (hne : t.released ≠ []) : Entered cfg find messages := by
  rw [ProtocolInv] at hinv
  split at hinv
  next => exact absurd hinv.2.1 hne
  next => exact hinv.1
  next => exact hinv.1 hne

theorem ProtocolInv.length_buffer_le {full : Bool}
    (h : processNextHeaders cfg t.state headers full = some r) (hsuccess : r.1.success = true) :
    r.2.mRedownloadedHeaders.length ≤ cfg.params.redownloadBufferSize := by
  have hfinalize : ∀ r' : ProcessingResult × HeadersSyncState, finalizeUnlessMore r' = r →
      (r'.1.success = true → r'.2.mRedownloadedHeaders.length ≤ cfg.params.redownloadBufferSize) →
      r.2.mRedownloadedHeaders.length ≤ cfg.params.redownloadBufferSize := by
    intro r' heq hle
    rw [finalizeUnlessMore] at heq
    split at heq
    case isTrue hmore =>
      obtain rfl := heq
      exact hle hsuccess
    case isFalse =>
      obtain rfl := heq
      exact Nat.zero_le _
  rw [processNextHeaders] at h
  split at h
  case isTrue =>
    obtain rfl := Option.some.inj h
    cases hsuccess
  case isFalse =>
    split at h
    next hphase =>
      rw [ProtocolInv, hphase] at hinv
      obtain ⟨r', hr', hdone⟩ := Option.map_eq_some_iff.mp h
      refine hfinalize r' hdone fun haccepted => ?_
      obtain ⟨⟨accepted, s'⟩, hbatch, rfl⟩ := Option.map_eq_some_iff.mp hr'
      cases haccepted
      change s'.mRedownloadedHeaders.length ≤ _
      rw [buffer_of_validateAndStoreHeadersCommitments hinv.2.2.2.buffer hbatch]
      exact Nat.zero_le _
    next hphase =>
      obtain ⟨r', hr', hdone⟩ := Option.map_eq_some_iff.mp h
      refine hfinalize r' hdone fun haccepted => ?_
      obtain ⟨⟨accepted, s'⟩, hloop, rfl⟩ := Option.map_eq_some_iff.mp hr'
      cases accepted with
      | false => cases haccepted
      | true =>
        exact length_popHeadersReadyForAcceptance_le
          ((keeps_whileAccepted hloop).phase.trans hphase)
    next =>
      obtain rfl := Option.some.inj h
      cases hsuccess

end

end Runs

/-- Whatever the peer does: nothing is released before a PRESYNC chain with the minimum work, the
queue of commitments and the buffer are bounded, FINAL is not left, and a chain that is served
again comes out up to the batch that reaches the work, unless its quantum fields are lost. -/
theorem run_protocol (cfg : HeadersSyncConfig) (find : BlockHeap)
    (hstart : (cfg.chainStart.getBlockHeader find).map CBlockHeader.getHash =
      some cfg.chainStartHash) (hsize : 0 < cfg.params.redownloadBufferSize)
    (messages : List (List CBlockHeader × Bool))
    (hconnected : ∀ message ∈ messages, ∃ prev, HeadersConnected prev message.1) (t : Trace)
    (hrun : run cfg find messages = some t) :
    (t.released ≠ [] → Entered cfg find messages) ∧
    (∀ headers r, whileAccepted (validateAndProcessSingleHeader cfg) t.state headers = some r ∨
      whileAccepted (validateAndStoreRedownloadedHeader cfg) t.state headers = some r →
      r.2.mHeaderCommitments.length ≤ cfg.maxCommitments + 1) ∧
    (∀ headers full r, processNextHeaders cfg t.state headers full = some r →
      (r.1.success = true → r.2.mRedownloadedHeaders.length ≤ cfg.params.redownloadBufferSize) ∧
      (t.state.mDownloadState = .final → r.2.mDownloadState = .final)) ∧
    (t.state.mDownloadState = .redownload → t.received = [] →
      ∀ batches : List (List CBlockHeader × Bool), sent batches = sent messages →
      (∀ batch ∈ batches, batch.1 ≠ []) → (∀ batch ∈ batches.dropLast, batch.2 = true) →
      ∃ before batch after replies s', batches = before ++ batch :: after ∧
        cfg.reaches cfg.chainStart.nChainWork (sent before) = false ∧
        cfg.reaches cfg.chainStart.nChainWork (sent (before ++ [batch])) = true ∧
        responses cfg t.state (before ++ [batch]) = some (replies, s') ∧
        (∀ reply ∈ replies, reply.success = true) ∧ s'.mDownloadState = .final ∧
        (replies.flatMap ProcessingResult.powValidatedHeaders = sent (before ++ [batch]) ↔
          ∀ header ∈ sent (before ++ [batch]), header.QuantumNull)) := by
  have hinv := protocolInv_of_run hstart hconnected hrun
  refine ⟨hinv.entered, fun headers r hloop => ?_, fun headers full r hstep =>
    ⟨hinv.length_buffer_le hstep, fun hfinal => ?_⟩,
    fun hphase hreceived batches hsame hne hfull => ?_⟩
  · obtain hloop | hloop := hloop
    · exact (@whileAccepted_result _ _ (validateAndProcessSingleHeader cfg)
        (fun s => s.mHeaderCommitments.length ≤ cfg.maxCommitments)
        (fun s => s.mHeaderCommitments.length ≤ cfg.maxCommitments + 1)
        (fun _ hle => Nat.le_succ_of_le hle)
        (fun _ _ _ hle hstep => length_commitments_of_single hle hstep) _ _ _ hinv.commitments
        hloop).2
    · exact ((keeps_whileAccepted hloop).commitments.trans hinv.commitments).trans (Nat.le_succ _)
  · rw [processNextHeaders] at hstep
    split at hstep
    case isTrue => exact Option.some.inj hstep ▸ hfinal
    case isFalse =>
      rw [hfinal] at hstep
      exact Option.some.inj hstep ▸ hfinal
  · rw [ProtocolInv, hphase] at hinv
    obtain ⟨presynced, hpresynced, hchain, hnonempty, henough, hstate⟩ := hinv.2.2 hreceived
    rw [hpresynced.work] at henough
    obtain ⟨before, batch, after, replies, s', hsplit, hnot, hyes, hreplies, hsuccess, hfinal,
        hrestored⟩ := hpresynced.reserving.exists_responses hsize hchain hpresynced.permitted hsame
      hne hfull rfl (reaches_of_enoughWork hnonempty henough)
    rw [← hstate] at hreplies
    refine ⟨before, batch, after, replies, s', hsplit, hnot, hyes, hreplies, hsuccess, hfinal, ?_⟩
    have hfront : HeadersConnected cfg.chainStartHash (sent (before ++ [batch])) := by
      refine hchain.of_isPrefix ⟨sent after, ?_⟩
      rw [← hsame, hsplit, ← sent_append, List.append_assoc]
      rfl
    rw [List.nil_append] at hrestored
    rw [hrestored]
    exact fullHeaders_eq_iff hfront

theorem run_protocol_regtest :
    (regtestSync.chainStart.getBlockHeader fun _ => none).map CBlockHeader.getHash =
      some regtestSync.chainStartHash ∧ 0 < regtestSync.params.redownloadBufferSize ∧
    ∃ t, run regtestSync (fun _ => none) [(resentPair, true)] = some t ∧
      t.state.mDownloadState = .redownload ∧ t.received = [] ∧
      ∃ before batch after replies s', [(resentPair, false)] = before ++ batch :: after ∧
        responses regtestSync t.state (before ++ [batch]) = some (replies, s') ∧
        s'.mDownloadState = .final ∧
        replies.flatMap ProcessingResult.powValidatedHeaders = sent (before ++ [batch]) := by
  have hstart : (regtestSync.chainStart.getBlockHeader fun _ => none).map CBlockHeader.getHash =
      some regtestSync.chainStartHash := by
    decide +kernel
  have hrun : (run regtestSync (fun _ => none) [(resentPair, true)]).map
      (fun t => (t.state.mDownloadState, t.received)) = some (.redownload, []) := by
    decide +kernel
  obtain ⟨t, ht, heq⟩ := Option.map_eq_some_iff.mp hrun
  obtain ⟨hphase, hreceived⟩ := Prod.mk.inj heq
  have hconnected : ∀ message ∈ [(resentPair, true)],
      ∃ prev, HeadersConnected prev message.1 := by
    intro message hmem
    rw [List.mem_singleton.mp hmem]
    exact ⟨_, rfl, rfl, trivial⟩
  obtain ⟨before, batch, after, replies, s', hsplit, -, -, hreplies, -, hfinal, hiff⟩ :=
    (run_protocol regtestSync (fun _ => none) hstart (by decide) _ hconnected t ht).2.2.2 hphase
      hreceived [(resentPair, false)] rfl (by simp [resentPair]) (by simp)
  refine ⟨hstart, by decide, t, ht, hphase, hreceived, before, batch, after, replies, s', hsplit,
    hreplies, hfinal, hiff.mpr fun header hmem => ?_⟩
  have hsent : sent (before ++ [batch]) <+: resentPair := by
    refine ⟨sent after, ?_⟩
    rw [← sent_append, List.append_assoc]
    exact (congrArg sent hsplit).symm
  have hnull : ∀ header ∈ resentPair, header.QuantumNull := by decide
  exact hnull header (hsent.subset hmem)

/-- With a quantum nonce the header that comes out is not the one that was served twice. -/
theorem reserved_header_differs :
    (regtestSync.chainStart.getBlockHeader fun _ => none).map CBlockHeader.getHash =
      some regtestSync.chainStartHash ∧
    ∃ t replies s', run regtestSync (fun _ => none) [([resentHeader 1], true)] = some t ∧
      t.state.mDownloadState = .redownload ∧ t.received = [] ∧
      responses regtestSync t.state [([resentHeader 1], false)] = some (replies, s') ∧
      replies.flatMap ProcessingResult.powValidatedHeaders = [resentHeader 0] ∧
      replies.flatMap ProcessingResult.powValidatedHeaders ≠ sent [([resentHeader 1], false)] := by
  have hrun : ((run regtestSync (fun _ => none) [([resentHeader 1], true)]).bind fun t =>
      (responses regtestSync t.state [([resentHeader 1], false)]).map fun found =>
        (t.state.mDownloadState, t.received, found.1)) =
      some (.redownload, [], [⟨[resentHeader 0], true, false⟩]) := by
    decide +kernel
  obtain ⟨t, ht, hfound⟩ := Option.bind_eq_some_iff.mp hrun
  obtain ⟨⟨replies, s'⟩, hreplies, heq⟩ := Option.map_eq_some_iff.mp hfound
  obtain ⟨hphase, hrest⟩ := Prod.mk.inj heq
  obtain ⟨hreceived, rfl⟩ := Prod.mk.inj hrest
  refine ⟨by decide +kernel, t, _, s', ht, hphase, hreceived, hreplies, rfl, ?_⟩
  simp [sent, resentHeader]

end HeadersSyncState

end HcsCoin
