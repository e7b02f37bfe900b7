import HcsCoin.Consensus.TxVerify
import HcsCoin.Subsidy
import HcsCoin.Undo
import HcsCoin.Validation

/-!
# Connecting a block to the coins

`UpdateCoins` and `ConnectBlock` of `validation.cpp`, on a stack of coins caches.
The rules that read scripts or the block index only, and the undo file, are
parameters: they can refuse a block, and do not touch the coins.
-/

namespace HcsCoin

open Foundation CCoinsViewCache CoinsM CoinsStack Check

structure ChainstateParams extends Params where
  hashGenesisBlock : Uint256
  BIP34Height : Nat
  BIP34Hash : Uint256

def chainstateParams (network : Network) : ChainstateParams where
  toParams := consensusParams network
  hashGenesisBlock :=
    match network with
    | .main => .ofHex 0x2396a363b36ff93634ae93a3d72f8ad75e1d93e1428d5f4cad91be799dc1e512
    | .testnet => .ofHex 0x5fd7b95470438d64811baf62f4461869d7fe1251dd9acaeb7eb7e4c42ab7d1a6
    | .testnet4 => .ofHex 0xc54cf4813168ca3662f4ad3eac3ec335130e554c5c0704f6ab53f487e42593f6
    | .signet => .ofHex 0x2d7f0064e8f4e4718ca8e815ed147a86897ca3142004fd37052e3adf79db2677
    | .regtest => .ofHex 0xa92ec922514f5bc220085353caba068e5ab91ab305a0336459678d5d51e32535
  BIP34Height := 1
  BIP34Hash := .null

structure ScriptFailure where
  error : String
  debug : String

structure ConnectEnv extends CheckEnv where
  usage : Coin → Nat
  find : BlockHeap
  /-- `assumevalid` does not cover the block. -/
  fScriptChecks : CBlockIndex → Bool
  /-- The script checks are queued for other threads. -/
  hasThreads : Bool
  isCSVActive : CBlockIndex → Bool
  getBlockScriptFlags : CBlockIndex → UInt32
  sequenceLocks : CTransaction → (verifySequence : Bool) → (prevheights : List Nat) →
    CBlockIndex → Bool
  /-- The P2SH and witness part of `GetTransactionSigOpCost`. -/
  spentSigOpCost : CTransaction → List CTxOut → UInt32 → Nat
  checkInputScripts : CTransaction → List CTxOut → UInt32 → Option ScriptFailure
  /-- The message of a fatal error, if there is one. -/
  writeBlockUndo : CBlockUndo → CBlockIndex → Option String

inductive ConnectFailure where
  | invalid (state : BlockInvalid)
  | error (message : String)

abbrev ConnectCheck := Check CoinsStack ConnectFailure

def badBlock (rejectReason debugMessage : String) : ConnectFailure :=
  .invalid ⟨.consensus, rejectReason, debugMessage⟩

/-! ## UpdateCoins -/

section Coins

variable (usage : Coin → Nat)

def addCoinsFrom (txid : Uint256) (nHeight : Nat) (fCoinbase checkForOverwrite : Bool) :
    Nat → List CTxOut → CoinsM Unit
  | _, [] => pure ()
  | i, txout :: vout => do
    let outpoint : COutPoint := ⟨txid, UInt32.ofNat i⟩
    let overwrite ← (if checkForOverwrite then haveCoin usage outpoint else pure fCoinbase)
    addCoin usage outpoint (.new txout nHeight fCoinbase) overwrite
    addCoinsFrom txid nHeight fCoinbase checkForOverwrite (i + 1) vout

def addCoins (tx : CTransaction) (nHeight : Nat) (checkForOverwrite : Bool) : CoinsM Unit :=
  addCoinsFrom usage tx.getHash nHeight tx.isCoinBase checkForOverwrite 0 tx.vout

def spendInputs : List CTxIn → CoinsM (List Coin)
  | [] => pure []
  | txin :: vin => do
    let spent ← spendCoin usage txin.prevout
    Action.assert spent.1
    let vprevout ← spendInputs vin
    pure (spent.2 :: vprevout)

def updateCoins (tx : CTransaction) (nHeight : Nat) : CoinsM CTxUndo := do
  let vprevout ← (if tx.isCoinBase then pure [] else spendInputs usage tx.vin)
  addCoins usage tx nHeight false
  pure ⟨vprevout⟩

def accessCoins : List CTxIn → CoinsM (List Coin)
  | [] => pure []
  | txin :: vin => do
    let coin ← accessCoin usage txin.prevout
    let coins ← accessCoins vin
    pure (coin :: coins)

def spentOutputs (vin : List CTxIn) : CoinsM (List CTxOut) := do
  let coins ← accessCoins usage vin
  Action.assert (coins.all fun coin => !coin.isSpent)
  pure (coins.map Coin.out)

/-- Whether some of the outpoints is unspent.  All are looked up. -/
def haveAny : List COutPoint → CoinsM Bool
  | [] => pure false
  | outpoint :: outpoints => do
    let found ← haveCoin usage outpoint
    let others ← haveAny outpoints
    pure (found || others)

end Coins

def CTransaction.outpoints (tx : CTransaction) : List COutPoint :=
  (List.range tx.vout.length).map fun o => ⟨tx.getHash, UInt32.ofNat o⟩

/-! ## ConnectBlock -/

def isBIP30Repeat (pindex : CBlockIndex) : Bool :=
  (pindex.nHeight == 91842 && pindex.phashBlock ==
      some (.ofHex 0x00000000000a4d0a398161ffc163c503763b1f4360639393e0e4c8e300e0caec)) ||
    (pindex.nHeight == 91880 && pindex.phashBlock ==
      some (.ofHex 0x00000000000743f190a18c5577a3c2d2a1f610ae9601ac046a38084ccb7cd721))

def BIP34_IMPLIES_BIP30_LIMIT : Nat := 1983702

structure ConnectTally where
  nFees : Int64 := 0
  nSigOpsCost : Nat := 0
  vtxundo : List CTxUndo := []
  /-- What the queued script checks will report. -/
  failures : List ScriptFailure := []

section Connect

variable (env : ConnectEnv) (params : ChainstateParams) (pindex : CBlockIndex)

def recheckBlock (block : CBlock) (flags : BlockFlags) (fJustCheck : Bool) :
    ConnectCheck Unit := do
  let (result, _) ← (Action.ofOption
    (checkBlock env.toCheckEnv block flags params.toParams (!fJustCheck) (!fJustCheck)) :
      CoinsM (BlockCheck × BlockFlags))
  ofExcept (result.mapError fun state =>
    if state.result = .mutated then
      .error "Corrupt block found indicating potential hardware failure."
    else .invalid state)

def enforcesBIP30 : Option Bool := do
  let prev ← pindex.prev? env.find
  let pindexBIP34height ← prev.getAncestor env.find params.BIP34Height
  some ((!isBIP30Repeat pindex &&
      pindexBIP34height.all fun ancestor => ancestor.phashBlock != some params.BIP34Hash) ||
    decide (pindex.nHeight ≥ BIP34_IMPLIES_BIP30_LIMIT))

def checkBIP30 (block : CBlock) : ConnectCheck Unit := do
  let enforced ← (Action.ofOption (enforcesBIP30 env params pindex) : CoinsM Bool)
  let overwrites ←
    (if enforced then haveAny env.usage (block.vtx.flatMap CTransaction.outpoints)
      else pure false : CoinsM Bool)
  rejectIf overwrites (badBlock "bad-txns-BIP30" "tried to overwrite transaction")

/-- The checks on the inputs of a transaction, with the fees of the block so far. -/
def connectInputs (tx : CTransaction) (nFees : Int64) : ConnectCheck Int64 := do
  let txfee ← (checkTxInputs env.usage tx pindex.nHeight).mapError fun state =>
    badBlock state.rejectReason
      (state.debugMessage ++ " in transaction " ++ tx.getHash.getHex)
  let nFees := nFees + txfee
  rejectIf (!moneyRange nFees.toInt)
    (badBlock "bad-txns-accumulated-fee-outofrange" "accumulated fee in the block out of range")
  let coins ← accessCoins env.usage tx.vin
  rejectIf
    (!env.sequenceLocks tx (env.isCSVActive pindex) (coins.map Coin.nHeight) pindex)
    (badBlock "bad-txns-nonfinal"
      ("contains a non-BIP68-final transaction " ++ tx.getHash.getHex))
  pure nFees

def getTransactionSigOpCost (tx : CTransaction) : CoinsM Nat := do
  let nSigOps := (getLegacySigOpCount tx * UInt32.ofNat WITNESS_SCALE_FACTOR).toNat
  if tx.isCoinBase then pure nSigOps
  else do
    let spent ← spentOutputs env.usage tx.vin
    pure (nSigOps + env.spentSigOpCost tx spent (env.getBlockScriptFlags pindex))

def scriptFailure (failure : ScriptFailure) : ConnectFailure :=
  badBlock ("block-script-verify-flag-failed (" ++ failure.error ++ ")") failure.debug

def connectScripts (tx : CTransaction) (failures : List ScriptFailure) :
    ConnectCheck (List ScriptFailure) :=
  if tx.isCoinBase || !env.fScriptChecks pindex then pure failures
  else do
    let spent ← spentOutputs env.usage tx.vin
    match env.checkInputScripts tx spent (env.getBlockScriptFlags pindex) with
    | none => pure failures
    | some failure =>
      if env.hasThreads then pure (failures ++ [failure])
      else ofExcept (.error (scriptFailure failure))

def connectTx (isFirst : Bool) (tx : CTransaction) (tally : ConnectTally) :
    ConnectCheck ConnectTally := do
  let nFees ←
    (if tx.isCoinBase then pure tally.nFees else connectInputs env pindex tx tally.nFees)
  let cost ← getTransactionSigOpCost env pindex tx
  let nSigOpsCost := tally.nSigOpsCost + cost
  rejectIf (decide (nSigOpsCost > MAX_BLOCK_SIGOPS_COST))
    (badBlock "bad-blk-sigops" "too many sigops")
  let failures ← connectScripts env pindex tx tally.failures
  let txundo ← updateCoins env.usage tx pindex.nHeight
  pure ⟨nFees, nSigOpsCost, if isFirst then tally.vtxundo else tally.vtxundo ++ [txundo], failures⟩

def connectTxs : Bool → List CTransaction → ConnectTally → ConnectCheck ConnectTally
  | _, [], tally => pure tally
  | isFirst, tx :: vtx, tally => do
    let tally ← connectTx env pindex isFirst tx tally
    connectTxs false vtx tally

def checkReward (block : CBlock) (nFees : Int64) : ConnectCheck Unit := do
  let blockReward := nFees + Int64.ofInt (getBlockSubsidy pindex.nHeight params.toParams)
  let valueOut ← (Action.ofOption (block.vtx.head?.bind getValueOut) : CoinsM Int64)
  rejectIf (decide (valueOut > blockReward))
    (badBlock "bad-cb-amount" ("coinbase pays too much (actual=" ++ toString valueOut.toInt ++
      " vs limit=" ++ toString blockReward.toInt ++ ")"))

def connectContents (block : CBlock) : ConnectCheck CBlockUndo := do
  checkBIP30 env params pindex block
  let tally ← connectTxs env pindex true block.vtx {}
  checkReward params pindex block tally.nFees
  ofExcept (match tally.failures with
    | [] => .ok ()
    | failure :: _ => .error (scriptFailure failure))
  pure ⟨tally.vtxundo⟩

def connectBlock (block : CBlock) (flags : BlockFlags) (fJustCheck : Bool) :
    ConnectCheck (Option CBlockUndo) := do
  (Action.assert (pindex.phashBlock == some block.getHash) : CoinsM Unit)
  recheckBlock env params block flags fJustCheck
  let hashPrevBlock ← (Action.ofOption (pindex.prevHash env.find) : CoinsM Uint256)
  let bestBlock ← getBestBlock
  (Action.assert (hashPrevBlock == bestBlock) : CoinsM Unit)
  if block.getHash = params.hashGenesisBlock then
    -- the transactions of the genesis block are not connected
    if fJustCheck then pure none
    else do
      setBestBlock block.getHash
      pure none
  else do
    let blockundo ← connectContents env params pindex block
    if fJustCheck then pure none
    else do
      ofExcept (match env.writeBlockUndo blockundo pindex with
        | none => .ok ()
        | some message => .error (.error message))
      setBestBlock block.getHash
      pure (some blockundo)

end Connect

/-! ## Lookups -/

section Lookups

variable {usage : Coin → Nat}

theorem keeps_accessCoins (vin : List CTxIn) : (accessCoins usage vin).Keeps (Grows usage) := by
  induction vin with
  | nil => exact .pure _
  | cons txin vin ih => exact (keeps_accessCoin _).bind fun _ => ih.bind fun _ => .pure _

theorem keeps_spentOutputs (vin : List CTxIn) : (spentOutputs usage vin).Keeps (Grows usage) :=
  (keeps_accessCoins vin).bind fun _ => (Action.Keeps.assert _).bind fun _ => .pure _

theorem keeps_haveAny (outpoints : List COutPoint) :
    (haveAny usage outpoints).Keeps (Grows usage) := by
  induction outpoints with
  | nil => exact .pure _
  | cons outpoint outpoints ih => exact (keeps_haveCoin _).bind fun _ => ih.bind fun _ => .pure _

end Lookups

/-! ## The loops of UpdateCoins -/

def CTransaction.prevouts (tx : CTransaction) : List COutPoint :=
  if tx.isCoinBase then [] else tx.vin.map CTxIn.prevout

section Loops

variable {usage : Coin → Nat} {stack stack' : CoinsStack}
  {M : List COutPoint → List Coin → CoinsStack → Prop} {nHeight : Nat} {coins : List Coin}

theorem spendInputs_rule
    (hstep : ∀ {stack outpoint outpoints entry coins}, M (outpoint :: outpoints)
      (entry.coin :: coins) stack → stack.top.cacheCoins.lookup outpoint = some entry →
      entry.coin.isSpent = false → M outpoints coins (stack.spend usage outpoint))
    {vin : List CTxIn} {vprevout : List Coin} (hnodup : (vin.map CTxIn.prevout).Nodup)
    (hold : stack.Holding (vin.map CTxIn.prevout) coins)
    (hstart : M (vin.map CTxIn.prevout) coins stack)
    (h : spendInputs usage vin stack = some (vprevout, stack')) :
    vprevout = coins ∧ M [] [] stack' := by
  induction vin generalizing stack coins vprevout with
  | nil =>
    obtain rfl := List.forall₂_nil_left_iff.mp hold
    obtain ⟨rfl, rfl⟩ := Action.pure_iff.mp h
    exact ⟨rfl, hstart⟩
  | cons txin vin ih =>
    obtain ⟨coin, coins, ⟨entry, hentry, rfl, hunspent⟩, hrest, rfl⟩ :=
      List.forall₂_cons_left_iff.mp hold
    obtain ⟨hfirst, hnodup⟩ := List.nodup_cons.mp hnodup
    rw [spendInputs, Action.bind_of (spendCoin_of_some hentry),
      Action.bind_of (Action.assert_of rfl)] at h
    obtain ⟨vprevout', stack₂, hvprevout, hdone⟩ := Action.bind_iff.mp h
    obtain ⟨rfl, rfl⟩ := Action.pure_iff.mp hdone
    have hold' : (stack.spend usage txin.prevout).Holding (vin.map CTxIn.prevout) coins :=
      Holding.spend hrest hentry hfirst
    obtain ⟨rfl, hend⟩ := ih hnodup hold' (hstep hstart hentry hunspent) hvprevout
    exact ⟨rfl, hend⟩

theorem addCoinsFrom_rule {M : Nat → List CTxOut → CoinsStack → Prop} {txid : Uint256}
    {fCoinbase : Bool}
    (hstep : ∀ {stack stack' i txout vout}, M i (txout :: vout) stack →
      addCoin usage ⟨txid, UInt32.ofNat i⟩ (.new txout nHeight fCoinbase) fCoinbase stack =
        some ((), stack') → M (i + 1) vout stack')
    {i : Nat} {vout : List CTxOut} (hstart : M i vout stack)
    (h : addCoinsFrom usage txid nHeight fCoinbase false i vout stack = some ((), stack')) :
    M (i + vout.length) [] stack' := by
  induction vout generalizing stack i with
  | nil =>
    obtain ⟨-, rfl⟩ := Action.pure_iff.mp h
    exact hstart
  | cons txout vout ih =>
    obtain ⟨overwrite, stack₁, hoverwrite, hrun⟩ := Action.bind_iff.mp h
    obtain ⟨rfl, rfl⟩ := Action.pure_iff.mp hoverwrite
    obtain ⟨_, stack₂, hadd, hrest⟩ := Action.bind_iff.mp hrun
    have hend := ih (hstep hstart hadd) hrest
    rwa [Nat.add_assoc, Nat.add_comm 1] at hend

theorem updateCoins_rule {N : Nat → List CTxOut → CoinsStack → Prop} {tx : CTransaction}
    (hspend : ∀ {stack outpoint outpoints entry coins}, M (outpoint :: outpoints)
      (entry.coin :: coins) stack → stack.top.cacheCoins.lookup outpoint = some entry →
      entry.coin.isSpent = false → M outpoints coins (stack.spend usage outpoint))
    (hbetween : ∀ {stack}, M [] [] stack → N 0 tx.vout stack)
    (hadd : ∀ {stack stack' i txout vout}, N i (txout :: vout) stack →
      addCoin usage ⟨tx.getHash, UInt32.ofNat i⟩ (.new txout nHeight tx.isCoinBase) tx.isCoinBase
        stack = some ((), stack') → N (i + 1) vout stack') {txundo : CTxUndo}
    (hnodup : (tx.vin.map CTxIn.prevout).Nodup) (hold : stack.Holding tx.prevouts coins)
    (hstart : M tx.prevouts coins stack)
    (h : updateCoins usage tx nHeight stack = some (txundo, stack')) :
    txundo = ⟨coins⟩ ∧ N tx.vout.length [] stack' := by
  obtain ⟨vprevout, stack₁, hinputs, hrun⟩ := Action.bind_iff.mp h
  obtain ⟨_, stack₂, houtputs, hdone⟩ := Action.bind_iff.mp hrun
  obtain ⟨rfl, rfl⟩ := Action.pure_iff.mp hdone
  have hspent : vprevout = coins ∧ M [] [] stack₁ := by
    rw [CTransaction.prevouts] at hold hstart
    split at hinputs
    case isTrue hcoinbase =>
      rw [if_pos hcoinbase] at hold hstart
      obtain rfl := List.forall₂_nil_left_iff.mp hold
      obtain ⟨rfl, rfl⟩ := Action.pure_iff.mp hinputs
      exact ⟨rfl, hstart⟩
    case isFalse hcoinbase =>
      rw [if_neg hcoinbase] at hold hstart
      exact spendInputs_rule hspend hnodup hold hstart hinputs
  obtain ⟨rfl, hbetween'⟩ := hspent
  have hend := addCoinsFrom_rule hadd (hbetween hbetween') houtputs
  rw [Nat.zero_add] at hend
  exact ⟨rfl, hend⟩

end Loops

/-! ## What a connected block has passed -/

def fee (tx : CTransaction) (coins : List Coin) : Int :=
  (coins.map Coin.amount).sum - (tx.vout.map CTxOut.amount).sum

structure Affords (tx : CTransaction) (coins : List Coin) : Prop where
  values : ∀ coin ∈ coins, moneyRange coin.amount = true
  sums : StaysInRange (coins.map Coin.amount)
  fee : moneyRange (fee tx coins) = true

section Blocks

variable {env : ConnectEnv} {params : ChainstateParams} {pindex : CBlockIndex} {block : CBlock}
  {stack stack' : CoinsStack} {flags : BlockFlags} {tx : CTransaction} {fJustCheck : Bool}

theorem connectInputs_ok {nFees nFees' : Int64} (hbelow : stack.below.Sane env.usage)
    (hcoinbase : tx.isCoinBase = false) (hfees : moneyRange nFees.toInt = true)
    (h : connectInputs env pindex tx nFees stack = some (.ok nFees', stack')) :
    Grown env.usage stack stack' ∧ ∃ coins, stack'.Holding (tx.vin.map CTxIn.prevout) coins ∧
      Affords tx coins ∧ nFees'.toInt = nFees.toInt + fee tx coins ∧
      moneyRange nFees'.toInt = true := by
  obtain ⟨txfee, stack₁, hinputs, hrun⟩ := bind_iff.mp h
  obtain ⟨hgrown, hmoney, coins, hold, hvalues, hsums, hfee⟩ :=
    checkTxInputs_ok hbelow hcoinbase (mapError_iff.mp hinputs)
  obtain ⟨hrange, hrun₁⟩ := rejectIf_bind_iff.mp hrun
  obtain ⟨coins', stack₂, haccess, hrun₂⟩ := bind_iff.mp hrun₁
  have hgrown' := keeps_accessCoins tx.vin stack₁ coins' stack₂ (lift_iff.mp haccess) hgrown.below
  obtain ⟨-, hrun₃⟩ := rejectIf_bind_iff.mp hrun₂
  obtain ⟨rfl, rfl⟩ := pure_iff.mp hrun₃
  rw [Bool.not_eq_false'] at hrange
  refine ⟨hgrown.trans hgrown', coins, hgrown'.holding hold, ⟨hvalues, hsums, ?_⟩, ?_, hrange⟩
  · rw [HcsCoin.fee, ← hfee]
    exact hmoney
  · rw [toInt_add_of_moneyRange hfees hmoney, hfee, HcsCoin.fee]

theorem keeps_getTransactionSigOpCost (tx : CTransaction) :
    (getTransactionSigOpCost env pindex tx).Keeps (Grows env.usage) := by
  rw [getTransactionSigOpCost]
  split
  case isTrue => exact .pure _
  case isFalse => exact (keeps_spentOutputs _).bind fun _ => .pure _

theorem keeps_connectScripts (tx : CTransaction) (failures : List ScriptFailure) :
    (connectScripts env pindex tx failures).Keeps (Grows env.usage) := by
  rw [connectScripts]
  split
  case isTrue => exact .pure _
  case isFalse =>
    refine (Keeps.lift (keeps_spentOutputs _)).bind fun spent => ?_
    split
    case h_1 => exact .pure _
    case h_2 =>
      split
      case isTrue => exact .pure _
      case isFalse => exact .ofExcept _

theorem connectTx_ok {isFirst : Bool} {tally tally' : ConnectTally}
    (hbelow : stack.below.Sane env.usage) (hfees : moneyRange tally.nFees.toInt = true)
    (h : connectTx env pindex isFirst tx tally stack = some (.ok tally', stack')) :
    ∃ stack₁ coins txundo, Grown env.usage stack stack₁ ∧ stack₁.Holding tx.prevouts coins ∧
      updateCoins env.usage tx pindex.nHeight stack₁ = some (txundo, stack') ∧
      tally'.vtxundo = (if isFirst then tally.vtxundo else tally.vtxundo ++ [txundo]) ∧
      (tx.isCoinBase = true → tally'.nFees = tally.nFees) ∧
      (tx.isCoinBase = false → Affords tx coins ∧
        tally'.nFees.toInt = tally.nFees.toInt + fee tx coins ∧
        moneyRange tally'.nFees.toInt = true) := by
  obtain ⟨nFees, stack₁, hinputs, hrun⟩ := bind_iff.mp h
  have hchecked : Grown env.usage stack stack₁ ∧ ∃ coins, stack₁.Holding tx.prevouts coins ∧
      (tx.isCoinBase = true → nFees = tally.nFees) ∧
      (tx.isCoinBase = false → Affords tx coins ∧
        nFees.toInt = tally.nFees.toInt + fee tx coins ∧ moneyRange nFees.toInt = true) := by
    rw [CTransaction.prevouts]
    split at hinputs
    case isTrue hcoinbase =>
      obtain ⟨rfl, rfl⟩ := pure_iff.mp hinputs
      rw [if_pos hcoinbase]
      exact ⟨Grown.refl hbelow, [], .nil, fun _ => rfl,
        fun hfalse => absurd hfalse (by simp [hcoinbase])⟩
    case isFalse hcoinbase =>
      obtain ⟨hgrown, coins, hold, hpaid⟩ :=
        connectInputs_ok hbelow (Bool.eq_false_iff.mpr hcoinbase) hfees hinputs
      rw [if_neg hcoinbase]
      exact ⟨hgrown, coins, hold, fun htrue => absurd htrue hcoinbase, fun _ => hpaid⟩
  obtain ⟨hgrown, coins, hold, hpaid⟩ := hchecked
  obtain ⟨cost, stack₂, hcost, hrun₁⟩ := bind_iff.mp hrun
  have hgrown₁ := keeps_getTransactionSigOpCost tx stack₁ cost stack₂ (lift_iff.mp hcost)
    hgrown.below
  obtain ⟨-, hrun₂⟩ := rejectIf_bind_iff.mp hrun₁
  obtain ⟨failures, stack₃, hscripts, hrun₃⟩ := bind_iff.mp hrun₂
  have hgrown₂ := keeps_connectScripts tx tally.failures stack₂ _ stack₃ hscripts hgrown₁.below
  obtain ⟨txundo, stack₄, hupdate, hrun₄⟩ := bind_iff.mp hrun₃
  obtain ⟨rfl, rfl⟩ := pure_iff.mp hrun₄
  exact ⟨stack₃, coins, txundo, hgrown.trans (hgrown₁.trans hgrown₂),
    hgrown₂.holding (hgrown₁.holding hold), lift_iff.mp hupdate, rfl, hpaid⟩

theorem recheckBlock_ok {u : Unit}
    (h : recheckBlock env params block flags fJustCheck stack = some (.ok u, stack')) :
    stack' = stack ∧ (flags.fChecked = true ∨ checkBlockContents block = .ok ()) := by
  obtain ⟨⟨result, flags'⟩, stack₁, hcheck, hrun⟩ := bind_iff.mp h
  obtain ⟨hsome, rfl⟩ := Action.ofOption_iff.mp (lift_iff.mp hcheck)
  obtain ⟨hok, rfl⟩ := ofExcept_iff.mp hrun
  refine ⟨rfl, ?_⟩
  cases result with
  | error e => cases hok
  | ok => exact fChecked_or_contents_of_checkBlock hsome

theorem connectContents_ok {blockundo : CBlockUndo} (hbelow : stack.below.Sane env.usage)
    (h : connectContents env params pindex block stack = some (.ok blockundo, stack')) :
    ∃ stack₁ tally valueOut, Grown env.usage stack stack₁ ∧
      connectTxs env pindex true block.vtx {} stack₁ = some (.ok tally, stack') ∧
      blockundo = ⟨tally.vtxundo⟩ ∧ block.vtx.head?.bind getValueOut = some valueOut ∧
      valueOut ≤ tally.nFees + Int64.ofInt (getBlockSubsidy pindex.nHeight params.toParams) := by
  obtain ⟨_, stack₁, hbip30, hrun⟩ := bind_iff.mp h
  obtain ⟨tally, stack₂, htxs, hrun₁⟩ := bind_iff.mp hrun
  obtain ⟨_, stack₃, hreward, hrun₂⟩ := bind_iff.mp hrun₁
  obtain ⟨_, stack₄, hscripts, hrun₃⟩ := bind_iff.mp hrun₂
  obtain ⟨rfl, rfl⟩ := pure_iff.mp hrun₃
  obtain ⟨-, rfl⟩ := ofExcept_iff.mp hscripts
  have hgrown : Grown env.usage stack stack₁ := by
    obtain ⟨enforced, stack₅, henforced, hlook⟩ := bind_iff.mp hbip30
    obtain ⟨-, rfl⟩ := Action.ofOption_iff.mp (lift_iff.mp henforced)
    obtain ⟨overwrites, stack₆, hhave, hreject⟩ := bind_iff.mp hlook
    obtain ⟨-, rfl⟩ := rejectIf_iff.mp hreject
    have hhave' := lift_iff.mp hhave
    split at hhave'
    case isTrue => exact keeps_haveAny _ _ _ _ hhave' hbelow
    case isFalse =>
      obtain ⟨-, rfl⟩ := Action.pure_iff.mp hhave'
      exact Grown.refl hbelow
  obtain ⟨valueOut, stack₅, hvalue, hlimit⟩ := bind_iff.mp hreward
  obtain ⟨hsome, rfl⟩ := Action.ofOption_iff.mp (lift_iff.mp hvalue)
  obtain ⟨hle, rfl⟩ := rejectIf_iff.mp hlimit
  refine ⟨stack₁, tally, valueOut, hgrown, htxs, rfl, hsome, ?_⟩
  rw [decide_eq_false_iff_not] at hle
  exact Int64.not_lt.mp hle

/-- A block that passes is the genesis block, or its transactions are connected; last the best
block may be set. -/
theorem connectBlock_ok {result : Option CBlockUndo} (hbelow : stack.below.Sane env.usage)
    (h : connectBlock env params pindex block flags fJustCheck stack = some (.ok result, stack')) :
    ∃ stack₁ stack₂ hash, Grown env.usage stack stack₁ ∧
      (flags.fChecked = true ∨ checkBlockContents block = .ok ()) ∧
      stack' = { stack₂ with top := { stack₂.top with mBlockHash := hash } } ∧
      ((block.getHash = params.hashGenesisBlock ∧ result = none ∧ stack₂ = stack₁) ∨
        (block.getHash ≠ params.hashGenesisBlock ∧ ∃ blockundo,
          connectContents env params pindex block stack₁ = some (.ok blockundo, stack₂) ∧
          ∀ undo, result = some undo → undo = blockundo)) := by
  obtain ⟨-, hrun⟩ := assert_bind_iff.mp h
  obtain ⟨_, stack₁, hrecheck, hrun₁⟩ := bind_iff.mp hrun
  obtain ⟨rfl, hcontents⟩ := recheckBlock_ok hrecheck
  obtain ⟨hashPrevBlock, stack₂, hprev, hrun₂⟩ := bind_iff.mp hrun₁
  obtain ⟨-, rfl⟩ := Action.ofOption_iff.mp (lift_iff.mp hprev)
  obtain ⟨bestBlock, stack₃, hbest, hrun₃⟩ := bind_iff.mp hrun₂
  have hgrown := keeps_getBestBlock _ _ _ (lift_iff.mp hbest) hbelow
  obtain ⟨-, hrun₄⟩ := assert_bind_iff.mp hrun₃
  -- a stack whose best block is left alone
  have hsame : ∀ stack : CoinsStack,
      stack = { stack with top := { stack.top with mBlockHash := stack.top.mBlockHash } } :=
    fun _ => rfl
  split at hrun₄
  case isTrue hgenesis =>
    split at hrun₄
    case isTrue =>
      obtain ⟨rfl, rfl⟩ := pure_iff.mp hrun₄
      exact ⟨_, _, _, hgrown, hcontents, hsame _, .inl ⟨hgenesis, rfl, rfl⟩⟩
    case isFalse =>
      obtain ⟨_, stack₄, hset, hdone⟩ := bind_iff.mp hrun₄
      obtain ⟨rfl, rfl⟩ := pure_iff.mp hdone
      obtain rfl := setBestBlock_iff.mp (lift_iff.mp hset)
      exact ⟨_, _, _, hgrown, hcontents, rfl, .inl ⟨hgenesis, rfl, rfl⟩⟩
  case isFalse hgenesis =>
    obtain ⟨blockundo, stack₄, hconnect, hrun₅⟩ := bind_iff.mp hrun₄
    split at hrun₅
    case isTrue =>
      obtain ⟨rfl, rfl⟩ := pure_iff.mp hrun₅
      exact ⟨_, _, _, hgrown, hcontents, hsame _, .inr ⟨hgenesis, blockundo, hconnect, nofun⟩⟩
    case isFalse =>
      obtain ⟨_, stack₅, hwrite, hrun₆⟩ := bind_iff.mp hrun₅
      obtain ⟨-, rfl⟩ := ofExcept_iff.mp hwrite
      obtain ⟨_, stack₆, hset, hdone⟩ := bind_iff.mp hrun₆
      obtain ⟨rfl, rfl⟩ := pure_iff.mp hdone
      obtain rfl := setBestBlock_iff.mp (lift_iff.mp hset)
      exact ⟨_, _, _, hgrown, hcontents, rfl, .inr ⟨hgenesis, blockundo, hconnect,
        fun undo hundo => (Option.some.inj hundo).symm⟩⟩

end Blocks

/-! ## A block that spends -/

def anyone (nValue : Int64) : CTxOut := ⟨nValue, [0x51]⟩

def paidOutPoint : COutPoint := ⟨.ofHex 1, 0⟩

def spendOf (prevout : COutPoint) (vout : List CTxOut) : CTransaction where
  vin := [⟨prevout, [], 0xffffffff, []⟩]
  vout := vout
  version := 1
  nLockTime := 0

def firstSpend : CTransaction := spendOf paidOutPoint [anyone 30, ⟨0, [OP_RETURN]⟩, anyone 5]

def spendingBlock : CBlock where
  nTime := 1
  vtx := [{ sampleCoinBase with vout := [anyone 50] }, firstSpend,
    spendOf ⟨firstSpend.getHash, 2⟩ [anyone 4]]

def parentIndex : CBlockIndex where
  phashBlock := some (.ofHex 7)
  nHeight := 1

def spendingIndex : CBlockIndex where
  phashBlock := some spendingBlock.getHash
  pprev := some (.ofHex 7)
  nHeight := 2

def anyoneEnv : ConnectEnv where
  fp := .ieee
  checkSignetBlockSolution _ _ := false
  usage coin := coin.out.scriptPubKey.length
  find hash := if hash = .ofHex 7 then some parentIndex else none
  fScriptChecks _ := true
  hasThreads := false
  isCSVActive _ := true
  getBlockScriptFlags _ := 0
  sequenceLocks _ _ _ _ := true
  spentSigOpCost _ _ _ := 0
  checkInputScripts _ _ _ := none
  writeBlockUndo _ _ := none

def paidStack : CoinsStack :=
  start ⟨fun outpoint => if outpoint = paidOutPoint then some (.new (anyone 40) 1 false) else none,
    .ofHex 7⟩

theorem paidStack_cases {outpoint : COutPoint} {coin : Coin}
    (h : paidStack.view outpoint = some coin) :
    outpoint = paidOutPoint ∧ coin = .new (anyone 40) 1 false := by
  change (if outpoint = paidOutPoint then some (Coin.new (anyone 40) 1 false) else none) = _ at h
  split at h
  case isTrue heq => exact ⟨heq, (Option.some.inj h).symm⟩
  case isFalse => cases h

theorem paidStack_sane : paidStack.Sane anyoneEnv.usage := by
  refine ⟨sane_new _ _, trivial, fun outpoint coin h => ?_⟩
  obtain ⟨-, rfl⟩ := paidStack_cases h
  decide

def acceptedWithUndo :
    Option (Except ConnectFailure (Option CBlockUndo) × CoinsStack) → Bool
  | some (.ok (some _), _) => true
  | _ => false

theorem exists_of_acceptedWithUndo
    {result : Option (Except ConnectFailure (Option CBlockUndo) × CoinsStack)}
    (h : acceptedWithUndo result = true) :
    ∃ blockundo stack', result = some (.ok (some blockundo), stack') := by
  rcases result with _ | ⟨_ | _ | blockundo, stack'⟩
  · cases h
  · cases h
  · cases h
  · exact ⟨blockundo, stack', rfl⟩

theorem checkBlockContents_spendingBlock : checkBlockContents spendingBlock = .ok () := by
  decide +kernel

theorem connectBlock_spendingBlock : ∃ blockundo stack',
    connectBlock anyoneEnv (chainstateParams .regtest) spendingIndex spendingBlock
      { fChecked := true } false paidStack = some (.ok (some blockundo), stack') :=
  exists_of_acceptedWithUndo (by decide +kernel)

end HcsCoin
