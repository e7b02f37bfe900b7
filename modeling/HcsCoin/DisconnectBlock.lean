import HcsCoin.ConnectBlock

/-!
# Disconnecting a block

`ApplyTxInUndo` and `DisconnectBlock` of `validation.cpp`.  The transactions are
undone from the last to the first, and the inputs of each from the last to the
first: what `ConnectBlock` did to the coins is taken back, unless it overwrote an
unspent coin.
-/

namespace HcsCoin

open Foundation Foundation.Decoder CCoinsViewCache CoinsM CoinsStack

inductive DisconnectResult where
  | ok
  | unclean
  | failed
  deriving DecidableEq

def MIN_TRANSACTION_OUTPUT_WEIGHT : Nat := WITNESS_SCALE_FACTOR * (serTxOut .null).length

def MAX_OUTPUTS_PER_BLOCK : Nat := MAX_BLOCK_WEIGHT / MIN_TRANSACTION_OUTPUT_WEIGHT

section Disconnect

variable (usage : Coin → Nat)

/-- The loop of `AccessByTxid` from output `n` on. -/
def accessByTxid (txid : Uint256) : Nat → Nat → CoinsM Coin
  | 0, _ => pure .empty
  | rounds + 1, n => do
    let alternate ← accessCoin usage ⟨txid, UInt32.ofNat n⟩
    if alternate.isSpent then accessByTxid txid rounds (n + 1) else pure alternate

def restoreCoin (undo : Coin) (out : COutPoint) (overwrites : Bool) : CoinsM DisconnectResult := do
  addCoin usage out undo overwrites
  pure (if overwrites then .unclean else .ok)

def applyTxInUndo (undo : Coin) (out : COutPoint) : CoinsM DisconnectResult := do
  let overwrites ← haveCoin usage out
  if undo.nHeight = 0 then do
    -- an old record without height, which some other output of the transaction must know
    let alternate ← accessByTxid usage out.hash MAX_OUTPUTS_PER_BLOCK 0
    if alternate.isSpent then pure .failed
    else restoreCoin usage (.new undo.out alternate.nHeight alternate.fCoinBase) out overwrites
  else restoreCoin usage undo out overwrites

def isOutputCoin (txout : CTxOut) (nHeight : Nat) (isCoinbase : Bool) (spent : Bool × Coin) : Bool :=
  spent.1 && txout == spent.2.out && nHeight == spent.2.nHeight && isCoinbase == spent.2.fCoinBase

def spendOutputs (txid : Uint256) (nHeight : Nat) (isCoinbase isBIP30Exception : Bool) :
    Nat → List CTxOut → Bool → CoinsM Bool
  | _, [], fClean => pure fClean
  | o, txout :: vout, fClean =>
    if isUnspendable txout.scriptPubKey then
      spendOutputs txid nHeight isCoinbase isBIP30Exception (o + 1) vout fClean
    else do
      let spent ← spendCoin usage ⟨txid, UInt32.ofNat o⟩
      spendOutputs txid nHeight isCoinbase isBIP30Exception (o + 1) vout
        (fClean && (isOutputCoin txout nHeight isCoinbase spent || isBIP30Exception))

abbrev DisconnectCheck := Check CoinsStack Unit

/-- The inputs are given last first. -/
def restoreInputs : List (COutPoint × Coin) → Bool → DisconnectCheck Bool
  | [], fClean => pure fClean
  | (out, undo) :: rest, fClean => do
    let res ← applyTxInUndo usage undo out
    Check.rejectIf (res == .failed) ()
    restoreInputs rest (fClean && res != .unclean)

def disconnectTx (nHeight : Nat) (fEnforceBIP30 : Bool) (tx : CTransaction)
    (txundo : Option CTxUndo) (fClean : Bool) : DisconnectCheck Bool := do
  let fClean ← spendOutputs usage tx.getHash nHeight tx.isCoinBase
    (tx.isCoinBase && !fEnforceBIP30) 0 tx.vout fClean
  match txundo with
  | none => pure fClean
  | some txundo => do
    Check.rejectIf (txundo.vprevout.length != tx.vin.length) ()
    restoreInputs usage ((tx.vin.map CTxIn.prevout).zip txundo.vprevout).reverse fClean

def disconnectTxs (nHeight : Nat) (fEnforceBIP30 : Bool) :
    List (CTransaction × Option CTxUndo) → Bool → DisconnectCheck Bool
  | [], fClean => pure fClean
  | (tx, txundo) :: rest, fClean => do
    let fClean ← disconnectTx usage nHeight fEnforceBIP30 tx txundo fClean
    disconnectTxs nHeight fEnforceBIP30 rest fClean

def isBIP30Overwritten (pindex : CBlockIndex) : Bool :=
  (pindex.nHeight == 91722 && pindex.phashBlock ==
      some (.ofHex 0x00000000000271a2dc26e7667f8419f2e15416dc6955e5a6c6cdf3f2574dd08e)) ||
    (pindex.nHeight == 91812 && pindex.phashBlock ==
      some (.ofHex 0x00000000000af0aed4792b1acee3d966af36cf5def14935db8de83d6f9306f2f))

def undoPairs (block : CBlock) (blockUndo : CBlockUndo) : List (CTransaction × Option CTxUndo) :=
  block.vtx.zip (none :: blockUndo.vtxundo.map some)

/-- `blockUndo` is what was read from the undo file. -/
def disconnectBlock (find : BlockHeap) (block : CBlock) (pindex : CBlockIndex)
    (blockUndo : Option CBlockUndo) : CoinsM DisconnectResult :=
  match blockUndo with
  | none => pure .failed
  | some blockUndo =>
    if blockUndo.vtxundo.length + 1 ≠ block.vtx.length then pure .failed
    else do
      let result ← (disconnectTxs usage pindex.nHeight (!isBIP30Overwritten pindex)
        (undoPairs block blockUndo).reverse true).outcome
      match result with
      | .error () => pure .failed
      | .ok fClean => do
        let hashPrevBlock ← Action.ofOption
          ((pindex.prev? find).bind CBlockIndex.getBlockHash)
        setBestBlock hashPrevBlock
        pure (if fClean then .ok else .unclean)

end Disconnect

/-! ## What a transaction does to the coins -/

namespace CoinsMap

def without (coins : CoinsMap) (outpoints : List COutPoint) : CoinsMap := fun outpoint =>
  if outpoint ∈ outpoints then none else coins outpoint

def overlay (new old : CoinsMap) : CoinsMap := fun outpoint => (new outpoint).or (old outpoint)

theorem without_nil (coins : CoinsMap) : without coins [] = coins := by
  funext k
  exact if_neg List.not_mem_nil

theorem without_append_singleton (coins : CoinsMap) (outpoints : List COutPoint)
    (outpoint : COutPoint) :
    without coins (outpoints ++ [outpoint]) =
      Function.update (without coins outpoints) outpoint none := by
  funext k
  by_cases hk : k = outpoint
  · simp [without, hk]
  · simp [without, hk]

end CoinsMap

open CoinsMap

def outputCoins (txid : Uint256) (nHeight : Nat) (isCoinbase : Bool) : Nat → List CTxOut → CoinsMap
  | _, [] => fun _ => none
  | i, txout :: vout =>
    if isUnspendable txout.scriptPubKey then outputCoins txid nHeight isCoinbase (i + 1) vout
    else Function.update (outputCoins txid nHeight isCoinbase (i + 1) vout)
      ⟨txid, UInt32.ofNat i⟩ (some (.new txout nHeight isCoinbase))

namespace CTransaction

def created (tx : CTransaction) (nHeight : Nat) : CoinsMap :=
  outputCoins tx.getHash nHeight tx.isCoinBase 0 tx.vout

end CTransaction

section Outputs

variable {txid : Uint256} {nHeight : Nat} {isCoinbase : Bool} {i : Nat} {vout : List CTxOut}
  {outpoint : COutPoint}

private theorem toNat_index {i : Nat} (h : i < 2 ^ 32) : (UInt32.ofNat i).toNat = i :=
  UInt32.toNat_ofNat_of_lt' h

theorem outputCoins_index (hsize : i + vout.length ≤ 2 ^ 32) {coin : Coin}
    (h : outputCoins txid nHeight isCoinbase i vout outpoint = some coin) :
    i ≤ outpoint.n.toNat := by
  induction vout generalizing i with
  | nil => cases h
  | cons txout vout ih =>
    rw [List.length_cons] at hsize
    rw [outputCoins] at h
    split at h
    case isTrue => exact Nat.le_of_succ_le (ih (by omega) h)
    case isFalse =>
      rw [Function.update_apply] at h
      split at h
      case isTrue heq =>
        rw [heq]
        exact (toNat_index (by omega)).ge
      case isFalse => exact Nat.le_of_succ_le (ih (by omega) h)

theorem outputCoins_succ_self (hsize : i + (vout.length + 1) ≤ 2 ^ 32) :
    outputCoins txid nHeight isCoinbase (i + 1) vout ⟨txid, UInt32.ofNat i⟩ = none := by
  cases h : outputCoins txid nHeight isCoinbase (i + 1) vout ⟨txid, UInt32.ofNat i⟩ with
  | none => rfl
  | some coin =>
    have hindex := outputCoins_index (by omega) h
    rw [toNat_index (by omega)] at hindex
    omega

theorem outputCoins_eq_some {coin : Coin}
    (h : outputCoins txid nHeight isCoinbase i vout outpoint = some coin) :
    coin.nHeight = nHeight % 2 ^ 31 ∧ isUnspendable coin.out.scriptPubKey = false := by
  induction vout generalizing i with
  | nil => cases h
  | cons txout vout ih =>
    rw [outputCoins] at h
    split at h
    case isTrue => exact ih h
    case isFalse hscript =>
      rw [Function.update_apply] at h
      split at h
      case isTrue =>
        obtain rfl := Option.some.inj h
        exact ⟨rfl, Bool.eq_false_iff.mpr hscript⟩
      case isFalse => exact ih h

theorem spendOutputs_created {usage : Coin → Nat} (husage : usage .empty = 0)
    (hheight : nHeight < 2 ^ 31) (isBIP30Exception : Bool) {old : CoinsMap} {stack : CoinsStack}
    (hsize : i + vout.length ≤ 2 ^ 32) (hsane : stack.Sane usage)
    (hold : ∀ outpoint, (outputCoins txid nHeight isCoinbase i vout outpoint).isSome = true →
      old outpoint = none)
    (hview : stack.view = overlay (outputCoins txid nHeight isCoinbase i vout) old)
    (fClean : Bool) :
    ∃ stack', spendOutputs usage txid nHeight isCoinbase isBIP30Exception i vout fClean stack =
        some (fClean, stack') ∧ stack'.Sane usage ∧ stack'.view = old := by
  induction vout generalizing i stack fClean with
  | nil => exact ⟨stack, rfl, hsane, hview⟩
  | cons txout vout ih =>
    rw [List.length_cons] at hsize
    rw [spendOutputs]
    rw [outputCoins] at hview hold
    cases hscript : isUnspendable txout.scriptPubKey with
    | true =>
      rw [if_pos hscript] at hview hold
      rw [if_pos rfl]
      exact ih (by omega) hsane hold hview fClean
    | false =>
      rw [if_neg (by simp [hscript])] at hview hold
      rw [if_neg (by decide)]
      obtain ⟨isSpent, stack₁, hspend, hsane₁, hview₁, hanswer⟩ :=
        exists_spendCoin hsane husage ⟨txid, UInt32.ofNat i⟩
      have hcoin : stack.view ⟨txid, UInt32.ofNat i⟩ = some (.new txout nHeight isCoinbase) := by
        rw [hview, overlay, Function.update_self]
        rfl
      have hself := @outputCoins_succ_self txid nHeight isCoinbase i vout hsize
      have hold₁ : ∀ k, (outputCoins txid nHeight isCoinbase (i + 1) vout k).isSome = true →
          old k = none := by
        intro k hk
        refine hold k ?_
        rw [Function.update_apply]
        split
        case isTrue => rfl
        case isFalse => exact hk
      have hview₂ : stack₁.view =
          overlay (outputCoins txid nHeight isCoinbase (i + 1) vout) old := by
        funext k
        rw [hview₁, Function.update_apply, overlay]
        split
        case isTrue heq =>
          rw [heq, hself, Option.none_or]
          exact (hold _ (by rw [Function.update_self]; rfl)).symm
        case isFalse hne => rw [hview, overlay, Function.update_of_ne hne]
      rw [Action.bind_of hspend]
      have hmatch : isOutputCoin txout nHeight isCoinbase
          (isSpent, (stack.view ⟨txid, UInt32.ofNat i⟩).getD .empty) = true := by
        have hmod : nHeight % 2 ^ 31 = nHeight := Nat.mod_eq_of_lt hheight
        rw [hcoin] at hanswer ⊢
        simp only [isOutputCoin, hanswer rfl, Option.getD_some, Coin.new, hmod, beq_self_eq_true,
          Bool.and_self]
      rw [hmatch, Bool.true_or, Bool.and_true]
      exact ih (by omega) hsane₁ hold₁ hview₂ fClean

end Outputs

/-! ## Undoing one transaction -/

structure Coin.Restorable (coin : Coin) : Prop where
  value : moneyRange coin.amount = true
  height : coin.nHeight ≠ 0
  script : isUnspendable coin.out.scriptPubKey = false

variable {coin : Coin} {tx : CTransaction} {block : CBlock}

theorem Coin.Restorable.isSpent (h : coin.Restorable) : coin.isSpent = false :=
  isSpent_eq_false h.value

/-- `coins'` is what a transaction makes of `coins`, by consuming `spent`. -/
structure TxStep (nHeight : Nat) (coins : CoinsMap) (tx : CTransaction) (spent : List Coin)
    (coins' : CoinsMap) : Prop where
  nodup : tx.prevouts.Nodup
  size : tx.vout.length ≤ 2 ^ 32
  inputs : List.Forall₂ (fun outpoint coin => coins outpoint = some coin) tx.prevouts spent
  restorable : ∀ coin ∈ spent, coin.Restorable
  fresh : ∀ outpoint, (tx.created nHeight outpoint).isSome = true →
    without coins tx.prevouts outpoint = none
  result : coins' = overlay (tx.created nHeight) (without coins tx.prevouts)

section Undo

variable {usage : Coin → Nat} {stack : CoinsStack}

theorem applyTxInUndo_of_none (husage : usage .empty = 0) (hsane : stack.Sane usage) {coin : Coin}
    (hcoin : coin.Restorable) {out : COutPoint} (hnone : stack.view out = none) :
    ∃ stack', applyTxInUndo usage coin out stack = some (.ok, stack') ∧ stack'.Sane usage ∧
      stack'.view = Function.update stack.view out (some coin) := by
  obtain ⟨stack₁, hhave, hsane₁, hview₁⟩ := exists_haveCoin hsane out
  rw [hnone, Option.isSome_none] at hhave
  obtain ⟨stack₂, hadd, hsane₂, -, hview₂⟩ := exists_addCoin hsane₁ husage hcoin.isSpent
    (fun _ => (congrFun hview₁ out).trans hnone : false = false → stack₁.view out = none)
  refine ⟨stack₂, ?_, hsane₂, ?_⟩
  · rw [applyTxInUndo, Action.bind_of hhave, if_neg hcoin.height, restoreCoin, Action.bind_of hadd]
    rfl
  · rw [hview₂, if_neg (by simp [hcoin.script]), hview₁]

theorem restoreInputs_of_none (husage : usage .empty = 0) {inputs : List (COutPoint × Coin)}
    (hnodup : (inputs.map Prod.fst).Nodup) (hsane : stack.Sane usage)
    (hinputs : ∀ input ∈ inputs, stack.view input.1 = none ∧ input.2.Restorable) (fClean : Bool) :
    ∃ stack', restoreInputs usage inputs fClean stack = some (.ok fClean, stack') ∧
      stack'.Sane usage ∧ (∀ input ∈ inputs, stack'.view input.1 = some input.2) ∧
      ∀ outpoint ∉ inputs.map Prod.fst, stack'.view outpoint = stack.view outpoint := by
  induction inputs generalizing stack fClean with
  | nil => exact ⟨stack, rfl, hsane, nofun, fun _ _ => rfl⟩
  | cons input inputs ih =>
    obtain ⟨out, undo⟩ := input
    obtain ⟨hfirst, hnodup⟩ := List.nodup_cons.mp hnodup
    obtain ⟨⟨hnone, hundo⟩, hinputs⟩ := List.forall_mem_cons.mp hinputs
    obtain ⟨stack₁, happly, hsane₁, hview₁⟩ := applyTxInUndo_of_none husage hsane hundo hnone
    have hne : ∀ {input}, input ∈ inputs → input.1 ≠ out := fun hmem heq =>
      hfirst (List.mem_map.mpr ⟨_, hmem, heq⟩)
    have hinputs₁ : ∀ input ∈ inputs, stack₁.view input.1 = none ∧ input.2.Restorable := by
      intro input hmem
      rw [hview₁, Function.update_of_ne (hne hmem)]
      exact hinputs input hmem
    obtain ⟨stack₂, hrest, hsane₂, hfound, hother⟩ := ih hnodup hsane₁ hinputs₁ fClean
    refine ⟨stack₂, ?_, hsane₂, List.forall_mem_cons.mpr ⟨?_, hfound⟩, fun k hk => ?_⟩
    · rw [restoreInputs, Check.bind_of (Check.lift_of happly),
        Check.rejectIf_bind_of (by decide),
        show (fClean && DisconnectResult.ok != DisconnectResult.unclean) = fClean from
          Bool.and_true fClean]
      exact hrest
    · rw [hother out hfirst, hview₁, Function.update_self]
    · rw [List.map_cons, List.mem_cons, not_or] at hk
      rw [hother k hk.2, hview₁, Function.update_of_ne hk.1]

/-- The undo data of a transaction holds the coins it consumed; the first one has none. -/
def UndoOf (tx : CTransaction) (spent : List Coin) : Option CTxUndo → Prop
  | none => tx.prevouts = []
  | some txundo => tx.isCoinBase = false ∧ txundo.vprevout = spent

theorem disconnectTx_of_txStep (husage : usage .empty = 0) {nHeight : Nat}
    (hheight : nHeight < 2 ^ 31) {tx : CTransaction} {spent : List Coin} {coins coins' : CoinsMap}
    (hstep : TxStep nHeight coins tx spent coins') {txundo : Option CTxUndo}
    (hundo : UndoOf tx spent txundo) (hsane : stack.Sane usage) (hview : stack.view = coins')
    (fEnforceBIP30 fClean : Bool) :
    ∃ stack', disconnectTx usage nHeight fEnforceBIP30 tx txundo fClean stack =
        some (.ok fClean, stack') ∧ stack'.Sane usage ∧ stack'.view = coins := by
  obtain ⟨stack₁, houtputs, hsane₁, hview₁⟩ := spendOutputs_created husage hheight
    (tx.isCoinBase && !fEnforceBIP30) (by rw [Nat.zero_add]; exact hstep.size) hsane hstep.fresh
    (hview.trans hstep.result) fClean
  rw [disconnectTx, Check.bind_of (Check.lift_of houtputs)]
  cases txundo with
  | none =>
    refine ⟨stack₁, rfl, hsane₁, ?_⟩
    rw [hview₁, show tx.prevouts = [] from hundo, without_nil]
  | some txundo =>
    obtain ⟨hcoinbase, rfl⟩ := hundo
    have hprevouts : tx.prevouts = tx.vin.map CTxIn.prevout := if_neg (by simp [hcoinbase])
    have hlength := hstep.inputs.length_eq
    have hinputs := hstep.inputs
    have hnodup := hstep.nodup
    rw [hprevouts] at hinputs hlength hview₁ hnodup
    have hzip : ∀ input ∈ ((tx.vin.map CTxIn.prevout).zip txundo.vprevout).reverse,
        input.1 ∈ tx.vin.map CTxIn.prevout ∧ input.2 ∈ txundo.vprevout ∧
          coins input.1 = some input.2 := by
      intro input hmem
      have hmem := List.mem_reverse.mp hmem
      obtain ⟨hleft, hright⟩ := List.of_mem_zip hmem
      exact ⟨hleft, hright, (List.forall₂_iff_zip.mp hinputs).2 hmem⟩
    have hkeys : ((tx.vin.map CTxIn.prevout).zip txundo.vprevout).reverse.map Prod.fst =
        (tx.vin.map CTxIn.prevout).reverse := by
      rw [List.map_reverse, List.map_fst_zip hlength.le]
    obtain ⟨stack₂, hrestore, hsane₂, hfound, hother⟩ := restoreInputs_of_none husage
      (hkeys ▸ List.nodup_reverse.mpr hnodup) hsane₁ (fun input hmem => by
        obtain ⟨hleft, hright, -⟩ := hzip input hmem
        refine ⟨?_, hstep.restorable _ hright⟩
        rw [hview₁]
        exact if_pos hleft) fClean
    refine ⟨stack₂, ?_, hsane₂, ?_⟩
    · dsimp only
      rw [Check.rejectIf_bind_of (by rw [← hlength, List.length_map, bne_self_eq_false])]
      exact hrestore
    · funext k
      by_cases hk : k ∈ tx.vin.map CTxIn.prevout
      · obtain ⟨input, hmem, rfl⟩ : ∃ input ∈
            ((tx.vin.map CTxIn.prevout).zip txundo.vprevout).reverse, input.1 = k := by
          rw [← List.mem_reverse, ← hkeys] at hk
          exact List.mem_map.mp hk
        rw [hfound input hmem, (hzip input hmem).2.2]
      · rw [hother k (by rwa [hkeys, List.mem_reverse]), hview₁]
        exact if_neg hk

end Undo

/-! ## Connecting one transaction -/

/-- A stack on the way from `start`, after the coins of `touched` were spent: what the layers below
show and the top layer once held is still held there. -/
structure Along (usage : Coin → Nat) (start : CoinsStack) (touched : List COutPoint)
    (stack : CoinsStack) : Prop where
  sane : stack.Sane usage
  below : stack.below.view = start.below.view
  kept : ∀ {outpoint}, start.below.view outpoint ≠ none →
    start.top.cacheCoins.lookup outpoint ≠ none ∨ outpoint ∈ touched →
    stack.top.cacheCoins.lookup outpoint ≠ none

section Connect

variable {usage : Coin → Nat} {start stack stack' : CoinsStack} {touched : List COutPoint}

theorem Along.refl (h : start.Sane usage) : Along usage start [] start :=
  ⟨h, rfl, fun _ hheld => hheld.elim id fun hmem => absurd hmem List.not_mem_nil⟩

section
variable (h : Along usage start touched stack)
include h

theorem Along.grown (hgrown : Grown usage stack stack') : Along usage start touched stack' := by
  refine ⟨hgrown.sane h.sane, hgrown.coins.trans h.below, fun {k} hbelow hheld => ?_⟩
  obtain ⟨entry, hentry⟩ := Option.ne_none_iff_exists'.mp (h.kept hbelow hheld)
  rw [hgrown.keep hentry]
  exact nofun

variable {outpoint : COutPoint} {outpoints : List COutPoint} {coin : Coin}
  {entry : CCoinsCacheEntry} {coins : List Coin} {tx : CTransaction}

theorem Along.spend (husage : usage .empty = 0)
    (hentry : stack.top.cacheCoins.lookup outpoint = some entry) :
    Along usage start (touched ++ [outpoint]) (stack.spend usage outpoint) ∧
      (stack.spend usage outpoint).view = Function.update stack.view outpoint none := by
  obtain ⟨htop, hview, -⟩ := h.sane.top.spendFetched husage fun hnone =>
    absurd (hentry.symm.trans hnone) nofun
  refine ⟨⟨⟨htop, h.sane.below⟩, h.below, fun {k} hbelow hheld => ?_⟩, hview⟩
  rw [lookup_spend hentry]
  split
  case isTrue heq =>
    -- only an entry without a coin below is erased
    have hfresh : entry.isFresh ≠ true := by
      intro hfresh
      have hnone := ((h.sane.top.entry outpoint entry hentry).fresh hfresh).2
      rw [h.below, ← heq] at hnone
      exact hbelow hnone
    rw [if_neg hfresh]
    exact nofun
  case isFalse hne =>
    refine h.kept hbelow (hheld.imp_right fun hmem => ?_)
    exact (List.mem_append.mp hmem).resolve_right fun hlast => hne (List.mem_singleton.mp hlast)

theorem Along.view_eq_none (hscript : isUnspendable coin.out.scriptPubKey = false)
    (hstart : start.view outpoint = none ∨ outpoint ∈ touched)
    (hadd : addCoin usage outpoint coin false stack = some ((), stack')) :
    stack.view outpoint = none := by
  obtain ⟨top, htop, -⟩ := Option.bind_eq_some_iff.mp hadd
  obtain ⟨-, hspent, -⟩ := lookup_addCoin hscript htop
  cases hentry : stack.top.cacheCoins.lookup outpoint with
  | some entry =>
    rw [hentry] at hspent
    rw [CoinsStack.view, view_of_some hentry, value_eq_none_iff]
    exact hspent rfl
  | none =>
    rw [CoinsStack.view, view_of_none hentry, h.below]
    by_contra hbelow
    -- the coin below was visible from the start, so it was spent since, and is held
    have hfree : start.top.cacheCoins.lookup outpoint = none := by
      by_contra hheld
      exact h.kept hbelow (.inl hheld) hentry
    rw [CoinsStack.view, view_of_none hfree] at hstart
    exact h.kept hbelow (.inr (hstart.resolve_left hbelow)) hentry

theorem Along.addCoin (husage : usage .empty = 0) {possibleOverwrite : Bool}
    (hscript : isUnspendable coin.out.scriptPubKey = false) (hnone : stack.view outpoint = none)
    (hadd : addCoin usage outpoint coin possibleOverwrite stack = some ((), stack')) :
    Along usage start touched stack' ∧
      stack'.view = Function.update stack.view outpoint (some coin) := by
  obtain ⟨top, htop, hstack⟩ := Option.bind_eq_some_iff.mp hadd
  obtain ⟨hcoin, -, hlookup⟩ := lookup_addCoin hscript htop
  obtain ⟨-, rfl⟩ := Prod.mk.inj (Option.some.inj hstack)
  obtain ⟨stack₁, hadd₁, hsane, -, hview⟩ := exists_addCoin h.sane husage hcoin
    (fun _ => hnone : possibleOverwrite = false → stack.view outpoint = none)
  obtain ⟨-, rfl⟩ := Prod.mk.inj (Option.some.inj (hadd.symm.trans hadd₁))
  refine ⟨⟨hsane, h.below, fun {k} hbelow hheld => ?_⟩, ?_⟩
  · dsimp only
    rw [hlookup k]
    split
    case isTrue => exact nofun
    case isFalse => exact h.kept hbelow hheld
  · rw [hview, if_neg (by simp [hscript])]

end

theorem forall₂_view_of_holding (h : stack.Holding outpoints coins) :
    List.Forall₂ (fun outpoint coin => stack.view outpoint = some coin) outpoints coins :=
  h.imp fun _ _ ⟨_, hentry, hcoin, hunspent⟩ => by
    rw [CoinsStack.view, view_of_some hentry]
    exact value_eq_some_iff.mpr ⟨hcoin, hcoin ▸ hunspent⟩

theorem exists_outpoint {coins : CoinsMap} {spent : List Coin}
    (h : List.Forall₂ (fun outpoint coin => coins outpoint = some coin) outpoints spent)
    (hmem : coin ∈ spent) : ∃ outpoint, coins outpoint = some coin := by
  induction h with
  | nil => cases hmem
  | @cons outpoint first _ _ hfirst _ ih =>
    rcases List.mem_cons.mp hmem with rfl | hrest
    · exact ⟨outpoint, hfirst⟩
    · exact ih hrest

def Spending (usage : Coin → Nat) (start : CoinsStack) (touched : List COutPoint)
    (coins : CoinsMap) (prevouts outpoints : List COutPoint) (stack : CoinsStack) : Prop :=
  ∃ done, done ++ outpoints = prevouts ∧ Along usage start (touched ++ done) stack ∧
    stack.view = without coins done

theorem Spending.spend {coins : CoinsMap} {prevouts : List COutPoint} (husage : usage .empty = 0)
    (h : Spending usage start touched coins prevouts (outpoint :: outpoints) stack)
    (hentry : stack.top.cacheCoins.lookup outpoint = some entry) :
    Spending usage start touched coins prevouts outpoints (stack.spend usage outpoint) := by
  obtain ⟨done, hdone, halong, hview⟩ := h
  obtain ⟨halong', hview'⟩ := halong.spend husage hentry
  refine ⟨done ++ [outpoint], by rw [List.append_assoc]; exact hdone, ?_, ?_⟩
  · rw [← List.append_assoc]
    exact halong'
  · rw [hview', hview, without_append_singleton]

/-- Some of the outputs of a transaction are added to the coins `old`, and were new; `vout` from
output `i` on are left. -/
structure Adding (usage : Coin → Nat) (start : CoinsStack) (touched : List COutPoint)
    (tx : CTransaction) (nHeight : Nat) (old : CoinsMap) (i : Nat) (vout : List CTxOut)
    (stack : CoinsStack) : Prop where
  size : i + vout.length ≤ 2 ^ 32
  along : Along usage start touched stack
  left : ∀ outpoint, (outputCoins tx.getHash nHeight tx.isCoinBase i vout outpoint).isSome = true →
    (tx.created nHeight outpoint).isSome = true ∧ stack.view outpoint = old outpoint
  added : ∀ outpoint, (tx.created nHeight outpoint).isSome = true →
    outputCoins tx.getHash nHeight tx.isCoinBase i vout outpoint = none → old outpoint = none
  view : overlay (outputCoins tx.getHash nHeight tx.isCoinBase i vout) stack.view =
    overlay (tx.created nHeight) old

theorem Adding.add {nHeight : Nat} {old : CoinsMap} {i : Nat} {txout : CTxOut}
    {vout : List CTxOut} (husage : usage .empty = 0)
    (hcoinbase : tx.isCoinBase = true → ∀ outpoint, (tx.created nHeight outpoint).isSome = true →
      old outpoint = none)
    (hstart : ∀ outpoint, (tx.created nHeight outpoint).isSome = true →
      start.view outpoint = none ∨ outpoint ∈ touched)
    (h : Adding usage start touched tx nHeight old i (txout :: vout) stack)
    (hadd : addCoin usage ⟨tx.getHash, UInt32.ofNat i⟩ (.new txout nHeight tx.isCoinBase)
      tx.isCoinBase stack = some ((), stack')) :
    Adding usage start touched tx nHeight old (i + 1) vout stack' := by
  obtain ⟨hsize, halong, hleft, hadded, hview⟩ := h
  rw [List.length_cons] at hsize
  rw [outputCoins] at hview hleft hadded
  cases hscript : isUnspendable txout.scriptPubKey with
  | true =>
    rw [if_pos hscript] at hview hleft hadded
    obtain ⟨top, htop, hstack⟩ := Option.bind_eq_some_iff.mp hadd
    rw [CCoinsViewCache.addCoin] at htop
    split at htop
    case isTrue => cases htop
    case isFalse =>
      rw [if_pos (show isUnspendable (Coin.new txout nHeight tx.isCoinBase).out.scriptPubKey = true
        from hscript)] at htop
      obtain rfl := Option.some.inj htop
      obtain ⟨-, rfl⟩ := Prod.mk.inj (Option.some.inj hstack)
      exact ⟨by omega, halong, hleft, hadded, hview⟩
  | false =>
    rw [if_neg (by simp [hscript])] at hview
    simp only [hscript, Bool.false_eq_true, if_false] at hleft hadded
    have hself := @outputCoins_succ_self tx.getHash nHeight tx.isCoinBase i vout hsize
    obtain ⟨hcreated, hsame⟩ := hleft ⟨tx.getHash, UInt32.ofNat i⟩ (by
      rw [Function.update_self]
      rfl)
    have hnone : stack.view ⟨tx.getHash, UInt32.ofNat i⟩ = none := by
      cases htx : tx.isCoinBase with
      | true => exact hsame.trans (hcoinbase htx _ hcreated)
      | false =>
        rw [htx] at hadd
        exact halong.view_eq_none hscript (hstart _ hcreated) hadd
    obtain ⟨halong', hview'⟩ := halong.addCoin husage hscript hnone hadd
    refine ⟨by omega, halong', fun k hk => ?_, fun k hk hknone => ?_, ?_⟩
    · have hne : k ≠ ⟨tx.getHash, UInt32.ofNat i⟩ := by
        rintro rfl
        rw [hself] at hk
        cases hk
      rw [hview', Function.update_of_ne hne]
      refine hleft k ?_
      rw [Function.update_of_ne hne]
      exact hk
    · by_cases heq : k = ⟨tx.getHash, UInt32.ofNat i⟩
      · rw [heq, ← hsame, hnone]
      · refine hadded k hk ?_
        rw [Function.update_of_ne heq]
        exact hknone
    · rw [← hview]
      funext k
      rw [overlay, overlay, hview', Function.update_apply, Function.update_apply]
      split
      case isTrue heq => rw [heq, hself, Option.none_or, Option.some_or]
      case isFalse => rfl

theorem Along.updateCoins (h : Along usage start touched stack) (husage : usage .empty = 0)
    {nHeight : Nat} {txundo : CTxUndo}
    (hnodup : (tx.vin.map CTxIn.prevout).Nodup) (hsize : tx.vout.length ≤ 2 ^ 32)
    (hold : stack.Holding tx.prevouts coins)
    (hcoinbase : tx.isCoinBase = true → ∀ outpoint, (tx.created nHeight outpoint).isSome = true →
      stack.view outpoint = none)
    (hstart : ∀ outpoint, (tx.created nHeight outpoint).isSome = true →
      start.view outpoint = none ∨ outpoint ∈ touched ++ tx.prevouts)
    (hrun : updateCoins usage tx nHeight stack = some (txundo, stack')) :
    txundo = ⟨coins⟩ ∧ Along usage start (touched ++ tx.prevouts) stack' ∧
      (∀ outpoint, (tx.created nHeight outpoint).isSome = true →
        without stack.view tx.prevouts outpoint = none) ∧
      stack'.view = overlay (tx.created nHeight) (without stack.view tx.prevouts) := by
  have hcoinbase' : tx.isCoinBase = true → ∀ outpoint,
      (tx.created nHeight outpoint).isSome = true →
      without stack.view tx.prevouts outpoint = none := by
    intro htx k hk
    rw [without, hcoinbase htx k hk, ite_self]
  have hbetween : ∀ {stack₁}, Spending usage start touched stack.view tx.prevouts [] stack₁ →
      Adding usage start (touched ++ tx.prevouts) tx nHeight (without stack.view tx.prevouts) 0
        tx.vout stack₁ := by
    rintro stack₁ ⟨done, hdone, halong, hview⟩
    rw [List.append_nil] at hdone
    subst hdone
    refine ⟨by rw [Nat.zero_add]; exact hsize, halong, fun k hk => ⟨hk, ?_⟩, fun k hk hnone => ?_, ?_⟩
    · rw [hview]
    · rw [CTransaction.created, hnone] at hk
      cases hk
    · rw [hview]
      rfl
  obtain ⟨rfl, hend⟩ := updateCoins_rule
    (M := fun outpoints _ => Spending usage start touched stack.view tx.prevouts outpoints)
    (fun hspending hentry _ => hspending.spend husage hentry) hbetween
    (fun hadding hadd => hadding.add husage hcoinbase' hstart hadd) hnodup hold
    ⟨[], rfl, by rw [List.append_nil]; exact h, (without_nil _).symm⟩ hrun
  exact ⟨rfl, hend.along, fun k hk => hend.added k hk rfl, hend.view⟩

end Connect

/-! ## Blocks -/

def UtxoCoins (coins : CoinsMap) : Prop := ∀ outpoint coin, coins outpoint = some coin →
  coin.nHeight ≠ 0 ∧ isUnspendable coin.out.scriptPubKey = false

variable {coins' : CoinsMap} {vtx : List CTransaction} {spent : List (List Coin)} {coins : CoinsMap}
  {nHeight : Nat}

theorem TxStep.utxoCoins (hpos : nHeight ≠ 0) (hheight : nHeight < 2 ^ 31) {spent : List Coin}
    (h : TxStep nHeight coins tx spent coins') (hcoins : UtxoCoins coins) : UtxoCoins coins' := by
  intro k coin hcoin
  rw [h.result, overlay] at hcoin
  cases hnew : tx.created nHeight k with
  | some coin' =>
    rw [hnew, Option.some_or] at hcoin
    obtain rfl := Option.some.inj hcoin
    obtain ⟨hnHeight, hscript⟩ := outputCoins_eq_some hnew
    rw [hnHeight, Nat.mod_eq_of_lt hheight]
    exact ⟨hpos, hscript⟩
  | none =>
    rw [hnew, Option.none_or, without] at hcoin
    split at hcoin
    case isTrue => cases hcoin
    case isFalse => exact hcoins k coin hcoin

/-- No output of a transaction replaces a coin of `coins`, unless the block has spent it. -/
def OverwritesNothing (nHeight : Nat) (coins : CoinsMap) (vtx : List CTransaction) : Prop :=
  ∀ before tx after, vtx = before ++ tx :: after → ∀ outpoint,
    (tx.created nHeight outpoint).isSome = true →
    coins outpoint = none ∨ outpoint ∈ (before ++ [tx]).flatMap CTransaction.prevouts

def TxSteps (nHeight : Nat) : CoinsMap → List CTransaction → List (List Coin) → CoinsMap → Prop
  | coins, [], [], coins' => coins' = coins
  | coins, tx :: vtx, spent :: rest, coins' =>
    ∃ mid, TxStep nHeight coins tx spent mid ∧ TxSteps nHeight mid vtx rest coins'
  | _, _, _, _ => False

section Connect

variable {env : ConnectEnv} {pindex : CBlockIndex} {start stack stack' : CoinsStack}
  {touched : List COutPoint} {tally tally' : ConnectTally}

theorem Along.connectTx (h : Along env.usage start touched stack) (husage : env.usage .empty = 0)
    {isFirst : Bool} {tx : CTransaction} (hcheck : checkTransaction tx = .ok ())
    (hfees : moneyRange tally.nFees.toInt = true) (hcoins : UtxoCoins stack.view)
    (hcoinbase : tx.isCoinBase = true → ∀ outpoint,
      (tx.created pindex.nHeight outpoint).isSome = true → stack.view outpoint = none)
    (hstart : ∀ outpoint, (tx.created pindex.nHeight outpoint).isSome = true →
      start.view outpoint = none ∨ outpoint ∈ touched ++ tx.prevouts)
    (hrun : HcsCoin.connectTx env pindex isFirst tx tally stack = some (.ok tally', stack')) :
    ∃ spent, TxStep pindex.nHeight stack.view tx spent stack'.view ∧
      Along env.usage start (touched ++ tx.prevouts) stack' ∧
      tally'.vtxundo = (if isFirst then tally.vtxundo else tally.vtxundo ++ [⟨spent⟩]) ∧
      moneyRange tally'.nFees.toInt = true := by
  obtain ⟨stack₁, spent, txundo, hgrown, hold, hupdate, hundo, hfirst, hpaid⟩ :=
    connectTx_ok h.sane.below hfees hrun
  obtain ⟨-, hnodup⟩ := checkTransaction_ok_amounts hcheck
  obtain ⟨-, hsize⟩ := checkTransaction_ok_sizes hcheck
  have hsize' : tx.vout.length ≤ 2 ^ 32 := hsize.trans (by norm_num)
  have hview := hgrown.view_eq h.sane.below.unspent
  rw [← hview] at hcoinbase hcoins ⊢
  obtain ⟨rfl, halong, hfresh, hresult⟩ := (h.grown hgrown).updateCoins husage hnodup hsize' hold
    hcoinbase hstart hupdate
  have hinputs := forall₂_view_of_holding hold
  have hprevouts : tx.prevouts.Nodup := by
    rw [CTransaction.prevouts]
    split
    case isTrue => exact List.nodup_nil
    case isFalse => exact hnodup
  refine ⟨spent, ⟨hprevouts, hsize', hinputs, fun coin hmem => ?_, hfresh, hresult⟩, halong, hundo,
    ?_⟩
  · obtain ⟨outpoint, hcoin⟩ := exists_outpoint hinputs hmem
    obtain ⟨hheight, hscript⟩ := hcoins outpoint coin hcoin
    refine ⟨?_, hheight, hscript⟩
    cases htx : tx.isCoinBase with
    | true =>
      rw [CTransaction.prevouts, if_pos htx] at hinputs
      rw [List.forall₂_nil_left_iff.mp hinputs] at hmem
      cases hmem
    | false => exact (hpaid htx).1.values coin hmem
  · cases htx : tx.isCoinBase with
    | true => rw [hfirst htx]; exact hfees
    | false => exact (hpaid htx).2.2

theorem Along.connectTxs (h : Along env.usage start touched stack) (husage : env.usage .empty = 0)
    (hpos : pindex.nHeight ≠ 0) (hheight : pindex.nHeight < 2 ^ 31) {vtx : List CTransaction}
    (hchecks : ∀ tx ∈ vtx, checkTransaction tx = .ok () ∧ tx.isCoinBase = false)
    (hfees : moneyRange tally.nFees.toInt = true) (hcoins : UtxoCoins stack.view)
    (hstart : ∀ before tx after, vtx = before ++ tx :: after → ∀ outpoint,
      (tx.created pindex.nHeight outpoint).isSome = true → start.view outpoint = none ∨
        outpoint ∈ touched ++ (before ++ [tx]).flatMap CTransaction.prevouts)
    (hrun : HcsCoin.connectTxs env pindex false vtx tally stack = some (.ok tally', stack')) :
    ∃ spent, TxSteps pindex.nHeight stack.view vtx spent stack'.view ∧ stack'.Sane env.usage ∧
      tally'.vtxundo = tally.vtxundo ++ spent.map CTxUndo.mk := by
  induction vtx generalizing stack touched tally with
  | nil =>
    obtain ⟨rfl, rfl⟩ := Check.pure_iff.mp hrun
    exact ⟨[], rfl, h.sane, (List.append_nil _).symm⟩
  | cons tx vtx ih =>
    obtain ⟨⟨hcheck, hcoinbase⟩, hchecks⟩ := List.forall_mem_cons.mp hchecks
    obtain ⟨tally₁, stack₁, hfirst, hrest⟩ := Check.bind_iff.mp hrun
    obtain ⟨spent, hstep, halong, hundo, hfees₁⟩ := h.connectTx husage hcheck hfees hcoins
      (fun htx => absurd htx (by simp [hcoinbase]))
      (fun k hk => by simpa using hstart [] tx vtx rfl k hk) hfirst
    obtain ⟨rest, hsteps, hsane, hundo'⟩ := ih halong hchecks hfees₁
      (hstep.utxoCoins hpos hheight hcoins) (fun before tx' after hsplit k hk => by
        have hk' := hstart (tx :: before) tx' after (by rw [hsplit]; rfl) k hk
        rw [List.cons_append, List.flatMap_cons] at hk'
        rwa [List.append_assoc]) hrest
    refine ⟨spent :: rest, ⟨stack₁.view, hstep, hsteps⟩, hsane, ?_⟩
    rw [hundo', hundo, if_neg (by decide), List.append_assoc]
    rfl

end Connect

section Disconnect

variable {usage : Coin → Nat} {nHeight : Nat} {fEnforceBIP30 : Bool} {stack stack' : CoinsStack}

theorem disconnectTxs_append {first rest : List (CTransaction × Option CTxUndo)}
    {fClean fClean' : Bool} (h : disconnectTxs usage nHeight fEnforceBIP30 first fClean stack =
      some (.ok fClean', stack')) :
    disconnectTxs usage nHeight fEnforceBIP30 (first ++ rest) fClean stack =
      disconnectTxs usage nHeight fEnforceBIP30 rest fClean' stack' := by
  induction first generalizing fClean stack with
  | nil =>
    obtain ⟨rfl, rfl⟩ := Check.pure_iff.mp h
    rfl
  | cons pair first ih =>
    obtain ⟨tx, txundo⟩ := pair
    obtain ⟨fClean₁, stack₁, htx, hfirst⟩ := Check.bind_iff.mp h
    rw [List.cons_append, disconnectTxs, Check.bind_of htx]
    exact ih hfirst

theorem disconnectTxs_of_txSteps (husage : usage .empty = 0) (hheight : nHeight < 2 ^ 31)
    {vtx : List CTransaction} {spent : List (List Coin)} {undos : List (Option CTxUndo)}
    {coins coins' : CoinsMap} (hsteps : TxSteps nHeight coins vtx spent coins')
    (hundos : List.Forall₂ (fun entry undo => UndoOf entry.1 entry.2 undo) (vtx.zip spent) undos)
    (hsane : stack.Sane usage) (hview : stack.view = coins') (fEnforceBIP30 fClean : Bool) :
    ∃ stack', disconnectTxs usage nHeight fEnforceBIP30 (vtx.zip undos).reverse fClean stack =
        some (.ok fClean, stack') ∧ stack'.Sane usage ∧ stack'.view = coins := by
  induction vtx generalizing coins spent undos with
  | nil =>
    cases spent with
    | nil => exact ⟨stack, rfl, hsane, hview.trans hsteps⟩
    | cons => exact hsteps.elim
  | cons tx vtx ih =>
    cases spent with
    | nil => exact hsteps.elim
    | cons first spent =>
      obtain ⟨mid, hstep, hsteps⟩ := hsteps
      obtain ⟨undo, undos, hundo, hundos', rfl⟩ := List.forall₂_cons_left_iff.mp hundos
      obtain ⟨stack₁, hrest, hsane₁, hview₁⟩ := ih hsteps hundos'
      obtain ⟨stack₂, hfirst, hsane₂, hview₂⟩ := disconnectTx_of_txStep husage hheight hstep
        hundo hsane₁ hview₁ fEnforceBIP30 fClean
      refine ⟨stack₂, ?_, hsane₂, hview₂⟩
      rw [List.zip_cons_cons, List.reverse_cons, disconnectTxs_append hrest, disconnectTxs,
        Check.bind_of hfirst]
      rfl

end Disconnect

theorem txSteps_of_connectBlock {env : ConnectEnv} {params : ChainstateParams}
    {pindex : CBlockIndex} {flags : BlockFlags} {stack stack' : CoinsStack}
    {blockundo : CBlockUndo} (husage : env.usage .empty = 0) (hpos : pindex.nHeight ≠ 0)
    (hheight : pindex.nHeight < 2 ^ 31) (hsane : stack.Sane env.usage)
    (hcoins : UtxoCoins stack.view)
    (hflags : flags.fChecked = true → checkBlockContents block = .ok ())
    (hover : OverwritesNothing pindex.nHeight stack.view block.vtx)
    (h : connectBlock env params pindex block flags false stack =
      some (.ok (some blockundo), stack')) :
    checkBlockContents block = .ok () ∧ stack'.Sane env.usage ∧
      ∃ tx vtx spent, block.vtx = tx :: vtx ∧ tx.isCoinBase = true ∧
        (∀ tx ∈ vtx, tx.isCoinBase = false) ∧ blockundo = ⟨spent.map CTxUndo.mk⟩ ∧
        TxSteps pindex.nHeight stack.view block.vtx ([] :: spent) stack'.view := by
  obtain ⟨stack₁, stack₂, hash, hgrown, hcontents, rfl, hcases⟩ := connectBlock_ok hsane.below h
  replace hcontents : checkBlockContents block = .ok () := hcontents.elim hflags id
  obtain ⟨-, hnone, -⟩ | ⟨-, blockundo', hconnect, hundo⟩ := hcases
  case inl => cases hnone
  obtain rfl := hundo blockundo rfl
  obtain ⟨stack₃, tally, valueOut, hgrown₁, htxs, rfl, -⟩ := connectContents_ok hgrown.below hconnect
  have hgrown₂ := hgrown.trans hgrown₁
  have hview := hgrown₂.view_eq hsane.below.unspent
  obtain ⟨tx, vtx, hvtx, hcoinbase, hothers⟩ :=
    checkCoinBasePlacement_ok (checkBlockContents_ok_iff.mp hcontents).2.1
  have hchecks : ∀ tx ∈ block.vtx, checkTransaction tx = .ok () := fun tx =>
    checkTransaction_of_checkBlockContents hcontents
  have hprevouts : tx.prevouts = [] := if_pos hcoinbase
  rw [hvtx] at htxs hchecks hover
  rw [← hview] at hcoins hover
  obtain ⟨tally₁, stack₄, hfirst, hrest⟩ := Check.bind_iff.mp htxs
  have halong := Along.refl (hgrown₂.sane hsane)
  have hnew : ∀ k, (tx.created pindex.nHeight k).isSome = true → stack₃.view k = none := by
    intro k hk
    have hk' := hover [] tx vtx rfl k hk
    rw [List.nil_append, List.flatMap_singleton, hprevouts] at hk'
    exact hk'.resolve_right List.not_mem_nil
  obtain ⟨spent, hstep, halong₁, hundo₁, hfees⟩ := halong.connectTx husage
    (hchecks tx List.mem_cons_self) (by decide) hcoins (fun _ => hnew)
    (fun k hk => .inl (hnew k hk)) hfirst
  obtain ⟨rest, hsteps, hsane₁, hundo₂⟩ := halong₁.connectTxs husage hpos hheight
    (fun tx' hmem => ⟨hchecks tx' (List.mem_cons_of_mem _ hmem), hothers tx' hmem⟩) hfees
    (hstep.utxoCoins hpos hheight hcoins) (fun before tx' after hsplit k hk => by
      have hk' := hover (tx :: before) tx' after (by rw [hsplit]; rfl) k hk
      rwa [List.cons_append, List.flatMap_cons] at hk') hrest
  have hnil : spent = [] := by
    have hinputs := hstep.inputs
    rw [hprevouts] at hinputs
    exact List.forall₂_nil_left_iff.mp hinputs
  rw [hundo₁, if_pos rfl, List.nil_append] at hundo₂
  refine ⟨hcontents, ⟨hsane₁.top.setBlockHash _, hsane₁.below⟩, tx, vtx, rest, hvtx, hcoinbase,
    hothers, congrArg CBlockUndo.mk hundo₂, ?_⟩
  rw [hvtx, ← hview]
  exact ⟨stack₄.view, hnil ▸ hstep, hsteps⟩

theorem TxSteps.utxoCoins (hpos : nHeight ≠ 0) (hheight : nHeight < 2 ^ 31)
    (h : TxSteps nHeight coins vtx spent coins') (hcoins : UtxoCoins coins) : UtxoCoins coins' := by
  fun_induction TxSteps nHeight coins vtx spent coins' with
  | case1 => exact h ▸ hcoins
  | case2 _ _ _ _ _ _ ih =>
    obtain ⟨mid, hstep, hsteps⟩ := h
    exact ih mid hsteps (hstep.utxoCoins hpos hheight hcoins)
  | case3 => exact h.elim

theorem TxSteps.restorable (h : TxSteps nHeight coins vtx spent coins') :
    List.Forall₂ (fun tx spent => spent.length = tx.prevouts.length ∧
      ∀ coin ∈ spent, coin.Restorable) vtx spent := by
  fun_induction TxSteps nHeight coins vtx spent coins' with
  | case1 => exact .nil
  | case2 _ _ _ _ _ _ ih =>
    obtain ⟨mid, hstep, hsteps⟩ := h
    exact .cons ⟨hstep.inputs.length_eq.symm, hstep.restorable⟩ (ih mid hsteps)
  | case3 => exact h.elim

theorem Coin.Restorable.storable (h : coin.Restorable) : coin.Storable := by
  refine ⟨h.value, ?_⟩
  have hscript := h.script
  rw [isUnspendable, Bool.or_eq_false_iff, decide_eq_false_iff_not] at hscript
  exact Nat.le_of_not_lt hscript.2

theorem decodes_undo_of_txSteps {ops : PubKeyOps} (hops : ops.Inverts)
    (hcontents : checkBlockContents block = .ok ()) (hvtx : block.vtx = tx :: vtx)
    (hspent : List.Forall₂ (fun tx spent => spent.length = tx.prevouts.length ∧
      ∀ coin ∈ spent, coin.Restorable) vtx spent) :
    Decodes (readBlockUndo ops) (serBlockUndo ops ⟨spent.map CTxUndo.mk⟩)
      ⟨spent.map CTxUndo.mk⟩ := by
  have hall : ∀ txundo ∈ spent.map CTxUndo.mk, ∃ tx ∈ vtx,
      txundo.vprevout.length = tx.prevouts.length ∧ ∀ coin ∈ txundo.vprevout, coin.Restorable := by
    clear hvtx
    induction hspent with
    | nil => exact nofun
    | @cons tx first vtx rest hfirst _ ih =>
      refine List.forall_mem_cons.mpr ⟨⟨tx, List.mem_cons_self, hfirst⟩, fun txundo hmem => ?_⟩
      obtain ⟨tx', hmem', htx'⟩ := ih txundo hmem
      exact ⟨tx', List.mem_cons_of_mem _ hmem', htx'⟩
  refine decodes_readBlockUndo hops ?_ (fun txundo hmem => ?_) fun txundo hmem coin hcoin => ?_
  · have hblock := ((checkBlockSize_ok_iff.mp (checkBlockContents_ok_iff.mp hcontents).1)).2.1
    rw [hvtx, List.length_cons, WITNESS_SCALE_FACTOR, MAX_BLOCK_WEIGHT] at hblock
    rw [List.length_map, ← hspent.length_eq, MAX_SIZE]
    omega
  · obtain ⟨tx', hmem', hlength, -⟩ := hall txundo hmem
    have htx := checkTransaction_of_checkBlockContents hcontents
      (hvtx ▸ List.mem_cons_of_mem tx hmem')
    have hsize := (checkTransaction_ok_sizes htx).1
    have hprevouts : tx'.prevouts.length ≤ tx'.vin.length := by
      rw [CTransaction.prevouts]
      split
      case isTrue => exact Nat.zero_le _
      case isFalse => rw [List.length_map]
    rw [MAX_SIZE]
    omega
  · obtain ⟨tx', -, -, hcoins⟩ := hall txundo hmem
    exact (hcoins coin hcoin).storable

theorem undoOf_zip
    (hlength : vtx.length = spent.length) (hothers : ∀ tx ∈ vtx, tx.isCoinBase = false) :
    List.Forall₂ (fun entry undo => UndoOf entry.1 entry.2 undo) (vtx.zip spent)
      ((spent.map CTxUndo.mk).map some) := by
  induction vtx generalizing spent with
  | nil =>
    obtain rfl := List.length_eq_zero_iff.mp hlength.symm
    exact .nil
  | cons tx vtx ih =>
    cases spent with
    | nil => cases hlength
    | cons first spent =>
      obtain ⟨htx, hothers⟩ := List.forall_mem_cons.mp hothers
      exact .cons ⟨htx, rfl⟩ (ih (Nat.succ.inj hlength) hothers)

/-- A block that was connected without overwriting a coin is disconnected cleanly: its undo data
survives the undo file, and wherever its coins are shown, the old ones come back. -/
theorem disconnectBlock_connectBlock (env : ConnectEnv) (params : ChainstateParams)
    (ops : PubKeyOps) (hops : ops.Inverts) (husage : env.usage .empty = 0)
    (pindex prev : CBlockIndex) (hashPrevBlock : Uint256)
    (hprev : pindex.prev? env.find = some prev) (hhash : prev.phashBlock = some hashPrevBlock)
    (hheight : pindex.nHeight = prev.nHeight + 1) (hint : pindex.nHeight < 2 ^ 31)
    (stack stack' : CoinsStack) (hsane : stack.Sane env.usage) (hcoins : UtxoCoins stack.view)
    (block : CBlock) (flags : BlockFlags)
    (hflags : flags.fChecked = true → checkBlockContents block = .ok ())
    (hover : OverwritesNothing pindex.nHeight stack.view block.vtx) (blockundo : CBlockUndo)
    (haccept : connectBlock env params pindex block flags false stack =
      some (.ok (some blockundo), stack')) :
    stack'.Sane env.usage ∧ UtxoCoins stack'.view ∧
      ∀ rest, ∃ undo,
        (readBlockUndo ops).run (serBlockUndo ops blockundo ++ rest) = .ok (undo, rest) ∧
        ∀ later : CoinsStack, later.Sane env.usage → later.view = stack'.view →
          ∃ stack'', disconnectBlock env.usage env.find block pindex (some undo) later =
              some (.ok, stack'') ∧
            stack''.Sane env.usage ∧ stack''.view = stack.view ∧
            stack''.top.mBlockHash = hashPrevBlock := by
  have hpos : pindex.nHeight ≠ 0 := by omega
  obtain ⟨hcontents, hsane', tx, vtx, spent, hvtx, hcoinbase, hothers, rfl, hsteps⟩ :=
    txSteps_of_connectBlock husage hpos hint hsane hcoins hflags hover haccept
  have hrestorable := hsteps.restorable
  rw [hvtx] at hrestorable
  obtain ⟨-, hspent⟩ := List.forall₂_cons.mp hrestorable
  refine ⟨hsane', hsteps.utxoCoins hpos hint hcoins, fun rest => ⟨_,
    decodes_undo_of_txSteps hops hcontents hvtx hspent rest,
    fun later hlater hview => ?_⟩⟩
  have hundos : List.Forall₂ (fun entry undo => UndoOf entry.1 entry.2 undo)
      (block.vtx.zip ([] :: spent)) (none :: (spent.map CTxUndo.mk).map some) := by
    rw [hvtx]
    exact .cons (if_pos hcoinbase : tx.prevouts = []) (undoOf_zip hspent.length_eq hothers)
  obtain ⟨stack₁, hrun, hsane₁, hview₁⟩ := disconnectTxs_of_txSteps
    husage hint hsteps hundos hlater hview (!isBIP30Overwritten pindex) true
  refine ⟨{ stack₁ with top := { stack₁.top with mBlockHash := hashPrevBlock } }, ?_,
    ⟨hsane₁.top.setBlockHash _, hsane₁.below⟩, hview₁, rfl⟩
  have hlength : ¬ (spent.map CTxUndo.mk).length + 1 ≠ block.vtx.length := by
    rw [List.length_map, hvtx, List.length_cons, hspent.length_eq]
    exact not_not_intro rfl
  have hparent : (pindex.prev? env.find).bind CBlockIndex.getBlockHash = some hashPrevBlock := by
    rw [hprev]
    exact hhash
  have houtcome : (disconnectTxs env.usage pindex.nHeight (!isBIP30Overwritten pindex)
      (undoPairs block ⟨spent.map CTxUndo.mk⟩).reverse true).outcome later =
        some (.ok true, stack₁) := hrun
  rw [disconnectBlock, if_neg hlength, Action.bind_of houtcome]
  dsimp only
  rw [Action.bind_of (Action.ofOption_iff.mpr ⟨hparent, rfl⟩),
    Action.bind_of ((setBestBlock_iff (u := ())).mpr rfl)]
  rfl

section Example

private def noKeys : PubKeyOps where
  isFullyValid _ := false
  decompress _ := none
  decompress_size h := nomatch h

private theorem spendingBlock_overwrites_nothing :
    OverwritesNothing spendingIndex.nHeight paidStack.view spendingBlock.vtx := by
  have hnew : ∀ tx ∈ spendingBlock.vtx, tx.created spendingIndex.nHeight paidOutPoint = none := by
    decide +kernel
  intro before tx after hsplit outpoint hcreated
  refine .inl ?_
  cases hview : paidStack.view outpoint with
  | none => rfl
  | some coin =>
    obtain ⟨rfl, -⟩ := paidStack_cases hview
    rw [hnew tx (by rw [hsplit]; simp)] at hcreated
    cases hcreated

theorem disconnectBlock_connectBlock_spending :
    ∃ blockundo stack' undo stack'',
      connectBlock anyoneEnv (chainstateParams .regtest) spendingIndex spendingBlock
        { fChecked := true } false paidStack = some (.ok (some blockundo), stack') ∧
      (readBlockUndo noKeys).run (serBlockUndo noKeys blockundo) = .ok (undo, []) ∧
      disconnectBlock anyoneEnv.usage anyoneEnv.find spendingBlock spendingIndex (some undo)
        stack' = some (.ok, stack'') ∧
      stack''.view = paidStack.view ∧ stack''.top.mBlockHash = .ofHex 7 := by
  obtain ⟨blockundo, stack', haccept⟩ := connectBlock_spendingBlock
  obtain ⟨hsane, -, hundo⟩ := disconnectBlock_connectBlock anyoneEnv (chainstateParams .regtest) noKeys
    (fun _ _ _ _ hvalid => nomatch hvalid) rfl spendingIndex parentIndex (.ofHex 7)
    (by decide) rfl rfl (by decide) paidStack stack' paidStack_sane
    (fun outpoint coin h => by
      obtain ⟨-, rfl⟩ := paidStack_cases h
      decide)
    spendingBlock { fChecked := true } (fun _ => checkBlockContents_spendingBlock)
    spendingBlock_overwrites_nothing blockundo haccept
  obtain ⟨undo, hread, hdisconnect⟩ := hundo []
  rw [List.append_nil] at hread
  obtain ⟨stack'', hrun, -, hview, hbest⟩ := hdisconnect stack' hsane rfl
  exact ⟨blockundo, stack', undo, stack'', haccept, hread, hrun, hview, hbest⟩

end Example

end HcsCoin
