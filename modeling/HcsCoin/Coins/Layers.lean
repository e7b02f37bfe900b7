import HcsCoin.Coins.Cache

/-!
# Layers of coins caches

A stack of `CCoinsViewCache` layers over a map of coins, and the operations of
the top layer.  A lookup that misses in one layer asks the layer below and keeps
the answer, so it can fill every layer on its way; `Flush` and `Sync` write the
dirty entries of the top layer into the next one.

The stack refines a stack of plain maps: `CoinsSpec` is what the layers are for.
-/

namespace HcsCoin

open Foundation CCoinsViewCache

structure CoinsBase where
  coins : CoinsMap
  bestBlock : Uint256

/-- A dirty entry is written, or deleted if it is spent. -/
def CoinsBase.writeEntry (base : CoinsBase) (outpoint : COutPoint) (entry : CCoinsCacheEntry) :
    CoinsBase :=
  if entry.isDirty then { base with coins := Function.update base.coins outpoint entry.value }
  else base

structure CoinsBelow where
  layers : List CCoinsViewCache
  base : CoinsBase

structure CoinsStack where
  top : CCoinsViewCache
  below : CoinsBelow

section Operations

variable (usage : Coin → Nat)

def cachedCoin (base : CoinsBase) (outpoint : COutPoint) : List CCoinsViewCache → Option Coin
  | [] => base.coins outpoint
  | cache :: _ => (cache.cacheCoins.lookup outpoint).bind CCoinsCacheEntry.value

/-- `FetchCoin` in the first layer; a miss is passed on to the layer below as a `GetCoin`. -/
def fetchCoin (base : CoinsBase) (outpoint : COutPoint) :
    List CCoinsViewCache → Option (List CCoinsViewCache)
  | [] => some []
  | cache :: layers =>
    match cache.cacheCoins.lookup outpoint with
    | some _ => some (cache :: layers)
    | none => do
      let layers ← fetchCoin base outpoint layers
      match cachedCoin base outpoint layers with
      | some coin =>
        let cache ← cache.insertFetched usage outpoint coin
        some (cache :: layers)
      | none => some (cache :: layers)

def peekCoin (base : CoinsBase) (outpoint : COutPoint) : List CCoinsViewCache → Option Coin
  | [] => base.coins outpoint
  | cache :: layers =>
    match cache.cacheCoins.lookup outpoint with
    | some entry => entry.value
    | none => peekCoin base outpoint layers

namespace CoinsBelow

def writeEntry (below : CoinsBelow) (outpoint : COutPoint) (entry : CCoinsCacheEntry) :
    Option CoinsBelow :=
  match below.layers with
  | [] => some { below with base := below.base.writeEntry outpoint entry }
  | us :: layers => do
    let us ← us.writeEntry usage outpoint entry
    some { below with layers := us :: layers }

def setBestBlock (below : CoinsBelow) (blockHash : Uint256) : CoinsBelow :=
  match below.layers with
  | [] => { below with base := { below.base with bestBlock := blockHash } }
  | us :: layers => { below with layers := { us with mBlockHash := blockHash } :: layers }

/-- The loop over the cursor of a layer, from `node` on and for at most `rounds` entries. -/
def batchWrite (willErase : Bool) : Nat → Option COutPoint → CCoinsViewCache → CoinsBelow →
    Option (CCoinsViewCache × CoinsBelow)
  | 0, _, _, _ => none
  | _ + 1, none, child, below => some (child, below)
  | rounds + 1, some outpoint, child, below => do
    let entry ← child.cacheCoins.lookup outpoint
    let below ← below.writeEntry usage outpoint entry
    let next := child.mSentinel.next (some outpoint)
    let child ← child.maybeErase usage willErase outpoint entry
    batchWrite willErase rounds next child below

end CoinsBelow

namespace CoinsStack

def batchWrite (stack : CoinsStack) (willErase : Bool) : Option CoinsStack := do
  let (top, below) ← CoinsBelow.batchWrite usage willErase
    (stack.top.cacheCoins.entries.length + 1) (stack.top.mSentinel.next none) stack.top stack.below
  some ⟨top, below.setBestBlock stack.top.mBlockHash⟩

def flush (stack : CoinsStack) : Option CoinsStack := do
  let stack ← stack.batchWrite usage true
  some { stack with top := { stack.top.clear with cachedCoinsUsage := 0 } }

/-- `none` also where the flags of some entry were not cleared. -/
def sync (stack : CoinsStack) : Option CoinsStack := do
  let stack ← stack.batchWrite usage false
  if stack.top.mSentinel.next none ≠ none then none else some stack

def fetch (stack : CoinsStack) (outpoint : COutPoint) : Option CoinsStack := do
  match ← fetchCoin usage stack.below.base outpoint (stack.top :: stack.below.layers) with
  | top :: layers => some ⟨top, { stack.below with layers }⟩
  | [] => none

end CoinsStack

inductive CoinsOp where
  | push
  | addCoin (outpoint : COutPoint) (coin : Coin) (possibleOverwrite : Bool)
  | spendCoin (outpoint : COutPoint)
  | getCoin (outpoint : COutPoint)
  | haveCoin (outpoint : COutPoint)
  | accessCoin (outpoint : COutPoint)
  | peekCoin (outpoint : COutPoint)
  | uncache (outpoint : COutPoint)
  | sync
  | flush
  | reset

inductive CoinsAnswer where
  | done
  | found (coin : Option Coin)
  | have (unspent : Bool)
  /-- The coin referred to by `AccessCoin` or moved out by `SpendCoin`. -/
  | coin (coin : Coin)
  deriving DecidableEq

namespace CoinsStack

def step (stack : CoinsStack) : CoinsOp → Option (CoinsAnswer × CoinsStack)
  | .push => some (.done, ⟨.new, { stack.below with layers := stack.top :: stack.below.layers }⟩)
  | .addCoin outpoint coin possibleOverwrite => do
    let top ← stack.top.addCoin usage outpoint coin possibleOverwrite
    some (.done, { stack with top })
  | .spendCoin outpoint => do
    let stack ← stack.fetch usage outpoint
    let (_, moveout, top) := stack.top.spendFetched usage outpoint
    some (.coin moveout, { stack with top })
  | .getCoin outpoint => do
    let stack ← stack.fetch usage outpoint
    some (.found ((stack.top.cacheCoins.lookup outpoint).bind CCoinsCacheEntry.value), stack)
  | .haveCoin outpoint => do
    let stack ← stack.fetch usage outpoint
    some (.have ((stack.top.cacheCoins.lookup outpoint).any fun entry => !entry.coin.isSpent),
      stack)
  | .accessCoin outpoint => do
    let stack ← stack.fetch usage outpoint
    some (.coin (((stack.top.cacheCoins.lookup outpoint).map CCoinsCacheEntry.coin).getD .empty),
      stack)
  | .peekCoin outpoint =>
    some (.found (HcsCoin.peekCoin stack.below.base outpoint (stack.top :: stack.below.layers)),
      stack)
  | .uncache outpoint => some (.done, { stack with top := stack.top.uncache usage outpoint })
  | .sync => do
    let stack ← stack.sync usage
    some (.done, stack)
  | .flush => do
    let stack ← stack.flush usage
    some (.done, stack)
  | .reset => some (.done, { stack with top := stack.top.reset })

def run (stack : CoinsStack) : List CoinsOp → Option (List CoinsAnswer × CoinsStack)
  | [] => some ([], stack)
  | op :: ops => do
    let (answer, stack) ← stack.step usage op
    let (answers, stack) ← run stack ops
    some (answer :: answers, stack)

end CoinsStack

end Operations

/-! ## Plain maps -/

structure CoinsSpec where
  top : CoinsMap
  next : CoinsMap
  rest : List CoinsMap

namespace CoinsSpec

def step (spec : CoinsSpec) : CoinsOp → CoinsAnswer × CoinsSpec
  | .push => (.done, ⟨spec.top, spec.top, spec.next :: spec.rest⟩)
  | .addCoin outpoint coin _ =>
    if isUnspendable coin.out.scriptPubKey then (.done, spec)
    else (.done, { spec with top := Function.update spec.top outpoint (some coin) })
  | .spendCoin outpoint =>
    (.coin ((spec.top outpoint).getD .empty),
      { spec with top := Function.update spec.top outpoint none })
  | .getCoin outpoint => (.found (spec.top outpoint), spec)
  | .haveCoin outpoint => (.have (spec.top outpoint).isSome, spec)
  | .accessCoin outpoint => (.coin ((spec.top outpoint).getD .empty), spec)
  | .peekCoin outpoint => (.found (spec.top outpoint), spec)
  | .uncache _ => (.done, spec)
  | .sync => (.done, { spec with next := spec.top })
  | .flush => (.done, { spec with next := spec.top })
  | .reset => (.done, { spec with top := spec.next })

def run (spec : CoinsSpec) : List CoinsOp → List CoinsAnswer × CoinsSpec
  | [] => ([], spec)
  | op :: ops =>
    let (answer, spec) := spec.step op
    let (answers, spec) := spec.run ops
    (answer :: answers, spec)

def Allows (spec : CoinsSpec) : CoinsOp → Prop
  | .addCoin outpoint coin possibleOverwrite =>
    coin.isSpent = false ∧ (possibleOverwrite = false → spec.top outpoint = none)
  | _ => True

def AllowsRun (spec : CoinsSpec) : List CoinsOp → Prop
  | [] => True
  | op :: ops => spec.Allows op ∧ (spec.step op).2.AllowsRun ops

end CoinsSpec

/-! ## What the layers show -/

def viewOf (base : CoinsMap) : List CCoinsViewCache → CoinsMap
  | [] => base
  | cache :: layers => cache.view (viewOf base layers)

def viewsUnder (base : CoinsMap) : List CCoinsViewCache → List CoinsMap
  | [] => []
  | _ :: layers => viewOf base layers :: viewsUnder base layers

def SaneLayers (usage : Coin → Nat) (base : CoinsMap) : List CCoinsViewCache → Prop
  | [] => True
  | cache :: layers => cache.Sane usage (viewOf base layers) ∧ SaneLayers usage base layers

theorem viewOf_unspent {base : CoinsMap} (h : Unspent base) (layers : List CCoinsViewCache) :
    Unspent (viewOf base layers) := by
  induction layers with
  | nil => exact h
  | cons cache layers ih => exact view_unspent ih

theorem peekCoin_eq (base : CoinsBase) (outpoint : COutPoint) (layers : List CCoinsViewCache) :
    peekCoin base outpoint layers = viewOf base.coins layers outpoint := by
  induction layers with
  | nil => rfl
  | cons cache layers ih =>
    rw [peekCoin, viewOf, view]
    cases cache.cacheCoins.lookup outpoint with
    | none => exact ih
    | some entry => rfl

namespace CoinsBelow

def view (below : CoinsBelow) : CoinsMap := viewOf below.base.coins below.layers

def under (below : CoinsBelow) : List CoinsMap := viewsUnder below.base.coins below.layers

structure Sane (usage : Coin → Nat) (below : CoinsBelow) : Prop where
  layers : SaneLayers usage below.base.coins below.layers
  base : Unspent below.base.coins

end CoinsBelow

theorem fetchCoin_spec {usage : Coin → Nat} {base : CoinsBase} (hbase : Unspent base.coins)
    {layers : List CCoinsViewCache} (h : SaneLayers usage base.coins layers)
    (outpoint : COutPoint) :
    ∃ layers', fetchCoin usage base outpoint layers = some layers' ∧
      SaneLayers usage base.coins layers' ∧
      viewOf base.coins layers' = viewOf base.coins layers ∧
      viewsUnder base.coins layers' = viewsUnder base.coins layers ∧
      cachedCoin base outpoint layers' = viewOf base.coins layers outpoint := by
  induction layers with
  | nil => exact ⟨[], rfl, trivial, rfl, rfl, rfl⟩
  | cons cache layers ih =>
    obtain ⟨hcache, hlayers⟩ := h
    rw [fetchCoin]
    cases hentry : cache.cacheCoins.lookup outpoint with
    | some entry =>
      refine ⟨_, rfl, ⟨hcache, hlayers⟩, rfl, rfl, ?_⟩
      rw [cachedCoin, viewOf, view_of_some hentry, hentry]
      rfl
    | none =>
      obtain ⟨layers', hfetch, hsane, hview, hunder, hcached⟩ := ih hlayers
      rw [← hview] at hcache
      rw [hfetch, some_bind, hcached]
      cases hfound : viewOf base.coins layers outpoint with
      | none =>
        refine ⟨_, rfl, ⟨hcache, hsane⟩, ?_, ?_, ?_⟩
        · rw [viewOf, viewOf, hview]
        · rw [viewsUnder, viewsUnder, hview, hunder]
        · rw [cachedCoin, viewOf, view_of_none hentry, hentry, hfound]
          rfl
      | some coin =>
        obtain ⟨cache', hinsert, hsane', hview', hlookup⟩ := hcache.insertFetched hentry
          (hview ▸ hfound) (viewOf_unspent hbase layers outpoint coin hfound)
        dsimp only
        rw [hinsert, some_bind]
        refine ⟨_, rfl, ⟨hsane', hsane⟩, ?_, ?_, ?_⟩
        · rw [viewOf, viewOf, hview', hview]
        · rw [viewsUnder, viewsUnder, hview, hunder]
        · rw [cachedCoin, hlookup, viewOf, view_of_none hentry, hfound]
          exact value_eq_some_iff.mpr ⟨rfl, viewOf_unspent hbase layers outpoint coin hfound⟩

theorem CoinsBase.view_writeEntry {base : CoinsBase} {outpoint : COutPoint}
    {entry : CCoinsCacheEntry} (hdirty : entry.isDirty = true) :
    (base.writeEntry outpoint entry).coins = Function.update base.coins outpoint entry.value := by
  rw [writeEntry, if_pos hdirty]

namespace CoinsBelow

variable {usage : Coin → Nat} {below : CoinsBelow} {outpoint : COutPoint}

theorem Sane.writeEntry (h : below.Sane usage) (husage : usage .empty = 0)
    {entry : CCoinsCacheEntry} (hdirty : entry.isDirty = true)
    (hentry : EntryOk below.view outpoint entry) :
    ∃ below', below.writeEntry usage outpoint entry = some below' ∧ below'.Sane usage ∧
      below'.view = Function.update below.view outpoint entry.value ∧
      below'.under = below.under := by
  obtain ⟨layers, base⟩ := below
  obtain ⟨hlayers, hbase⟩ := h
  cases layers with
  | nil =>
    refine ⟨_, rfl, ⟨trivial, ?_⟩, CoinsBase.view_writeEntry hdirty, rfl⟩
    intro k coin hcoin
    dsimp only at hcoin
    rw [CoinsBase.view_writeEntry hdirty, Function.update_apply] at hcoin
    split at hcoin
    case isTrue =>
      obtain ⟨rfl, hunspent⟩ := value_eq_some_iff.mp hcoin
      exact hunspent
    case isFalse => exact hbase k coin hcoin
  | cons us layers =>
    obtain ⟨us', hwrite, hsane, hview⟩ := hlayers.1.writeEntry husage hdirty hentry
    refine ⟨⟨us' :: layers, base⟩, ?_, ⟨⟨hsane, hlayers.2⟩, hbase⟩, hview, rfl⟩
    rw [CoinsBelow.writeEntry]
    dsimp only
    rw [hwrite, some_bind]

theorem Sane.setBestBlock (h : below.Sane usage) (blockHash : Uint256) :
    (below.setBestBlock blockHash).Sane usage ∧ (below.setBestBlock blockHash).view = below.view ∧
      (below.setBestBlock blockHash).under = below.under := by
  obtain ⟨layers, base⟩ := below
  cases layers with
  | nil => exact ⟨⟨trivial, h.base⟩, rfl, rfl⟩
  | cons us layers =>
    obtain ⟨⟨hus, hlayers⟩, hbase⟩ := h
    obtain ⟨flagged, htracked⟩ := hus.tracked
    have hus' : CCoinsViewCache.Sane usage { us with mBlockHash := blockHash }
        (viewOf base.coins layers) :=
      ⟨⟨flagged, ⟨htracked.ring, htracked.mem_iff, htracked.fresh⟩, htracked.count,
        htracked.usage_eq⟩, hus.entry⟩
    exact ⟨⟨⟨hus', hlayers⟩, hbase⟩, rfl, rfl⟩

variable {child : CCoinsViewCache} {flagged : List COutPoint}

theorem Sane.batchWrite_erase (husage : usage .empty = 0)
    {node : Option COutPoint} {rounds : Nat} (h : below.Sane usage)
    (hchain : child.mSentinel.Chain node flagged) (hnodup : flagged.Nodup)
    (hcount : child.mDirtyCount = flagged.length)
    (hentries : ∀ k ∈ flagged, ∃ entry, child.cacheCoins.lookup k = some entry ∧
      entry.isDirty = true ∧ EntryOk below.view k entry) (hrounds : flagged.length < rounds) :
    ∃ below', batchWrite usage true rounds (child.mSentinel.next node) child below =
        some ({ child with mDirtyCount := 0 }, below') ∧
      below'.Sane usage ∧ below'.under = below.under ∧
      ∀ k, below'.view k = if k ∈ flagged then child.view below.view k else below.view k := by
  induction flagged generalizing node child below rounds with
  | nil =>
    obtain ⟨rounds, rfl⟩ := Nat.exists_eq_succ_of_ne_zero (Nat.ne_zero_of_lt hrounds)
    obtain ⟨hash, ring, coins, total, count⟩ := child
    obtain rfl : count = 0 := hcount
    refine ⟨below, ?_, h, rfl, fun k => rfl⟩
    rw [hchain.1, batchWrite]
  | cons outpoint flagged ih =>
    obtain ⟨rounds, rfl⟩ := Nat.exists_eq_succ_of_ne_zero (Nat.ne_zero_of_lt hrounds)
    obtain ⟨hnext, -, hchain⟩ := hchain
    obtain ⟨hfirst, hnodup⟩ := List.nodup_cons.mp hnodup
    obtain ⟨⟨entry, hentry, hdirty, hok⟩, hentries⟩ := List.forall_mem_cons.mp hentries
    obtain ⟨below', hwrite, hsane, hview, hunder⟩ := h.writeEntry husage hdirty hok
    have hother : ∀ k, k ≠ outpoint → below'.view k = below.view k := fun k hk => by
      rw [hview, Function.update_of_ne hk]
    have hcount' : trySub child.mDirtyCount entry.isDirty.toNat = flagged.length := by
      have hpos : 1 ≤ (outpoint :: flagged).length := Nat.succ_pos _
      rw [hcount, hdirty, Bool.toNat_true, trySub_eq hpos]
      rfl
    obtain ⟨below'', hrest, hsane', hunder', hview'⟩ := @ih below'
      { child with mDirtyCount := trySub child.mDirtyCount entry.isDirty.toNat } (some outpoint)
      rounds hsane hchain hnodup hcount' (fun k hk => by
        obtain ⟨entry', hentry', hdirty', hok'⟩ := hentries k hk
        exact ⟨entry', hentry', hdirty', hok'.congr
          (hother k fun heq => hfirst (heq ▸ hk))⟩) (Nat.lt_of_succ_lt_succ hrounds)
    refine ⟨below'', ?_, hsane', hunder'.trans hunder, fun k => ?_⟩
    · rw [hnext, batchWrite]
      rw [hentry, some_bind, hwrite, some_bind, maybeErase, if_pos rfl,
        some_bind]
      exact hrest
    · rw [hview' k]
      by_cases hk : k ∈ flagged
      case pos =>
        obtain ⟨entry', hentry', -⟩ := hentries k hk
        rw [if_pos hk, if_pos (List.mem_cons_of_mem _ hk), view_of_some hentry']
        exact view_of_some hentry' _
      case neg =>
        rw [if_neg hk]
        by_cases heq : k = outpoint
        · subst heq
          rw [if_pos List.mem_cons_self, hview, Function.update_self, view_of_some hentry]
        · rw [if_neg (fun hmem => (List.mem_cons.mp hmem).elim heq hk), hother k heq]

theorem maybeErase_keep (husage : usage .empty = 0)
    {outpoint : COutPoint} {entry : CCoinsCacheEntry}
    {coins coins' : CoinsMap} (htracked : Tracked usage child flagged)
    (hsane : child.Sane usage coins) (hentry : child.cacheCoins.lookup outpoint = some entry)
    (hcoins : coins' = Function.update coins outpoint entry.value) :
    ∃ child', child.maybeErase usage false outpoint entry = some child' ∧
      Tracked usage child' (flagged.erase outpoint) ∧ child'.Sane usage coins' ∧
      child'.view coins' = child.view coins := by
  have hok := hsane.entry outpoint entry hentry
  have hother : ∀ k, k ≠ outpoint → coins' k = coins k := fun k hk => by
    rw [hcoins, Function.update_of_ne hk]
  have hself : coins' outpoint = entry.value := by rw [hcoins, Function.update_self]
  rw [maybeErase, if_neg (by decide)]
  cases hspent : entry.coin.isSpent with
  | true =>
    have hzero : usage entry.coin = 0 := by rw [(hok.spent hspent).2.2, husage]
    have hsame : { child with mDirtyCount := trySub child.mDirtyCount entry.isDirty.toNat } =
        child.forgetCounts usage entry := by
      rw [forgetCounts, hzero]
      rfl
    rw [if_pos rfl, if_neg (not_not_intro hzero), hsame]
    refine ⟨_, rfl, htracked.erase hentry, ⟨⟨_, htracked.erase hentry⟩, fun k entry' hk => ?_⟩, ?_⟩
    · rw [CCoinsViewCache.erase] at hk
      dsimp only at hk
      rw [FiniteMap.lookup_erase_eq] at hk
      split at hk
      case isTrue => cases hk
      case isFalse hne => exact (hsane.entry k entry' hk).congr (hother k hne)
    · funext k
      rw [view_erase, Function.update_apply]
      split
      case isTrue heq => rw [heq, hself, view_of_some hentry]
      case isFalse hne =>
        rw [CCoinsViewCache.view, CCoinsViewCache.view, hother k hne]
        rfl
  | false =>
    rw [if_neg (by decide)]
    refine ⟨_, rfl, htracked.setClean hentry, ⟨⟨_, htracked.setClean hentry⟩, fun k entry' hk => ?_⟩, ?_⟩
    · rw [CCoinsViewCache.setClean] at hk
      dsimp only at hk
      rw [FiniteMap.lookup_insert_eq] at hk
      split at hk
      case isTrue heq =>
        obtain rfl := Option.some.inj hk
        subst heq
        refine ⟨fun hs => absurd (hs.symm.trans hspent) (by decide), (fun hf => by cases hf),
          fun _ => ?_⟩
        rw [hself]
        exact value_eq_some_iff.mpr ⟨rfl, hspent⟩
      case isFalse hne => exact (hsane.entry k entry' hk).congr (hother k hne)
    · funext k
      rw [CCoinsViewCache.view, CCoinsViewCache.view, CCoinsViewCache.setClean]
      dsimp only
      rw [FiniteMap.lookup_insert_eq]
      by_cases heq : k = outpoint
      · rw [if_pos heq, heq, hentry]
        rfl
      · rw [if_neg heq, hother k heq]

theorem Sane.batchWrite_keep (husage : usage .empty = 0) {rounds : Nat} (h : below.Sane usage)
    (htracked : Tracked usage child flagged) (hchild : child.Sane usage below.view)
    (hrounds : flagged.length < rounds) :
    ∃ child' below', batchWrite usage false rounds (child.mSentinel.next none) child below =
        some (child', below') ∧
      below'.Sane usage ∧ below'.under = below.under ∧ Tracked usage child' [] ∧
      child'.Sane usage below'.view ∧ child'.view below'.view = child.view below.view := by
  induction flagged generalizing child below rounds with
  | nil =>
    obtain ⟨rounds, rfl⟩ := Nat.exists_eq_succ_of_ne_zero (Nat.ne_zero_of_lt hrounds)
    refine ⟨child, below, ?_, h, rfl, htracked, hchild, rfl⟩
    rw [htracked.ring.chain.1, batchWrite]
  | cons outpoint flagged ih =>
    obtain ⟨rounds, rfl⟩ := Nat.exists_eq_succ_of_ne_zero (Nat.ne_zero_of_lt hrounds)
    obtain ⟨hnext, -, hchain⟩ := htracked.ring.chain
    obtain ⟨entry, hentry, hdirty⟩ := (htracked.mem_iff outpoint).mp List.mem_cons_self
    have hok := hchild.entry outpoint entry hentry
    obtain ⟨below', hwrite, hsane, hview, hunder⟩ := h.writeEntry husage hdirty hok
    obtain ⟨child', herase, htracked', hchild', hview'⟩ :=
      maybeErase_keep husage htracked hchild hentry hview
    rw [List.erase_cons_head] at htracked'
    obtain ⟨child'', below'', hrest, hsane', hunder', hdone, hchild'', hview''⟩ :=
      ih hsane htracked' hchild' (Nat.lt_of_succ_lt_succ hrounds)
    refine ⟨child'', below'', ?_, hsane', hunder'.trans hunder, hdone, hchild'',
      hview''.trans hview'⟩
    -- what follows the entry in the old ring comes first in the new one
    rw [hnext, batchWrite]
    rw [hentry, some_bind, hwrite, some_bind, herase, some_bind,
      hchain.next_eq, ← htracked'.ring.chain.next_eq]
    exact hrest

end CoinsBelow

/-! ## The stack refines plain maps -/

namespace CoinsStack

variable {usage : Coin → Nat} {stack : CoinsStack} {outpoint : COutPoint}

def spec (stack : CoinsStack) : CoinsSpec :=
  ⟨stack.top.view stack.below.view, stack.below.view, stack.below.under⟩

structure Sane (usage : Coin → Nat) (stack : CoinsStack) : Prop where
  top : stack.top.Sane usage stack.below.view
  below : stack.below.Sane usage

def SanityCheck (usage : Coin → Nat) (stack : CoinsStack) : Prop :=
  ∀ cache ∈ stack.top :: stack.below.layers, cache.sanityCheck usage = true

theorem Sane.sanityCheck (h : stack.Sane usage) : stack.SanityCheck usage := by
  have hlayers : ∀ layers, SaneLayers usage stack.below.base.coins layers →
      ∀ cache ∈ layers, cache.sanityCheck usage = true := by
    intro layers
    induction layers with
    | nil => simp
    | cons cache layers ih =>
      rintro ⟨hcache, hlayers⟩
      exact List.forall_mem_cons.mpr ⟨hcache.sanityCheck, ih hlayers⟩
  exact List.forall_mem_cons.mpr ⟨h.top.sanityCheck, hlayers _ h.below.layers⟩

theorem Sane.fetch (h : stack.Sane usage) (outpoint : COutPoint) :
    ∃ stack', stack.fetch usage outpoint = some stack' ∧ stack'.Sane usage ∧
      stack'.spec = stack.spec ∧
      (stack'.top.cacheCoins.lookup outpoint).bind CCoinsCacheEntry.value =
        stack.spec.top outpoint ∧
      (stack'.top.cacheCoins.lookup outpoint = none → stack'.below.view outpoint = none) := by
  obtain ⟨layers, hfetch, hsane, hview, hunder, hcached⟩ := @fetchCoin_spec usage stack.below.base
    h.below.base (stack.top :: stack.below.layers) ⟨h.top, h.below.layers⟩ outpoint
  cases layers with
  | nil => cases hunder
  | cons top layers =>
    obtain ⟨hbelow, hunder⟩ := List.cons.inj hunder
    refine ⟨⟨top, { stack.below with layers }⟩, ?_, ⟨hsane.1, hsane.2, h.below.base⟩, ?_, hcached,
      fun hnone => ?_⟩
    · rw [CoinsStack.fetch]
      rw [hfetch, some_bind]
    · rw [spec, spec, CoinsSpec.mk.injEq]
      exact ⟨hview, hbelow, hunder⟩
    · have hmiss : stack.spec.top outpoint = none := by
        rw [cachedCoin, hnone] at hcached
        exact hcached.symm
      have hsame := congrFun hview outpoint
      rw [viewOf, view_of_none hnone] at hsame
      exact hsame.trans hmiss

theorem flagged_length_lt {cache : CCoinsViewCache} {flagged : List COutPoint}
    (h : Linked cache flagged) : flagged.length < cache.cacheCoins.entries.length + 1 := by
  have hsub : flagged ⊆ cache.cacheCoins.keys := by
    intro k hk
    obtain ⟨entry, hentry, -⟩ := (h.mem_iff k).mp hk
    exact AList.mem_keys.mp (AList.lookup_isSome.mp (by rw [hentry]; rfl))
  have hle := (h.ring.nodup.subperm hsub).length_le
  rw [AList.keys, List.keys, List.length_map] at hle
  exact Nat.lt_succ_of_le hle

section

variable (h : stack.Sane usage) (husage : usage .empty = 0)
include h husage

theorem Sane.flush :
    ∃ stack', stack.flush usage = some stack' ∧ stack'.Sane usage ∧
      stack'.spec = { stack.spec with next := stack.spec.top } := by
  obtain ⟨flagged, htracked⟩ := h.top.tracked
  obtain ⟨below, hwrite, hsane, hunder, hview⟩ := h.below.batchWrite_erase husage
    htracked.ring.chain htracked.ring.nodup htracked.count (fun k hk => by
      obtain ⟨entry, hentry, hdirty⟩ := (htracked.mem_iff k).mp hk
      exact ⟨entry, hentry, hdirty, h.top.entry k entry hentry⟩)
    (flagged_length_lt htracked.toLinked)
  obtain ⟨hbelow, hview', hunder'⟩ := hsane.setBestBlock stack.top.mBlockHash
  have hall : below.view = stack.top.view stack.below.view := by
    funext k
    rw [hview k]
    split
    case isTrue => rfl
    case isFalse hk =>
      refine (h.top.view_of_clean fun entry hentry => ?_).symm
      rw [Bool.eq_false_iff]
      exact fun hd => hk ((htracked.mem_iff_isDirty hentry).mpr hd)
  have hwiped : Linked { stack.top with mDirtyCount := 0 } flagged :=
    ⟨htracked.ring, htracked.mem_iff, htracked.fresh⟩
  obtain ⟨htop, hshown⟩ := @Linked.sane_wiped usage _ _ hwiped stack.top.mBlockHash
    (below.setBestBlock stack.top.mBlockHash).view
  obtain ⟨hcount, hhash⟩ := clear_fields { stack.top with mDirtyCount := 0 }
  refine ⟨⟨⟨stack.top.mBlockHash, _, _, 0, 0⟩, below.setBestBlock stack.top.mBlockHash⟩, ?_,
    ⟨htop, hbelow⟩, ?_⟩
  · rw [CoinsStack.flush, CoinsStack.batchWrite, hwrite]
    dsimp only [some_bind]
    rw [hcount, hhash]
  · rw [spec, spec, CoinsSpec.mk.injEq]
    refine ⟨?_, ?_, hunder'.trans hunder⟩
    · rw [hshown, hview', hall]
    · rw [hview', hall]

theorem Sane.sync :
    ∃ stack', stack.sync usage = some stack' ∧ stack'.Sane usage ∧
      stack'.spec = { stack.spec with next := stack.spec.top } := by
  obtain ⟨flagged, htracked⟩ := h.top.tracked
  obtain ⟨top, below, hwrite, hsane, hunder, hdone, htop, hview⟩ :=
    h.below.batchWrite_keep husage htracked h.top (flagged_length_lt htracked.toLinked)
  obtain ⟨hbelow, hview', hunder'⟩ := hsane.setBestBlock stack.top.mBlockHash
  have hshown : top.view below.view = below.view := by
    funext k
    refine htop.view_of_clean fun entry hentry => ?_
    rw [Bool.eq_false_iff]
    exact fun hd => absurd ((hdone.mem_iff_isDirty hentry).mpr hd) List.not_mem_nil
  refine ⟨⟨top, below.setBestBlock stack.top.mBlockHash⟩, ?_, ⟨hview' ▸ htop, hbelow⟩, ?_⟩
  · rw [CoinsStack.sync, CoinsStack.batchWrite, hwrite]
    dsimp only [some_bind]
    rw [if_neg (not_not_intro hdone.ring.chain.1)]
  · rw [spec, spec, CoinsSpec.mk.injEq]
    refine ⟨?_, ?_, hunder'.trans hunder⟩
    · rw [hview', hview]
    · rw [hview', ← hshown, hview]

theorem Sane.step {op : CoinsOp} (hop : stack.spec.Allows op) :
    ∃ stack', stack.step usage op = some ((stack.spec.step op).1, stack') ∧ stack'.Sane usage ∧
      stack'.spec = (stack.spec.step op).2 := by
  cases op with
  | push => exact ⟨_, rfl, ⟨sane_new usage _, ⟨h.top, h.below.layers⟩, h.below.base⟩, rfl⟩
  | addCoin outpoint coin possibleOverwrite =>
    obtain ⟨top, hadd, htop, hview⟩ := h.top.addCoin husage hop.1 hop.2
    refine ⟨{ stack with top }, ?_, ⟨htop, h.below⟩, ?_⟩
    · rw [CoinsStack.step, hadd, CoinsSpec.step]
      split <;> rfl
    · rw [spec, CoinsSpec.step]
      dsimp only
      rw [hview]
      split <;> rfl
  | spendCoin outpoint =>
    obtain ⟨stack', hfetch, hsane, hspec, hcached, hmiss⟩ := h.fetch outpoint
    obtain ⟨htop, hview, hmoved, -⟩ := hsane.top.spendFetched husage hmiss
    refine ⟨{ stack' with top := (stack'.top.spendFetched usage outpoint).2.2 }, ?_,
      ⟨htop, hsane.below⟩, ?_⟩
    · rw [CoinsStack.step, hfetch, ← hspec]
      exact congrArg (fun coin => some (CoinsAnswer.coin coin, _)) hmoved
    · rw [← hspec, CoinsSpec.step, spec, spec, CoinsSpec.mk.injEq]
      exact ⟨hview, rfl, rfl⟩
  | getCoin outpoint =>
    obtain ⟨stack', hfetch, hsane, hspec, hcached, -⟩ := h.fetch outpoint
    refine ⟨stack', ?_, hsane, hspec⟩
    rw [CoinsStack.step, hfetch]
    exact congrArg (fun found => some (CoinsAnswer.found found, stack')) hcached
  | haveCoin outpoint =>
    obtain ⟨stack', hfetch, hsane, hspec, hcached, -⟩ := h.fetch outpoint
    refine ⟨stack', ?_, hsane, hspec⟩
    rw [CoinsStack.step, hfetch, CoinsSpec.step, ← hcached, ← any_eq_isSome]
    rfl
  | accessCoin outpoint =>
    obtain ⟨stack', hfetch, hsane, hspec, hcached, -⟩ := h.fetch outpoint
    refine ⟨stack', ?_, hsane, hspec⟩
    rw [CoinsStack.step, hfetch, CoinsSpec.step, ← hcached, ← hsane.top.getD_coin]
    rfl
  | peekCoin outpoint =>
    refine ⟨stack, ?_, h, rfl⟩
    rw [CoinsStack.step, peekCoin_eq]
    rfl
  | uncache outpoint =>
    obtain ⟨htop, hview⟩ := h.top.uncache outpoint
    refine ⟨_, rfl, ⟨htop, h.below⟩, ?_⟩
    rw [spec, spec, CoinsSpec.step, hview]
  | sync =>
    obtain ⟨stack', hsync, hsane, hspec⟩ := h.sync husage
    refine ⟨stack', ?_, hsane, hspec⟩
    rw [CoinsStack.step, hsync]
    rfl
  | flush =>
    obtain ⟨stack', hflush, hsane, hspec⟩ := h.flush husage
    refine ⟨stack', ?_, hsane, hspec⟩
    rw [CoinsStack.step, hflush]
    rfl
  | reset =>
    obtain ⟨flagged, htracked⟩ := h.top.tracked
    obtain ⟨htop, hshown⟩ := @Linked.sane_wiped usage _ _ htracked.toLinked .null stack.below.view
    refine ⟨_, rfl, ⟨htop, h.below⟩, ?_⟩
    rw [spec, spec, CoinsSpec.step, CoinsSpec.mk.injEq]
    exact ⟨hshown, rfl, rfl⟩

theorem Sane.run {ops : List CoinsOp} (hops : stack.spec.AllowsRun ops) :
    ∃ stack', stack.run usage ops = some ((stack.spec.run ops).1, stack') ∧ stack'.Sane usage ∧
      stack'.spec = (stack.spec.run ops).2 := by
  induction ops generalizing stack with
  | nil => exact ⟨stack, rfl, h, rfl⟩
  | cons op ops ih =>
    obtain ⟨stack', hstep, hsane, hspec⟩ := h.step husage hops.1
    obtain ⟨stack'', hrun, hsane', hspec'⟩ := ih hsane (hspec ▸ hops.2)
    rw [hspec] at hrun hspec'
    refine ⟨stack'', ?_, hsane', hspec'⟩
    rw [CoinsStack.run, hstep]
    dsimp only [some_bind]
    rw [hrun]
    rfl

end

def start (base : CoinsBase) : CoinsStack := ⟨.new, [], base⟩

/-- Any run of layer operations answers as plain maps do, throws nothing, and leaves every layer
in order. -/
theorem run_refines_maps (usage : Coin → Nat) (husage : usage .empty = 0) (base : CoinsBase)
    (hbase : Unspent base.coins) (ops : List CoinsOp)
    (hops : CoinsSpec.AllowsRun ⟨base.coins, base.coins, []⟩ ops) :
    ∃ stack, (start base).run usage ops =
        some ((CoinsSpec.run ⟨base.coins, base.coins, []⟩ ops).1, stack) ∧
      stack.spec = (CoinsSpec.run ⟨base.coins, base.coins, []⟩ ops).2 ∧
      stack.SanityCheck usage := by
  have hstart : (start base).Sane usage := ⟨sane_new usage _, trivial, hbase⟩
  obtain ⟨stack, hrun, hsane, hspec⟩ := hstart.run husage hops
  exact ⟨stack, hrun, hspec, hsane.sanityCheck⟩

section Example

private def sampleOutPoint : COutPoint := ⟨.ofHex 1, 0⟩

private def sampleCoin (nValue : Int64) : Coin := .new ⟨nValue, [OP_CHECKSIG]⟩ 1 false

private def sampleBase : CoinsBase :=
  ⟨fun outpoint => if outpoint = sampleOutPoint then some (sampleCoin 7) else none, .null⟩

private def sampleOps : List CoinsOp :=
  [.push, .getCoin sampleOutPoint, .spendCoin sampleOutPoint, .haveCoin sampleOutPoint,
    .addCoin sampleOutPoint (sampleCoin 8) false, .sync, .flush, .accessCoin sampleOutPoint]

theorem run_refines_maps_sample :
    ∃ stack, (start sampleBase).run (fun coin => coin.out.scriptPubKey.length) sampleOps =
        some ([.done, .found (some (sampleCoin 7)), .coin (sampleCoin 7), .have false, .done, .done,
          .done, .coin (sampleCoin 8)], stack) ∧
      stack.SanityCheck fun coin => coin.out.scriptPubKey.length := by
  have hbase : Unspent sampleBase.coins := by
    intro outpoint coin hcoin
    rw [sampleBase] at hcoin
    dsimp only at hcoin
    split at hcoin
    · obtain rfl := Option.some.inj hcoin
      decide
    · cases hcoin
  have hops : CoinsSpec.AllowsRun ⟨sampleBase.coins, sampleBase.coins, []⟩ sampleOps :=
    ⟨trivial, trivial, trivial, trivial, ⟨by decide, fun _ => by decide⟩, trivial, trivial, trivial,
      trivial⟩
  obtain ⟨stack, hrun, -, hsane⟩ := run_refines_maps
    (fun coin => coin.out.scriptPubKey.length) rfl sampleBase hbase sampleOps hops
  refine ⟨stack, hrun.trans (congrArg (fun answers => some (answers, stack)) ?_), hsane⟩
  decide

end Example

end CoinsStack

end HcsCoin
