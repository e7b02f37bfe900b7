import HcsCoin.Coins.Layers
import HcsCoin.Foundation.Check

/-!
# The coins view of block validation

The member functions of `CCoinsViewCache` as actions on a stack of layers.  A
lookup may bring coins of the layers below into the top layer, and changes
nothing else: `Grown` says what it leaves in place.
-/

namespace HcsCoin

open Foundation CCoinsViewCache

abbrev CoinsM := Action CoinsStack

namespace CoinsM

section Operations

variable (usage : Coin → Nat) (outpoint : COutPoint)

def fetchCoin : CoinsM (Option CCoinsCacheEntry) := fun stack => do
  let stack ← stack.fetch usage outpoint
  some (stack.top.cacheCoins.lookup outpoint, stack)

def haveCoin : CoinsM Bool := do
  let found ← fetchCoin usage outpoint
  pure (found.any fun entry => !entry.coin.isSpent)

def accessCoin : CoinsM Coin := do
  let found ← fetchCoin usage outpoint
  pure ((found.map CCoinsCacheEntry.coin).getD .empty)

def spendEntry : CoinsM (Bool × Coin) := fun stack =>
  let (isSpent, moveout, top) := stack.top.spendFetched usage outpoint
  some ((isSpent, moveout), { stack with top })

def spendCoin : CoinsM (Bool × Coin) := do
  let _ ← fetchCoin usage outpoint
  spendEntry usage outpoint

def addCoin (coin : Coin) (possibleOverwrite : Bool) : CoinsM Unit := fun stack => do
  let top ← stack.top.addCoin usage outpoint coin possibleOverwrite
  some ((), { stack with top })

end Operations

/-- `GetBestBlock` of the first layer, which remembers what it was told below. -/
def bestBlock (base : CoinsBase) : List CCoinsViewCache → Uint256 × List CCoinsViewCache
  | [] => (base.bestBlock, [])
  | cache :: layers =>
    if cache.mBlockHash.isNull then
      let (hash, layers) := bestBlock base layers
      (hash, { cache with mBlockHash := hash } :: layers)
    else (cache.mBlockHash, cache :: layers)

def getBestBlock : CoinsM Uint256 := fun stack =>
  if stack.top.mBlockHash.isNull then
    let (hash, layers) := bestBlock stack.below.base stack.below.layers
    some (hash, ⟨{ stack.top with mBlockHash := hash }, { stack.below with layers }⟩)
  else some (stack.top.mBlockHash, stack)

def setBestBlock (blockHash : Uint256) : CoinsM Unit := fun stack =>
  some ((), { stack with top := { stack.top with mBlockHash := blockHash } })

theorem setBestBlock_iff {blockHash : Uint256} {stack stack' : CoinsStack} {u : Unit} :
    setBestBlock blockHash stack = some (u, stack') ↔
      stack' = { stack with top := { stack.top with mBlockHash := blockHash } } := by
  rw [setBestBlock, Option.some.injEq, Prod.mk.injEq, eq_comm (b := stack')]
  exact ⟨fun h => h.2, fun h => ⟨rfl, h⟩⟩

end CoinsM

namespace CCoinsViewCache

variable {usage : Coin → Nat} {cache : CCoinsViewCache}

theorem Tracked.setBlockHash {flagged : List COutPoint} (h : Tracked usage cache flagged)
    (hash : Uint256) : Tracked usage { cache with mBlockHash := hash } flagged :=
  ⟨⟨h.ring, h.mem_iff, h.fresh⟩, h.count, h.usage_eq⟩

theorem Sane.setBlockHash {below : CoinsMap} (h : Sane usage cache below) (hash : Uint256) :
    Sane usage { cache with mBlockHash := hash } below := by
  obtain ⟨flagged, htracked⟩ := h.tracked
  exact ⟨⟨flagged, htracked.setBlockHash hash⟩, h.entry⟩

theorem lookup_addCoin {cache' : CCoinsViewCache} {outpoint : COutPoint} {coin : Coin}
    {possibleOverwrite : Bool} (hscript : isUnspendable coin.out.scriptPubKey = false)
    (h : cache.addCoin usage outpoint coin possibleOverwrite = some cache') :
    coin.isSpent = false ∧
      (possibleOverwrite = false →
        ((cache.cacheCoins.lookup outpoint).getD .new).coin.isSpent = true) ∧
      ∀ k, cache'.cacheCoins.lookup k =
        if k = outpoint then some ⟨coin, true,
          ((cache.cacheCoins.lookup outpoint).getD .new).isFresh ||
            (!possibleOverwrite && !((cache.cacheCoins.lookup outpoint).getD .new).isDirty)⟩
        else cache.cacheCoins.lookup k := by
  obtain ⟨hash, ring, coins, total, count⟩ := cache
  dsimp only
  rw [addCoin] at h
  split at h
  case isTrue => cases h
  case isFalse hcoin =>
    rw [if_neg (by simp [hscript])] at h
    dsimp only at h
    split at h
    case isTrue => cases h
    case isFalse hguard =>
      refine ⟨Bool.eq_false_iff.mpr hcoin, ?_, fun k => ?_⟩
      · rintro rfl
        simpa using hguard
      · obtain rfl := Option.some.inj h
        cases hfound : (coins.lookup outpoint).isSome <;>
          cases hfresh : !possibleOverwrite && !((coins.lookup outpoint).getD .new).isDirty <;>
          simp only [Bool.false_eq_true, if_false, if_true, forgetCounts, assign, setDirty, setFresh,
            addFlags_insert, Bool.or_true, Bool.or_false, FiniteMap.lookup_insert_eq]

end CCoinsViewCache

theorem CoinsBelow.Sane.unspent {usage : Coin → Nat} {below : CoinsBelow} (h : below.Sane usage) :
    Unspent below.view := viewOf_unspent h.base below.layers

namespace CoinsStack

def view (stack : CoinsStack) : CoinsMap := stack.top.view stack.below.view

/-- What lookups leave in place: the coins below, the entries of the top layer, and its order. -/
structure Grown (usage : Coin → Nat) (stack stack' : CoinsStack) : Prop where
  below : stack'.below.Sane usage
  coins : stack'.below.view = stack.below.view
  keep : ∀ {outpoint entry}, stack.top.cacheCoins.lookup outpoint = some entry →
    stack'.top.cacheCoins.lookup outpoint = some entry
  clean : ∀ {outpoint entry}, stack.top.cacheCoins.lookup outpoint = none →
    stack'.top.cacheCoins.lookup outpoint = some entry →
    ∃ coin, stack.below.view outpoint = some coin ∧ entry = ⟨coin, false, false⟩
  tracked : (∃ flagged, Tracked usage stack.top flagged) →
    ∃ flagged, Tracked usage stack'.top flagged

def Grows (usage : Coin → Nat) (stack stack' : CoinsStack) : Prop :=
  stack.below.Sane usage → Grown usage stack stack'

variable {usage : Coin → Nat} {stack stack' stack'' : CoinsStack} {outpoint : COutPoint}

theorem Grown.refl (h : stack.below.Sane usage) : Grown usage stack stack :=
  ⟨h, rfl, id, fun hnone hsome => absurd (hnone.symm.trans hsome) nofun, id⟩

theorem Grown.trans (h : Grown usage stack stack') (h' : Grown usage stack' stack'') :
    Grown usage stack stack'' := by
  refine ⟨h'.below, h'.coins.trans h.coins, fun hentry => h'.keep (h.keep hentry),
    fun {k entry} hnone hsome => ?_, fun ht => h'.tracked (h.tracked ht)⟩
  cases hmid : stack'.top.cacheCoins.lookup k with
  | none =>
    obtain ⟨coin, hcoin, hentry⟩ := h'.clean hmid hsome
    exact ⟨coin, h.coins ▸ hcoin, hentry⟩
  | some entry' =>
    obtain rfl : entry' = entry := Option.some.inj ((h'.keep hmid).symm.trans hsome)
    exact h.clean hnone hmid

instance : Std.Refl (Grows usage) := ⟨fun _ => Grown.refl⟩

instance : IsTrans CoinsStack (Grows usage) :=
  ⟨fun _ _ _ h h' hsane => (h hsane).trans (h' (h hsane).below)⟩

theorem Grown.view_eq (h : Grown usage stack stack') (hbelow : Unspent stack.below.view) :
    stack'.view = stack.view := by
  funext k
  rw [view, view]
  cases hentry : stack.top.cacheCoins.lookup k with
  | some entry => rw [view_of_some hentry, view_of_some (h.keep hentry)]
  | none =>
    rw [view_of_none hentry]
    cases hentry' : stack'.top.cacheCoins.lookup k with
    | none => rw [view_of_none hentry', h.coins]
    | some entry =>
      obtain ⟨coin, hcoin, rfl⟩ := h.clean hentry hentry'
      rw [view_of_some hentry', hcoin]
      exact value_eq_some_iff.mpr ⟨rfl, hbelow k coin hcoin⟩


theorem Grown.sane (h : Grown usage stack stack') (hsane : stack.Sane usage) :
    stack'.Sane usage := by
  refine ⟨⟨h.tracked hsane.top.tracked, fun k entry hentry => ?_⟩, h.below⟩
  rw [h.coins]
  cases hold : stack.top.cacheCoins.lookup k with
  | some entry' =>
    obtain rfl : entry' = entry := Option.some.inj ((h.keep hold).symm.trans hentry)
    exact hsane.top.entry k entry' hold
  | none =>
    obtain ⟨coin, hcoin, rfl⟩ := h.clean hold hentry
    have hunspent := hsane.below.unspent k coin hcoin
    exact ⟨fun hs => absurd (hs.symm.trans hunspent) (by decide), (fun hf => by cases hf),
      fun _ => hcoin⟩

variable {entry : CCoinsCacheEntry}

theorem fetch_of_some (h : stack.top.cacheCoins.lookup outpoint = some entry) :
    stack.fetch usage outpoint = some stack := by
  rw [fetch, HcsCoin.fetchCoin, h]
  rfl

theorem exists_fetch (h : stack.below.Sane usage) (outpoint : COutPoint) :
    ∃ stack', stack.fetch usage outpoint = some stack' ∧ Grown usage stack stack' ∧
      (stack'.top.cacheCoins.lookup outpoint = none → stack.below.view outpoint = none) := by
  cases hentry : stack.top.cacheCoins.lookup outpoint with
  | some entry =>
    refine ⟨stack, fetch_of_some hentry, Grown.refl h, fun hnone => ?_⟩
    cases hentry.symm.trans hnone
  | none =>
    obtain ⟨layers, hfetch, hsane, hview, -, hcached⟩ := fetchCoin_spec h.base h.layers outpoint
    have hbelow : CoinsBelow.Sane usage { stack.below with layers } := ⟨hsane, h.base⟩
    rw [fetch, HcsCoin.fetchCoin, hentry]
    rw [hfetch, some_bind, hcached]
    cases hfound : viewOf stack.below.base.coins stack.below.layers outpoint with
    | none =>
      refine ⟨⟨stack.top, { stack.below with layers }⟩, rfl,
        ⟨hbelow, hview, id, fun hnone hsome => ?_, id⟩, fun _ => hfound⟩
      cases hnone.symm.trans hsome
    | some coin =>
      have hunspent := h.unspent outpoint coin hfound
      refine ⟨⟨{ stack.top with
          cacheCoins := stack.top.cacheCoins.insert outpoint ⟨coin, false, false⟩
          cachedCoinsUsage := stack.top.cachedCoinsUsage + usage coin },
        { stack.below with layers }⟩, ?_, ⟨hbelow, hview, ?_, ?_, ?_⟩, fun hnone => ?_⟩
      · dsimp only
        rw [insertFetched, if_neg (by simp [hunspent])]
        rfl
      · intro k entry hk
        dsimp only
        rw [FiniteMap.lookup_insert_eq, if_neg, hk]
        rintro rfl
        cases hentry.symm.trans hk
      · intro k entry hnone hsome
        dsimp only at hsome
        rw [FiniteMap.lookup_insert_eq] at hsome
        split at hsome
        case isTrue heq =>
          subst heq
          exact ⟨coin, hfound, (Option.some.inj hsome).symm⟩
        case isFalse => cases hnone.symm.trans hsome
      · rintro ⟨flagged, htracked⟩
        exact ⟨flagged, htracked.insertFetched hentry coin⟩
      · dsimp only at hnone
        rw [AList.lookup_insert] at hnone
        cases hnone

def spend (usage : Coin → Nat) (stack : CoinsStack) (outpoint : COutPoint) : CoinsStack :=
  { stack with top := (stack.top.spendFetched usage outpoint).2.2 }

theorem lookup_spend (h : stack.top.cacheCoins.lookup outpoint = some entry) (k : COutPoint) :
    (stack.spend usage outpoint).top.cacheCoins.lookup k =
      if k = outpoint then (if entry.isFresh then none else some ⟨.empty, true, false⟩)
      else stack.top.cacheCoins.lookup k := by
  rw [spend, spendFetched, h]
  dsimp only
  cases hfresh : entry.isFresh with
  | true =>
    rw [if_pos rfl, if_pos rfl]
    exact FiniteMap.lookup_erase_eq _ _ _
  | false =>
    simp only [Bool.false_eq_true, if_false]
    rw [assign, setDirty, addFlags, forgetCounts]
    dsimp only
    rw [h]
    dsimp only
    rw [AList.insert_insert, FiniteMap.lookup_insert_eq]

def Holding (stack : CoinsStack) : List COutPoint → List Coin → Prop :=
  List.Forall₂ fun outpoint coin => ∃ entry,
    stack.top.cacheCoins.lookup outpoint = some entry ∧ entry.coin = coin ∧ coin.isSpent = false

variable {coins : List Coin} {outpoints : List COutPoint}

theorem Holding.spend (h : stack.Holding outpoints coins)
    (hentry : stack.top.cacheCoins.lookup outpoint = some entry) (hout : outpoint ∉ outpoints) :
    (stack.spend usage outpoint).Holding outpoints coins := by
  induction h with
  | nil => exact .nil
  | cons hfirst _ ih =>
    obtain ⟨entry', hentry', hcoin⟩ := hfirst
    obtain ⟨hne, hout⟩ := not_or.mp (mt List.mem_cons.mpr hout)
    refine .cons ⟨entry', ?_, hcoin⟩ (ih hout)
    rw [lookup_spend hentry, if_neg (Ne.symm hne), hentry']

theorem Grown.holding (h : Grown usage stack stack') (hold : stack.Holding outpoints coins) :
    stack'.Holding outpoints coins :=
  hold.imp fun _ _ ⟨entry, hentry, hcoin⟩ => ⟨entry, h.keep hentry, hcoin⟩

end CoinsStack

namespace CoinsM

open CoinsStack

variable {usage : Coin → Nat} {stack stack' : CoinsStack} {outpoint : COutPoint}

theorem exists_fetchCoin (h : stack.below.Sane usage) (outpoint : COutPoint) :
    ∃ stack', fetchCoin usage outpoint stack =
        some (stack'.top.cacheCoins.lookup outpoint, stack') ∧ Grown usage stack stack' ∧
      (stack'.top.cacheCoins.lookup outpoint = none → stack.below.view outpoint = none) := by
  obtain ⟨stack', hfetch, hgrown, hmiss⟩ := exists_fetch h outpoint
  refine ⟨stack', ?_, hgrown, hmiss⟩
  rw [fetchCoin, hfetch]
  rfl

theorem keeps_fetchCoin (outpoint : COutPoint) :
    (fetchCoin usage outpoint).Keeps (Grows usage) := by
  intro stack found stack' hfetch hsane
  obtain ⟨stack'', hfetch', hgrown, -⟩ := exists_fetchCoin hsane outpoint
  obtain ⟨-, rfl⟩ := Prod.mk.inj (Option.some.inj (hfetch'.symm.trans hfetch))
  exact hgrown

variable {entry : CCoinsCacheEntry}

theorem fetchCoin_of_some (h : stack.top.cacheCoins.lookup outpoint = some entry) :
    fetchCoin usage outpoint stack = some (some entry, stack) := by
  rw [fetchCoin, fetch_of_some h]
  exact congrArg (fun found => some (found, stack)) h

theorem keeps_haveCoin (outpoint : COutPoint) : (haveCoin usage outpoint).Keeps (Grows usage) :=
  (keeps_fetchCoin outpoint).bind fun _ => .pure _

theorem keeps_accessCoin (outpoint : COutPoint) : (accessCoin usage outpoint).Keeps (Grows usage) :=
  (keeps_fetchCoin outpoint).bind fun _ => .pure _

theorem saneLayers_bestBlock (base : CoinsBase) {layers : List CCoinsViewCache}
    (h : SaneLayers usage base.coins layers) :
    SaneLayers usage base.coins (bestBlock base layers).2 ∧
      viewOf base.coins (bestBlock base layers).2 = viewOf base.coins layers := by
  induction layers with
  | nil => exact ⟨trivial, rfl⟩
  | cons cache layers ih =>
    rw [bestBlock]
    split
    case isTrue =>
      obtain ⟨hsane, hview⟩ := ih h.2
      refine ⟨⟨?_, hsane⟩, ?_⟩
      · rw [hview]
        exact h.1.setBlockHash _
      · dsimp only
        rw [viewOf, hview]
        rfl
    case isFalse => exact ⟨h, rfl⟩

theorem keeps_getBestBlock : getBestBlock.Keeps (Grows usage) := by
  intro stack hash stack' h hbelow
  rw [getBestBlock] at h
  split at h
  case isTrue =>
    obtain ⟨hsane, hview⟩ := saneLayers_bestBlock stack.below.base hbelow.layers
    obtain ⟨-, rfl⟩ := Prod.mk.inj (Option.some.inj h)
    refine ⟨⟨hsane, hbelow.base⟩, hview, id, fun hnone hsome => ?_, ?_⟩
    · cases hnone.symm.trans hsome
    · rintro ⟨flagged, htracked⟩
      exact ⟨flagged, htracked.setBlockHash _⟩
  case isFalse =>
    obtain ⟨-, rfl⟩ := Prod.mk.inj (Option.some.inj h)
    exact Grown.refl hbelow

theorem entry_of_haveCoin (h : haveCoin usage outpoint stack = some (true, stack')) :
    ∃ entry, stack'.top.cacheCoins.lookup outpoint = some entry ∧ entry.coin.isSpent = false := by
  obtain ⟨found, stack'', hfetch, hpure⟩ := Action.bind_iff.mp h
  obtain ⟨hany, rfl⟩ := Action.pure_iff.mp hpure
  rw [fetchCoin] at hfetch
  obtain ⟨stack'', hfetch, hfound⟩ := Option.bind_eq_some_iff.mp hfetch
  obtain ⟨rfl, rfl⟩ := Prod.mk.inj (Option.some.inj hfound)
  cases hentry : stack''.top.cacheCoins.lookup outpoint with
  | none =>
    rw [hentry] at hany
    cases hany
  | some entry =>
    rw [hentry, Option.any_some] at hany
    exact ⟨entry, rfl, by simpa using hany⟩

theorem spendCoin_of_some (h : stack.top.cacheCoins.lookup outpoint = some entry) :
    spendCoin usage outpoint stack = some ((true, entry.coin), stack.spend usage outpoint) := by
  rw [spendCoin, Action.bind_of (fetchCoin_of_some h), spendEntry, CoinsStack.spend, spendFetched, h]
  dsimp only
  split <;> rfl

/-! ## The view as a map -/

theorem exists_haveCoin (h : stack.Sane usage) (outpoint : COutPoint) :
    ∃ stack', haveCoin usage outpoint stack = some ((stack.view outpoint).isSome, stack') ∧
      stack'.Sane usage ∧ stack'.view = stack.view := by
  obtain ⟨stack', hfetch, hgrown, hmiss⟩ := exists_fetchCoin h.below outpoint
  have hview := hgrown.view_eq h.below.unspent
  refine ⟨stack', ?_, hgrown.sane h, hview⟩
  rw [haveCoin, Action.bind_of hfetch, any_eq_isSome, ← hview, CoinsStack.view]
  cases hentry : stack'.top.cacheCoins.lookup outpoint with
  | none => rw [view_of_none hentry, hgrown.coins, hmiss hentry]; rfl
  | some entry => rw [view_of_some hentry]; rfl

theorem exists_spendCoin (h : stack.Sane usage) (husage : usage .empty = 0) (outpoint : COutPoint) :
    ∃ isSpent stack', spendCoin usage outpoint stack =
        some ((isSpent, (stack.view outpoint).getD .empty), stack') ∧
      stack'.Sane usage ∧ stack'.view = Function.update stack.view outpoint none ∧
      ((stack.view outpoint).isSome = true → isSpent = true) := by
  obtain ⟨stack₁, hfetch, hgrown, hmiss⟩ := exists_fetchCoin h.below outpoint
  have hview := hgrown.view_eq h.below.unspent
  have hsane := hgrown.sane h
  obtain ⟨htop, hview', hmoved, hanswer⟩ := hsane.top.spendFetched husage fun hnone =>
    (congrFun hgrown.coins outpoint).trans (hmiss hnone)
  change _ = Function.update stack₁.view outpoint none at hview'
  rw [hview] at hview'
  refine ⟨(stack₁.top.spendFetched usage outpoint).1,
    { stack₁ with top := (stack₁.top.spendFetched usage outpoint).2.2 }, ?_, ⟨htop, hsane.below⟩,
    hview', hview ▸ hanswer⟩
  rw [spendCoin, Action.bind_of hfetch, spendEntry, ← hview]
  exact congrArg (fun coin => some ((_, coin), _)) hmoved

theorem exists_addCoin (h : stack.Sane usage) (husage : usage .empty = 0) {coin : Coin}
    (hcoin : coin.isSpent = false) {possibleOverwrite : Bool}
    (hover : possibleOverwrite = false → stack.view outpoint = none) :
    ∃ stack', addCoin usage outpoint coin possibleOverwrite stack = some ((), stack') ∧
      stack'.Sane usage ∧ stack'.below = stack.below ∧
      stack'.view = if isUnspendable coin.out.scriptPubKey then stack.view
        else Function.update stack.view outpoint (some coin) := by
  obtain ⟨top, hadd, htop, hview⟩ := h.top.addCoin husage hcoin hover
  refine ⟨{ stack with top }, ?_, ⟨htop, h.below⟩, rfl, hview⟩
  rw [addCoin, hadd]
  rfl

theorem accessCoin_of_some (h : stack.top.cacheCoins.lookup outpoint = some entry) :
    accessCoin usage outpoint stack = some (entry.coin, stack) :=
  Action.bind_of (fetchCoin_of_some h)

end CoinsM

end HcsCoin
