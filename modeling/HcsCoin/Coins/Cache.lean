import HcsCoin.Coins.Coin
import HcsCoin.Foundation.FiniteMap
import HcsCoin.Foundation.LinkedRing

/-!
# One layer of the coins cache

The entries of `CCoinsViewCache` with their flags, the ring of flagged entries,
the count of dirty ones and the running memory total.  What a layer says is
relative to the coins below it: a clean entry repeats the coin below, a fresh
entry has no coin below, and a spent entry is dirty.

The heap memory of a coin is a parameter, zero for a nulled coin.
-/

namespace HcsCoin

open Foundation FiniteMap

abbrev CoinsMap := COutPoint → Option Coin

def isUnspendable (script : Bytes) : Bool :=
  script.head? == some OP_RETURN || decide (script.length > MAX_SCRIPT_SIZE)

def trySub (i j : Nat) : Nat := if i < j then i else i - j

structure CCoinsCacheEntry where
  coin : Coin
  isDirty : Bool
  isFresh : Bool
  deriving DecidableEq

namespace CCoinsCacheEntry

def new : CCoinsCacheEntry := ⟨.empty, false, false⟩

def value (entry : CCoinsCacheEntry) : Option Coin :=
  if entry.coin.isSpent then none else some entry.coin

end CCoinsCacheEntry

structure CCoinsViewCache where
  mBlockHash : Uint256
  mSentinel : LinkedRing COutPoint
  cacheCoins : FiniteMap COutPoint CCoinsCacheEntry
  cachedCoinsUsage : Nat
  mDirtyCount : Nat

namespace CCoinsViewCache

def new : CCoinsViewCache := ⟨.null, .empty, ∅, 0, 0⟩

/-- `AddFlags`: an entry without flags is linked in. -/
def addFlags (cache : CCoinsViewCache) (outpoint : COutPoint) (dirty fresh : Bool) :
    CCoinsViewCache :=
  match cache.cacheCoins.lookup outpoint with
  | none => cache
  | some entry =>
    { cache with
      mSentinel :=
        if entry.isDirty || entry.isFresh then cache.mSentinel
        else cache.mSentinel.pushBack outpoint
      cacheCoins := cache.cacheCoins.insert outpoint
        ⟨entry.coin, entry.isDirty || dirty, entry.isFresh || fresh⟩ }

def setDirty (cache : CCoinsViewCache) (outpoint : COutPoint) : CCoinsViewCache :=
  cache.addFlags outpoint true false

def setFresh (cache : CCoinsViewCache) (outpoint : COutPoint) : CCoinsViewCache :=
  cache.addFlags outpoint false true

/-- The links after `SetClean` of an entry, which its destructor runs too. -/
def unlinked (cache : CCoinsViewCache) (outpoint : COutPoint) (entry : CCoinsCacheEntry) :
    LinkedRing COutPoint :=
  if entry.isDirty || entry.isFresh then cache.mSentinel.unlink outpoint else cache.mSentinel

def setClean (cache : CCoinsViewCache) (outpoint : COutPoint) (entry : CCoinsCacheEntry) :
    CCoinsViewCache :=
  { cache with
    mSentinel := cache.unlinked outpoint entry
    cacheCoins := cache.cacheCoins.insert outpoint ⟨entry.coin, false, false⟩ }

def erase (cache : CCoinsViewCache) (outpoint : COutPoint) (entry : CCoinsCacheEntry) :
    CCoinsViewCache :=
  { cache with
    mSentinel := cache.unlinked outpoint entry
    cacheCoins := cache.cacheCoins.erase outpoint }

def clear (cache : CCoinsViewCache) : CCoinsViewCache :=
  cache.cacheCoins.entries.foldl (fun cache entry => cache.erase entry.1 entry.2) cache

def assign (cache : CCoinsViewCache) (outpoint : COutPoint) (entry : CCoinsCacheEntry)
    (coin : Coin) : CCoinsViewCache :=
  { cache with cacheCoins := cache.cacheCoins.insert outpoint { entry with coin } }

section Operations

variable (usage : Coin → Nat)

/-- `Assume(TrySub(m_dirty_count, ...))` and `Assume(TrySub(cachedCoinsUsage, ...))` for an
entry that is about to change. -/
def forgetCounts (cache : CCoinsViewCache) (entry : CCoinsCacheEntry) : CCoinsViewCache :=
  { cache with
    mDirtyCount := trySub cache.mDirtyCount entry.isDirty.toNat
    cachedCoinsUsage := trySub cache.cachedCoinsUsage (usage entry.coin) }

/-- The insertion of `FetchCoin`, for a coin found below; `none` where the assertion fails. -/
def insertFetched (cache : CCoinsViewCache) (outpoint : COutPoint) (coin : Coin) :
    Option CCoinsViewCache :=
  if coin.isSpent then none
  else some { cache with
    cacheCoins := cache.cacheCoins.insert outpoint ⟨coin, false, false⟩
    cachedCoinsUsage := cache.cachedCoinsUsage + usage coin }

/-- `none` for a failed assertion and for the `logic_error`. -/
def addCoin (cache : CCoinsViewCache) (outpoint : COutPoint) (coin : Coin)
    (possibleOverwrite : Bool) : Option CCoinsViewCache :=
  if coin.isSpent then none
  else if isUnspendable coin.out.scriptPubKey then some cache
  else
    let found := cache.cacheCoins.lookup outpoint
    let entry := found.getD .new
    if !possibleOverwrite && !entry.coin.isSpent then none
    else
      -- a spent coin that is dirty has not been flushed as spent
      let fresh := !possibleOverwrite && !entry.isDirty
      let cache := if found.isSome then cache.forgetCounts usage entry else cache
      let cache := (cache.assign outpoint entry coin).setDirty outpoint
      let cache := { cache with mDirtyCount := cache.mDirtyCount + 1 }
      let cache := if fresh then cache.setFresh outpoint else cache
      some { cache with cachedCoinsUsage := cache.cachedCoinsUsage + usage coin }

/-- `SpendCoin` after `FetchCoin`: the answer, what is moved out, and the cache. -/
def spendFetched (cache : CCoinsViewCache) (outpoint : COutPoint) :
    Bool × Coin × CCoinsViewCache :=
  match cache.cacheCoins.lookup outpoint with
  | none => (false, .empty, cache)
  | some entry =>
    let cache := cache.forgetCounts usage entry
    if entry.isFresh then (true, entry.coin, cache.erase outpoint entry)
    else
      let cache := cache.setDirty outpoint
      let cache := { cache with mDirtyCount := cache.mDirtyCount + 1 }
      (true, entry.coin, cache.assign outpoint ⟨entry.coin, true, false⟩ .empty)

/-- The body of `BatchWrite` for one entry of the cursor; `none` for a failed assertion and for
the `logic_error`. -/
def writeEntry (us : CCoinsViewCache) (outpoint : COutPoint) (entry : CCoinsCacheEntry) :
    Option CCoinsViewCache :=
  if !entry.isDirty then some us
  else
    match us.cacheCoins.lookup outpoint with
    | none =>
      if entry.isFresh && entry.coin.isSpent then some us
      else if usage .empty ≠ 0 then none
      else
        let us := (us.assign outpoint .new entry.coin).setDirty outpoint
        let us := { us with
          mDirtyCount := us.mDirtyCount + 1
          cachedCoinsUsage := us.cachedCoinsUsage + usage entry.coin }
        -- fresh for us as it was for the layer above
        some (if entry.isFresh then us.setFresh outpoint else us)
    | some ours =>
      if entry.isFresh && !ours.coin.isSpent then none
      else if ours.isFresh && entry.coin.isSpent then
        some ((us.forgetCounts usage ours).erase outpoint ours)
      else
        let us := { us with cachedCoinsUsage := trySub us.cachedCoinsUsage (usage ours.coin) }
        let us := us.assign outpoint ours entry.coin
        let us := { us with cachedCoinsUsage := us.cachedCoinsUsage + usage entry.coin }
        if ours.isDirty then some us
        else
          let us := us.setDirty outpoint
          some { us with mDirtyCount := us.mDirtyCount + 1 }

/-- `NextAndMaybeErase`, without the step to the next entry. -/
def maybeErase (cache : CCoinsViewCache) (willErase : Bool) (outpoint : COutPoint)
    (entry : CCoinsCacheEntry) : Option CCoinsViewCache :=
  let cache := { cache with mDirtyCount := trySub cache.mDirtyCount entry.isDirty.toNat }
  if willErase then some cache
  else if entry.coin.isSpent then
    if usage entry.coin ≠ 0 then none else some (cache.erase outpoint entry)
  else some (cache.setClean outpoint entry)

def uncache (cache : CCoinsViewCache) (outpoint : COutPoint) : CCoinsViewCache :=
  match cache.cacheCoins.lookup outpoint with
  | none => cache
  | some entry =>
    if entry.isDirty then cache
    else
      { cache with
        cachedCoinsUsage := trySub cache.cachedCoinsUsage (usage entry.coin) }.erase outpoint entry

def reset (cache : CCoinsViewCache) : CCoinsViewCache :=
  { cache.clear with cachedCoinsUsage := 0, mDirtyCount := 0, mBlockHash := .null }

def sanityCheck (cache : CCoinsViewCache) : Bool :=
  let entries := cache.cacheCoins.entries.map Sigma.snd
  let linked := cache.mSentinel.walk (cache.cacheCoins.entries.length + 1) none
  entries.all (fun entry =>
      if entry.coin.isSpent then entry.isDirty && !entry.isFresh
      else entry.isDirty || !entry.isFresh) &&
    linked.all (fun outpoint =>
      cache.mSentinel.prev (cache.mSentinel.next (some outpoint)) == some outpoint &&
        cache.mSentinel.next (cache.mSentinel.prev (some outpoint)) == some outpoint &&
        ((cache.cacheCoins.lookup outpoint).map CCoinsCacheEntry.isDirty == some true)) &&
    entries.countP CCoinsCacheEntry.isDirty == linked.length &&
    entries.countP CCoinsCacheEntry.isDirty == cache.mDirtyCount &&
    (entries.map fun entry => usage entry.coin).sum == cache.cachedCoinsUsage

end Operations

/-! ## The ring and the counters -/

structure Linked (cache : CCoinsViewCache) (flagged : List COutPoint) : Prop where
  ring : cache.mSentinel.Holds flagged
  mem_iff : ∀ outpoint, outpoint ∈ flagged ↔
    ∃ entry, cache.cacheCoins.lookup outpoint = some entry ∧ entry.isDirty = true
  fresh : ∀ outpoint entry, cache.cacheCoins.lookup outpoint = some entry →
    entry.isFresh = true → entry.isDirty = true

structure Tracked (usage : Coin → Nat) (cache : CCoinsViewCache) (flagged : List COutPoint) : Prop
    extends Linked cache flagged where
  count : cache.mDirtyCount = flagged.length
  usage_eq : cache.cachedCoinsUsage = cache.cacheCoins.total fun entry => usage entry.coin

theorem linked_new : Linked new [] := ⟨LinkedRing.holds_empty, by simp [new], by simp [new]⟩

theorem tracked_new (usage : Coin → Nat) : Tracked usage new [] := ⟨linked_new, rfl, rfl⟩

section Tracked

variable {usage : Coin → Nat} {cache : CCoinsViewCache} {flagged : List COutPoint}
  {outpoint : COutPoint} {entry : CCoinsCacheEntry}

theorem trySub_zero (i : Nat) : trySub i 0 = i := rfl

theorem trySub_eq {i j : Nat} (h : j ≤ i) : trySub i j = i - j := if_neg (Nat.not_lt.mpr h)

section Entry

variable (hentry : cache.cacheCoins.lookup outpoint = some entry)
include hentry

section
variable (h : Linked cache flagged)
include h

theorem Linked.mem_iff_isDirty : outpoint ∈ flagged ↔ entry.isDirty = true := by
  rw [h.mem_iff]
  constructor
  · rintro ⟨entry', hentry', hdirty⟩
    rw [hentry] at hentry'
    rwa [Option.some.inj hentry']
  · exact fun hdirty => ⟨entry, hentry, hdirty⟩

theorem Linked.flags_eq : (entry.isDirty || entry.isFresh) = entry.isDirty := by
  have hfresh := h.fresh outpoint entry hentry
  cases hd : entry.isDirty <;> cases hf : entry.isFresh <;> simp_all

theorem Linked.unlinked : (cache.unlinked outpoint entry).Holds (flagged.erase outpoint) := by
  have hmem := h.mem_iff_isDirty hentry
  rw [CCoinsViewCache.unlinked, h.flags_eq hentry]
  split
  case isTrue hdirty => exact h.ring.unlink (hmem.mpr hdirty)
  case isFalse hclean =>
    rw [List.erase_of_not_mem fun hin => hclean (hmem.mp hin)]
    exact h.ring

private theorem Linked.of_unlinked {cache' : CCoinsViewCache}
    (hring : cache'.mSentinel = cache.unlinked outpoint entry)
    (hother : ∀ k, k ≠ outpoint → cache'.cacheCoins.lookup k = cache.cacheCoins.lookup k)
    (hself : ∀ entry', cache'.cacheCoins.lookup outpoint = some entry' →
      entry'.isDirty = false ∧ entry'.isFresh = false) :
    Linked cache' (flagged.erase outpoint) := by
  refine ⟨hring ▸ h.unlinked hentry, fun k => ?_, fun k entry' hk hfresh => ?_⟩
  · by_cases hk : k = outpoint
    case pos =>
      subst hk
      refine iff_of_false (fun hmem => h.ring.nodup.not_mem_erase hmem) ?_
      rintro ⟨entry', hentry', hdirty⟩
      rw [(hself entry' hentry').1] at hdirty
      cases hdirty
    case neg => rw [List.mem_erase_of_ne hk, h.mem_iff, hother k hk]
  · by_cases hk' : k = outpoint
    case pos =>
      subst hk'
      rw [(hself entry' hk).2] at hfresh
      cases hfresh
    case neg => exact h.fresh k entry' (hother k hk' ▸ hk) hfresh

theorem Linked.erase : Linked (cache.erase outpoint entry) (flagged.erase outpoint) :=
  h.of_unlinked hentry rfl (fun _ hk => AList.lookup_erase_ne hk) fun entry' hentry' => by
    rw [CCoinsViewCache.erase, AList.lookup_erase] at hentry'
    cases hentry'

theorem Linked.setClean : Linked (cache.setClean outpoint entry) (flagged.erase outpoint) :=
  h.of_unlinked hentry rfl (fun _ hk => AList.lookup_insert_ne hk) fun entry' hentry' => by
    rw [CCoinsViewCache.setClean, AList.lookup_insert] at hentry'
    obtain rfl := Option.some.inj hentry'
    exact ⟨rfl, rfl⟩

end

section
variable (h : Tracked usage cache flagged)
include h

theorem Tracked.count_pos :
    trySub cache.mDirtyCount entry.isDirty.toNat + entry.isDirty.toNat = cache.mDirtyCount ∧
      (flagged.erase outpoint).length = trySub cache.mDirtyCount entry.isDirty.toNat := by
  have hmem := h.mem_iff_isDirty hentry
  rw [h.count]
  cases hdirty : entry.isDirty with
  | false =>
    rw [List.erase_of_not_mem (by simp [hmem, hdirty])]
    exact ⟨rfl, rfl⟩
  | true =>
    have hin := hmem.mpr hdirty
    have hpos : 0 < flagged.length := List.length_pos_of_mem hin
    rw [List.length_erase_of_mem hin, Bool.toNat_true, trySub_eq hpos]
    exact ⟨Nat.sub_add_cancel hpos, rfl⟩

theorem Tracked.usage_erase :
    trySub cache.cachedCoinsUsage (usage entry.coin) =
      total (fun entry => usage entry.coin) (cache.cacheCoins.erase outpoint) := by
  rw [h.usage_eq, trySub_eq (le_total hentry), total_eq_add_erase hentry, Nat.add_sub_cancel_left]

theorem Tracked.erase :
    Tracked usage ((cache.forgetCounts usage entry).erase outpoint entry)
      (flagged.erase outpoint) :=
  ⟨Linked.erase hentry ⟨h.ring, h.mem_iff, h.fresh⟩, (h.count_pos hentry).2.symm,
    h.usage_erase hentry⟩

theorem Tracked.setClean :
    Tracked usage ({ cache with
      mDirtyCount := trySub cache.mDirtyCount entry.isDirty.toNat }.setClean outpoint entry)
      (flagged.erase outpoint) := by
  refine ⟨Linked.setClean hentry ⟨h.ring, h.mem_iff, h.fresh⟩, (h.count_pos hentry).2.symm, ?_⟩
  change cache.cachedCoinsUsage = _
  rw [h.usage_eq, total_eq_add_erase hentry, CCoinsViewCache.setClean, total_insert]

end

end Entry

theorem Linked.clear (h : Linked cache flagged) :
    Linked cache.clear [] ∧ cache.clear.cacheCoins = ∅ := by
  have hloop : ∀ (entries : List (Sigma fun _ : COutPoint => CCoinsCacheEntry))
      (cache : CCoinsViewCache) (flagged : List COutPoint), Linked cache flagged →
      cache.cacheCoins.entries = entries →
      ∃ flagged', Linked (entries.foldl (fun cache entry => cache.erase entry.1 entry.2) cache)
          flagged' ∧
        (entries.foldl (fun cache entry => cache.erase entry.1 entry.2) cache).cacheCoins = ∅ := by
    intro entries
    induction entries with
    | nil => exact fun cache flagged h hentries => ⟨flagged, h, AList.ext hentries⟩
    | cons entry entries ih =>
      intro cache flagged h hentries
      have hentry : cache.cacheCoins.lookup entry.1 = some entry.2 := by
        rw [AList.lookup, hentries, List.dlookup_cons_eq]
      refine ih _ _ (h.erase hentry) ?_
      change cache.cacheCoins.entries.kerase entry.1 = entries
      rw [hentries, List.kerase_cons_eq rfl]
  obtain ⟨flagged', hlinked, hempty⟩ := hloop _ cache flagged h rfl
  refine ⟨?_, hempty⟩
  obtain rfl : flagged' = [] := by
    rw [List.eq_nil_iff_forall_not_mem]
    intro k hk
    obtain ⟨entry, hentry, -⟩ := (hlinked.mem_iff k).mp hk
    rw [hempty] at hentry
    cases hentry
  exact hlinked

theorem Tracked.insertFetched (h : Tracked usage cache flagged)
    (hnone : cache.cacheCoins.lookup outpoint = none) (coin : Coin) :
    Tracked usage { cache with
      cacheCoins := cache.cacheCoins.insert outpoint ⟨coin, false, false⟩
      cachedCoinsUsage := cache.cachedCoinsUsage + usage coin } flagged := by
  refine ⟨⟨h.ring, fun k => ?_, fun k entry hk hfresh => ?_⟩, h.count, ?_⟩
  · rw [h.mem_iff, lookup_insert_eq]
    by_cases hk : k = outpoint
    · subst hk
      simp [hnone]
    · rw [if_neg hk]
  · rw [lookup_insert_eq] at hk
    split at hk
    case isTrue =>
      obtain rfl := Option.some.inj hk
      cases hfresh
    case isFalse => exact h.fresh k entry hk hfresh
  · change cache.cachedCoinsUsage + usage coin = _
    rw [total_insert, total_erase_of_none hnone, h.usage_eq, Nat.add_comm]

/-- The entry of `outpoint` becomes a dirty one with the given coin, all counters kept. -/
def putDirty (usage : Coin → Nat) (cache : CCoinsViewCache) (outpoint : COutPoint) (coin : Coin)
    (fresh : Bool) : CCoinsViewCache :=
  let old := (cache.cacheCoins.lookup outpoint).getD .new
  { mBlockHash := cache.mBlockHash
    mSentinel := if old.isDirty then cache.mSentinel else cache.mSentinel.pushBack outpoint
    cacheCoins := cache.cacheCoins.insert outpoint ⟨coin, true, fresh⟩
    cachedCoinsUsage := trySub cache.cachedCoinsUsage (usage old.coin) + usage coin
    mDirtyCount := trySub cache.mDirtyCount old.isDirty.toNat + 1 }

theorem Tracked.putDirty (h : Tracked usage cache flagged) (husage : usage .empty = 0)
    (coin : Coin) (fresh : Bool) :
    Tracked usage (cache.putDirty usage outpoint coin fresh)
      (if outpoint ∈ flagged then flagged else flagged ++ [outpoint]) := by
  have hlookup : ∀ k, (cache.putDirty usage outpoint coin fresh).cacheCoins.lookup k =
      if k = outpoint then some ⟨coin, true, fresh⟩ else cache.cacheCoins.lookup k := fun k =>
    lookup_insert_eq _ _ _ _
  have hdirty : ((cache.cacheCoins.lookup outpoint).getD .new).isDirty = true ↔
      outpoint ∈ flagged := by
    cases hentry : cache.cacheCoins.lookup outpoint with
    | none => simp [h.mem_iff, hentry, CCoinsCacheEntry.new]
    | some entry => exact (h.mem_iff_isDirty hentry).symm
  refine ⟨⟨?_, fun k => ?_, fun k entry hk _ => ?_⟩, ?_, ?_⟩
  · rw [CCoinsViewCache.putDirty]
    dsimp only
    by_cases hin : outpoint ∈ flagged
    · rw [if_pos hin, if_pos (hdirty.mpr hin)]
      exact h.ring
    · rw [if_neg hin, if_neg (mt hdirty.mp hin)]
      exact h.ring.pushBack hin
  · rw [hlookup]
    by_cases hk : k = outpoint
    · subst hk
      rw [if_pos rfl]
      refine iff_of_true ?_ ⟨_, rfl, rfl⟩
      split
      case isTrue hin => exact hin
      case isFalse => exact List.mem_append_right _ List.mem_cons_self
    · rw [if_neg hk, ← h.mem_iff]
      split
      case isTrue => rfl
      case isFalse => simp [hk]
  · rw [hlookup] at hk
    split at hk
    case isTrue =>
      obtain rfl := Option.some.inj hk
      rfl
    case isFalse => exact h.fresh k entry hk ‹_›
  · rw [CCoinsViewCache.putDirty]
    dsimp only
    by_cases hin : outpoint ∈ flagged
    · have hpos : 0 < flagged.length := List.length_pos_of_mem hin
      rw [if_pos hin, hdirty.mpr hin, h.count, Bool.toNat_true, trySub_eq hpos,
        Nat.sub_add_cancel hpos]
    · rw [if_neg hin, Bool.eq_false_iff.mpr (mt hdirty.mp hin), h.count, List.length_append]
      rfl
  · rw [CCoinsViewCache.putDirty]
    dsimp only
    rw [total_insert, Nat.add_comm]
    congr 1
    cases hentry : cache.cacheCoins.lookup outpoint with
    | none =>
      rw [total_erase_of_none hentry, ← h.usage_eq]
      change trySub _ (usage .empty) = _
      rw [husage, trySub_zero]
    | some entry => exact h.usage_erase hentry

end Tracked

/-! ## What the operations amount to -/

section Amounts

variable {usage : Coin → Nat} {cache : CCoinsViewCache} {outpoint : COutPoint}
  {entry : CCoinsCacheEntry} {us : CCoinsViewCache}

theorem addFlags_insert (hash : Uint256) (ring : LinkedRing COutPoint)
    (coins : FiniteMap COutPoint CCoinsCacheEntry) (total count : Nat) (outpoint : COutPoint)
    (entry : CCoinsCacheEntry) (dirty fresh : Bool) :
    addFlags ⟨hash, ring, coins.insert outpoint entry, total, count⟩ outpoint dirty fresh =
      ⟨hash, if entry.isDirty || entry.isFresh then ring else ring.pushBack outpoint,
        coins.insert outpoint ⟨entry.coin, entry.isDirty || dirty, entry.isFresh || fresh⟩,
        total, count⟩ := by
  rw [addFlags]
  dsimp only
  rw [AList.lookup_insert]
  dsimp only
  rw [AList.insert_insert]

theorem addCoin_eq {coin : Coin} {possibleOverwrite : Bool} (husage : usage .empty = 0)
    (hflags : ∀ entry, cache.cacheCoins.lookup outpoint = some entry →
      (entry.isDirty || entry.isFresh) = entry.isDirty)
    (hcoin : coin.isSpent = false) (hscript : isUnspendable coin.out.scriptPubKey = false)
    (hold : possibleOverwrite = false →
      ((cache.cacheCoins.lookup outpoint).getD .new).coin.isSpent = true) :
    cache.addCoin usage outpoint coin possibleOverwrite =
      some (cache.putDirty usage outpoint coin
        (((cache.cacheCoins.lookup outpoint).getD .new).isFresh ||
          (!possibleOverwrite && !((cache.cacheCoins.lookup outpoint).getD .new).isDirty))) := by
  obtain ⟨hash, ring, coins, total, count⟩ := cache
  dsimp only at hflags hold ⊢
  have hguard : ¬ (!possibleOverwrite && !((coins.lookup outpoint).getD .new).coin.isSpent) = true := by
    cases possibleOverwrite with
    | false => simp [hold rfl]
    | true => simp
  rw [addCoin, if_neg (by simp [hcoin]), if_neg (by simp [hscript])]
  dsimp only
  rw [if_neg hguard, putDirty]
  dsimp only
  cases hfound : coins.lookup outpoint with
  | none =>
    simp only [Option.isSome_none, Bool.false_eq_true, if_false, Option.getD_none, assign, setDirty,
      addFlags_insert, setFresh, CCoinsCacheEntry.new, Bool.or_self, Bool.false_or, Bool.not_false,
      Bool.and_true, husage, trySub_zero, Bool.toNat_false]
    cases possibleOverwrite <;> simp
  | some entry =>
    have hflag := hflags entry hfound
    simp only [Option.isSome_some, if_true, Option.getD_some, forgetCounts, assign, setDirty,
      addFlags_insert, setFresh, hflag, Bool.or_true, Bool.or_false, Bool.true_or]
    cases hfresh : (!possibleOverwrite && !entry.isDirty) <;> simp

theorem spendFetched_eq (hflags : (entry.isDirty || entry.isFresh) = entry.isDirty)
    (hentry : cache.cacheCoins.lookup outpoint = some entry) (hfresh : entry.isFresh = false)
    (husage : usage .empty = 0) :
    cache.spendFetched usage outpoint =
      (true, entry.coin, cache.putDirty usage outpoint .empty false) := by
  obtain ⟨hash, ring, coins, total, count⟩ := cache
  obtain ⟨coin, dirty, fresh⟩ := entry
  dsimp only at hentry hfresh hflags
  subst hfresh
  rw [spendFetched, putDirty]
  dsimp only
  rw [hentry]
  simp only [forgetCounts, setDirty, addFlags, hentry, assign, AList.insert_insert, hflags,
    Option.getD_some, husage, Bool.false_eq_true, if_false, Nat.add_zero]

theorem writeEntry_eq_of_none (husage : usage .empty = 0) (hdirty : entry.isDirty = true)
    (hnone : us.cacheCoins.lookup outpoint = none)
    (hfresh : ¬ (entry.isFresh && entry.coin.isSpent) = true) : us.writeEntry usage outpoint entry =
      some (us.putDirty usage outpoint entry.coin entry.isFresh) := by
  obtain ⟨hash, ring, coins, total, count⟩ := us
  rw [writeEntry, if_neg (by simp [hdirty])]
  dsimp only at hnone ⊢
  rw [hnone, putDirty]
  dsimp only
  rw [if_neg hfresh, if_neg (not_not_intro husage), hnone]
  simp only [Option.getD_none, assign, setDirty, addFlags_insert, setFresh, CCoinsCacheEntry.new,
    Bool.or_self, Bool.false_or, husage, trySub_zero, Bool.toNat_false, Bool.false_eq_true, if_false]
  cases entry.isFresh <;> simp

theorem writeEntry_eq_of_some {ours : CCoinsCacheEntry} (hdirty : entry.isDirty = true)
    (hours : us.cacheCoins.lookup outpoint = some ours)
    (hflags : (ours.isDirty || ours.isFresh) = ours.isDirty)
    (hcount : ours.isDirty = true → 0 < us.mDirtyCount)
    (hthrow : ¬ (entry.isFresh && !ours.coin.isSpent) = true)
    (herase : ¬ (ours.isFresh && entry.coin.isSpent) = true) : us.writeEntry usage outpoint entry =
      some (us.putDirty usage outpoint entry.coin ours.isFresh) := by
  obtain ⟨hash, ring, coins, total, count⟩ := us
  rw [writeEntry, if_neg (by simp [hdirty])]
  dsimp only at hours hcount ⊢
  rw [hours, putDirty]
  dsimp only
  rw [if_neg hthrow, if_neg herase, hours]
  simp only [Option.getD_some, assign, setDirty, addFlags_insert, hflags, Bool.or_true, Bool.or_false]
  obtain ⟨coin, dirty, fresh⟩ := ours
  cases dirty with
  | false => simp [trySub_zero]
  | true =>
    have hpos := hcount rfl
    simp [trySub_eq hpos, Nat.sub_add_cancel hpos]

end Amounts

/-! ## What a layer says of the coins below -/

def view (cache : CCoinsViewCache) (below : CoinsMap) : CoinsMap := fun outpoint =>
  match cache.cacheCoins.lookup outpoint with
  | some entry => entry.value
  | none => below outpoint

structure EntryOk (below : CoinsMap) (outpoint : COutPoint) (entry : CCoinsCacheEntry) : Prop where
  spent : entry.coin.isSpent = true →
    entry.isDirty = true ∧ entry.isFresh = false ∧ entry.coin = .empty
  fresh : entry.isFresh = true → entry.isDirty = true ∧ below outpoint = none
  clean : entry.isDirty = false → below outpoint = some entry.coin

structure Sane (usage : Coin → Nat) (cache : CCoinsViewCache) (below : CoinsMap) : Prop where
  tracked : ∃ flagged, Tracked usage cache flagged
  entry : ∀ outpoint entry, cache.cacheCoins.lookup outpoint = some entry →
    EntryOk below outpoint entry

variable {outpoint : COutPoint} {entry : CCoinsCacheEntry} {cache : CCoinsViewCache}

theorem EntryOk.congr {below below' : CoinsMap}
    (h : EntryOk below outpoint entry) (hsame : below' outpoint = below outpoint) :
    EntryOk below' outpoint entry :=
  ⟨h.spent, hsame ▸ h.fresh, hsame ▸ h.clean⟩

def Unspent (coins : CoinsMap) : Prop :=
  ∀ outpoint coin, coins outpoint = some coin → coin.isSpent = false

theorem sane_new (usage : Coin → Nat) (below : CoinsMap) : Sane usage new below :=
  ⟨⟨[], tracked_new usage⟩, fun _ _ h => by cases h⟩

theorem view_of_none (h : cache.cacheCoins.lookup outpoint = none) (below : CoinsMap) :
    cache.view below outpoint = below outpoint := by
  rw [view, h]

theorem view_of_some (h : cache.cacheCoins.lookup outpoint = some entry) (below : CoinsMap) :
    cache.view below outpoint = entry.value := by
  rw [view, h]

theorem value_eq_some_iff {coin : Coin} :
    entry.value = some coin ↔ entry.coin = coin ∧ entry.coin.isSpent = false := by
  rw [CCoinsCacheEntry.value]
  split
  case isTrue h => simp [h]
  case isFalse h => simp [h]

theorem value_eq_none_iff : entry.value = none ↔ entry.coin.isSpent = true := by
  rw [CCoinsCacheEntry.value]
  split <;> simp_all

theorem any_eq_isSome (found : Option CCoinsCacheEntry) :
    (found.any fun entry => !entry.coin.isSpent) = (found.bind CCoinsCacheEntry.value).isSome := by
  cases found with
  | none => rfl
  | some entry =>
    rw [Option.any_some, Option.bind_some, CCoinsCacheEntry.value]
    split <;> simp_all

theorem view_unspent {below : CoinsMap} (h : Unspent below) : Unspent (cache.view below) := by
  intro outpoint coin hcoin
  rw [view] at hcoin
  split at hcoin
  case h_1 entry _ =>
    obtain ⟨rfl, hunspent⟩ := value_eq_some_iff.mp hcoin
    exact hunspent
  case h_2 => exact h outpoint coin hcoin

section Sane

variable {usage : Coin → Nat} {cache : CCoinsViewCache} {below : CoinsMap} {outpoint : COutPoint}

variable {entry : CCoinsCacheEntry} {coin : Coin} {flagged : List COutPoint}

theorem Sane.flags_eq (h : Sane usage cache below)
    (hentry : cache.cacheCoins.lookup outpoint = some entry) :
    (entry.isDirty || entry.isFresh) = entry.isDirty := by
  obtain ⟨flagged, htracked⟩ := h.tracked
  exact htracked.flags_eq hentry

theorem Sane.getD_coin (h : Sane usage cache below) (outpoint : COutPoint) :
    ((cache.cacheCoins.lookup outpoint).map CCoinsCacheEntry.coin).getD .empty =
      ((cache.cacheCoins.lookup outpoint).bind CCoinsCacheEntry.value).getD .empty := by
  cases hentry : cache.cacheCoins.lookup outpoint with
  | none => rfl
  | some entry =>
    rw [Option.map_some, Option.getD_some, Option.bind_some]
    cases hspent : entry.coin.isSpent with
    | true =>
      rw [value_eq_none_iff.mpr hspent, ((h.entry outpoint entry hentry).spent hspent).2.2,
        Option.getD_none]
    | false => rw [value_eq_some_iff.mpr ⟨rfl, hspent⟩, Option.getD_some]

theorem view_putDirty (cache : CCoinsViewCache) (below : CoinsMap) (outpoint : COutPoint)
    (coin : Coin) (fresh : Bool) :
    (cache.putDirty usage outpoint coin fresh).view below =
      Function.update (cache.view below) outpoint (if coin.isSpent then none else some coin) := by
  funext k
  rw [view, putDirty, Function.update_apply]
  dsimp only
  rw [lookup_insert_eq]
  by_cases hk : k = outpoint
  · rw [if_pos hk, if_pos hk]
    rfl
  · rw [if_neg hk, if_neg hk]
    rfl

theorem Sane.putDirty (h : Sane usage cache below) (husage : usage .empty = 0) {fresh : Bool}
    (hspent : coin.isSpent = true → fresh = false ∧ coin = .empty)
    (hfresh : fresh = true → below outpoint = none) :
    Sane usage (cache.putDirty usage outpoint coin fresh) below := by
  obtain ⟨flagged, htracked⟩ := h.tracked
  refine ⟨⟨_, htracked.putDirty husage coin fresh⟩, fun k entry hk => ?_⟩
  rw [CCoinsViewCache.putDirty] at hk
  dsimp only at hk
  rw [lookup_insert_eq] at hk
  split at hk
  case isTrue heq =>
    obtain rfl := Option.some.inj hk
    subst heq
    exact ⟨fun hs => ⟨rfl, hspent hs⟩, fun hf => ⟨rfl, hfresh hf⟩, fun hd => nomatch hd⟩
  case isFalse => exact h.entry k entry hk

theorem view_erase (cache : CCoinsViewCache) (below : CoinsMap) (outpoint : COutPoint)
    (entry : CCoinsCacheEntry) :
    (cache.erase outpoint entry).view below =
      Function.update (cache.view below) outpoint (below outpoint) := by
  funext k
  rw [view, erase, Function.update_apply]
  dsimp only
  rw [lookup_erase_eq]
  by_cases hk : k = outpoint
  · rw [if_pos hk, if_pos hk, hk]
  · rw [if_neg hk, if_neg hk]
    rfl

section
variable (h : Sane usage cache below)
include h

theorem Sane.erase (hentry : cache.cacheCoins.lookup outpoint = some entry) :
    Sane usage ((cache.forgetCounts usage entry).erase outpoint entry) below := by
  obtain ⟨flagged, htracked⟩ := h.tracked
  refine ⟨⟨_, htracked.erase hentry⟩, fun k entry' hk => ?_⟩
  rw [CCoinsViewCache.erase] at hk
  dsimp only at hk
  rw [lookup_erase_eq] at hk
  split at hk
  case isTrue => cases hk
  case isFalse => exact h.entry k entry' hk

theorem Sane.insertFetched (hnone : cache.cacheCoins.lookup outpoint = none)
    (hbelow : below outpoint = some coin) (hcoin : coin.isSpent = false) :
    ∃ cache', cache.insertFetched usage outpoint coin = some cache' ∧ Sane usage cache' below ∧
      cache'.view below = cache.view below ∧
      cache'.cacheCoins.lookup outpoint = some ⟨coin, false, false⟩ := by
  obtain ⟨flagged, htracked⟩ := h.tracked
  refine ⟨_, if_neg (by simp [hcoin]), ⟨⟨_, htracked.insertFetched hnone coin⟩, ?_⟩, ?_,
    AList.lookup_insert _⟩
  · intro k entry hk
    dsimp only at hk
    rw [lookup_insert_eq] at hk
    split at hk
    case isTrue heq =>
      obtain rfl := Option.some.inj hk
      subst heq
      exact ⟨fun hs => absurd (hs.symm.trans hcoin) (by decide), (fun hf => nomatch hf),
        fun _ => hbelow⟩
    case isFalse => exact h.entry k entry hk
  · funext k
    rw [view, view]
    dsimp only
    rw [lookup_insert_eq]
    by_cases hk : k = outpoint
    · rw [if_pos hk, hk, hnone, hbelow]
      exact if_neg (by simp [hcoin])
    · rw [if_neg hk]

theorem Sane.addCoin (husage : usage .empty = 0) (hcoin : coin.isSpent = false)
    {possibleOverwrite : Bool}
    (hover : possibleOverwrite = false → cache.view below outpoint = none) :
    ∃ cache', cache.addCoin usage outpoint coin possibleOverwrite = some cache' ∧
      Sane usage cache' below ∧
      cache'.view below = if isUnspendable coin.out.scriptPubKey then cache.view below
        else Function.update (cache.view below) outpoint (some coin) := by
  cases hscript : isUnspendable coin.out.scriptPubKey with
  | true =>
    refine ⟨cache, ?_, h, rfl⟩
    rw [CCoinsViewCache.addCoin, if_neg (by simp [hcoin]), if_pos hscript]
  | false =>
    have hold : possibleOverwrite = false →
        ((cache.cacheCoins.lookup outpoint).getD .new).coin.isSpent = true := by
      intro hfalse
      have hview := hover hfalse
      cases hentry : cache.cacheCoins.lookup outpoint with
      | none => rfl
      | some entry =>
        rw [view_of_some hentry] at hview
        exact value_eq_none_iff.mp hview
    refine ⟨_, addCoin_eq husage (fun _ hentry => h.flags_eq hentry) hcoin hscript hold,
      h.putDirty husage (fun hs => absurd (hs.symm.trans hcoin) (by decide)) ?_, ?_⟩
    · intro hfresh
      cases hentry : cache.cacheCoins.lookup outpoint with
      | none =>
        -- a coin that is not here and must not be overwritten is not below either
        rw [hentry] at hfresh
        have hfalse : possibleOverwrite = false := by simpa [CCoinsCacheEntry.new] using hfresh
        rw [← view_of_none hentry below]
        exact hover hfalse
      | some entry =>
        rw [hentry] at hfresh hold
        have hok := h.entry outpoint entry hentry
        cases hf : entry.isFresh with
        | true => exact (hok.fresh hf).2
        | false =>
          -- a spent entry is dirty, so it does not become fresh
          have hclean : possibleOverwrite = false ∧ entry.isDirty = false := by
            simpa [hf] using hfresh
          have hdirty := (hok.spent (hold hclean.1)).1
          exact absurd (hdirty.symm.trans hclean.2) (by decide)
    · rw [view_putDirty, hcoin]
      rfl

theorem Sane.spendFetched (husage : usage .empty = 0)
    (hfetched : cache.cacheCoins.lookup outpoint = none → below outpoint = none) :
    let out := cache.spendFetched usage outpoint
    Sane usage out.2.2 below ∧
      out.2.2.view below = Function.update (cache.view below) outpoint none ∧
      out.2.1 = (cache.view below outpoint).getD .empty ∧
      ((cache.view below outpoint).isSome = true → out.1 = true) := by
  cases hentry : cache.cacheCoins.lookup outpoint with
  | none =>
    have hbelow := hfetched hentry
    have hout : cache.spendFetched usage outpoint = (false, .empty, cache) := by
      rw [CCoinsViewCache.spendFetched, hentry]
    rw [hout, view_of_none hentry, hbelow]
    refine ⟨h, ?_, rfl, fun hsome => absurd hsome (by simp)⟩
    rw [← hbelow, ← view_of_none hentry below, Function.update_eq_self]
  | some entry =>
    have hok := h.entry outpoint entry hentry
    have hmoved : entry.coin = entry.value.getD .empty := by
      have hcoin := h.getD_coin outpoint
      rw [hentry] at hcoin
      exact hcoin
    rw [view_of_some hentry]
    cases hfresh : entry.isFresh with
    | true =>
      have hout : cache.spendFetched usage outpoint =
          (true, entry.coin, (cache.forgetCounts usage entry).erase outpoint entry) := by
        rw [CCoinsViewCache.spendFetched, hentry]
        exact if_pos hfresh
      rw [hout]
      refine ⟨h.erase hentry, ?_, hmoved, fun _ => rfl⟩
      rw [view_erase, (hok.fresh hfresh).2]
      rfl
    | false =>
      rw [spendFetched_eq (h.flags_eq hentry) hentry hfresh husage]
      exact ⟨h.putDirty husage (fun _ => ⟨rfl, rfl⟩) (fun hf => absurd hf (by decide)),
        view_putDirty _ _ _ _ _, hmoved, fun _ => rfl⟩

theorem Sane.writeEntry (husage : usage .empty = 0) (hdirty : entry.isDirty = true)
    (hentry : EntryOk (cache.view below) outpoint entry) :
    ∃ cache', cache.writeEntry usage outpoint entry = some cache' ∧ Sane usage cache' below ∧
      cache'.view below = Function.update (cache.view below) outpoint entry.value := by
  have hspent : entry.coin.isSpent = true → entry.isFresh = false ∧ entry.coin = .empty :=
    fun hs => (hentry.spent hs).2
  cases hours : cache.cacheCoins.lookup outpoint with
  | none =>
    have hkeep : ¬ (entry.isFresh && entry.coin.isSpent) = true := by
      rw [Bool.and_eq_true]
      rintro ⟨hf, hs⟩
      exact absurd (hf.symm.trans (hspent hs).1) (by decide)
    refine ⟨_, writeEntry_eq_of_none husage hdirty hours hkeep, h.putDirty husage hspent ?_,
      view_putDirty _ _ _ _ _⟩
    intro hf
    rw [← view_of_none hours below]
    exact (hentry.fresh hf).2
  | some ours =>
    have hok := h.entry outpoint ours hours
    have hthrow : ¬ (entry.isFresh && !ours.coin.isSpent) = true := by
      rw [Bool.and_eq_true, Bool.not_eq_true']
      rintro ⟨hf, hunspent⟩
      have hnone := (hentry.fresh hf).2
      rw [view_of_some hours, value_eq_none_iff] at hnone
      exact absurd (hnone.symm.trans hunspent) (by decide)
    by_cases herase : (ours.isFresh && entry.coin.isSpent) = true
    case pos =>
      obtain ⟨hf, hs⟩ := Bool.and_eq_true _ _ ▸ herase
      refine ⟨(cache.forgetCounts usage ours).erase outpoint ours, ?_, h.erase hours, ?_⟩
      · rw [CCoinsViewCache.writeEntry, if_neg (by simp [hdirty]), hours]
        dsimp only
        rw [if_neg hthrow, if_pos herase]
      · rw [view_erase, (hok.fresh hf).2, value_eq_none_iff.mpr hs]
        rfl
    case neg =>
      have hcount : ours.isDirty = true → 0 < cache.mDirtyCount := by
        intro hd
        obtain ⟨flagged, htracked⟩ := h.tracked
        rw [htracked.count]
        exact List.length_pos_of_mem ((htracked.mem_iff_isDirty hours).mpr hd)
      refine ⟨_, writeEntry_eq_of_some hdirty hours (h.flags_eq hours) hcount hthrow herase,
        h.putDirty husage (fun hs => ⟨?_, (hspent hs).2⟩) (fun hf => (hok.fresh hf).2),
        view_putDirty _ _ _ _ _⟩
      cases hf : ours.isFresh with
      | false => rfl
      | true => exact absurd (by rw [hf, hs]; rfl) herase

theorem Sane.uncache (outpoint : COutPoint) : Sane usage (cache.uncache usage outpoint) below ∧
      (cache.uncache usage outpoint).view below = cache.view below := by
  rw [CCoinsViewCache.uncache]
  split
  case h_1 => exact ⟨h, rfl⟩
  case h_2 entry hentry =>
    split
    case isTrue => exact ⟨h, rfl⟩
    case isFalse hclean =>
      have hok := h.entry outpoint entry hentry
      have hbelow := hok.clean (Bool.eq_false_iff.mpr hclean)
      have hsame : { cache with
          cachedCoinsUsage := trySub cache.cachedCoinsUsage (usage entry.coin) } =
          cache.forgetCounts usage entry := by
        rw [forgetCounts, Bool.eq_false_iff.mpr hclean]
        rfl
      rw [hsame]
      refine ⟨h.erase hentry, ?_⟩
      have hunspent : entry.coin.isSpent = false := by
        rw [Bool.eq_false_iff]
        exact fun hs => hclean (hok.spent hs).1
      have hview : cache.view below outpoint = below outpoint := by
        rw [view_of_some hentry, hbelow, value_eq_some_iff.mpr ⟨rfl, hunspent⟩]
      rw [view_erase, ← hview]
      exact Function.update_eq_self _ _

end

theorem Tracked.sanityCheck (h : Tracked usage cache flagged)
    (hspent : ∀ outpoint entry, cache.cacheCoins.lookup outpoint = some entry →
      entry.coin.isSpent = true → entry.isDirty = true ∧ entry.isFresh = false) :
    cache.sanityCheck usage = true := by
  have hlookup : ∀ entry ∈ cache.cacheCoins.entries,
      cache.cacheCoins.lookup entry.1 = some entry.2 := fun entry hmem =>
    AList.mem_lookup_iff.mpr hmem
  -- the keys of the dirty entries are the nodes of the ring
  have hkeys : ((cache.cacheCoins.entries.filter fun entry => entry.2.isDirty).map Sigma.fst).Perm
      flagged := by
    refine (List.perm_ext_iff_of_nodup ?_ h.ring.nodup).mpr fun k => ?_
    · exact cache.cacheCoins.keys_nodup.sublist (List.filter_sublist.map _)
    · rw [h.mem_iff, List.mem_map]
      constructor
      · rintro ⟨entry, hmem, rfl⟩
        obtain ⟨hin, hdirty⟩ := List.mem_filter.mp hmem
        exact ⟨entry.2, hlookup entry hin, hdirty⟩
      · rintro ⟨entry, hentry, hdirty⟩
        exact ⟨⟨k, entry⟩, List.mem_filter.mpr ⟨AList.mem_lookup_iff.mp hentry, hdirty⟩, rfl⟩
  have hcount : (cache.cacheCoins.entries.map Sigma.snd).countP CCoinsCacheEntry.isDirty =
      flagged.length := by
    rw [← hkeys.length_eq, List.length_map, List.countP_map, List.countP_eq_length_filter]
    rfl
  have hwalk : cache.mSentinel.walk (cache.cacheCoins.entries.length + 1) none = flagged := by
    refine h.ring.chain.walk_eq ?_
    rw [← hkeys.length_eq, List.length_map]
    exact Nat.le_succ_of_le (List.length_filter_le _ _)
  have hentries : (cache.cacheCoins.entries.map Sigma.snd).all (fun entry =>
      if entry.coin.isSpent then entry.isDirty && !entry.isFresh
      else entry.isDirty || !entry.isFresh) = true := by
    rw [List.all_map, List.all_eq_true]
    intro entry hmem
    have hentry := hlookup entry hmem
    have hfresh := h.fresh entry.1 entry.2 hentry
    dsimp only [Function.comp]
    split
    case isTrue hs => simp [hspent entry.1 entry.2 hentry hs]
    case isFalse =>
      cases hf : entry.2.isFresh with
      | false => simp
      | true => simp [hfresh hf]
  have hlinks : flagged.all (fun outpoint =>
      cache.mSentinel.prev (cache.mSentinel.next (some outpoint)) == some outpoint &&
        cache.mSentinel.next (cache.mSentinel.prev (some outpoint)) == some outpoint &&
        ((cache.cacheCoins.lookup outpoint).map CCoinsCacheEntry.isDirty == some true)) = true := by
    rw [List.all_eq_true]
    intro k hk
    obtain ⟨hforth, hback⟩ := h.ring.chain.there_and_back hk
    obtain ⟨entry, hentry, hdirty⟩ := (h.mem_iff k).mp hk
    simp [hforth, hback, hentry, hdirty]
  have husage : ((cache.cacheCoins.entries.map Sigma.snd).map fun entry => usage entry.coin).sum =
      cache.cachedCoinsUsage := by
    rw [h.usage_eq, List.map_map]
    rfl
  rw [CCoinsViewCache.sanityCheck, hwalk, hcount, husage, hentries, hlinks, h.count]
  simp

theorem Sane.sanityCheck (h : Sane usage cache below) : cache.sanityCheck usage = true := by
  obtain ⟨flagged, htracked⟩ := h.tracked
  refine htracked.sanityCheck fun k entry hentry hs => ?_
  obtain ⟨hdirty, hfresh, -⟩ := (h.entry k entry hentry).spent hs
  exact ⟨hdirty, hfresh⟩

theorem Sane.view_of_clean (h : Sane usage cache below)
    (hclean : ∀ entry, cache.cacheCoins.lookup outpoint = some entry → entry.isDirty = false) :
    cache.view below outpoint = below outpoint := by
  cases hentry : cache.cacheCoins.lookup outpoint with
  | none => exact view_of_none hentry below
  | some entry =>
    have hok := h.entry outpoint entry hentry
    have hunspent : entry.coin.isSpent = false := by
      rw [Bool.eq_false_iff]
      exact fun hs => absurd ((hok.spent hs).1.symm.trans (hclean entry hentry)) (by decide)
    rw [view_of_some hentry, hok.clean (hclean entry hentry)]
    exact value_eq_some_iff.mpr ⟨rfl, hunspent⟩

theorem clear_fields (cache : CCoinsViewCache) :
    cache.clear.mDirtyCount = cache.mDirtyCount ∧ cache.clear.mBlockHash = cache.mBlockHash := by
  have hloop : ∀ (entries : List (Sigma fun _ : COutPoint => CCoinsCacheEntry))
      (cache : CCoinsViewCache),
      (entries.foldl (fun cache entry => cache.erase entry.1 entry.2) cache).mDirtyCount =
          cache.mDirtyCount ∧
        (entries.foldl (fun cache entry => cache.erase entry.1 entry.2) cache).mBlockHash =
          cache.mBlockHash := by
    intro entries
    induction entries with
    | nil => exact fun cache => ⟨rfl, rfl⟩
    | cons entry entries ih => exact fun cache => ih (cache.erase entry.1 entry.2)
  exact hloop _ cache

theorem Linked.sane_wiped (h : Linked cache flagged) (hash : Uint256) (below : CoinsMap) :
    Sane usage ⟨hash, cache.clear.mSentinel, cache.clear.cacheCoins, 0, 0⟩ below ∧
      view ⟨hash, cache.clear.mSentinel, cache.clear.cacheCoins, 0, 0⟩ below = below := by
  obtain ⟨hlinked, hempty⟩ := h.clear
  refine ⟨⟨⟨[], ⟨hlinked.ring, hlinked.mem_iff, hlinked.fresh⟩, rfl, ?_⟩, ?_⟩, ?_⟩
  · rw [hempty]
    rfl
  · intro k entry hk
    rw [hempty] at hk
    cases hk
  · funext k
    rw [view, hempty]
    rfl

end Sane

end CCoinsViewCache

end HcsCoin
