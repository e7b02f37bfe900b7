import HcsCoin.ConnectBlock

/-!
# The value of the UTXO set

A connected block adds at most its subsidy to the value of all coins.  `AddCoin`
may mark a coin fresh while an uncached coin is still there below it; the proof
therefore counts what a stack may ever show at an outpoint, the hidden coin
included.
-/

namespace HcsCoin

open Foundation CCoinsViewCache CoinsM CoinsStack

def worth (coin : Option Coin) : Int := (coin.map Coin.amount).getD 0

noncomputable def totalValue (coins : CoinsMap) : Int := ∑ᶠ outpoint, worth (coins outpoint)

structure UtxoSet (coins : CoinsMap) : Prop where
  finite : {outpoint | coins outpoint ≠ none}.Finite
  value : ∀ outpoint, 0 ≤ worth (coins outpoint)

@[simp] theorem worth_none : worth none = 0 := rfl

@[simp] theorem worth_some (coin : Coin) : worth (some coin) = coin.amount := rfl

theorem worth_value_of_unspent {entry : CCoinsCacheEntry} (h : entry.coin.isSpent = false) :
    worth entry.value = entry.coin.amount := by
  rw [value_eq_some_iff.mpr ⟨rfl, h⟩, worth_some]

theorem UtxoSet.finite_support {coins : CoinsMap} (h : UtxoSet coins) :
    (fun outpoint => worth (coins outpoint)).support.Finite := by
  refine h.finite.subset fun outpoint hk hnone => hk ?_
  dsimp only
  rw [hnone, worth_none]

namespace CoinsStack

variable {usage : Coin → Nat} {stack stack' : CoinsStack} {outpoint : COutPoint}

/-! ## What a stack may ever show -/

/-- The value at an outpoint, with that of a coin below a fresh one. -/
def stake (stack : CoinsStack) (outpoint : COutPoint) : Int :=
  match stack.top.cacheCoins.lookup outpoint with
  | none => worth (stack.below.view outpoint)
  | some entry =>
    worth entry.value + if entry.isFresh then worth (stack.below.view outpoint) else 0

noncomputable def stakes (stack : CoinsStack) : Int := ∑ᶠ outpoint, stack.stake outpoint

theorem stake_of_none (h : stack.top.cacheCoins.lookup outpoint = none) :
    stack.stake outpoint = worth (stack.below.view outpoint) := by
  rw [stake, h]

variable {entry : CCoinsCacheEntry} {possibleOverwrite : Bool} {coin : Coin}

theorem stake_of_some (h : stack.top.cacheCoins.lookup outpoint = some entry) :
    stack.stake outpoint =
      worth entry.value + if entry.isFresh then worth (stack.below.view outpoint) else 0 := by
  rw [stake, h]

/-- A stack whose stakes can be added up, none of them negative. -/
structure Accounted (usage : Coin → Nat) (stack : CoinsStack) : Prop where
  below : stack.below.Sane usage
  finite : {outpoint | stack.below.view outpoint ≠ none}.Finite
  spent : ∀ {outpoint entry}, stack.top.cacheCoins.lookup outpoint = some entry →
    entry.coin.isSpent = true → entry.isDirty = true ∧ entry.isFresh = false
  value : ∀ {outpoint entry}, stack.top.cacheCoins.lookup outpoint = some entry →
    0 ≤ worth entry.value
  hidden : ∀ {outpoint}, (∀ entry, stack.top.cacheCoins.lookup outpoint = some entry →
    entry.isFresh = true) → 0 ≤ worth (stack.below.view outpoint)

/-- The cache holds finitely many entries. -/
theorem finite_of_untouched (stack : CoinsStack) {coins : COutPoint → Option Coin} {s : Set COutPoint}
    (hcoins : {outpoint | coins outpoint ≠ none}.Finite)
    (hs : ∀ k, coins k = none → stack.top.cacheCoins.lookup k = none → k ∉ s) : s.Finite := by
  refine (hcoins.union (FiniteMap.finite_lookup stack.top.cacheCoins)).subset fun k hk => ?_
  by_contra hout
  obtain ⟨hnone, htop⟩ := not_or.mp hout
  rw [Set.mem_ofPred_eq, not_not] at hnone htop
  exact hs k hnone htop hk

section
variable (h : stack.Accounted usage)
include h

theorem Accounted.finite_support : stack.stake.support.Finite := by
  refine finite_of_untouched stack h.finite fun k hbelow htop hk => ?_
  rw [Function.mem_support, stake_of_none htop, hbelow] at hk
  exact hk rfl

theorem Accounted.finite_view : {outpoint | stack.view outpoint ≠ none}.Finite := by
  refine finite_of_untouched stack h.finite fun k hbelow htop hk => ?_
  rw [Set.mem_ofPred_eq, view, view_of_none htop, hbelow] at hk
  exact hk rfl

theorem Accounted.worth_view_nonneg (outpoint : COutPoint) : 0 ≤ worth (stack.view outpoint) := by
  rw [view]
  cases hentry : stack.top.cacheCoins.lookup outpoint with
  | none =>
    rw [view_of_none hentry]
    refine h.hidden fun entry hsome => ?_
    cases hentry.symm.trans hsome
  | some entry =>
    rw [view_of_some hentry]
    exact h.value hentry

theorem Accounted.utxoSet : UtxoSet stack.view := ⟨h.finite_view, h.worth_view_nonneg⟩

theorem Accounted.worth_view_le (outpoint : COutPoint) :
    worth (stack.view outpoint) ≤ stack.stake outpoint := by
  rw [view]
  cases hentry : stack.top.cacheCoins.lookup outpoint with
  | none => rw [view_of_none hentry, stake_of_none hentry]
  | some entry =>
    rw [view_of_some hentry, stake_of_some hentry]
    split
    case isTrue hfresh =>
      refine Int.le_add_of_nonneg_right (h.hidden fun entry' hentry' => ?_)
      rwa [← Option.some.inj (hentry.symm.trans hentry')]
    case isFalse => rw [Int.add_zero]

theorem Accounted.totalValue_le : totalValue stack.view ≤ stack.stakes :=
  finsum_le_finsum' h.utxoSet.finite_support h.finite_support h.worth_view_le

end

theorem Sane.stakes_eq (h : stack.Sane usage) : stack.stakes = totalValue stack.view := by
  refine finsum_congr fun outpoint => ?_
  rw [view]
  cases hentry : stack.top.cacheCoins.lookup outpoint with
  | none => rw [view_of_none hentry, stake_of_none hentry]
  | some entry =>
    rw [view_of_some hentry, stake_of_some hentry]
    split
    case isTrue hfresh =>
      rw [((h.top.entry outpoint entry hentry).fresh hfresh).2, worth_none, Int.add_zero]
    case isFalse => rw [Int.add_zero]

theorem Sane.accounted (h : stack.Sane usage) (hcoins : UtxoSet stack.view) :
    stack.Accounted usage := by
  refine ⟨h.below, ?_, fun hentry hspent => ?_, fun {outpoint entry} hentry => ?_,
    fun {outpoint} hhidden => ?_⟩
  · refine finite_of_untouched stack hcoins.finite fun k hview htop hk => ?_
    rw [view, view_of_none htop] at hview
    exact hk hview
  · obtain ⟨hdirty, hfresh, -⟩ := (h.top.entry _ _ hentry).spent hspent
    exact ⟨hdirty, hfresh⟩
  · have hvalue := hcoins.value outpoint
    rwa [view, view_of_some hentry] at hvalue
  · have hvalue := hcoins.value outpoint
    cases hentry : stack.top.cacheCoins.lookup outpoint with
    | none => rwa [view, view_of_none hentry] at hvalue
    | some entry =>
      rw [((h.top.entry outpoint entry hentry).fresh (hhidden entry hentry)).2, worth_none]

/-! ## Lookups, spends and additions -/

theorem Grown.stake_eq (h : Grown usage stack stack') (hbelow : stack.below.Sane usage)
    (outpoint : COutPoint) : stack'.stake outpoint = stack.stake outpoint := by
  cases hentry : stack.top.cacheCoins.lookup outpoint with
  | some entry => rw [stake_of_some hentry, stake_of_some (h.keep hentry), h.coins]
  | none =>
    rw [stake_of_none hentry]
    cases hentry' : stack'.top.cacheCoins.lookup outpoint with
    | none => rw [stake_of_none hentry', h.coins]
    | some entry =>
      obtain ⟨coin, hcoin, rfl⟩ := h.clean hentry hentry'
      rw [stake_of_some hentry', hcoin, if_neg Bool.false_ne_true, Int.add_zero, worth_some]
      exact worth_value_of_unspent (hbelow.unspent outpoint coin hcoin)

theorem Grown.stakes_eq (h : Grown usage stack stack') (hbelow : stack.below.Sane usage) :
    stack'.stakes = stack.stakes :=
  finsum_congr (h.stake_eq hbelow)

theorem Grown.accounted (h : Grown usage stack stack') (hacc : stack.Accounted usage) :
    stack'.Accounted usage := by
  -- an entry of the grown stack was there, or shows the coin below
  have hcases : ∀ {k entry}, stack'.top.cacheCoins.lookup k = some entry →
      stack.top.cacheCoins.lookup k = some entry ∨ ∃ coin, stack.top.cacheCoins.lookup k = none ∧
        stack.below.view k = some coin ∧ entry = ⟨coin, false, false⟩ := by
    intro k entry hentry
    cases hold : stack.top.cacheCoins.lookup k with
    | some entry' => exact .inl ((h.keep hold).symm.trans hentry)
    | none =>
      obtain ⟨coin, hcoin, heq⟩ := h.clean hold hentry
      exact .inr ⟨coin, rfl, hcoin, heq⟩
  refine ⟨h.below, h.coins ▸ hacc.finite, fun {k entry} hentry hspent => ?_,
    fun {k entry} hentry => ?_, fun {k} hhidden => ?_⟩
  · obtain hold | ⟨coin, -, hcoin, rfl⟩ := hcases hentry
    · exact hacc.spent hold hspent
    · exact absurd (hspent.symm.trans (hacc.below.unspent k coin hcoin)) (by decide)
  · obtain hold | ⟨coin, hnone, hcoin, rfl⟩ := hcases hentry
    · exact hacc.value hold
    · have hvalue := hacc.hidden fun entry hsome => absurd (hnone.symm.trans hsome) nofun
      rw [hcoin] at hvalue
      rwa [worth_value_of_unspent (hacc.below.unspent k coin hcoin)]
  · rw [h.coins]
    exact hacc.hidden fun entry hentry => hhidden entry (h.keep hentry)

theorem stake_spend (hentry : stack.top.cacheCoins.lookup outpoint = some entry)
    (hunspent : entry.coin.isSpent = false) :
    (stack.spend usage outpoint).stake =
      Function.update stack.stake outpoint (stack.stake outpoint - entry.coin.amount) := by
  funext k
  rw [Function.update_apply]
  have hlookup := @lookup_spend usage _ _ _ hentry k
  split at hlookup
  case isFalse hne =>
    rw [if_neg hne, stake, hlookup]
    rfl
  case isTrue heq =>
    subst heq
    rw [if_pos rfl, stake_of_some hentry, worth_value_of_unspent hunspent]
    split at hlookup
    case isTrue hfresh =>
      rw [stake_of_none hlookup, if_pos hfresh, Int.add_comm, Int.add_sub_cancel]
      rfl
    case isFalse hfresh =>
      rw [stake_of_some hlookup, if_neg hfresh, Int.add_zero, Int.sub_self]
      rfl

theorem Accounted.stakes_spend (h : stack.Accounted usage)
    (hentry : stack.top.cacheCoins.lookup outpoint = some entry)
    (hunspent : entry.coin.isSpent = false) :
    (stack.spend usage outpoint).stakes = stack.stakes - entry.coin.amount := by
  rw [stakes, stake_spend hentry hunspent, finsum_update h.finite_support]
  change stack.stakes - _ + _ = _
  omega

theorem Accounted.spend (h : stack.Accounted usage)
    (hentry : stack.top.cacheCoins.lookup outpoint = some entry) :
    (stack.spend usage outpoint).Accounted usage := by
  have hlookup := @lookup_spend usage _ _ _ hentry
  refine ⟨h.below, h.finite, fun {k entry'} hentry' => ?_, fun {k entry'} hentry' => ?_,
    fun {k} hhidden => ?_⟩
  · rw [hlookup] at hentry'
    split at hentry'
    case isFalse => exact h.spent hentry'
    case isTrue =>
      split at hentry'
      case isTrue => cases hentry'
      case isFalse =>
        obtain rfl := Option.some.inj hentry'
        exact fun _ => ⟨rfl, rfl⟩
  · rw [hlookup] at hentry'
    split at hentry'
    case isFalse => exact h.value hentry'
    case isTrue =>
      split at hentry'
      case isTrue => cases hentry'
      case isFalse =>
        obtain rfl := Option.some.inj hentry'
        decide
  · refine h.hidden fun entry' hentry' => ?_
    by_cases heq : k = outpoint
    case neg => exact hhidden entry' (by rw [hlookup, if_neg heq, hentry'])
    case pos =>
      subst heq
      obtain rfl := Option.some.inj (hentry.symm.trans hentry')
      by_contra hfresh
      have := hhidden ⟨.empty, true, false⟩ (by rw [hlookup, if_pos rfl, if_neg hfresh])
      cases this

theorem addCoin_cases {u : Unit}
    (h : CoinsM.addCoin usage outpoint coin possibleOverwrite stack = some (u, stack')) :
    stack' = stack ∨ stack'.below = stack.below ∧ coin.isSpent = false ∧
      (possibleOverwrite = false →
        ((stack.top.cacheCoins.lookup outpoint).getD .new).coin.isSpent = true) ∧
      ∀ k, stack'.top.cacheCoins.lookup k =
        if k = outpoint then some ⟨coin, true,
          ((stack.top.cacheCoins.lookup outpoint).getD .new).isFresh ||
            (!possibleOverwrite && !((stack.top.cacheCoins.lookup outpoint).getD .new).isDirty)⟩
        else stack.top.cacheCoins.lookup k := by
  obtain ⟨top, hadd, hdone⟩ := Option.bind_eq_some_iff.mp h
  obtain ⟨-, rfl⟩ := Prod.mk.inj (Option.some.inj hdone)
  cases hscript : isUnspendable coin.out.scriptPubKey with
  | false => exact .inr ⟨rfl, lookup_addCoin hscript hadd⟩
  | true =>
    refine .inl ?_
    rw [CCoinsViewCache.addCoin] at hadd
    split at hadd
    case isTrue => cases hadd
    case isFalse => rw [← Option.some.inj hadd]

theorem Accounted.addCoin (h : stack.Accounted usage) {u : Unit} (hcoin : 0 ≤ coin.amount)
    (hadd : CoinsM.addCoin usage outpoint coin possibleOverwrite stack = some (u, stack')) :
    stack'.Accounted usage ∧ stack'.stakes ≤ stack.stakes + coin.amount := by
  obtain rfl | ⟨hbelow, hunspent, hguard, hlookup⟩ := addCoin_cases hadd
  · exact ⟨h, by omega⟩
  generalize hfresh : (((stack.top.cacheCoins.lookup outpoint).getD .new).isFresh ||
    (!possibleOverwrite && !((stack.top.cacheCoins.lookup outpoint).getD .new).isDirty)) = fresh
    at hlookup
  -- an entry that is written again stays fresh or not: a spent one is dirty
  have hkeep : ∀ entry, stack.top.cacheCoins.lookup outpoint = some entry →
      fresh = entry.isFresh := by
    intro entry hentry
    rw [hentry, Option.getD_some] at hfresh hguard
    cases possibleOverwrite with
    | true => rw [← hfresh, Bool.not_true, Bool.false_and, Bool.or_false]
    | false =>
      obtain ⟨hdirty, -⟩ := h.spent hentry (hguard rfl)
      rw [← hfresh, hdirty, Bool.not_true, Bool.and_false, Bool.or_false]
  have hhidden : fresh = true → 0 ≤ worth (stack.below.view outpoint) := fun htrue =>
    h.hidden fun entry hentry => (hkeep entry hentry).symm.trans htrue
  have hvalue : worth (CCoinsCacheEntry.value ⟨coin, true, fresh⟩) = coin.amount :=
    worth_value_of_unspent hunspent
  have hat : stack'.top.cacheCoins.lookup outpoint = some ⟨coin, true, fresh⟩ := by
    rw [hlookup, if_pos rfl]
  have hoff : ∀ {k}, k ≠ outpoint →
      stack'.top.cacheCoins.lookup k = stack.top.cacheCoins.lookup k := fun hne => by
    rw [hlookup, if_neg hne]
  refine ⟨⟨hbelow ▸ h.below, hbelow ▸ h.finite, fun {k entry} hentry hspent => ?_,
    fun {k entry} hentry => ?_, fun {k} hk => ?_⟩, ?_⟩
  · by_cases heq : k = outpoint
    case pos =>
      rw [heq, hat] at hentry
      obtain rfl := Option.some.inj hentry
      exact absurd (hspent.symm.trans hunspent) (by decide)
    case neg => exact h.spent ((hoff heq).symm.trans hentry) hspent
  · by_cases heq : k = outpoint
    case pos =>
      rw [heq, hat] at hentry
      obtain rfl := Option.some.inj hentry
      rwa [hvalue]
    case neg => exact h.value ((hoff heq).symm.trans hentry)
  · rw [hbelow]
    by_cases heq : k = outpoint
    case pos =>
      subst heq
      exact hhidden (hk _ hat)
    case neg => exact h.hidden fun entry hentry => hk entry ((hoff heq).trans hentry)
  · have hstake : stack'.stake = Function.update stack.stake outpoint
        (coin.amount + if fresh then worth (stack.below.view outpoint) else 0) := by
      funext k
      rw [Function.update_apply]
      split
      case isTrue heq => rw [heq, stake_of_some hat, hvalue, hbelow]
      case isFalse hne => rw [stake, stake, hoff hne, hbelow]
    have hle : (if fresh then worth (stack.below.view outpoint) else 0) ≤ stack.stake outpoint := by
      cases hentry : stack.top.cacheCoins.lookup outpoint with
      | none =>
        have hnonneg := h.hidden fun entry hsome => absurd (hentry.symm.trans hsome) nofun
        rw [stake_of_none hentry]
        split
        case isTrue => exact le_rfl
        case isFalse => exact hnonneg
      | some entry =>
        rw [stake_of_some hentry, hkeep entry hentry]
        exact Int.le_add_of_nonneg_left (h.value hentry)
    rw [stakes, hstake, finsum_update h.finite_support]
    change stack.stakes - _ + _ ≤ _
    omega

end CoinsStack

/-! ## Transactions -/

section Blocks

variable {env : ConnectEnv} {params : ChainstateParams} {pindex : CBlockIndex} {block : CBlock}
  {stack stack' : CoinsStack}

variable {tx : CTransaction} {vtx : List CTransaction} {coins : List Coin}

theorem CTxOut.amount_nonneg (h : checkTransaction tx = .ok ()) :
    ∀ txout ∈ tx.vout, 0 ≤ txout.amount := fun txout hmem =>
  ((moneyRange_iff _).mp
    ((checkOutputs_ok (by decide) (checkTransaction_ok_amounts h).1).1 txout hmem)).1

theorem staysInRange_vout (h : checkTransaction tx = .ok ()) :
    StaysInRange (tx.vout.map CTxOut.amount) := fun k => by
  have hrange := checkOutputs_staysInRange (by decide) (checkTransaction_ok_amounts h).1 k
  rwa [Int.zero_add] at hrange

theorem CoinsStack.Accounted.updateCoins (h : stack.Accounted env.usage) {nHeight : Nat}
    {txundo : CTxUndo} (hcheck : checkTransaction tx = .ok ())
    (hold : stack.Holding tx.prevouts coins)
    (hrun : HcsCoin.updateCoins env.usage tx nHeight stack = some (txundo, stack')) :
    txundo = ⟨coins⟩ ∧ stack'.Accounted env.usage ∧ stack'.stakes ≤ stack.stakes - fee tx coins := by
  set kept := stack.stakes - (coins.map Coin.amount).sum with hkept
  obtain ⟨hundo, hacc, -, hend⟩ := updateCoins_rule
    (M := fun _ coins stack => stack.Accounted env.usage ∧
      stack.stakes = kept + (coins.map Coin.amount).sum)
    (N := fun _ vout stack => stack.Accounted env.usage ∧ (∀ txout ∈ vout, 0 ≤ txout.amount) ∧
      stack.stakes + (vout.map CTxOut.amount).sum ≤ kept + (tx.vout.map CTxOut.amount).sum)
    (fun ⟨hacc, hstakes⟩ hentry hunspent => by
      refine ⟨hacc.spend hentry, ?_⟩
      rw [hacc.stakes_spend hentry hunspent, hstakes, List.map_cons, List.sum_cons]
      omega)
    (fun ⟨hacc, hstakes⟩ => by
      refine ⟨hacc, CTxOut.amount_nonneg hcheck, ?_⟩
      rw [hstakes, List.map_nil, List.sum_nil, Int.add_zero])
    (fun {stack stack' i txout vout} ⟨hacc, hvalues, hstakes⟩ hadd => by
      have hcoin : 0 ≤ (Coin.new txout nHeight tx.isCoinBase).amount :=
        hvalues txout List.mem_cons_self
      obtain ⟨hacc', hle⟩ := hacc.addCoin hcoin hadd
      refine ⟨hacc', (List.forall_mem_cons.mp hvalues).2, ?_⟩
      rw [List.map_cons, List.sum_cons] at hstakes
      change _ ≤ _ + txout.amount at hle
      omega)
    (checkTransaction_ok_amounts hcheck).2 hold ⟨h, by omega⟩ hrun
  refine ⟨hundo, hacc, ?_⟩
  rw [List.map_nil, List.sum_nil, Int.add_zero] at hend
  rw [fee]
  omega

structure Charged (vtx : List CTransaction) (tally tally' : ConnectTally)
    (spent : List (List Coin)) : Prop where
  affords : List.Forall₂ Affords vtx spent
  undo : tally'.vtxundo = tally.vtxundo ++ spent.map CTxUndo.mk
  nFees : tally'.nFees.toInt = tally.nFees.toInt + (List.zipWith fee vtx spent).sum
  range : ∀ k, moneyRange (tally.nFees.toInt + ((List.zipWith fee vtx spent).take k).sum) = true

theorem Charged.cons {tally tally₁ tally' : ConnectTally} {spent : List (List Coin)}
    (hpaid : Affords tx coins) (hundo : tally₁.vtxundo = tally.vtxundo ++ [⟨coins⟩])
    (hfees : tally₁.nFees.toInt = tally.nFees.toInt + fee tx coins)
    (hrange : moneyRange tally.nFees.toInt = true) (h : Charged vtx tally₁ tally' spent) :
    Charged (tx :: vtx) tally tally' (coins :: spent) := by
  refine ⟨.cons hpaid h.affords, ?_, ?_, fun k => ?_⟩
  · rw [h.undo, hundo, List.append_assoc]
    rfl
  · rw [h.nFees, hfees, List.zipWith_cons_cons, List.sum_cons, Int.add_assoc]
  · cases k with
    | zero => simpa using hrange
    | succ k =>
      have hk := h.range k
      rwa [hfees, Int.add_assoc, ← List.sum_cons, ← List.take_succ_cons,
        ← List.zipWith_cons_cons] at hk

theorem CoinsStack.Accounted.connectTxs (h : stack.Accounted env.usage)
    {tally tally' : ConnectTally}
    (hchecks : ∀ tx ∈ vtx, checkTransaction tx = .ok () ∧ tx.isCoinBase = false)
    (hfees : moneyRange tally.nFees.toInt = true)
    (hrun : HcsCoin.connectTxs env pindex false vtx tally stack = some (.ok tally', stack')) :
    stack'.Accounted env.usage ∧ ∃ spent, Charged vtx tally tally' spent ∧
      stack'.stakes ≤ stack.stakes - (List.zipWith fee vtx spent).sum := by
  induction vtx generalizing stack tally with
  | nil =>
    obtain ⟨rfl, rfl⟩ := Check.pure_iff.mp hrun
    exact ⟨h, [], ⟨.nil, by simp, by simp, fun k => by simpa using hfees⟩, by simp⟩
  | cons tx vtx ih =>
    obtain ⟨tally₁, stack₁, hfirst, hrest⟩ := Check.bind_iff.mp hrun
    obtain ⟨hcheck, hcoinbase⟩ := hchecks tx List.mem_cons_self
    obtain ⟨stack₂, coins, txundo, hgrown, hold, hupdate, hundo, -, hpaid⟩ :=
      connectTx_ok h.below hfees hfirst
    obtain ⟨hpaid, hfees₁, hrange₁⟩ := hpaid hcoinbase
    obtain ⟨rfl, hacc, hstakes⟩ := (hgrown.accounted h).updateCoins hcheck hold hupdate
    obtain ⟨hacc', spent, hcharged, hstakes'⟩ := ih hacc
      (List.forall_mem_cons.mp hchecks).2 hrange₁ hrest
    refine ⟨hacc', coins :: spent, hcharged.cons hpaid hundo hfees₁ hfees, ?_⟩
    rw [hgrown.stakes_eq h.below] at hstakes
    rw [List.zipWith_cons_cons, List.sum_cons]
    omega

theorem toInt_blockReward {nFees : Int64} (nHeight : Nat) (h : moneyRange nFees.toInt = true) :
    (nFees + Int64.ofInt (getBlockSubsidy nHeight params.toParams)).toInt =
      nFees.toInt + getBlockSubsidy nHeight params.toParams := by
  have hnonneg := getBlockSubsidy_nonneg nHeight params.toParams
  have hle := getBlockSubsidy_le nHeight params.toParams
  rw [COIN] at hle
  have hsubsidy : (Int64.ofInt (getBlockSubsidy nHeight params.toParams)).toInt =
      getBlockSubsidy nHeight params.toParams :=
    Int64.toInt_ofInt_of_le (by omega) (by omega)
  rw [toInt_add_of_moneyRange h, hsubsidy]
  rw [hsubsidy, moneyRange_iff, MAX_MONEY, COIN]
  omega

/-! ## Blocks -/

/-- The arithmetic of a connected block: every sum the checks form stays in range, and no
transaction but the first pays out more than it spends. -/
structure BlockFees (params : ChainstateParams) (nHeight : Nat) (block : CBlock)
    (spent : List (List Coin)) : Prop where
  affords : List.Forall₂ Affords block.vtx.tail spent
  fees : StaysInRange (List.zipWith fee block.vtx.tail spent)
  reward : (List.zipWith fee block.vtx.tail spent).sum +
    getBlockSubsidy nHeight params.toParams < 2 ^ 63

theorem CoinsStack.Accounted.connectContents (h : stack.Accounted env.usage)
    {blockundo : CBlockUndo} (hcontents : checkBlockContents block = .ok ())
    (hrun : HcsCoin.connectContents env params pindex block stack = some (.ok blockundo, stack')) :
    stack'.Accounted env.usage ∧
      stack'.stakes ≤ stack.stakes + getBlockSubsidy pindex.nHeight params.toParams ∧
      BlockFees params pindex.nHeight block (blockundo.vtxundo.map CTxUndo.vprevout) := by
  obtain ⟨stack₁, tally, valueOut, hgrown, htxs, rfl, hvalue, hle⟩ :=
    connectContents_ok h.below hrun
  obtain ⟨tx, vtx, hvtx, hcoinbase, hothers⟩ :=
    checkCoinBasePlacement_ok (checkBlockContents_ok_iff.mp hcontents).2.1
  have hchecks : ∀ tx ∈ block.vtx, checkTransaction tx = .ok () := fun tx =>
    checkTransaction_of_checkBlockContents hcontents
  rw [hvtx] at htxs hchecks hvalue
  obtain ⟨tally₁, stack₂, hfirst, hrest⟩ := Check.bind_iff.mp htxs
  obtain ⟨stack₃, coins, txundo, hgrown₁, hold, hupdate, hundo, hfees, -⟩ :=
    connectTx_ok hgrown.below (by decide) hfirst
  have hnil : coins = [] := by
    rw [CTransaction.prevouts, if_pos hcoinbase] at hold
    exact List.forall₂_nil_left_iff.mp hold
  obtain ⟨-, hacc, hstakes⟩ := (hgrown₁.accounted (hgrown.accounted h)).updateCoins
    (hchecks tx List.mem_cons_self) hold hupdate
  obtain ⟨hacc', spent, hcharged, hstakes'⟩ := hacc.connectTxs
    (fun tx' hmem => ⟨hchecks tx' (List.mem_cons_of_mem _ hmem), hothers tx' hmem⟩)
    (by rw [hfees hcoinbase]; decide) hrest
  rw [hgrown₁.stakes_eq hgrown.below, hgrown.stakes_eq h.below, hnil, fee, List.map_nil,
    List.sum_nil] at hstakes
  have hzero : tally₁.nFees.toInt = 0 := by rw [hfees hcoinbase]; rfl
  have htotal := hcharged.nFees
  rw [hzero, Int.zero_add] at htotal
  have hsums : StaysInRange (List.zipWith fee vtx spent) := fun k => by
    have hk := hcharged.range k
    rwa [hzero, Int.zero_add] at hk
  have hrange : moneyRange tally.nFees.toInt = true := by
    have hall := hsums (List.zipWith fee vtx spent).length
    rwa [List.take_length, ← htotal] at hall
  obtain ⟨hvalueOut, -⟩ := getValueOut_eq_some hvalue
  rw [Int64.le_iff_toInt_le, toInt_blockReward _ hrange, hvalueOut, htotal] at hle
  refine ⟨hacc', by omega, ?_⟩
  have hspent : tally.vtxundo.map CTxUndo.vprevout = spent := by
    rw [hcharged.undo, hundo, if_pos rfl, List.nil_append, List.map_map]
    exact List.map_id _
  rw [hspent]
  have hsubsidy := getBlockSubsidy_le pindex.nHeight params.toParams
  rw [moneyRange_iff, htotal, MAX_MONEY, COIN] at hrange
  rw [COIN] at hsubsidy
  refine ⟨?_, ?_, ?_⟩
  · rw [hvtx]; exact hcharged.affords
  · rw [hvtx]; exact hsums
  · rw [hvtx, List.tail_cons]
    omega

theorem CoinsStack.Accounted.connectBlock (h : stack.Accounted env.usage) {flags : BlockFlags}
    {fJustCheck : Bool} {result : Option CBlockUndo}
    (hflags : flags.fChecked = true → checkBlockContents block = .ok ())
    (hrun : HcsCoin.connectBlock env params pindex block flags fJustCheck stack =
      some (.ok result, stack')) :
    checkBlockContents block = .ok () ∧ stack'.Accounted env.usage ∧
      stack'.stakes ≤ stack.stakes + getBlockSubsidy pindex.nHeight params.toParams ∧
      ∀ undo, result = some undo →
        BlockFees params pindex.nHeight block (undo.vtxundo.map CTxUndo.vprevout) := by
  obtain ⟨stack₁, stack₂, hash, hgrown, hcontents, rfl, hcases⟩ := connectBlock_ok h.below hrun
  replace hcontents : checkBlockContents block = .ok () := hcontents.elim hflags id
  have hacc := hgrown.accounted h
  refine ⟨hcontents, ?_⟩
  rw [← hgrown.stakes_eq h.below]
  obtain ⟨-, rfl, rfl⟩ | ⟨-, blockundo, hconnect, hundo⟩ := hcases
  · have hnonneg := getBlockSubsidy_nonneg pindex.nHeight params.toParams
    exact ⟨⟨hacc.below, hacc.finite, hacc.spent, hacc.value, hacc.hidden⟩,
      Int.le_add_of_nonneg_right hnonneg, nofun⟩
  · obtain ⟨hacc', hstakes, hfees⟩ := hacc.connectContents hcontents hconnect
    exact ⟨⟨hacc'.below, hacc'.finite, hacc'.spent, hacc'.value, hacc'.hidden⟩, hstakes,
      fun undo hsome => hundo undo hsome ▸ hfees⟩

end Blocks

/-- Stacks that come from one without coins by connecting blocks at these heights, the last
one first.  In between the coins may be written elsewhere, as by a flush. -/
inductive Connected (env : ConnectEnv) (params : ChainstateParams) :
    List Nat → CoinsStack → Prop where
  | empty {stack : CoinsStack} (hsane : stack.Sane env.usage)
      (hnone : ∀ outpoint, stack.view outpoint = none) : Connected env params [] stack
  | block {heights : List Nat} {stack stack' : CoinsStack} {pindex : CBlockIndex} {block : CBlock}
      {flags : BlockFlags} {result : Option CBlockUndo} (h : Connected env params heights stack)
      (hflags : flags.fChecked = true → checkBlockContents block = .ok ())
      (hrun : connectBlock env params pindex block flags false stack =
        some (.ok result, stack')) : Connected env params (pindex.nHeight :: heights) stack'
  | settle {heights : List Nat} {stack stack' : CoinsStack} (h : Connected env params heights stack)
      (hsane : stack'.Sane env.usage) (hview : stack'.view = stack.view) :
      Connected env params heights stack'

theorem Connected.stakes_le {env : ConnectEnv} {params : ChainstateParams} {heights : List Nat}
    {stack : CoinsStack} (h : Connected env params heights stack) :
    stack.Accounted env.usage ∧
      stack.stakes ≤ (heights.map fun nHeight => getBlockSubsidy nHeight params.toParams).sum := by
  induction h with
  | @empty stack hsane hnone =>
    have hcoins : UtxoSet stack.view := by
      refine ⟨Set.finite_empty.subset fun outpoint hmem => hmem (hnone outpoint),
        fun outpoint => by rw [hnone, worth_none]⟩
    refine ⟨hsane.accounted hcoins, ?_⟩
    rw [hsane.stakes_eq, totalValue, finsum_congr fun outpoint => congrArg worth (hnone outpoint)]
    simp
  | @block heights stack stack' pindex block flags result _ hflags hrun ih =>
    obtain ⟨-, hacc, hstakes, -⟩ := ih.1.connectBlock hflags hrun
    refine ⟨hacc, ?_⟩
    rw [List.map_cons, List.sum_cons]
    omega
  | @settle heights stack stack' _ hsane hview ih =>
    refine ⟨hsane.accounted (hview ▸ ih.1.utxoSet), ?_⟩
    rw [hsane.stakes_eq, hview]
    exact ih.1.totalValue_le.trans ih.2

/-- A block adds at most its subsidy to the value of all coins, and its amounts are added
up without overflow. -/
theorem connectBlock_totalValue_le (env : ConnectEnv) (params : ChainstateParams) :
    (∀ (pindex : CBlockIndex) (block : CBlock) (flags : BlockFlags) (fJustCheck : Bool)
      (stack stack' : CoinsStack) (result : Option CBlockUndo),
      stack.Sane env.usage → UtxoSet stack.view →
      (flags.fChecked = true → checkBlockContents block = .ok ()) →
      connectBlock env params pindex block flags fJustCheck stack = some (.ok result, stack') →
      UtxoSet stack'.view ∧
        totalValue stack'.view ≤
          totalValue stack.view + getBlockSubsidy pindex.nHeight params.toParams ∧
        (∀ tx ∈ block.vtx, StaysInRange (tx.vout.map CTxOut.amount)) ∧
        ∀ undo, result = some undo →
          BlockFees params pindex.nHeight block (undo.vtxundo.map CTxUndo.vprevout)) ∧
    ∀ heights stack, Connected env params heights stack →
      totalValue stack.view ≤
        (heights.map fun nHeight => getBlockSubsidy nHeight params.toParams).sum := by
  refine ⟨fun pindex block flags fJustCheck stack stack' result hsane hcoins hflags hrun => ?_,
    fun heights stack h => h.stakes_le.1.totalValue_le.trans h.stakes_le.2⟩
  obtain ⟨hcontents, hacc, hstakes, hfees⟩ :=
    (hsane.accounted hcoins).connectBlock hflags hrun
  rw [hsane.stakes_eq] at hstakes
  exact ⟨hacc.utxoSet, hacc.totalValue_le.trans hstakes, fun tx hmem =>
    staysInRange_vout (checkTransaction_of_checkBlockContents hcontents hmem), hfees⟩

section Example

private def rewardBlock : CBlock where
  nTime := 1
  vtx := [{ sampleCoinBase with vout := [anyone 50] }]

private def rewardIndex : CBlockIndex where
  phashBlock := some rewardBlock.getHash
  pprev := some (.ofHex 7)
  nHeight := 2

private def emptyStack : CoinsStack := start ⟨fun _ => none, .ofHex 7⟩

private theorem utxoSet_paidStack : UtxoSet paidStack.view := by
  refine ⟨(Set.finite_singleton paidOutPoint).subset fun outpoint hmem => ?_, fun outpoint => ?_⟩
  · obtain ⟨coin, hcoin⟩ := Option.ne_none_iff_exists'.mp hmem
    exact (paidStack_cases hcoin).1
  · cases hcoin : paidStack.view outpoint with
    | none => exact le_rfl
    | some coin =>
      obtain ⟨-, rfl⟩ := paidStack_cases hcoin
      decide

theorem connectBlock_totalValue_le_spending :
    (∃ blockundo stack', connectBlock anyoneEnv (chainstateParams .regtest) spendingIndex
        spendingBlock { fChecked := true } false paidStack = some (.ok (some blockundo), stack') ∧
      totalValue stack'.view ≤ totalValue paidStack.view + 50 * COIN ∧
      BlockFees (chainstateParams .regtest) 2 spendingBlock
        (blockundo.vtxundo.map CTxUndo.vprevout)) ∧
    ∃ stack', Connected anyoneEnv (chainstateParams .regtest) [2] stack' ∧
      totalValue stack'.view ≤ 50 * COIN := by
  obtain ⟨hblock, hrun⟩ := connectBlock_totalValue_le anyoneEnv (chainstateParams .regtest)
  constructor
  · obtain ⟨blockundo, stack', haccept⟩ := connectBlock_spendingBlock
    obtain ⟨-, htotal, -, hfees⟩ := hblock _ _ _ _ _ _ _ paidStack_sane utxoSet_paidStack
      (fun _ => checkBlockContents_spendingBlock) haccept
    exact ⟨blockundo, stack', haccept, htotal, hfees blockundo rfl⟩
  · obtain ⟨blockundo, stack', haccept⟩ := exists_of_acceptedWithUndo
      (show acceptedWithUndo (connectBlock anyoneEnv (chainstateParams .regtest) rewardIndex
        rewardBlock { fChecked := true } false emptyStack) = true by decide +kernel)
    have hempty : Connected anyoneEnv (chainstateParams .regtest) [] emptyStack :=
      .empty ⟨sane_new _ _, trivial, nofun⟩ fun _ => rfl
    have hconnected : Connected anyoneEnv (chainstateParams .regtest) [2] stack' :=
      .block hempty (fun _ => by decide +kernel) haccept
    exact ⟨stack', hconnected, hrun [2] stack' hconnected⟩

end Example

end HcsCoin
