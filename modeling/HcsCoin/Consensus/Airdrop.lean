import HcsCoin.Consensus.TxCheck

/-!
# The airdrop pool

`CAirdropContract` of `consensus/airdrop.cpp`.  Shares are whole satoshis and the
pool is emptied by a distribution, so a remainder of the division by the number
of winners leaves the pool without being awarded to anyone.
-/

namespace HcsCoin

structure CAirdropContract where
  mBalance : Int := 0
  mMonthCounter : Int := 0
  mLastDrawTime : Int := 0
  deriving DecidableEq

/-- An addition of `CAmount`s; signed overflow is undefined behaviour. -/
def addAmount (x y : Int) : Option Int :=
  if -2 ^ 63 ≤ x + y ∧ x + y < 2 ^ 63 then some (x + y) else none

abbrev Awards := List (String × Int)

namespace CAirdropContract

def addFees (c : CAirdropContract) (fees : Int) : Option CAirdropContract :=
  (addAmount c.mBalance (fees.tdiv 2)).map fun balance => { c with mBalance := balance }

def addSubsidyShare (c : CAirdropContract) (subsidy : Int) : Option CAirdropContract :=
  (addAmount c.mBalance (subsidy.tdiv 2)).map fun balance => { c with mBalance := balance }

def distribute (c : CAirdropContract) (winners : List String) : CAirdropContract × Awards :=
  if winners.isEmpty ∨ c.mBalance ≤ 0 then (c, [])
  else
    let share := c.mBalance / winners.length
    ({ c with mBalance := 0 }, winners.map fun w => (w, share))

/-- `tm_year` and `tm_mon` of the C library's `gmtime`, or a null pointer. -/
abbrev Gmtime := Int → Option (Int × Int)

/-- The month since the epoch as an `int`; `none` is signed overflow. -/
def monthOf (tm : Int × Int) : Option Int :=
  let month := (tm.1 - 70) * 12 + tm.2
  if -2 ^ 31 ≤ month ∧ month < 2 ^ 31 then some month else none

structure Draw where
  contract : CAirdropContract
  drawn : Bool
  winnersOut : List String
  awards : Awards

def drawLottery (gmtime : Gmtime) (c : CAirdropContract) (nBlockTime : Int)
    (winnersOut : List String) : Option Draw :=
  match gmtime nBlockTime with
  | none => some ⟨c, false, winnersOut, []⟩
  | some tm => do
    let currentMonth ← monthOf tm
    if currentMonth ≤ c.mMonthCounter then some ⟨c, false, winnersOut, []⟩
    else
      let c := { c with mMonthCounter := currentMonth, mLastDrawTime := nBlockTime }
      if c.mBalance < COIN then some ⟨c, true, [], []⟩
      else
        let (c, awards) := c.distribute winnersOut
        some ⟨c, true, winnersOut, awards⟩

end CAirdropContract

open CAirdropContract

/-! ## Runs -/

inductive AirdropCall where
  | addFees (fees : Int)
  | addSubsidyShare (subsidy : Int)
  | drawLottery (nBlockTime : Int) (winners : List String)
  | distribute (winners : List String)

structure AirdropLedger where
  contract : CAirdropContract := {}
  credited : Int := 0
  awards : Awards := []
  deriving DecidableEq

namespace AirdropLedger

def awarded (l : AirdropLedger) : Int := (l.awards.map Prod.snd).sum

def step (gmtime : Gmtime) (l : AirdropLedger) : AirdropCall → Option AirdropLedger
  | .addFees fees =>
    (l.contract.addFees fees).map fun c => ⟨c, l.credited + fees.tdiv 2, l.awards⟩
  | .addSubsidyShare subsidy =>
    (l.contract.addSubsidyShare subsidy).map fun c =>
      ⟨c, l.credited + subsidy.tdiv 2, l.awards⟩
  | .drawLottery nBlockTime winners =>
    (l.contract.drawLottery gmtime nBlockTime winners).map fun draw =>
      ⟨draw.contract, l.credited, l.awards ++ draw.awards⟩
  | .distribute winners =>
    let (c, awards) := l.contract.distribute winners
    some ⟨c, l.credited, l.awards ++ awards⟩

def run (gmtime : Gmtime) (calls : List AirdropCall) : Option AirdropLedger :=
  calls.foldlM (step gmtime) {}

def Conserved (l : AirdropLedger) : Prop := l.credited = l.contract.mBalance + l.awarded

instance (l : AirdropLedger) : Decidable l.Conserved := inferInstanceAs (Decidable (_ = _))

end AirdropLedger

/-- Whether a call empties the pool, judged by the guards of the code. -/
def AirdropCall.Pays (gmtime : Gmtime) (c : CAirdropContract) : AirdropCall → Prop
  | .addFees _ | .addSubsidyShare _ => False
  | .drawLottery nBlockTime winners =>
    winners ≠ [] ∧ COIN ≤ c.mBalance ∧
      ∃ tm month, gmtime nBlockTime = some tm ∧ monthOf tm = some month ∧ c.mMonthCounter < month
  | .distribute winners => winners ≠ [] ∧ 0 < c.mBalance

def AirdropCall.winners : AirdropCall → List String
  | .addFees _ | .addSubsidyShare _ => []
  | .drawLottery _ winners | .distribute winners => winners

/-- If the call empties the pool, the number of winners divides the balance. -/
def AirdropCall.Exact (gmtime : Gmtime) (c : CAirdropContract) (call : AirdropCall) : Prop :=
  call.Pays gmtime c → (call.winners.length : Int) ∣ c.mBalance

/-! ## The remainder -/

namespace AirdropLedger

def gap (l : AirdropLedger) : Int := l.credited - (l.contract.mBalance + l.awarded)

theorem conserved_iff_gap (l : AirdropLedger) : l.Conserved ↔ l.gap = 0 := by
  rw [Conserved, gap]
  omega

theorem addAmount_eq {x y sum : Int} (h : addAmount x y = some sum) : sum = x + y := by
  rw [addAmount] at h
  split at h
  · exact (Option.some.inj h).symm
  · cases h

private theorem sum_shares (winners : List String) (share : Int) :
    ((winners.map fun w => (w, share)).map Prod.snd).sum = winners.length * share := by
  rw [List.map_map]
  simp [Function.comp_def]

variable {winners : List String} {c : CAirdropContract}

theorem distribute_total (hwinners : winners ≠ []) (hbalance : 0 < c.mBalance) :
    (c.distribute winners).1.mBalance + ((c.distribute winners).2.map Prod.snd).sum =
      c.mBalance - c.mBalance % winners.length := by
  have hpays : ¬ (winners.isEmpty ∨ c.mBalance ≤ 0) := by
    simp only [List.isEmpty_iff, not_or]
    exact ⟨hwinners, by omega⟩
  rw [distribute, if_neg hpays]
  dsimp only
  rw [sum_shares]
  have hdivision := Int.mul_ediv_add_emod c.mBalance winners.length
  omega

theorem distribute_idle (h : ¬ (winners ≠ [] ∧ 0 < c.mBalance)) :
    c.distribute winners = (c, []) := by
  rw [distribute, if_pos]
  rw [not_and_or, not_not] at h
  rcases h with rfl | hbalance
  · exact .inl rfl
  · exact .inr (by omega)

variable {gmtime : Gmtime} {l : AirdropLedger} {call : AirdropCall} {l' : AirdropLedger}

theorem step_gap (h : l.step gmtime call = some l') : (call.Pays gmtime l.contract ∧
      l'.gap = l.gap + l.contract.mBalance % call.winners.length) ∨
    (¬ call.Pays gmtime l.contract ∧ l'.gap = l.gap) := by
  cases call with
  | addFees amount | addSubsidyShare amount =>
    obtain ⟨c, hc, rfl⟩ := Option.map_eq_some_iff.mp h
    obtain ⟨balance, hbalance, rfl⟩ := Option.map_eq_some_iff.mp hc
    rw [addAmount_eq hbalance]
    refine .inr ⟨not_false, ?_⟩
    simp only [gap, awarded]
    omega
  | distribute winners =>
    change some ⟨(l.contract.distribute winners).1, l.credited,
      l.awards ++ (l.contract.distribute winners).2⟩ = some l' at h
    obtain rfl := Option.some.inj h
    by_cases hpays : winners ≠ [] ∧ 0 < l.contract.mBalance
    · have htotal := distribute_total hpays.1 hpays.2
      refine .inl ⟨hpays, ?_⟩
      simp only [gap, awarded, List.map_append, List.sum_append, AirdropCall.winners] at htotal ⊢
      omega
    · refine .inr ⟨hpays, ?_⟩
      rw [distribute_idle hpays]
      simp only [gap, awarded, List.append_nil]
  | drawLottery nBlockTime winners =>
    obtain ⟨draw, hdraw, rfl⟩ := Option.map_eq_some_iff.mp h
    have hsame : ∀ {c : CAirdropContract}, c.mBalance = l.contract.mBalance →
        (AirdropLedger.mk c l.credited (l.awards ++ [])).gap = l.gap := by
      intro c hc
      simp only [gap, awarded, hc, List.append_nil]
    rw [drawLottery] at hdraw
    cases htm : gmtime nBlockTime with
    | none =>
      rw [htm] at hdraw
      obtain rfl := Option.some.inj hdraw
      refine .inr ⟨?_, hsame rfl⟩
      rintro ⟨-, -, tm, month, htm', -, -⟩
      rw [htm] at htm'
      cases htm'
    | some tm =>
      rw [htm] at hdraw
      obtain ⟨month, hmonth, hdraw⟩ := Option.bind_eq_some_iff.mp hdraw
      split at hdraw
      next hdone =>
        obtain rfl := Option.some.inj hdraw
        refine .inr ⟨?_, hsame rfl⟩
        rintro ⟨-, -, tm', month', htm', hmonth', hnew⟩
        obtain rfl := Option.some.inj (htm.symm.trans htm')
        obtain rfl := Option.some.inj (hmonth.symm.trans hmonth')
        omega
      next hnew =>
        dsimp only at hdraw
        split at hdraw
        next hsmall =>
          obtain rfl := Option.some.inj hdraw
          refine .inr ⟨?_, hsame rfl⟩
          rintro ⟨-, hcoin, -⟩
          omega
        next hcoin =>
          obtain rfl := Option.some.inj hdraw
          dsimp only
          have hpositive : 0 < l.contract.mBalance := by
            have : (0 : Int) < COIN := by decide
            omega
          by_cases hwinners : winners = []
          · refine .inr ⟨fun hpays => hpays.1 hwinners, ?_⟩
            rw [distribute_idle fun hpays => hpays.1 hwinners]
            exact hsame rfl
          · have htotal := distribute_total
              (c := { l.contract with mMonthCounter := month, mLastDrawTime := nBlockTime })
              hwinners hpositive
            refine .inl ⟨⟨hwinners, by omega, tm, month, htm, hmonth, by omega⟩, ?_⟩
            simp only [gap, awarded, List.map_append, List.sum_append, AirdropCall.winners] at htotal ⊢
            omega

theorem step_gap_eq_iff (h : l.step gmtime call = some l') :
    l'.gap = l.gap ↔ call.Exact gmtime l.contract := by
  rcases step_gap h with ⟨hpays, hgap⟩ | ⟨hpays, hgap⟩
  · rw [hgap, AirdropCall.Exact, Int.dvd_iff_emod_eq_zero]
    constructor
    · intro hsame _
      omega
    · intro hexact
      rw [hexact hpays, Int.add_zero]
  · exact ⟨fun _ hpays' => absurd hpays' hpays, fun _ => hgap⟩

theorem step_of_pays (h : call.Pays gmtime l.contract) : (l.step gmtime call).isSome := by
  cases call with
  | addFees _ | addSubsidyShare _ => exact h.elim
  | distribute winners => rfl
  | drawLottery nBlockTime winners =>
    obtain ⟨-, hcoin, tm, month, htm, hmonth, hnew⟩ := h
    rw [step, drawLottery, htm]
    dsimp only
    rw [hmonth, Option.bind_eq_bind, Option.bind_some, if_neg (by omega)]
    rw [if_neg (by omega)]
    rfl

theorem run_take_succ {calls : List AirdropCall} {k : Nat} (hcall : calls[k]? = some call) :
    run gmtime (calls.take (k + 1)) = (run gmtime (calls.take k)).bind fun l =>
      l.step gmtime call := by
  simp [run, List.take_add_one, hcall, List.foldlM_append]

end AirdropLedger

open AirdropLedger

/-- The pool is conserved at every point of a run iff every payment divides without remainder. -/
theorem airdrop_conserved_iff (gmtime : Gmtime) (calls : List AirdropCall) :
    (∀ k l, run gmtime (calls.take k) = some l → l.Conserved) ↔
      ∀ k l call, run gmtime (calls.take k) = some l → calls[k]? = some call →
        call.Exact gmtime l.contract := by
  simp only [conserved_iff_gap]
  constructor
  · intro hgap k l call hl hcall hpays
    obtain ⟨l', hl'⟩ := Option.isSome_iff_exists.mp (step_of_pays hpays)
    have hnext : run gmtime (calls.take (k + 1)) = some l' := by
      rw [run_take_succ hcall, hl, Option.bind_some, hl']
    refine (step_gap_eq_iff hl').mp ?_ hpays
    rw [hgap (k + 1) l' hnext, hgap k l hl]
  · intro hexact k
    induction k with
    | zero =>
      intro l hl
      obtain rfl := Option.some.inj hl
      rfl
    | succ k ih =>
      intro l' hl'
      cases hcall : calls[k]? with
      | none =>
        have hend : calls.take (k + 1) = calls.take k := by
          rw [List.take_add_one, hcall]
          simp
        exact ih l' (hend ▸ hl')
      | some call =>
        rw [run_take_succ hcall] at hl'
        obtain ⟨l, hl, hstep⟩ := Option.bind_eq_some_iff.mp hl'
        rw [(step_gap_eq_iff hstep).mpr (hexact k l call hl hcall), ih l hl]

/-- Three satoshis shared by two winners: one of them disappears. -/
theorem airdrop_loses_remainder :
    run (fun _ => none) [.addFees 6, .distribute ["a", "b"]] =
      some ⟨{}, 3, [("a", 1), ("b", 1)]⟩ ∧
      ¬ (⟨{}, 3, [("a", 1), ("b", 1)]⟩ : AirdropLedger).Conserved :=
  ⟨rfl, by decide⟩

end HcsCoin
