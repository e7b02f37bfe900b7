import HcsCoin.Consensus.Params
import HcsCoin.Consensus.TxCheck

/-!
# The block subsidy

`GetBlockSubsidy` of `validation.cpp` and the supply it creates.
-/

namespace HcsCoin

def getBlockSubsidy (nHeight : Nat) (params : Params) : Int :=
  let halvings := nHeight / params.nSubsidyHalvingInterval
  -- Force block reward to zero when right shift is undefined.
  if halvings ≥ 64 then 0
  else (50 * COIN) >>> halvings

def totalSubsidy (params : Params) (n : Nat) : Int :=
  ((List.range n).map fun h => getBlockSubsidy h params).sum

theorem getBlockSubsidy_nonneg (nHeight : Nat) (params : Params) :
    0 ≤ getBlockSubsidy nHeight params := by
  rw [getBlockSubsidy]
  split
  · exact Int.le_refl 0
  · rw [Int.shiftRight_eq_div_pow]
    exact Int.ediv_nonneg (by decide) (by positivity)

theorem getBlockSubsidy_le (nHeight : Nat) (params : Params) :
    getBlockSubsidy nHeight params ≤ 50 * COIN := by
  rw [getBlockSubsidy]
  split
  · decide
  · rw [Int.shiftRight_eq_div_pow]
    exact Int.ediv_le_self _ (by decide)

variable {params : Params} {n : Nat}

theorem getBlockSubsidy_first {nHeight : Nat} (h : nHeight < params.nSubsidyHalvingInterval) :
    getBlockSubsidy nHeight params = 50 * COIN := by
  rw [getBlockSubsidy, Nat.div_eq_of_lt h]
  rfl

theorem totalSubsidy_succ (params : Params) (n : Nat) :
    totalSubsidy params (n + 1) = totalSubsidy params n + getBlockSubsidy n params := by
  simp [totalSubsidy, List.range_succ]

theorem totalSubsidy_mono (params : Params) {m : Nat} (h : m ≤ n) :
    totalSubsidy params m ≤ totalSubsidy params n := by
  induction h with
  | refl => exact Int.le_refl _
  | @step n _ ih =>
    rw [totalSubsidy_succ]
    have := getBlockSubsidy_nonneg n params
    omega

theorem totalSubsidy_first (h : n ≤ params.nSubsidyHalvingInterval) :
    totalSubsidy params n = n * (50 * COIN) := by
  induction n with
  | zero => rfl
  | succ n ih =>
    rw [totalSubsidy_succ, ih (Nat.le_of_succ_le h), getBlockSubsidy_first h]
    push_cast
    ring

/-- Half of the first halving interval already creates `MAX_MONEY`. -/
theorem totalSubsidy_main_moneyRange_iff (n : Nat) :
    moneyRange (totalSubsidy (consensusParams .main) n) = true ↔ n ≤ 420000 := by
  have hinterval : (consensusParams .main).nSubsidyHalvingInterval = 840000 := rfl
  rw [moneyRange_iff, MAX_MONEY]
  constructor
  · rintro ⟨-, hmax⟩
    by_contra hlarge
    have hmono := totalSubsidy_mono (consensusParams .main) (show 420001 ≤ n by omega)
    rw [totalSubsidy_first (show 420001 ≤ _ by rw [hinterval]; norm_num)] at hmono
    have hover : 21000000 * COIN < ((420001 : Nat) : Int) * (50 * COIN) := by decide
    omega
  · intro hsmall
    rw [totalSubsidy_first (by rw [hinterval]; omega)]
    simp only [COIN]
    omega

theorem totalSubsidy_main_exceeds_max_money :
    moneyRange (totalSubsidy (consensusParams .main) 420001) = false := by
  have htotal : totalSubsidy (consensusParams .main) 420001 = ((420001 : Nat) : Int) * (50 * COIN) :=
    totalSubsidy_first (by change 420001 ≤ 840000; norm_num)
  rw [htotal]
  decide

end HcsCoin
