import HcsCoin.Compressor

/-!
# Unspent outputs

`Coin` of `coins.h`: an output with the height of its transaction, in a bit
field of 31 bits, and whether that transaction is a coinbase.  A spent coin is a
nulled one.
-/

namespace HcsCoin

open Foundation Foundation.Decoder

namespace CTxOut

def null : CTxOut := ⟨-1, []⟩

def isNull (txout : CTxOut) : Bool := txout.nValue == -1

end CTxOut

structure Coin where
  out : CTxOut
  fCoinBase : Bool
  nHeight : Nat
  nHeight_lt : nHeight < 2 ^ 31
  deriving DecidableEq

namespace Coin

def new (outIn : CTxOut) (nHeightIn : Nat) (fCoinBaseIn : Bool) : Coin :=
  ⟨outIn, fCoinBaseIn, nHeightIn % 2 ^ 31, Nat.mod_lt _ (by decide)⟩

def empty : Coin := new .null 0 false

def isSpent (coin : Coin) : Bool := coin.out.isNull

def code (coin : Coin) : Nat := (coin.nHeight <<< 1) ||| coin.fCoinBase.toNat

def ofCode (code : Nat) (out : CTxOut) : Coin := new out (code >>> 1) (code &&& 1 != 0)

/-- `none` where the assertion fails. -/
def serialize (ops : PubKeyOps) (coin : Coin) : Option Bytes :=
  if coin.isSpent then none
  else some (writeVarInt 4 coin.code ++ serTxOutCompressed ops coin.out)

def unserialize (ops : PubKeyOps) (coin : Coin) : Reader Coin := do
  let code ← readVarInt (2 ^ 32 - 1)
  let out ← unserTxOutCompressed ops coin.out
  pure (ofCode code out)

theorem code_eq (coin : Coin) : coin.code = 2 * coin.nHeight + coin.fCoinBase.toNat := by
  rw [code, Nat.shiftLeft_eq, Nat.pow_one, Nat.mul_comm]
  have hbit : coin.fCoinBase.toNat < 2 ^ 1 := Bool.toNat_lt coin.fCoinBase
  have hor := Nat.two_pow_add_eq_or_of_lt hbit coin.nHeight
  rw [Nat.pow_one] at hor
  exact hor.symm

theorem code_le (coin : Coin) : coin.code ≤ 2 ^ 32 - 1 := by
  have hheight := coin.nHeight_lt
  have hbit := Bool.toNat_lt coin.fCoinBase
  rw [code_eq]
  omega

theorem code_shiftRight (coin : Coin) : coin.code >>> 1 = coin.nHeight := by
  have hbit := Bool.toNat_lt coin.fCoinBase
  rw [Nat.shiftRight_eq_div_pow, code_eq]
  omega

theorem ofCode_code (coin : Coin) : ofCode coin.code coin.out = coin := by
  obtain ⟨out, fCoinBase, nHeight, hheight⟩ := coin
  rw [ofCode, code_shiftRight, new, Nat.and_one_is_mod, code_eq]
  have hmod : nHeight % 2 ^ 31 = nHeight := Nat.mod_eq_of_lt hheight
  rw [mk.injEq]
  refine ⟨rfl, ?_, hmod⟩
  cases fCoinBase <;> simp

theorem isSpent_eq_false {coin : Coin} (h : moneyRange coin.out.nValue.toInt = true) :
    coin.isSpent = false := by
  obtain ⟨hnonneg, -⟩ := (moneyRange_iff _).mp h
  rw [isSpent, CTxOut.isNull, beq_eq_false_iff_ne]
  intro hnull
  rw [hnull] at hnonneg
  exact absurd hnonneg (by decide)

structure Storable (coin : Coin) : Prop where
  value : moneyRange coin.out.nValue.toInt = true
  script : coin.out.scriptPubKey.length ≤ MAX_SCRIPT_SIZE

theorem decodes_unserialize {ops : PubKeyOps} (hops : ops.Inverts) {coin : Coin}
    (h : coin.Storable) (old : Coin) :
    ∃ enc, coin.serialize ops = some enc ∧ Decodes (unserialize ops old) enc coin := by
  refine ⟨_, if_neg (by simp [isSpent_eq_false h.value]), ?_⟩
  refine (decodes_readVarInt (by decide) (by decide) coin.code_le).bind ?_
  refine (decodes_unserTxOutCompressed hops h.value h.script old.out).last ?_
  rw [ofCode_code]
  exact Decodes.pure coin

end Coin

end HcsCoin
