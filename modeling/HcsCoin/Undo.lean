import HcsCoin.Coins.Coin

/-!
# Undo records

`undo.h`: for each spent input the coin it consumed.  A record of a coin above
height 0 holds one more byte, read back as a `VARINT`, where older versions kept
the transaction version.
-/

namespace HcsCoin

open Foundation Foundation.Decoder

structure CTxUndo where
  vprevout : List Coin
  deriving DecidableEq

structure CBlockUndo where
  vtxundo : List CTxUndo
  deriving DecidableEq

def serTxInUndo (ops : PubKeyOps) (txout : Coin) : Bytes :=
  writeVarInt 4 txout.code ++
    ((if txout.nHeight > 0 then [0] else []) ++ serTxOutCompressed ops txout.out)

def unserTxInUndo (ops : PubKeyOps) (txout : Coin) : Reader Coin := do
  let nCode ← readVarInt (2 ^ 32 - 1)
  if nCode >>> 1 > 0 then
    let _ ← readVarInt (2 ^ 32 - 1)
    let out ← unserTxOutCompressed ops txout.out
    pure (.ofCode nCode out)
  else
    let out ← unserTxOutCompressed ops txout.out
    pure (.ofCode nCode out)

def serTxUndo (ops : PubKeyOps) (txundo : CTxUndo) : Bytes :=
  serVector (serTxInUndo ops) txundo.vprevout

/-- The elements of a vector are read into fresh coins. -/
def readTxUndo (ops : PubKeyOps) : Reader CTxUndo := do
  let vprevout ← readVector (unserTxInUndo ops .empty)
  pure ⟨vprevout⟩

def serBlockUndo (ops : PubKeyOps) (blockundo : CBlockUndo) : Bytes :=
  serVector (serTxUndo ops) blockundo.vtxundo

def readBlockUndo (ops : PubKeyOps) : Reader CBlockUndo := do
  let vtxundo ← readVector (readTxUndo ops)
  pure ⟨vtxundo⟩

/-! ## Round trips -/

variable {ops : PubKeyOps}

theorem decodes_unserTxInUndo (hops : ops.Inverts) {coin : Coin} (h : coin.Storable) (old : Coin) :
    Decodes (unserTxInUndo ops old) (serTxInUndo ops coin) coin := by
  have hout : Decodes (unserTxOutCompressed ops old.out >>= fun out => pure (.ofCode coin.code out))
      (serTxOutCompressed ops coin.out) coin := by
    refine (decodes_unserTxOutCompressed hops h.value h.script old.out).last ?_
    rw [Coin.ofCode_code]
    exact Decodes.pure coin
  refine (decodes_readVarInt (by decide) (by decide) coin.code_le).bind ?_
  rw [Coin.code_shiftRight]
  split
  case isTrue => exact (@decodes_readVarInt_byte _ 0 (by decide)).bind hout
  case isFalse => exact hout

theorem decodes_readTxUndo (hops : ops.Inverts) {txundo : CTxUndo}
    (hsize : txundo.vprevout.length ≤ MAX_SIZE) (h : ∀ coin ∈ txundo.vprevout, coin.Storable) :
    Decodes (readTxUndo ops) (serTxUndo ops txundo) txundo :=
  (decodes_readVector hsize fun coin hcoin => decodes_unserTxInUndo hops (h coin hcoin) .empty).last
    (Decodes.pure txundo)

theorem decodes_readBlockUndo (hops : ops.Inverts) {blockundo : CBlockUndo}
    (hsize : blockundo.vtxundo.length ≤ MAX_SIZE)
    (hsizes : ∀ txundo ∈ blockundo.vtxundo, txundo.vprevout.length ≤ MAX_SIZE)
    (h : ∀ txundo ∈ blockundo.vtxundo, ∀ coin ∈ txundo.vprevout, coin.Storable) :
    Decodes (readBlockUndo ops) (serBlockUndo ops blockundo) blockundo :=
  (decodes_readVector hsize fun txundo hmem =>
    decodes_readTxUndo hops (hsizes txundo hmem) (h txundo hmem)).last (Decodes.pure blockundo)

/-- A coin comes back from its own record and from a vector of undo records, with exactly the
bytes that were written consumed. -/
theorem coin_roundTrip (ops : PubKeyOps) (hops : ops.Inverts) :
    (∀ coin old : Coin, moneyRange coin.out.nValue.toInt = true →
      coin.out.scriptPubKey.length ≤ MAX_SCRIPT_SIZE →
      ∃ enc, coin.serialize ops = some enc ∧
        ∀ rest, (Coin.unserialize ops old).run (enc ++ rest) = .ok (coin, rest)) ∧
    (∀ txundo : CTxUndo, txundo.vprevout.length ≤ MAX_SIZE →
      (∀ coin ∈ txundo.vprevout, moneyRange coin.out.nValue.toInt = true ∧
        coin.out.scriptPubKey.length ≤ MAX_SCRIPT_SIZE) →
      ∀ rest, (readTxUndo ops).run (serTxUndo ops txundo ++ rest) = .ok (txundo, rest)) :=
  ⟨fun _ old hvalue hscript => Coin.decodes_unserialize hops ⟨hvalue, hscript⟩ old,
    fun _ hsize h => decodes_readTxUndo hops hsize fun coin hcoin =>
      ⟨(h coin hcoin).1, (h coin hcoin).2⟩⟩

section Generator

private def generatorX : Bytes :=
  (leBytes 32 0x79BE667EF9DCBBAC55A06295CE870B07029BFCDB2DCE28D959F2815B16F81798).reverse

private def generatorY : Bytes :=
  (leBytes 32 0x483ADA7726A3C4655DA4FBFC0E1108A8FD17B448A68554199C47D08FFB10D4B8).reverse

private def generatorOps : PubKeyOps where
  isFullyValid key := key = 0x04 :: (generatorX ++ generatorY)
  decompress key :=
    if key = 0x02 :: generatorX then some (0x04 :: (generatorX ++ generatorY)) else none
  decompress_size := by
    intro key full h
    split at h
    · obtain rfl := Option.some.inj h
      rfl
    · cases h

private theorem generatorOps_inverts : generatorOps.Inverts := by
  intro x y hx hy hvalid
  have hkey : (0x04 : UInt8) :: (x ++ y) = 0x04 :: (generatorX ++ generatorY) :=
    of_decide_eq_true hvalid
  obtain ⟨rfl, rfl⟩ := List.append_inj (List.cons.inj hkey).2 (hx.trans rfl)
  rfl

private def generatorCoin : Coin :=
  .new ⟨5000000000, [65, 0x04] ++ (generatorX ++ generatorY ++ [OP_CHECKSIG])⟩ 0 true

theorem coin_roundTrip_generator :
    (∃ enc, generatorCoin.serialize generatorOps = some enc ∧
      ∀ rest, (Coin.unserialize generatorOps .empty).run (enc ++ rest) =
        .ok (generatorCoin, rest)) ∧
    ∀ rest, (readTxUndo generatorOps).run (serTxUndo generatorOps ⟨[generatorCoin]⟩ ++ rest) =
      .ok (⟨[generatorCoin]⟩, rest) := by
  have hvalue : moneyRange generatorCoin.out.nValue.toInt = true := by decide
  have hscript : generatorCoin.out.scriptPubKey.length ≤ MAX_SCRIPT_SIZE := by decide
  exact ⟨(coin_roundTrip generatorOps generatorOps_inverts).1 generatorCoin .empty hvalue hscript,
    (coin_roundTrip generatorOps generatorOps_inverts).2 ⟨[generatorCoin]⟩ (by decide)
      (by simpa using ⟨hvalue, hscript⟩)⟩

/-- A vector of more than `MAX_SIZE` coins is written but not read back. -/
theorem readTxUndo_too_many_coins :
    (readTxUndo generatorOps).run
      (serTxUndo generatorOps ⟨List.replicate (MAX_SIZE + 1) generatorCoin⟩) =
        .error .compactSizeTooLarge := by
  have hmany : MAX_SIZE < (List.replicate (MAX_SIZE + 1) generatorCoin).length := by
    rw [List.length_replicate]
    exact Nat.lt_succ_self _
  have hread := @readVector_tooLarge _ (serTxInUndo generatorOps) _ _
    (unserTxInUndo generatorOps .empty) (by rw [List.length_replicate]; decide) hmany []
  rw [List.append_nil] at hread
  exact run_bind_of_error hread

end Generator

end HcsCoin
