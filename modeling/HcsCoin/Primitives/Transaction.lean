import HcsCoin.Crypto.Sha256
import HcsCoin.Serialize

/-!
# Transactions

The types of `primitives/transaction.h` and their serialization, with and
without witness data.  A transaction that announces inputs by an empty vector
followed by a flag byte is in the extended format, so a transaction without
inputs survives a round trip only when it has no outputs either.
-/

namespace HcsCoin

open Foundation Foundation.Decoder

structure COutPoint where
  hash : Uint256
  n : UInt32
  deriving DecidableEq

def COutPoint.NULL_INDEX : UInt32 := 0xffffffff

def COutPoint.isNull (o : COutPoint) : Bool := o.hash.isNull && o.n == COutPoint.NULL_INDEX

/-- `scriptWitness` is the stack of the input's `CScriptWitness`. -/
structure CTxIn where
  prevout : COutPoint
  scriptSig : Bytes
  nSequence : UInt32
  scriptWitness : List Bytes
  deriving DecidableEq

structure CTxOut where
  nValue : Int64
  scriptPubKey : Bytes
  deriving DecidableEq

structure CTransaction where
  vin : List CTxIn
  vout : List CTxOut
  version : UInt32
  nLockTime : UInt32
  deriving DecidableEq

def hasWitness (vin : List CTxIn) : Bool := vin.any fun txin => !txin.scriptWitness.isEmpty

namespace CTransaction

def hasWitness (tx : CTransaction) : Bool := HcsCoin.hasWitness tx.vin

def isNull (tx : CTransaction) : Bool := tx.vin.isEmpty && tx.vout.isEmpty

def isCoinBase (tx : CTransaction) : Bool :=
  match tx.vin with
  | [txin] => txin.prevout.isNull
  | _ => false

end CTransaction

/-! ## Serialization -/

def serOutPoint (o : COutPoint) : Bytes := o.hash.mData ++ serUInt32 o.n

def serTxIn (txin : CTxIn) : Bytes :=
  serOutPoint txin.prevout ++ (serByteVector txin.scriptSig ++ serUInt32 txin.nSequence)

def serTxOut (txout : CTxOut) : Bytes :=
  serInt64 txout.nValue ++ serByteVector txout.scriptPubKey

def serWitness (txin : CTxIn) : Bytes := serVector serByteVector txin.scriptWitness

def serializeTransaction (fAllowWitness : Bool) (tx : CTransaction) : Bytes :=
  let flags : UInt8 := if fAllowWitness && tx.hasWitness then 1 else 0
  serUInt32 tx.version ++
    ((if flags ≠ 0 then serVector serTxIn [] ++ [flags] else []) ++
      (serVector serTxIn tx.vin ++
        (serVector serTxOut tx.vout ++
          ((if flags &&& 1 ≠ 0 then tx.vin.flatMap serWitness else []) ++ serUInt32 tx.nLockTime))))

def readOutPoint : Reader COutPoint := do
  let hash ← readUint256
  let n ← readUInt32
  pure ⟨hash, n⟩

def readTxIn : Reader CTxIn := do
  let prevout ← readOutPoint
  let scriptSig ← readByteVector
  let nSequence ← readUInt32
  pure ⟨prevout, scriptSig, nSequence, []⟩

def readTxOut : Reader CTxOut := do
  let nValue ← readInt64
  let scriptPubKey ← readByteVector
  pure ⟨nValue, scriptPubKey⟩

/-- After a first vector of inputs: the flag byte and the real vectors when that
vector was the dummy, the outputs otherwise. -/
def readInputsAndOutputs (fAllowWitness : Bool) (vin : List CTxIn) :
    Reader (List CTxIn × List CTxOut × UInt8) :=
  if vin.length = 0 ∧ fAllowWitness = true then do
    let flags ← readUInt8
    if flags ≠ 0 then do
      let vin ← readVector readTxIn
      let vout ← readVector readTxOut
      pure (vin, vout, flags)
    else pure (vin, [], flags)
  else do
    let vout ← readVector readTxOut
    pure (vin, vout, 0)

def readWitnesses : List CTxIn → Reader (List CTxIn)
  | [] => pure []
  | txin :: vin => do
    let stack ← readVector readByteVector
    let rest ← readWitnesses vin
    pure ({ txin with scriptWitness := stack } :: rest)

def readWitnessRecord (fAllowWitness : Bool) (vin : List CTxIn) (flags : UInt8) :
    Reader (List CTxIn × UInt8) :=
  if flags &&& 1 ≠ 0 ∧ fAllowWitness = true then do
    let vin ← readWitnesses vin
    if hasWitness vin then pure (vin, flags ^^^ 1)
    else Decoder.throw .superfluousWitnessRecord
  else pure (vin, flags)

def unserializeTransaction (fAllowWitness : Bool) : Reader CTransaction := do
  let version ← readUInt32
  let first ← readVector readTxIn
  let body ← readInputsAndOutputs fAllowWitness first
  let witnessed ← readWitnessRecord fAllowWitness body.1 body.2.2
  if witnessed.2 ≠ 0 then Decoder.throw .unknownTransactionOptionalData
  else do
    let nLockTime ← readUInt32
    pure ⟨witnessed.1, body.2.1, version, nLockTime⟩

namespace CTransaction

def getHash (tx : CTransaction) : Uint256 := hash256 (serializeTransaction false tx)

def getWitnessHash (tx : CTransaction) : Uint256 :=
  if tx.hasWitness then hash256 (serializeTransaction true tx) else tx.getHash

/-- The transactions the format can carry: every vector within the size the
readers allow, and no outputs without inputs. -/
structure Serializable (tx : CTransaction) : Prop where
  vin_size : tx.vin.length ≤ MAX_SIZE
  vout_size : tx.vout.length ≤ MAX_SIZE
  scriptSig_size : ∀ txin ∈ tx.vin, txin.scriptSig.length ≤ MAX_SIZE
  witness_size : ∀ txin ∈ tx.vin, txin.scriptWitness.length ≤ MAX_SIZE ∧
    ∀ item ∈ txin.scriptWitness, item.length ≤ MAX_SIZE
  scriptPubKey_size : ∀ txout ∈ tx.vout, txout.scriptPubKey.length ≤ MAX_SIZE
  inputs_of_outputs : tx.vin = [] → tx.vout = []

end CTransaction

/-! ## Round trips -/

theorem decodes_readOutPoint (o : COutPoint) : Decodes readOutPoint (serOutPoint o) o :=
  (decodes_readUint256 o.hash).bind ((decodes_readUInt32 o.n).last (Decodes.pure o))

theorem decodes_readTxIn {txin : CTxIn} (h : txin.scriptSig.length ≤ MAX_SIZE) :
    Decodes readTxIn (serTxIn txin) { txin with scriptWitness := [] } :=
  (decodes_readOutPoint txin.prevout).bind ((decodes_readByteVector h).bind
    ((decodes_readUInt32 txin.nSequence).last (Decodes.pure _)))

theorem decodes_readTxOut {txout : CTxOut} (h : txout.scriptPubKey.length ≤ MAX_SIZE) :
    Decodes readTxOut (serTxOut txout) txout :=
  (decodes_readInt64 txout.nValue).bind ((decodes_readByteVector h).last (Decodes.pure _))

variable {vin : List CTxIn} {tx : CTransaction}

theorem decodes_readWitnesses (h : ∀ txin ∈ vin, txin.scriptWitness.length ≤ MAX_SIZE ∧
      ∀ item ∈ txin.scriptWitness, item.length ≤ MAX_SIZE) :
    Decodes (readWitnesses (vin.map fun txin => { txin with scriptWitness := [] }))
      (vin.flatMap serWitness) vin := by
  induction vin with
  | nil => exact Decodes.pure []
  | cons txin vin ih =>
    obtain ⟨hstack, hitems⟩ := h txin (by simp)
    have hhead : Decodes (readVector readByteVector) (serWitness txin) txin.scriptWitness :=
      decodes_readVector hstack fun item hitem => decodes_readByteVector (hitems item hitem)
    have htail := ih fun other hother => h other (by simp [hother])
    exact hhead.bind (htail.last (Decodes.pure (txin :: vin)))

theorem map_clear_of_not_hasWitness (h : hasWitness vin = false) :
    (vin.map fun txin => { txin with scriptWitness := [] }) = vin := by
  conv_rhs => rw [← List.map_id vin]
  apply List.map_congr_left
  intro txin hmem
  have hempty : txin.scriptWitness = [] := by
    have := List.any_eq_false.mp h txin hmem
    simpa using this
  cases txin
  simp_all

theorem decodes_vin (h : tx.Serializable) :
    Decodes (readVector readTxIn) (serVector serTxIn tx.vin)
      (tx.vin.map fun txin => { txin with scriptWitness := [] }) :=
  decodes_readVector_map _ h.vin_size fun txin hmem => decodes_readTxIn (h.scriptSig_size txin hmem)

theorem decodes_vout (h : tx.Serializable) :
    Decodes (readVector readTxOut) (serVector serTxOut tx.vout) tx.vout :=
  decodes_readVector h.vout_size fun txout hmem =>
    decodes_readTxOut (h.scriptPubKey_size txout hmem)

theorem decodes_lockTime (tx : CTransaction) :
    Decodes (do
      let nLockTime ← readUInt32
      pure ⟨tx.vin, tx.vout, tx.version, nLockTime⟩ : Reader CTransaction)
      (serUInt32 tx.nLockTime) tx :=
  (decodes_readUInt32 tx.nLockTime).last (Decodes.pure tx)

theorem serializeTransaction_of_hasWitness (hw : tx.hasWitness = true) :
    serializeTransaction true tx =
      serUInt32 tx.version ++ (serVector serTxIn [] ++ ([1] ++ (serVector serTxIn tx.vin ++
        (serVector serTxOut tx.vout ++
          (tx.vin.flatMap serWitness ++ serUInt32 tx.nLockTime))))) := by
  simp [serializeTransaction, hw]

theorem serializeTransaction_of_not_hasWitness {fAllowWitness : Bool}
    (hw : fAllowWitness = true → tx.hasWitness = false) :
    serializeTransaction fAllowWitness tx =
      serUInt32 tx.version ++ (serVector serTxIn tx.vin ++
        (serVector serTxOut tx.vout ++ serUInt32 tx.nLockTime)) := by
  cases fAllowWitness
  · simp [serializeTransaction]
  · simp [serializeTransaction, hw]

theorem decodes_extended (h : tx.Serializable) (hw : tx.hasWitness = true) :
    Decodes (unserializeTransaction true) (serializeTransaction true tx) tx := by
  have hdummy : Decodes (readVector readTxIn) (serVector serTxIn []) [] :=
    decodes_readVector (by simp) (by simp)
  have hbody : Decodes (readInputsAndOutputs true [])
      ([1] ++ (serVector serTxIn tx.vin ++ serVector serTxOut tx.vout))
      (tx.vin.map fun txin => { txin with scriptWitness := [] }, tx.vout, 1) :=
    (decodes_readUInt8 1).bind
      ((decodes_vin h).bind ((decodes_vout h).last (Decodes.pure _)))
  have hrecord : Decodes
      (readWitnessRecord true (tx.vin.map fun txin => { txin with scriptWitness := [] }) 1)
      (tx.vin.flatMap serWitness) (tx.vin, 0) := by
    rw [readWitnessRecord, if_pos (by decide)]
    refine (decodes_readWitnesses h.witness_size).last ?_
    rw [CTransaction.hasWitness] at hw
    rw [if_pos hw]
    exact Decodes.pure _
  rw [serializeTransaction_of_hasWitness hw]
  refine (decodes_readUInt32 tx.version).bind (hdummy.bind ?_)
  exact hbody.step (by simp) (hrecord.bind (decodes_lockTime tx))

theorem decodes_basic (h : tx.Serializable) (hw : tx.hasWitness = false) :
    Decodes (unserializeTransaction true) (serializeTransaction true tx) tx := by
  have hvin := decodes_vin h
  rw [map_clear_of_not_hasWitness hw] at hvin
  have hbody : Decodes (readInputsAndOutputs true tx.vin) (serVector serTxOut tx.vout)
      (tx.vin, tx.vout, 0) := by
    unfold readInputsAndOutputs
    split
    next hempty =>
      -- No inputs: the count of the outputs, zero, is read as the flag byte.
      have hnil : tx.vin = [] := List.length_eq_zero_iff.mp hempty.1
      rw [hnil, h.inputs_of_outputs hnil]
      exact (decodes_readUInt8 0).last (Decodes.pure _)
    next => exact (decodes_vout h).last (Decodes.pure _)
  have hrecord : Decodes (readWitnessRecord true tx.vin 0) [] (tx.vin, 0) := by
    rw [readWitnessRecord, if_neg (by decide)]
    exact Decodes.pure _
  rw [serializeTransaction_of_not_hasWitness fun _ => hw]
  exact (decodes_readUInt32 tx.version).bind
    (hvin.bind (hbody.bind (hrecord.step rfl (decodes_lockTime tx))))

/-- Reading inverts `SerializeTransaction` with witness data on every transaction
the format can carry. -/
theorem decodes_unserializeTransaction (h : tx.Serializable) :
    Decodes (unserializeTransaction true) (serializeTransaction true tx) tx := by
  cases hw : tx.hasWitness with
  | true => exact decodes_extended h hw
  | false => exact decodes_basic h hw

/-! ## What can be read -/

theorem yields_readTxIn :
    Yields readTxIn fun txin => txin.scriptSig.length ≤ MAX_SIZE ∧ txin.scriptWitness = [] :=
  (Yields.trivial _).bind fun _ _ => yields_readByteVector.bind fun _ hsize =>
    (Yields.trivial _).bind fun _ _ => Yields.pure ⟨hsize, rfl⟩

theorem yields_readTxOut :
    Yields readTxOut fun txout => txout.scriptPubKey.length ≤ MAX_SIZE :=
  (Yields.trivial _).bind fun _ _ => yields_readByteVector.bind fun _ hsize => Yields.pure hsize

private def BareInputs (vin : List CTxIn) : Prop :=
  vin.length ≤ MAX_SIZE ∧ ∀ txin ∈ vin, txin.scriptSig.length ≤ MAX_SIZE ∧ txin.scriptWitness = []

private def SizedInputs (vin : List CTxIn) : Prop :=
  vin.length ≤ MAX_SIZE ∧ ∀ txin ∈ vin, txin.scriptSig.length ≤ MAX_SIZE ∧
    txin.scriptWitness.length ≤ MAX_SIZE ∧ ∀ item ∈ txin.scriptWitness, item.length ≤ MAX_SIZE

private def SizedOutputs (vout : List CTxOut) : Prop :=
  vout.length ≤ MAX_SIZE ∧ ∀ txout ∈ vout, txout.scriptPubKey.length ≤ MAX_SIZE

theorem BareInputs.sized (h : BareInputs vin) : SizedInputs vin := by
  refine ⟨h.1, fun txin hmem => ?_⟩
  obtain ⟨hsig, hwitness⟩ := h.2 txin hmem
  exact ⟨hsig, by simp [hwitness], by simp [hwitness]⟩

theorem yields_readInputsAndOutputs (h : BareInputs vin) :
    Yields (readInputsAndOutputs true vin) fun body =>
      BareInputs body.1 ∧ SizedOutputs body.2.1 ∧ (body.2.2 = 0 → body.1 = [] → body.2.1 = []) := by
  have hvin := yields_readVector yields_readTxIn
  have hvout := yields_readVector yields_readTxOut
  unfold readInputsAndOutputs
  split
  next hempty =>
    refine (Yields.trivial _).bind fun flags _ => ?_
    split
    next hflags =>
      exact hvin.bind fun _ hin => hvout.bind fun _ hout =>
        Yields.pure ⟨hin, hout, fun h0 => absurd h0 hflags⟩
    next => exact Yields.pure ⟨h, ⟨by simp, by simp⟩, fun _ _ => rfl⟩
  next hsome =>
    refine hvout.bind fun vout hout => Yields.pure ⟨h, hout, fun _ hnil => ?_⟩
    exact absurd ⟨List.length_eq_zero_iff.mpr hnil, rfl⟩ hsome

theorem yields_readWitnesses (h : BareInputs vin) :
    Yields (readWitnesses vin) SizedInputs := by
  suffices hgoal : Yields (readWitnesses vin) fun out => out.length = vin.length ∧
      ∀ txin ∈ out, txin.scriptSig.length ≤ MAX_SIZE ∧
        txin.scriptWitness.length ≤ MAX_SIZE ∧
        ∀ item ∈ txin.scriptWitness, item.length ≤ MAX_SIZE by
    intro bs out rest hrun
    obtain ⟨hlength, hall⟩ := hgoal bs out rest hrun
    exact ⟨hlength ▸ h.1, hall⟩
  replace h := h.2
  induction vin with
  | nil => exact Yields.pure ⟨rfl, by simp⟩
  | cons txin vin ih =>
    refine (yields_readVector yields_readByteVector).bind fun stack hstack => ?_
    refine (ih fun other hother => h other (by simp [hother])).bind fun out hout => ?_
    refine Yields.pure ⟨by simp [hout.1], ?_⟩
    intro other hother
    rcases List.mem_cons.mp hother with rfl | hmem
    · exact ⟨(h txin (by simp)).1, hstack⟩
    · exact hout.2 other hmem

theorem yields_readWitnessRecord (h : BareInputs vin) (flags : UInt8) :
    Yields (readWitnessRecord true vin flags) fun record =>
      SizedInputs record.1 ∧ (record = (vin, flags) ∨ hasWitness record.1 = true) := by
  unfold readWitnessRecord
  split
  next =>
    refine (yields_readWitnesses h).bind fun out hout => ?_
    split
    next hw => exact Yields.pure ⟨hout, .inr hw⟩
    next => exact Yields.throw _
  next => exact Yields.pure ⟨h.sized, .inl rfl⟩

theorem yields_unserializeTransaction :
    Yields (unserializeTransaction true) CTransaction.Serializable := by
  refine (Yields.trivial _).bind fun version _ =>
    (yields_readVector yields_readTxIn).bind fun first hfirst =>
    (yields_readInputsAndOutputs hfirst).bind fun body hbody =>
    (yields_readWitnessRecord hbody.1 body.2.2).bind fun record hrecord => ?_
  split
  · exact Yields.throw _
  next hflags =>
    obtain ⟨hin, hcases⟩ := hrecord
    obtain ⟨-, hout, hnil⟩ := hbody
    refine (Yields.trivial _).bind fun nLockTime _ => Yields.pure
      ⟨hin.1, hout.1, fun txin hmem => (hin.2 txin hmem).1,
        fun txin hmem => (hin.2 txin hmem).2, hout.2, fun hvin => ?_⟩
    rcases hcases with rfl | hw
    · exact hnil (not_not.mp hflags) hvin
    · simp only at hvin
      simp [hasWitness, hvin] at hw

/-! ## Sizes -/

theorem serTxIn_length (txin : CTxIn) :
    0 < (serTxIn txin).length ∧ txin.scriptSig.length ≤ (serTxIn txin).length := by
  have hscript := length_le_length_serByteVector txin.scriptSig
  simp only [serTxIn, serOutPoint, serUInt32, List.length_append, leBytes_length, BaseBlob.size_eq]
  omega

theorem serTxOut_length (txout : CTxOut) :
    0 < (serTxOut txout).length ∧ txout.scriptPubKey.length ≤ (serTxOut txout).length := by
  have hscript := length_le_length_serByteVector txout.scriptPubKey
  simp only [serTxOut, serInt64, serUInt64, List.length_append, leBytes_length]
  omega

theorem serWitness_length (txin : CTxIn) :
    txin.scriptWitness.length ≤ (serWitness txin).length ∧
      ∀ item ∈ txin.scriptWitness, item.length ≤ (serWitness txin).length := by
  refine ⟨length_le_length_serVector (fun item => ?_) _, fun item hitem => ?_⟩
  · rw [serByteVector, List.length_append]
    exact Nat.add_pos_left (writeCompactSize_length_pos _) _
  · exact (length_le_length_serByteVector item).trans (length_ser_le_serVector _ hitem)

theorem serializeTransaction_length (tx : CTransaction) :
    (serVector serTxIn tx.vin).length ≤ (serializeTransaction true tx).length ∧
      (serVector serTxOut tx.vout).length ≤ (serializeTransaction true tx).length ∧
      (tx.hasWitness = true →
        (tx.vin.flatMap serWitness).length ≤ (serializeTransaction true tx).length) := by
  cases hw : tx.hasWitness with
  | false =>
    rw [serializeTransaction_of_not_hasWitness fun _ => hw]
    simp only [List.length_append]
    exact ⟨by omega, by omega, nofun⟩
  | true =>
    rw [serializeTransaction_of_hasWitness hw]
    simp only [List.length_append]
    exact ⟨by omega, by omega, fun _ => by omega⟩

theorem CTransaction.serializable_of_length (hvin : tx.vin ≠ [])
    (h : (serializeTransaction true tx).length ≤ MAX_SIZE) : tx.Serializable := by
  obtain ⟨hins, houts, hwitness⟩ := serializeTransaction_length tx
  have hins := hins.trans h
  have houts := houts.trans h
  refine ⟨?_, ?_, ?_, ?_, ?_, fun hnil => absurd hnil hvin⟩
  · exact (length_le_length_serVector (fun txin => (serTxIn_length txin).1) _).trans hins
  · exact (length_le_length_serVector (fun txout => (serTxOut_length txout).1) _).trans houts
  · intro txin hmem
    exact (serTxIn_length txin).2.trans ((length_ser_le_serVector serTxIn hmem).trans hins)
  · intro txin hmem
    cases hw : tx.hasWitness with
    | false =>
      have hnil : txin.scriptWitness = [] := by
        rw [CTransaction.hasWitness, HcsCoin.hasWitness, List.any_eq_false] at hw
        simpa using hw txin hmem
      rw [hnil]
      exact ⟨Nat.zero_le _, nofun⟩
    | true =>
      have hle := (length_ser_le_flatMap serWitness hmem).trans ((hwitness hw).trans h)
      obtain ⟨hstack, hitems⟩ := serWitness_length txin
      exact ⟨hstack.trans hle, fun item hitem => (hitems item hitem).trans hle⟩
  · intro txout hmem
    exact (serTxOut_length txout).2.trans ((length_ser_le_serVector serTxOut hmem).trans houts)

variable (fAllowWitness : Bool)

theorem serializeTransaction_length_pos (tx : CTransaction) :
    0 < (serializeTransaction fAllowWitness tx).length := by
  simp only [serializeTransaction, serUInt32, List.length_append, leBytes_length]
  omega

/-! ## Without witness data -/

def CTransaction.strip (tx : CTransaction) : CTransaction :=
  { tx with vin := tx.vin.map fun txin => { txin with scriptWitness := [] } }

theorem serializeTransaction_false (tx : CTransaction) :
    serializeTransaction false tx =
      serUInt32 tx.version ++ (serVector serTxIn tx.vin ++
        (serVector serTxOut tx.vout ++ serUInt32 tx.nLockTime)) :=
  serializeTransaction_of_not_hasWitness fun h => absurd h Bool.false_ne_true

theorem length_le_serializeTransaction (tx : CTransaction) :
    tx.vin.length ≤ (serializeTransaction false tx).length ∧
      tx.vout.length ≤ (serializeTransaction false tx).length := by
  have hins := length_le_length_serVector (fun txin => (serTxIn_length txin).1) tx.vin
  have houts := length_le_length_serVector (fun txout => (serTxOut_length txout).1) tx.vout
  rw [serializeTransaction_false]
  simp only [List.length_append]
  exact ⟨by omega, by omega⟩

theorem CTransaction.hasWitness_strip (tx : CTransaction) : tx.strip.hasWitness = false := by
  simp [CTransaction.hasWitness, HcsCoin.hasWitness, CTransaction.strip]

theorem serializeTransaction_strip (tx : CTransaction) :
    serializeTransaction fAllowWitness tx.strip = serializeTransaction false tx := by
  rw [serializeTransaction_of_not_hasWitness fun _ => tx.hasWitness_strip,
    serializeTransaction_false]
  have hvin : serVector serTxIn tx.strip.vin = serVector serTxIn tx.vin := by
    rw [serVector, serVector, CTransaction.strip, List.length_map, List.flatMap_map]
    rfl
  rw [hvin]
  rfl

variable {t u : CTransaction}

end HcsCoin
