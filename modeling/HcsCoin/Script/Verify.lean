import HcsCoin.Primitives.Transaction
import HcsCoin.Script.Interpreter

/-!
# Verifying an input's scripts

`VerifyScript` runs the `scriptSig` and the `scriptPubKey` on one stack, then the
redeem script of a P2SH output and the witness program of a segwit one.
`CountWitnessSigOps` finds the witness script by its own reading.
-/

namespace HcsCoin

open Foundation Interaction CScript

def WITNESS_V0_SCRIPTHASH_SIZE : Nat := 32
def WITNESS_V0_KEYHASH_SIZE : Nat := 20
def WITNESS_V1_TAPROOT_SIZE : Nat := 32

def TAPROOT_LEAF_MASK : UInt8 := 0xfe
def TAPROOT_LEAF_TAPSCRIPT : UInt8 := 0xc0
def TAPROOT_CONTROL_BASE_SIZE : Nat := 33
def TAPROOT_CONTROL_NODE_SIZE : Nat := 32
def TAPROOT_CONTROL_MAX_SIZE : Nat :=
  TAPROOT_CONTROL_BASE_SIZE + TAPROOT_CONTROL_NODE_SIZE * 128

def ANNEX_TAG : UInt8 := 0x50

/-! ## Taproot commitments -/

def taggedHash (tag : String) : Bytes :=
  let tagHash := (sha256 (tag.toList.map fun c => UInt8.ofNat c.toNat)).mData
  tagHash ++ tagHash

def computeTapleafHash (leafVersion : UInt8) (script : Bytes) : Uint256 :=
  sha256 (taggedHash "TapLeaf" ++ leafVersion :: writeCompactSize script.length ++ script)

def computeTapbranchHash (a b : Bytes) : Uint256 :=
  sha256 (taggedHash "TapBranch" ++ if a < b then a ++ b else b ++ a)

/-- The root over the nodes that follow the base of a control block of valid size. -/
def computeTaprootMerkleRoot : Nat → Bytes → Uint256 → Uint256
  | 0, _, k => k
  | pathLen + 1, nodes, k =>
    computeTaprootMerkleRoot pathLen (nodes.drop TAPROOT_CONTROL_NODE_SIZE)
      (computeTapbranchHash k.mData (nodes.take TAPROOT_CONTROL_NODE_SIZE))

section
variable (crypto : ScriptCrypto) (flags : ScriptVerifyFlags)

/-- Called with a control block of valid size. -/
def verifyTaprootCommitment (control program : Bytes) (tapleafHash : Uint256) : Bool :=
  let p := slice control 1 (TAPROOT_CONTROL_BASE_SIZE - 1)
  let pathLen := (control.length - TAPROOT_CONTROL_BASE_SIZE) / TAPROOT_CONTROL_NODE_SIZE
  let merkleRoot :=
    computeTaprootMerkleRoot pathLen (control.drop TAPROOT_CONTROL_BASE_SIZE) tapleafHash
  crypto.checkTapTweak program p merkleRoot (control.getD 0 0 &&& 1 == 1)

/-! ## Witness programs -/

/-- Whether a tapscript has an `OP_SUCCESS`; the scan fails at an operation cut short. -/
def hasOpSuccess : Nat → Bytes → Except EvalFailure Bool
  | 0, _ => .ok false
  | rounds + 1, pc =>
    if pc.isEmpty then .ok false
    else
      match getScriptOp pc with
      | none => .error (.error .badOpcode)
      | some (opcode, pc) =>
        if isOpSuccess opcode then .ok true else hasOpSuccess rounds pc

/-- The last check of a run: a true element on top, and for witness scripts nothing else. -/
def checkFinalStack (stack : List Bytes) : Except EvalFailure Unit := do
  rejectWhen (stack.isEmpty = true) .evalFalse
  rejectWhen (castToBool (stack.headD []) = false) .evalFalse

def runWitnessScript (sigversion : SigVersion) (stack : List Bytes) (execScript : Bytes)
    (execdata : ScriptExecutionData) : Checked Unit := do
  rejectWhen (∃ elem ∈ stack, elem.length > MAX_SCRIPT_ELEMENT_SIZE) .pushSize
  let (stack, _) ← evalScript crypto flags sigversion stack execScript execdata
  rejectWhen (stack.length ≠ 1) .cleanStack
  checkFinalStack stack

def executeWitnessScript (sigversion : SigVersion) (stack : List Bytes) (execScript : Bytes)
    (execdata : ScriptExecutionData) : Checked Unit :=
  if sigversion = .tapscript then do
    let success ← hasOpSuccess execScript.length execScript
    if success then
      rejectWhen (.discourageOpSuccess ∈ flags) .discourageOpSuccess
    else
      rejectWhen (stack.length > MAX_STACK_SIZE) .stackSize
      runWitnessScript crypto flags sigversion stack execScript execdata
  else runWitnessScript crypto flags sigversion stack execScript execdata

def getSerializeSize (witness : List Bytes) : Nat := (serVector serByteVector witness).length

def dropAnnex : List Bytes → Option Uint256 × List Bytes
  | annex :: elem :: stack =>
    if annex.head? = some ANNEX_TAG then (some (sha256 (serByteVector annex)), elem :: stack)
    else (none, annex :: elem :: stack)
  | stack => (none, stack)

def verifyTaprootScriptPath (witness : List Bytes) (control script : Bytes) (stack : List Bytes)
    (program : Bytes) (execdata : ScriptExecutionData) : Checked Unit := do
  rejectWhen (control.length < TAPROOT_CONTROL_BASE_SIZE ∨
    control.length > TAPROOT_CONTROL_MAX_SIZE ∨
    (control.length - TAPROOT_CONTROL_BASE_SIZE) % TAPROOT_CONTROL_NODE_SIZE ≠ 0)
    .taprootWrongControlSize
  let leafVersion := control.getD 0 0 &&& TAPROOT_LEAF_MASK
  let tapleafHash := computeTapleafHash leafVersion script
  rejectWhen (verifyTaprootCommitment crypto control program tapleafHash = false)
    .witnessProgramMismatch
  if leafVersion = TAPROOT_LEAF_TAPSCRIPT then
    executeWitnessScript crypto flags .tapscript stack script
      { execdata with
        tapleafHash := some tapleafHash
        validationWeightLeft := some (getSerializeSize witness + VALIDATION_WEIGHT_OFFSET) }
  else
    rejectWhen (.discourageUpgradableTaprootVersion ∈ flags) .discourageUpgradableTaprootVersion

def verifyTaproot (witness : List Bytes) (program : Bytes) : Checked Unit := do
  rejectWhen (witness.isEmpty = true) .witnessProgramWitnessEmpty
  let (annexHash, stack) := dropAnnex witness.reverse
  let execdata : ScriptExecutionData := { annexHash := some annexHash }
  match stack with
  | [] => .fail .aborted
  | [sig] =>
    let answer ← checkSchnorrSignature sig program .taproot execdata
    rejectWhen (answer.success = false) answer.serror
  | control :: script :: stack =>
    verifyTaprootScriptPath crypto flags witness control script stack program execdata

def keyHashScript (program : Bytes) : Bytes :=
  [OP_DUP, OP_HASH160] ++ pushData program ++ [OP_EQUALVERIFY, OP_CHECKSIG]

def verifyWitnessV0 (witness : List Bytes) (program : Bytes) : Checked Unit :=
  if program.length = WITNESS_V0_SCRIPTHASH_SIZE then
    match witness.reverse with
    | [] => .fail (.error .witnessProgramWitnessEmpty)
    | execScript :: stack => do
      rejectWhen ((sha256 execScript).mData ≠ program) .witnessProgramMismatch
      executeWitnessScript crypto flags .witnessV0 stack execScript {}
  else if program.length = WITNESS_V0_KEYHASH_SIZE then do
    rejectWhen (witness.length ≠ 2) .witnessProgramMismatch
    executeWitnessScript crypto flags .witnessV0 witness.reverse (keyHashScript program) {}
  else .fail (.error .witnessProgramWrongLength)

def verifyWitnessProgram (witness : List Bytes) (witversion : Nat) (program : Bytes)
    (isP2sh : Bool) : Checked Unit :=
  if witversion = 0 then verifyWitnessV0 crypto flags witness program
  else if witversion = 1 ∧ program.length = WITNESS_V1_TAPROOT_SIZE ∧ isP2sh = false then
    if .taproot ∈ flags then verifyTaproot crypto flags witness program else return
  else if isP2sh = false ∧ isPayToAnchor witversion program = true then return
  else
    liftM (rejectWhen (.discourageUpgradableWitnessProgram ∈ flags)
      .discourageUpgradableWitnessProgram)

/-! ## The scripts of an input -/

def evalBaseScript (stack : List Bytes) (script : Bytes) : Checked (List Bytes) := do
  let (stack, _) ← evalScript crypto flags .base stack script {}
  return stack

def resizeToOne (stack : List Bytes) : List Bytes := [stack.getLastD []]

/-- Whether there was a bare witness program, and the stack then. -/
def verifyBareWitness (scriptSig scriptPubKey : Bytes) (witness stack : List Bytes) :
    Checked (Bool × List Bytes) :=
  if .witness ∈ flags then
    match isWitnessProgram scriptPubKey with
    | none => return (false, stack)
    | some (version, program) => do
      rejectWhen (scriptSig.length ≠ 0) .witnessMalleated
      verifyWitnessProgram crypto flags witness version program false
      return (true, resizeToOne stack)
  else return (false, stack)

def verifyP2SHWitness (scriptSig pubKey2 : Bytes) (witness stack : List Bytes)
    (hadWitness : Bool) : Checked (Bool × List Bytes) :=
  if .witness ∈ flags then
    match isWitnessProgram pubKey2 with
    | none => return (hadWitness, stack)
    | some (version, program) => do
      rejectWhen (scriptSig ≠ pushData pubKey2) .witnessMalleatedP2SH
      verifyWitnessProgram crypto flags witness version program true
      return (true, resizeToOne stack)
  else return (hadWitness, stack)

/-- The redeem script of a P2SH output, run on the stack the `scriptSig` left. -/
def verifyRedeemScript (scriptSig scriptPubKey : Bytes) (witness stackCopy stack : List Bytes)
    (hadWitness : Bool) : Checked (Bool × List Bytes) :=
  if .p2sh ∈ flags ∧ isPayToScriptHash scriptPubKey = true then do
    rejectWhen (isPushOnly scriptSig = false) .sigPushOnly
    match stackCopy with
    | [] => .fail .aborted
    | pubKey2 :: stack =>
      let stack ← evalBaseScript crypto flags stack pubKey2
      checkFinalStack stack
      verifyP2SHWitness crypto flags scriptSig pubKey2 witness stack hadWitness
  else return (hadWitness, stack)

def checkCleanStack (stack : List Bytes) : Except EvalFailure Unit :=
  if .cleanStack ∈ flags then do
    assertThat (.p2sh ∈ flags)
    assertThat (.witness ∈ flags)
    rejectWhen (stack.length ≠ 1) .cleanStack
  else .ok ()

def checkUnexpectedWitness (hadWitness : Bool) (witness : List Bytes) : Except EvalFailure Unit :=
  if .witness ∈ flags then do
    assertThat (.p2sh ∈ flags)
    rejectWhen (hadWitness = false ∧ witness.isEmpty = false) .witnessUnexpected
  else .ok ()

def finalChecks (hadWitness : Bool) (witness stack : List Bytes) : Except EvalFailure Unit := do
  checkCleanStack flags stack
  checkUnexpectedWitness flags hadWitness witness

def verifyTail (scriptSig scriptPubKey : Bytes) (witness stackCopy stack : List Bytes) :
    Checked Unit := do
  let (hadWitness, stack) ← verifyBareWitness crypto flags scriptSig scriptPubKey witness stack
  let (hadWitness, stack) ←
    verifyRedeemScript crypto flags scriptSig scriptPubKey witness stackCopy stack hadWitness
  finalChecks flags hadWitness witness stack

def verifyScript (scriptSig scriptPubKey : Bytes) (witness : List Bytes) : Checked Unit := do
  rejectWhen (.sigPushOnly ∈ flags ∧ isPushOnly scriptSig = false) .sigPushOnly
  let stackCopy ← evalBaseScript crypto flags [] scriptSig
  let stack ← evalBaseScript crypto flags stackCopy scriptPubKey
  checkFinalStack stack
  verifyTail crypto flags scriptSig scriptPubKey witness stackCopy stack

end

/-! ## Which parts apply -/

theorem isPayToScriptHash_eq_false {script : Bytes} {version : Nat} {program : Bytes}
    (h : isWitnessProgram script = some (version, program)) :
    isPayToScriptHash script = false := by
  rcases script with _ | ⟨opcode, _ | ⟨size, rest⟩⟩
  · cases h
  · cases h
  · by_contra hp2sh
    rw [Bool.not_eq_false] at hp2sh
    simp only [isPayToScriptHash, Bool.and_eq_true, beq_iff_eq, List.getElem?_cons_zero,
      Option.some.injEq] at hp2sh
    obtain ⟨⟨⟨-, rfl⟩, -⟩, -⟩ := hp2sh
    rw [isWitnessProgram] at h
    split at h
    · cases h
    · rw [if_pos (by decide)] at h
      cases h

section
variable {crypto : ScriptCrypto} {scriptSig scriptPubKey : Bytes}
  {witness stackCopy stack : List Bytes} {flags : ScriptVerifyFlags}

theorem verifyBareWitness_of_none (flags : ScriptVerifyFlags)
    (h : isWitnessProgram scriptPubKey = none) :
    verifyBareWitness crypto flags scriptSig scriptPubKey witness stack = .ret (false, stack) := by
  rw [verifyBareWitness, h]
  split <;> rfl

theorem verifyRedeemScript_of_not {hadWitness : Bool}
    (h : ¬ (.p2sh ∈ flags ∧ isPayToScriptHash scriptPubKey = true)) :
    verifyRedeemScript crypto flags scriptSig scriptPubKey witness stackCopy stack hadWitness =
      .ret (hadWitness, stack) := by
  unfold verifyRedeemScript
  rw [if_neg h]
  rfl

theorem verifyTail_of_bare {version : Nat} {program : Bytes} (hwitness : .witness ∈ flags)
    (hprogram : isWitnessProgram scriptPubKey = some (version, program)) :
    verifyTail crypto flags scriptSig scriptPubKey witness stackCopy stack = (do
      rejectWhen (scriptSig.length ≠ 0) .witnessMalleated
      verifyWitnessProgram crypto flags witness version program false
      finalChecks flags true witness (resizeToOne stack)) := by
  have hredeem (stack : List Bytes) (hadWitness : Bool) :
      verifyRedeemScript crypto flags scriptSig scriptPubKey witness stackCopy stack hadWitness =
        .ret (hadWitness, stack) :=
    verifyRedeemScript_of_not fun h =>
      Bool.noConfusion (h.2.symm.trans (isPayToScriptHash_eq_false hprogram))
  simp only [verifyTail, verifyBareWitness, hwitness, hprogram, if_true, Interaction.bind_assoc,
    pure_def, ret_bind, hredeem]

theorem verifyTail_of_not_bare (h : .witness ∉ flags ∨ isWitnessProgram scriptPubKey = none) :
    verifyTail crypto flags scriptSig scriptPubKey witness stackCopy stack = (do
      let (hadWitness, stack) ←
        verifyRedeemScript crypto flags scriptSig scriptPubKey witness stackCopy stack false
      finalChecks flags hadWitness witness stack) := by
  have hbare : verifyBareWitness crypto flags scriptSig scriptPubKey witness stack =
      .ret (false, stack) := by
    rcases h with h | h
    · rw [verifyBareWitness, if_neg h]
      rfl
    · exact verifyBareWitness_of_none flags h
  rw [verifyTail, hbare]
  rfl

end

/-! ## Counting signature checks in witnesses -/

def witnessSigOps (witversion : Nat) (witprogram : Bytes) (witness : List Bytes) : Nat :=
  if witversion = 0 then
    if witprogram.length = WITNESS_V0_KEYHASH_SIZE then 1
    else if witprogram.length = WITNESS_V0_SCRIPTHASH_SIZE then
      match witness.getLast? with
      | some subscript => (getSigOpCount subscript true).toNat
      | none => 0
    else 0
  else 0

def lastData : Nat → Bytes → Bytes → Bytes
  | 0, _, data => data
  | rounds + 1, pc, data =>
    if pc.isEmpty then data
    else
      match getOp pc with
      | (some (_, data), pc) => lastData rounds pc data
      | (none, pc) => lastData rounds pc []

/-- `none` is the assertion that `WITNESS` comes with `P2SH`. -/
def countWitnessSigOps (scriptSig scriptPubKey : Bytes) (witness : List Bytes)
    (flags : ScriptVerifyFlags) : Option Nat :=
  if .witness ∉ flags then some 0
  else if .p2sh ∉ flags then none
  else
    match isWitnessProgram scriptPubKey with
    | some (version, program) => some (witnessSigOps version program witness)
    | none =>
      if isPayToScriptHash scriptPubKey && isPushOnly scriptSig then
        match isWitnessProgram (lastData scriptSig.length scriptSig []) with
        | some (version, program) => some (witnessSigOps version program witness)
        | none => some 0
      else some 0

end HcsCoin
