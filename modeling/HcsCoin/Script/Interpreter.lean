import HcsCoin.Crypto.Sha256
import HcsCoin.Foundation.Interaction
import HcsCoin.Script.ScriptNum

/-!
# The script interpreter

`EvalScript` reads a script operation by operation and changes a stack.  What
depends on the transaction is left to a signature checker, which the interpreter
asks; so a run is an interaction with the checker.

Stacks are lists with the top in front: `stacktop stack i` is the source's
`stacktop(-i)`.  An access outside the stack throws, which the interpreter turns
into `unknownError`.  A failed assertion, and an iterator outside its range, is
`aborted`.  Scripts have fewer than `2^31` bytes, so positions (32-bit signed in a
`prevector`) and the depth of conditionals are natural numbers.
-/

namespace HcsCoin

open Foundation CScriptNum

inductive ScriptError where
  | ok | unknownError | evalFalse | opReturn | scriptNum
  | scriptSize | pushSize | opCount | stackSize | sigCount | pubkeyCount
  | verify | equalVerify | checkMultiSigVerify | checkSigVerify | numEqualVerify
  | badOpcode | disabledOpcode | invalidStackOperation | invalidAltstackOperation
  | unbalancedConditional
  | negativeLocktime | unsatisfiedLocktime
  | sigHashtype | sigDer | minimalData | sigPushOnly | sigHighS | sigNullDummy | pubkeyType
  | cleanStack | minimalIf | sigNullFail
  | discourageUpgradableNops | discourageUpgradableWitnessProgram
  | discourageUpgradableTaprootVersion | discourageOpSuccess | discourageUpgradablePubkeyType
  | witnessProgramWrongLength | witnessProgramWitnessEmpty | witnessProgramMismatch
  | witnessMalleated | witnessMalleatedP2SH | witnessUnexpected | witnessPubkeyType
  | schnorrSigSize | schnorrSigHashtype | schnorrSig | taprootWrongControlSize
  | tapscriptValidationWeight | tapscriptCheckMultiSig | tapscriptMinimalIf | tapscriptEmptyPubkey
  | opCodeSeparator | sigFindAndDelete
  deriving DecidableEq, Repr

inductive EvalFailure where
  | error (serror : ScriptError)
  | aborted
  deriving DecidableEq, Repr

inductive ScriptVerifyFlag where
  | p2sh | strictEnc | derSig | lowS | nullDummy | sigPushOnly | minimalData
  | discourageUpgradableNops | cleanStack | checkLockTimeVerify | checkSequenceVerify | witness
  | discourageUpgradableWitnessProgram | minimalIf | nullFail | witnessPubkeyType
  | constScriptCode | taproot | discourageUpgradableTaprootVersion | discourageOpSuccess
  | discourageUpgradablePubkeyType
  deriving DecidableEq, Repr

abbrev ScriptVerifyFlags := Finset ScriptVerifyFlag

inductive SigVersion where
  | base | witnessV0 | taproot | tapscript
  deriving DecidableEq, Repr

/-- A field is `none` until it is initialised; for the annex, until it is known whether there
is one. -/
structure ScriptExecutionData where
  tapleafHash : Option Uint256 := none
  codeseparatorPos : Option Nat := none
  annexHash : Option (Option Uint256) := none
  validationWeightLeft : Option Int := none
  outputHash : Option Uint256 := none
  deriving DecidableEq

/-! ## The signature checker -/

inductive CheckerCall where
  | checkECDSASignature (vchSig vchPubKey scriptCode : Bytes) (sigversion : SigVersion)
  | checkSchnorrSignature (sig pubkey : Bytes) (sigversion : SigVersion)
      (execdata : ScriptExecutionData)
  | checkLockTime (nLockTime : Int)
  | checkSequence (nSequence : Int)

/-- What `CheckSchnorrSignature` leaves in the arguments it is passed by reference. -/
structure SchnorrAnswer where
  success : Bool
  execdata : ScriptExecutionData
  serror : ScriptError

abbrev CheckerCall.Answer : CheckerCall → Type
  | .checkSchnorrSignature .. => SchnorrAnswer
  | _ => Bool

abbrev Checked := Interaction CheckerCall.Answer EvalFailure

/-- A checker may abort, and keeps a state between signature checks, such as a cache. -/
structure SignatureChecker (σ : Type) where
  checkECDSASignature : Bytes → Bytes → Bytes → SigVersion → σ → Except EvalFailure Bool × σ
  checkSchnorrSignature : Bytes → Bytes → SigVersion → ScriptExecutionData → σ →
    Except EvalFailure SchnorrAnswer × σ
  checkLockTime : Int → σ → Except EvalFailure Bool
  checkSequence : Int → σ → Except EvalFailure Bool

def SignatureChecker.handler {σ : Type} (checker : SignatureChecker σ) :
    Handler CheckerCall.Answer EvalFailure σ
  | .checkECDSASignature vchSig vchPubKey scriptCode sigversion, s =>
    checker.checkECDSASignature vchSig vchPubKey scriptCode sigversion s
  | .checkSchnorrSignature sig pubkey sigversion execdata, s =>
    checker.checkSchnorrSignature sig pubkey sigversion execdata s
  | .checkLockTime nLockTime, s => (checker.checkLockTime nLockTime s, s)
  | .checkSequence nSequence, s => (checker.checkSequence nSequence s, s)

def checkECDSASignature (vchSig vchPubKey scriptCode : Bytes) (sigversion : SigVersion) :
    Checked Bool :=
  .call (CheckerCall.checkECDSASignature vchSig vchPubKey scriptCode sigversion)

def checkSchnorrSignature (sig pubkey : Bytes) (sigversion : SigVersion)
    (execdata : ScriptExecutionData) : Checked SchnorrAnswer :=
  .call (CheckerCall.checkSchnorrSignature sig pubkey sigversion execdata)

def checkLockTime (nLockTime : Int) : Checked Bool := .call (CheckerCall.checkLockTime nLockTime)

def checkSequence (nSequence : Int) : Checked Bool := .call (CheckerCall.checkSequence nSequence)

/-- Cryptography the interpreter calls: two hashes, and two functions on elliptic curve
points. -/
structure ScriptCrypto where
  ripemd160 : Bytes → BaseBlob 20
  sha1 : Bytes → BaseBlob 20
  checkLowS : Bytes → Bool
  checkTapTweak : Bytes → Bytes → Uint256 → Bool → Bool

def ScriptCrypto.hash160 (crypto : ScriptCrypto) (data : Bytes) : BaseBlob 20 :=
  crypto.ripemd160 (sha256 data).mData

/-! ## Stacks -/

def rejectWhen (condition : Prop) [Decidable condition] (e : ScriptError) :
    Except EvalFailure Unit :=
  if condition then .error (.error e) else .ok ()

def assertThat (condition : Prop) [Decidable condition] : Except EvalFailure Unit :=
  if condition then .ok () else .error .aborted

def stacktop (stack : List Bytes) : Nat → Except EvalFailure Bytes
  | 0 => .error (.error .unknownError)
  | i + 1 =>
    match stack[i]? with
    | some vch => .ok vch
    | none => .error (.error .unknownError)

def popstack : List Bytes → Except EvalFailure (List Bytes)
  | [] => .error (.error .unknownError)
  | _ :: stack => .ok stack

def swapTop (stack : List Bytes) (i j : Nat) : Except EvalFailure (List Bytes) := do
  let vchi ← stacktop stack i
  let vchj ← stacktop stack j
  return (stack.set (i - 1) vchj).set (j - 1) vchi

def eraseTop (stack : List Bytes) (first last : Nat) : Except EvalFailure (List Bytes) := do
  assertThat (first ≤ stack.length)
  return stack.take last ++ stack.drop first

def insertTop (stack : List Bytes) (i : Nat) (vch : Bytes) : Except EvalFailure (List Bytes) := do
  assertThat (i ≤ stack.length)
  return stack.take i ++ vch :: stack.drop i

def intSize (size : Nat) : Int := Int.bmod size 0x100000000

def vchFalse : Bytes := []
def vchTrue : Bytes := [1]

def vchOfBool (fValue : Bool) : Bytes := if fValue then vchTrue else vchFalse

def castToBool : Bytes → Bool
  | [] => false
  | byte :: rest => if byte ≠ 0 then !(rest.isEmpty && byte == 0x80) else castToBool rest

def scriptNumUpTo (nMaxNumSize : Nat) (vch : Bytes) (fRequireMinimal : Bool) :
    Except EvalFailure Int :=
  match ofVch vch fRequireMinimal nMaxNumSize with
  | some n => .ok n
  | none => .error (.error .scriptNum)

def scriptNum (vch : Bytes) (fRequireMinimal : Bool) : Except EvalFailure Int :=
  scriptNumUpTo nDefaultMaxNumSize vch fRequireMinimal

/-- The size of the implied stack of conditions, and the position of its first false one. -/
structure ConditionStack where
  stackSize : Nat := 0
  firstFalsePos : Option Nat := none

namespace ConditionStack

def empty (vfExec : ConditionStack) : Bool := vfExec.stackSize == 0

def allTrue (vfExec : ConditionStack) : Bool := vfExec.firstFalsePos.isNone

def pushBack (vfExec : ConditionStack) (f : Bool) : ConditionStack where
  stackSize := vfExec.stackSize + 1
  firstFalsePos :=
    if vfExec.firstFalsePos = none ∧ f = false then some vfExec.stackSize else vfExec.firstFalsePos

def popBack (vfExec : ConditionStack) : Except EvalFailure ConditionStack := do
  assertThat (0 < vfExec.stackSize)
  let stackSize := vfExec.stackSize - 1
  return ⟨stackSize, if vfExec.firstFalsePos = some stackSize then none else vfExec.firstFalsePos⟩

def toggleTop (vfExec : ConditionStack) : Except EvalFailure ConditionStack := do
  assertThat (0 < vfExec.stackSize)
  let top := vfExec.stackSize - 1
  return { vfExec with
    firstFalsePos :=
      if vfExec.firstFalsePos = none then some top
      else if vfExec.firstFalsePos = some top then none
      else vfExec.firstFalsePos }

end ConditionStack

/-! ## Opcodes -/

def OP_1NEGATE : UInt8 := 0x4f
def OP_IF : UInt8 := 0x63
def OP_ENDIF : UInt8 := 0x68
def OP_CODESEPARATOR : UInt8 := 0xab

def MAX_SCRIPT_ELEMENT_SIZE : Nat := 520
def MAX_OPS_PER_SCRIPT : Nat := 201
def MAX_STACK_SIZE : Nat := 1000

inductive StackOp where
  | twoDrop | twoDup | threeDup | twoOver | twoRot | twoSwap | ifDup | depth | drop | dup | nip
  | opOver | rot | swap | tuck | size
  deriving DecidableEq, Repr

inductive UnaryOp where
  | add1 | sub1 | negate | abs | not | notEqual0
  deriving DecidableEq, Repr

inductive BinaryOp where
  | add | sub | boolAnd | boolOr | numEqual | numEqualVerify | numNotEqual | lessThan
  | greaterThan | lessThanOrEqual | greaterThanOrEqual | min | max
  deriving DecidableEq, Repr

inductive HashOp where
  | ripemd160 | sha1 | sha256 | hash160 | hash256
  deriving DecidableEq, Repr

/-- The cases of the interpreter's switch, with what tells the opcodes of one case apart. -/
inductive Operation where
  | pushNumber (n : Int)
  | nop | checkLockTimeVerify | checkSequenceVerify | upgradableNop
  | ifNotIf (notIf : Bool) | else | endIf | verify | return
  | toAltStack | fromAltStack | stackOp (op : StackOp) | pickRoll (roll : Bool)
  | equal (verify : Bool) | unary (op : UnaryOp) | binary (op : BinaryOp) | within
  | hash (op : HashOp) | codeSeparator
  | checkSig (verify : Bool) | checkSigAdd | checkMultiSig (verify : Bool)
  | default
  deriving DecidableEq, Repr

def operations : List (UInt8 × Operation) :=
  [(0x61, .nop), (0xb1, .checkLockTimeVerify), (0xb2, .checkSequenceVerify),
    (0xb0, .upgradableNop), (0xb3, .upgradableNop), (0xb4, .upgradableNop),
    (0xb5, .upgradableNop), (0xb6, .upgradableNop), (0xb7, .upgradableNop),
    (0xb8, .upgradableNop), (0xb9, .upgradableNop),
    (OP_IF, .ifNotIf false), (0x64, .ifNotIf true), (0x67, .else), (OP_ENDIF, .endIf),
    (0x69, .verify), (OP_RETURN, .return),
    (0x6b, .toAltStack), (0x6c, .fromAltStack),
    (0x6d, .stackOp .twoDrop), (0x6e, .stackOp .twoDup), (0x6f, .stackOp .threeDup),
    (0x70, .stackOp .twoOver), (0x71, .stackOp .twoRot), (0x72, .stackOp .twoSwap),
    (0x73, .stackOp .ifDup), (0x74, .stackOp .depth), (0x75, .stackOp .drop),
    (OP_DUP, .stackOp .dup), (0x77, .stackOp .nip), (0x78, .stackOp .opOver),
    (0x79, .pickRoll false), (0x7a, .pickRoll true),
    (0x7b, .stackOp .rot), (0x7c, .stackOp .swap), (0x7d, .stackOp .tuck),
    (0x82, .stackOp .size),
    (OP_EQUAL, .equal false), (OP_EQUALVERIFY, .equal true),
    (0x8b, .unary .add1), (0x8c, .unary .sub1), (0x8f, .unary .negate), (0x90, .unary .abs),
    (0x91, .unary .not), (0x92, .unary .notEqual0),
    (0x93, .binary .add), (0x94, .binary .sub), (0x9a, .binary .boolAnd), (0x9b, .binary .boolOr),
    (0x9c, .binary .numEqual), (0x9d, .binary .numEqualVerify), (0x9e, .binary .numNotEqual),
    (0x9f, .binary .lessThan), (0xa0, .binary .greaterThan), (0xa1, .binary .lessThanOrEqual),
    (0xa2, .binary .greaterThanOrEqual), (0xa3, .binary .min), (0xa4, .binary .max),
    (0xa5, .within),
    (0xa6, .hash .ripemd160), (0xa7, .hash .sha1), (0xa8, .hash .sha256),
    (OP_HASH160, .hash .hash160), (0xaa, .hash .hash256),
    (OP_CODESEPARATOR, .codeSeparator),
    (OP_CHECKSIG, .checkSig false), (OP_CHECKSIGVERIFY, .checkSig true),
    (0xba, .checkSigAdd),
    (OP_CHECKMULTISIG, .checkMultiSig false), (OP_CHECKMULTISIGVERIFY, .checkMultiSig true)]

def operationOf (opcode : UInt8) : Operation :=
  if opcode = OP_1NEGATE ∨ (OP_1 ≤ opcode ∧ opcode ≤ OP_16) then
    .pushNumber ((opcode.toNat : Int) - ((OP_1.toNat : Int) - 1))
  else (operations.lookup opcode).getD .default

def isDisabled (opcode : UInt8) : Bool :=
  [0x7e, 0x7f, 0x80, 0x81, 0x83, 0x84, 0x85, 0x86, 0x8d, 0x8e, 0x95, 0x96, 0x97, 0x98,
    0x99].contains opcode

/-! ## Operations on the stack alone -/

def evalVerify (stack : List Bytes) : Except EvalFailure (List Bytes) := do
  rejectWhen (stack.length < 1) .invalidStackOperation
  let fValue := castToBool (← stacktop stack 1)
  rejectWhen (fValue = false) .verify
  popstack stack

def evalStackOp : StackOp → List Bytes → Except EvalFailure (List Bytes)
  | .twoDrop, stack => do
    rejectWhen (stack.length < 2) .invalidStackOperation
    popstack (← popstack stack)
  | .twoDup, stack => do
    rejectWhen (stack.length < 2) .invalidStackOperation
    let vch1 ← stacktop stack 2
    let vch2 ← stacktop stack 1
    return vch2 :: vch1 :: stack
  | .threeDup, stack => do
    rejectWhen (stack.length < 3) .invalidStackOperation
    let vch1 ← stacktop stack 3
    let vch2 ← stacktop stack 2
    let vch3 ← stacktop stack 1
    return vch3 :: vch2 :: vch1 :: stack
  | .twoOver, stack => do
    rejectWhen (stack.length < 4) .invalidStackOperation
    let vch1 ← stacktop stack 4
    let vch2 ← stacktop stack 3
    return vch2 :: vch1 :: stack
  | .twoRot, stack => do
    rejectWhen (stack.length < 6) .invalidStackOperation
    let vch1 ← stacktop stack 6
    let vch2 ← stacktop stack 5
    let stack ← eraseTop stack 6 4
    return vch2 :: vch1 :: stack
  | .twoSwap, stack => do
    rejectWhen (stack.length < 4) .invalidStackOperation
    let stack ← swapTop stack 4 2
    swapTop stack 3 1
  | .ifDup, stack => do
    rejectWhen (stack.length < 1) .invalidStackOperation
    let vch ← stacktop stack 1
    return if castToBool vch then vch :: stack else stack
  | .depth, stack => return serialize stack.length :: stack
  | .drop, stack => do
    rejectWhen (stack.length < 1) .invalidStackOperation
    popstack stack
  | .dup, stack => do
    rejectWhen (stack.length < 1) .invalidStackOperation
    let vch ← stacktop stack 1
    return vch :: stack
  | .nip, stack => do
    rejectWhen (stack.length < 2) .invalidStackOperation
    eraseTop stack 2 1
  | .opOver, stack => do
    rejectWhen (stack.length < 2) .invalidStackOperation
    let vch ← stacktop stack 2
    return vch :: stack
  | .rot, stack => do
    rejectWhen (stack.length < 3) .invalidStackOperation
    let stack ← swapTop stack 3 2
    swapTop stack 2 1
  | .swap, stack => do
    rejectWhen (stack.length < 2) .invalidStackOperation
    swapTop stack 2 1
  | .tuck, stack => do
    rejectWhen (stack.length < 2) .invalidStackOperation
    let vch ← stacktop stack 1
    insertTop stack 2 vch
  | .size, stack => do
    rejectWhen (stack.length < 1) .invalidStackOperation
    let vch ← stacktop stack 1
    return serialize vch.length :: stack

def evalPickRoll (fRequireMinimal roll : Bool) (stack : List Bytes) :
    Except EvalFailure (List Bytes) := do
  rejectWhen (stack.length < 2) .invalidStackOperation
  let n := getint (← scriptNum (← stacktop stack 1) fRequireMinimal)
  let stack ← popstack stack
  rejectWhen (n < 0 ∨ n ≥ intSize stack.length) .invalidStackOperation
  let vch ← stacktop stack (n.toNat + 1)
  let stack ← if roll then eraseTop stack (n.toNat + 1) n.toNat else pure stack
  return vch :: stack

/-- The `VERIFY` variant of an operation pops the result it has pushed. -/
def verifyResult (verify fSuccess : Bool) (e : ScriptError) (stack : List Bytes) :
    Except EvalFailure (List Bytes) :=
  if verify then do
    rejectWhen (fSuccess = false) e
    popstack stack
  else .ok stack

def evalEqual (verify : Bool) (stack : List Bytes) : Except EvalFailure (List Bytes) := do
  rejectWhen (stack.length < 2) .invalidStackOperation
  let vch1 ← stacktop stack 2
  let vch2 ← stacktop stack 1
  let fEqual := vch1 == vch2
  let stack ← popstack (← popstack stack)
  verifyResult verify fEqual .equalVerify (vchOfBool fEqual :: stack)

/-- `+=`, `-=` and unary minus assert that the result fits in 64 bits. -/
def checkedInt64 (n : Int) : Except EvalFailure Int := do
  assertThat (-0x8000000000000000 ≤ n ∧ n < 0x8000000000000000)
  return n

def UnaryOp.apply : UnaryOp → Int → Except EvalFailure Int
  | .add1, bn => checkedInt64 (bn + 1)
  | .sub1, bn => checkedInt64 (bn - 1)
  | .negate, bn => checkedInt64 (-bn)
  | .abs, bn => if bn < 0 then checkedInt64 (-bn) else .ok bn
  | .not, bn => .ok (bn = 0 : Bool).toInt
  | .notEqual0, bn => .ok (bn ≠ 0 : Bool).toInt

def evalUnary (fRequireMinimal : Bool) (op : UnaryOp) (stack : List Bytes) :
    Except EvalFailure (List Bytes) := do
  rejectWhen (stack.length < 1) .invalidStackOperation
  let bn ← scriptNum (← stacktop stack 1) fRequireMinimal
  let bn ← op.apply bn
  let stack ← popstack stack
  return serialize bn :: stack

def BinaryOp.apply (bn1 bn2 : Int) : BinaryOp → Int
  | .add => bn1 + bn2
  | .sub => bn1 - bn2
  | .boolAnd => (bn1 ≠ 0 ∧ bn2 ≠ 0 : Bool).toInt
  | .boolOr => (bn1 ≠ 0 ∨ bn2 ≠ 0 : Bool).toInt
  | .numEqual | .numEqualVerify => (bn1 = bn2 : Bool).toInt
  | .numNotEqual => (bn1 ≠ bn2 : Bool).toInt
  | .lessThan => (bn1 < bn2 : Bool).toInt
  | .greaterThan => (bn1 > bn2 : Bool).toInt
  | .lessThanOrEqual => (bn1 ≤ bn2 : Bool).toInt
  | .greaterThanOrEqual => (bn1 ≥ bn2 : Bool).toInt
  | .min => if bn1 < bn2 then bn1 else bn2
  | .max => if bn1 > bn2 then bn1 else bn2

def evalBinary (fRequireMinimal : Bool) (op : BinaryOp) (stack : List Bytes) :
    Except EvalFailure (List Bytes) := do
  rejectWhen (stack.length < 2) .invalidStackOperation
  let bn1 ← scriptNum (← stacktop stack 2) fRequireMinimal
  let bn2 ← scriptNum (← stacktop stack 1) fRequireMinimal
  let bn := serialize (op.apply bn1 bn2)
  let stack ← popstack (← popstack stack)
  verifyResult (op = .numEqualVerify) (castToBool bn) .numEqualVerify (bn :: stack)

def evalWithin (fRequireMinimal : Bool) (stack : List Bytes) :
    Except EvalFailure (List Bytes) := do
  rejectWhen (stack.length < 3) .invalidStackOperation
  let bn1 ← scriptNum (← stacktop stack 3) fRequireMinimal
  let bn2 ← scriptNum (← stacktop stack 2) fRequireMinimal
  let bn3 ← scriptNum (← stacktop stack 1) fRequireMinimal
  let fValue := decide (bn2 ≤ bn1 ∧ bn1 < bn3)
  let stack ← popstack (← popstack (← popstack stack))
  return vchOfBool fValue :: stack

def HashOp.apply (crypto : ScriptCrypto) (vch : Bytes) : HashOp → Bytes
  | .ripemd160 => (crypto.ripemd160 vch).mData
  | .sha1 => (crypto.sha1 vch).mData
  | .sha256 => (HcsCoin.sha256 vch).mData
  | .hash160 => (crypto.hash160 vch).mData
  | .hash256 => (HcsCoin.hash256 vch).mData

def evalHash (crypto : ScriptCrypto) (op : HashOp) (stack : List Bytes) :
    Except EvalFailure (List Bytes) := do
  rejectWhen (stack.length < 1) .invalidStackOperation
  let vch ← stacktop stack 1
  let stack ← popstack stack
  return op.apply crypto vch :: stack

/-! ## Signature and key encodings -/

def isCompressedOrUncompressedPubKey (vchPubKey : Bytes) : Bool :=
  if vchPubKey.length < 33 then false
  else if vchPubKey.getD 0 0 == 0x04 then vchPubKey.length == 65
  else if vchPubKey.getD 0 0 == 0x02 || vchPubKey.getD 0 0 == 0x03 then vchPubKey.length == 33
  else false

def isCompressedPubKey (vchPubKey : Bytes) : Bool :=
  vchPubKey.length == 33 && (vchPubKey.getD 0 0 == 0x02 || vchPubKey.getD 0 0 == 0x03)

/-- `<30> <total len> <02> <len R> <R> <02> <len S> <S> <hashtype>`; the sizes are checked
before the bytes they cover are read. -/
def isValidSignatureEncoding (sig : Bytes) : Bool :=
  let at_ (i : Nat) : UInt8 := sig.getD i 0
  let lenR := (at_ 3).toNat
  let lenS := (at_ (5 + lenR)).toNat
  9 ≤ sig.length && sig.length ≤ 73 && at_ 0 == 0x30 && (at_ 1).toNat == sig.length - 3 &&
    5 + lenR < sig.length && lenR + lenS + 7 == sig.length &&
    at_ 2 == 0x02 && lenR != 0 && at_ 4 &&& 0x80 == 0 &&
    !(lenR > 1 && at_ 4 == 0x00 && at_ 5 &&& 0x80 == 0) &&
    at_ (lenR + 4) == 0x02 && lenS != 0 && at_ (lenR + 6) &&& 0x80 == 0 &&
    !(lenS > 1 && at_ (lenR + 6) == 0x00 && at_ (lenR + 7) &&& 0x80 == 0)

def isDefinedHashtypeSignature (vchSig : Bytes) : Bool :=
  match vchSig.getLast? with
  | none => false
  | some back => 1 ≤ back &&& 0x7f && back &&& 0x7f ≤ 3

section
variable (crypto : ScriptCrypto) (flags : ScriptVerifyFlags) (sigversion : SigVersion)

def isLowDERSignature (vchSig : Bytes) : Except EvalFailure Unit := do
  rejectWhen (isValidSignatureEncoding vchSig = false) .sigDer
  rejectWhen (crypto.checkLowS vchSig.dropLast = false) .sigHighS

def checkSignatureEncoding (vchSig : Bytes) : Except EvalFailure Unit :=
  if vchSig.length = 0 then .ok ()
  else if (.derSig ∈ flags ∨ .lowS ∈ flags ∨ .strictEnc ∈ flags) ∧
      isValidSignatureEncoding vchSig = false then .error (.error .sigDer)
  else do
    (if .lowS ∈ flags then isLowDERSignature crypto vchSig else .ok ())
    rejectWhen (.strictEnc ∈ flags ∧ isDefinedHashtypeSignature vchSig = false) .sigHashtype

def checkPubKeyEncoding (vchPubKey : Bytes) : Except EvalFailure Unit := do
  rejectWhen (.strictEnc ∈ flags ∧ isCompressedOrUncompressedPubKey vchPubKey = false) .pubkeyType
  rejectWhen (.witnessPubkeyType ∈ flags ∧ sigversion = .witnessV0 ∧
    isCompressedPubKey vchPubKey = false) .witnessPubkeyType

def skipMatches (b : Bytes) : Nat → Bytes → Nat × Bytes
  | 0, pc => (0, pc)
  | rounds + 1, pc =>
    if b.isPrefixOf pc then
      let (nFound, pc) := skipMatches b rounds (pc.drop b.length)
      (nFound + 1, pc)
    else (0, pc)

def findAndDeleteFrom (b : Bytes) : Nat → Bytes → Nat × Bytes
  | 0, pc => (0, pc)
  | rounds + 1, pc =>
    let (skipped, pc2) := skipMatches b pc.length pc
    match CScript.getScriptOp pc2 with
    | none => (skipped, pc2)
    | some (_, pc) =>
      let (nFound, result) := findAndDeleteFrom b rounds pc
      (skipped + nFound, pc2.take (pc2.length - pc.length) ++ result)

/-- How often `b` was found at the start of an operation, and the script without it. -/
def findAndDelete (script b : Bytes) : Nat × Bytes :=
  if b.isEmpty then (0, script)
  else
    let (nFound, result) := findAndDeleteFrom b (script.length + 1) script
    if nFound > 0 then (nFound, result) else (0, script)

def dropSignature (vchSig scriptCode : Bytes) : Except EvalFailure Bytes :=
  if sigversion = .base then do
    let (found, scriptCode) := findAndDelete scriptCode (CScript.pushData vchSig)
    rejectWhen (found > 0 ∧ .constScriptCode ∈ flags) .sigFindAndDelete
    return scriptCode
  else .ok scriptCode

/-! ## Operations that ask the checker -/

structure EvalState where
  stack : List Bytes
  altstack : List Bytes := []
  vfExec : ConditionStack := {}
  nOpCount : Nat := 0
  pc : Bytes
  pbegincodehash : Bytes
  opcodePos : Nat := 0
  execdata : ScriptExecutionData

def evalChecksigPreTapscript (vchSig vchPubKey pbegincodehash : Bytes) : Checked Bool := do
  assertThat (sigversion = .base ∨ sigversion = .witnessV0)
  let scriptCode ← dropSignature flags sigversion vchSig pbegincodehash
  checkSignatureEncoding crypto flags vchSig
  checkPubKeyEncoding flags sigversion vchPubKey
  let fSuccess ← checkECDSASignature vchSig vchPubKey scriptCode sigversion
  rejectWhen (fSuccess = false ∧ .nullFail ∈ flags ∧ vchSig.length ≠ 0) .sigNullFail
  return fSuccess

def VALIDATION_WEIGHT_PER_SIGOP_PASSED : Int := 50
def VALIDATION_WEIGHT_OFFSET : Int := 50

def chargeValidationWeight (success : Bool) (execdata : ScriptExecutionData) :
    Except EvalFailure ScriptExecutionData :=
  if success then
    match execdata.validationWeightLeft with
    | none => .error .aborted
    | some left => do
      let left := left - VALIDATION_WEIGHT_PER_SIGOP_PASSED
      rejectWhen (left < 0) .tapscriptValidationWeight
      return { execdata with validationWeightLeft := some left }
  else .ok execdata

def evalChecksigTapscript (sig pubkey : Bytes) (execdata : ScriptExecutionData) :
    Checked (Bool × ScriptExecutionData) := do
  assertThat (sigversion = .tapscript)
  let success := !sig.isEmpty
  let execdata ← chargeValidationWeight success execdata
  rejectWhen (pubkey.length = 0) .tapscriptEmptyPubkey
  if pubkey.length = 32 then
    if success then
      let answer ← checkSchnorrSignature sig pubkey sigversion execdata
      rejectWhen (answer.success = false) answer.serror
      return (true, answer.execdata)
    else return (false, execdata)
  else
    rejectWhen (.discourageUpgradablePubkeyType ∈ flags) .discourageUpgradablePubkeyType
    return (success, execdata)

def evalChecksig (sig pubkey pbegincodehash : Bytes) (execdata : ScriptExecutionData) :
    Checked (Bool × ScriptExecutionData) :=
  match sigversion with
  | .base | .witnessV0 => do
    let success ← evalChecksigPreTapscript crypto flags sigversion sig pubkey pbegincodehash
    return (success, execdata)
  | .tapscript => evalChecksigTapscript flags sigversion sig pubkey execdata
  | .taproot => .fail .aborted

def fRequireMinimal : Bool := decide (.minimalData ∈ flags)

def SEQUENCE_LOCKTIME_DISABLE_FLAG : Nat := 0x80000000

def evalCheckLockTimeVerify (st : EvalState) : Checked EvalState :=
  if .checkLockTimeVerify ∈ flags then do
    rejectWhen (st.stack.length < 1) .invalidStackOperation
    let nLockTime ← scriptNumUpTo 5 (← stacktop st.stack 1) (fRequireMinimal flags)
    rejectWhen (nLockTime < 0) .negativeLocktime
    let satisfied ← checkLockTime nLockTime
    rejectWhen (satisfied = false) .unsatisfiedLocktime
    return st
  else return st

def evalCheckSequenceVerify (st : EvalState) : Checked EvalState :=
  if .checkSequenceVerify ∈ flags then do
    rejectWhen (st.stack.length < 1) .invalidStackOperation
    let nSequence ← scriptNumUpTo 5 (← stacktop st.stack 1) (fRequireMinimal flags)
    rejectWhen (nSequence < 0) .negativeLocktime
    if nSequence.toNat &&& SEQUENCE_LOCKTIME_DISABLE_FLAG ≠ 0 then return st
    else
      let satisfied ← checkSequence nSequence
      rejectWhen (satisfied = false) .unsatisfiedLocktime
      return st
  else return st

def evalCheckSig (verify : Bool) (st : EvalState) : Checked EvalState := do
  rejectWhen (st.stack.length < 2) .invalidStackOperation
  let vchSig ← stacktop st.stack 2
  let vchPubKey ← stacktop st.stack 1
  let (fSuccess, execdata) ←
    evalChecksig crypto flags sigversion vchSig vchPubKey st.pbegincodehash st.execdata
  let stack ← popstack (← popstack st.stack)
  let stack ← verifyResult verify fSuccess .checkSigVerify (vchOfBool fSuccess :: stack)
  return { st with stack, execdata }

def evalCheckSigAdd (st : EvalState) : Checked EvalState := do
  rejectWhen (sigversion = .base ∨ sigversion = .witnessV0) .badOpcode
  rejectWhen (st.stack.length < 3) .invalidStackOperation
  let sig ← stacktop st.stack 3
  let num ← scriptNum (← stacktop st.stack 2) (fRequireMinimal flags)
  let pubkey ← stacktop st.stack 1
  let (success, execdata) ←
    evalChecksig crypto flags sigversion sig pubkey st.pbegincodehash st.execdata
  let stack ← popstack (← popstack (← popstack st.stack))
  return { st with stack := serialize (num + success.toInt) :: stack, execdata }

/-- The counts on the stack, checked against its size: keys, signatures and operations. -/
def readMultiSigCounts (stack : List Bytes) (nOpCount : Nat) :
    Except EvalFailure (Nat × Nat × Nat) := do
  rejectWhen (intSize stack.length < 1) .invalidStackOperation
  let nKeysCount := getint (← scriptNum (← stacktop stack 1) (fRequireMinimal flags))
  rejectWhen (nKeysCount < 0 ∨ nKeysCount > MAX_PUBKEYS_PER_MULTISIG.toNat) .pubkeyCount
  let nKeysCount := nKeysCount.toNat
  let nOpCount := nOpCount + nKeysCount
  rejectWhen (nOpCount > MAX_OPS_PER_SCRIPT) .opCount
  let i := 2 + nKeysCount
  rejectWhen (intSize stack.length < i) .invalidStackOperation
  let nSigsCount := getint (← scriptNum (← stacktop stack i) (fRequireMinimal flags))
  rejectWhen (nSigsCount < 0 ∨ nSigsCount > nKeysCount) .sigCount
  let nSigsCount := nSigsCount.toNat
  let i := i + 1 + nSigsCount
  rejectWhen (intSize stack.length < i) .invalidStackOperation
  return (nKeysCount, nSigsCount, nOpCount)

def dropSignatures (stack : List Bytes) (isig : Nat) : Nat → Bytes → Except EvalFailure Bytes
  | 0, scriptCode => .ok scriptCode
  | nSigsCount + 1, scriptCode => do
    let vchSig ← stacktop stack isig
    let scriptCode ← dropSignature flags sigversion vchSig scriptCode
    dropSignatures stack (isig + 1) nSigsCount scriptCode

/-- The matching loop; every round uses up a key.  It is left with a failure once more
signatures than keys remain, so it never runs out of keys. -/
def matchSignatures (stack : List Bytes) (scriptCode : Bytes) :
    Nat → Nat → Nat → Nat → Checked Bool
  | _, _, _, 0 => return true
  | 0, _, _, _ + 1 => .fail .aborted
  | nKeysCount + 1, isig, ikey, nSigsCount + 1 => do
    let vchSig ← stacktop stack isig
    let vchPubKey ← stacktop stack ikey
    checkSignatureEncoding crypto flags vchSig
    checkPubKeyEncoding flags sigversion vchPubKey
    let fOk ← checkECDSASignature vchSig vchPubKey scriptCode sigversion
    let isig := if fOk then isig + 1 else isig
    let nSigsCount := if fOk then nSigsCount else nSigsCount + 1
    if nSigsCount > nKeysCount then return false
    else matchSignatures stack scriptCode nKeysCount isig (ikey + 1) nSigsCount

def checkNullFail (fSuccess : Bool) (ikey2 : Nat) (stack : List Bytes) : Except EvalFailure Unit :=
  if fSuccess = false ∧ .nullFail ∈ flags ∧ ikey2 = 0 then do
    let top ← stacktop stack 1
    rejectWhen (top.length ≠ 0) .sigNullFail
  else .ok ()

/-- Pops the arguments, `i - 1` of them; `ikey2` counts down to the signatures. -/
def cleanUpMultiSig (fSuccess : Bool) : Nat → Nat → List Bytes → Except EvalFailure (List Bytes)
  | 0, _, stack => .ok stack
  | i + 1, ikey2, stack => do
    checkNullFail flags fSuccess ikey2 stack
    let stack ← popstack stack
    cleanUpMultiSig fSuccess i (ikey2 - 1) stack

def finishMultiSig (verify fSuccess : Bool) (nKeysCount nSigsCount : Nat) (stack : List Bytes) :
    Except EvalFailure (List Bytes) := do
  let stack ← cleanUpMultiSig flags fSuccess (2 + nKeysCount + nSigsCount) (nKeysCount + 2) stack
  rejectWhen (stack.length < 1) .invalidStackOperation
  let dummy ← stacktop stack 1
  rejectWhen (.nullDummy ∈ flags ∧ dummy.length ≠ 0) .sigNullDummy
  let stack ← popstack stack
  verifyResult verify fSuccess .checkMultiSigVerify (vchOfBool fSuccess :: stack)

def evalCheckMultiSig (verify : Bool) (st : EvalState) : Checked EvalState := do
  rejectWhen (sigversion = .tapscript) .tapscriptCheckMultiSig
  let (nKeysCount, nSigsCount, nOpCount) ← readMultiSigCounts flags st.stack st.nOpCount
  let isig := 3 + nKeysCount
  let scriptCode ← dropSignatures flags sigversion st.stack isig nSigsCount st.pbegincodehash
  let fSuccess ←
    matchSignatures crypto flags sigversion st.stack scriptCode nKeysCount isig 2 nSigsCount
  let stack ← finishMultiSig flags verify fSuccess nKeysCount nSigsCount st.stack
  return { st with stack, nOpCount }

/-! ## The switch and the loop -/

/-- The condition `OP_IF` and `OP_NOTIF` take off the stack, if they are executed. -/
def evalCondition (fExec notIf : Bool) (stack : List Bytes) :
    Except EvalFailure (Bool × List Bytes) :=
  if fExec then do
    rejectWhen (stack.length < 1) .invalidStackOperation
    let vch ← stacktop stack 1
    rejectWhen (sigversion = .tapscript ∧ (vch.length > 1 ∨ vch.length = 1 ∧ vch ≠ [1]))
      .tapscriptMinimalIf
    rejectWhen (sigversion = .witnessV0 ∧ .minimalIf ∈ flags ∧
      (vch.length > 1 ∨ vch.length = 1 ∧ vch ≠ [1])) .minimalIf
    let fValue := castToBool vch
    let stack ← popstack stack
    return (if notIf then !fValue else fValue, stack)
  else .ok (false, stack)

def onStack (f : List Bytes → Except EvalFailure (List Bytes)) (st : EvalState) :
    Except EvalFailure EvalState := do
  let stack ← f st.stack
  return { st with stack }

def evalPlain (fExec : Bool) (st : EvalState) : Operation → Except EvalFailure EvalState
  | .pushNumber n => onStack (fun stack => .ok (serialize n :: stack)) st
  | .nop => .ok st
  | .upgradableNop => do
    rejectWhen (.discourageUpgradableNops ∈ flags) .discourageUpgradableNops
    return st
  | .ifNotIf notIf => do
    let (fValue, stack) ← evalCondition flags sigversion fExec notIf st.stack
    return { st with stack, vfExec := st.vfExec.pushBack fValue }
  | .else => do
    rejectWhen (st.vfExec.empty = true) .unbalancedConditional
    let vfExec ← st.vfExec.toggleTop
    return { st with vfExec }
  | .endIf => do
    rejectWhen (st.vfExec.empty = true) .unbalancedConditional
    let vfExec ← st.vfExec.popBack
    return { st with vfExec }
  | .verify => onStack evalVerify st
  | .return => .error (.error .opReturn)
  | .toAltStack => do
    rejectWhen (st.stack.length < 1) .invalidStackOperation
    let vch ← stacktop st.stack 1
    let stack ← popstack st.stack
    return { st with stack, altstack := vch :: st.altstack }
  | .fromAltStack => do
    rejectWhen (st.altstack.length < 1) .invalidAltstackOperation
    let vch ← stacktop st.altstack 1
    let altstack ← popstack st.altstack
    return { st with stack := vch :: st.stack, altstack }
  | .stackOp op => onStack (evalStackOp op) st
  | .pickRoll roll => onStack (evalPickRoll (fRequireMinimal flags) roll) st
  | .equal verify => onStack (evalEqual verify) st
  | .unary op => onStack (evalUnary (fRequireMinimal flags) op) st
  | .binary op => onStack (evalBinary (fRequireMinimal flags) op) st
  | .within => onStack (evalWithin (fRequireMinimal flags)) st
  | .hash op => onStack (evalHash crypto op) st
  | .codeSeparator =>
    .ok { st with
      pbegincodehash := st.pc
      execdata := { st.execdata with codeseparatorPos := some st.opcodePos } }
  | _ => .error (.error .badOpcode)

def evalOperation (fExec : Bool) (st : EvalState) : Operation → Checked EvalState
  | .checkLockTimeVerify => evalCheckLockTimeVerify flags st
  | .checkSequenceVerify => evalCheckSequenceVerify flags st
  | .checkSig verify => evalCheckSig crypto flags sigversion verify st
  | .checkSigAdd => evalCheckSigAdd crypto flags sigversion st
  | .checkMultiSig verify => evalCheckMultiSig crypto flags sigversion verify st
  | op => evalPlain crypto flags sigversion fExec st op

/-- The checks made on every operation that is read, executed or not; returns `nOpCount`. -/
def checkInstruction (opcode : UInt8) (vchPushValue : Bytes) (nOpCount : Nat) :
    Except EvalFailure Nat := do
  rejectWhen (vchPushValue.length > MAX_SCRIPT_ELEMENT_SIZE) .pushSize
  let counted := (sigversion = .base ∨ sigversion = .witnessV0) ∧ opcode > OP_16
  let nOpCount := if counted then nOpCount + 1 else nOpCount
  rejectWhen (counted ∧ nOpCount > MAX_OPS_PER_SCRIPT) .opCount
  rejectWhen (isDisabled opcode = true) .disabledOpcode
  rejectWhen (opcode = OP_CODESEPARATOR ∧ sigversion = .base ∧ .constScriptCode ∈ flags)
    .opCodeSeparator
  return nOpCount

def execInstruction (opcode : UInt8) (vchPushValue : Bytes) (st : EvalState) :
    Checked EvalState :=
  let fExec := st.vfExec.allTrue
  if fExec ∧ opcode ≤ OP_PUSHDATA4 then do
    rejectWhen (fRequireMinimal flags = true ∧ checkMinimalPush vchPushValue opcode = false)
      .minimalData
    return { st with stack := vchPushValue :: st.stack }
  else if fExec ∨ (OP_IF ≤ opcode ∧ opcode ≤ OP_ENDIF) then
    evalOperation crypto flags sigversion fExec st (operationOf opcode)
  else return st

def evalStep (st : EvalState) : Checked EvalState :=
  match CScript.getOp st.pc with
  | (none, _) => .fail (.error .badOpcode)
  | (some (opcode, vchPushValue), pc) => do
    let nOpCount ← checkInstruction flags sigversion opcode vchPushValue st.nOpCount
    let st ← execInstruction crypto flags sigversion opcode vchPushValue { st with nOpCount, pc }
    rejectWhen (st.stack.length + st.altstack.length > MAX_STACK_SIZE) .stackSize
    return { st with opcodePos := st.opcodePos + 1 }

def evalLoop : Nat → EvalState → Checked EvalState
  | 0, st => return st
  | rounds + 1, st =>
    if st.pc.isEmpty then return st
    else do
      let st ← evalStep crypto flags sigversion st
      evalLoop rounds st

def initialState (stack : List Bytes) (script : Bytes) (execdata : ScriptExecutionData) :
    EvalState where
  stack
  pc := script
  pbegincodehash := script
  execdata := { execdata with codeseparatorPos := some 0xffffffff }

def evalScript (stack : List Bytes) (script : Bytes) (execdata : ScriptExecutionData) :
    Checked (List Bytes × ScriptExecutionData) := do
  assertThat (sigversion = .base ∨ sigversion = .witnessV0 ∨ sigversion = .tapscript)
  rejectWhen ((sigversion = .base ∨ sigversion = .witnessV0) ∧ script.length > MAX_SCRIPT_SIZE)
    .scriptSize
  let st ← evalLoop crypto flags sigversion script.length (initialState stack script execdata)
  rejectWhen (st.vfExec.empty = false) .unbalancedConditional
  return (st.stack, st.execdata)

end

def unusedCrypto : ScriptCrypto where
  ripemd160 _ := .null
  sha1 _ := .null
  checkLowS _ := true
  checkTapTweak _ _ _ _ := true

def refusingChecker : SignatureChecker Unit where
  checkECDSASignature _ _ _ _ s := (.ok false, s)
  checkSchnorrSignature _ _ _ execdata s := (.ok ⟨false, execdata, .schnorrSig⟩, s)
  checkLockTime _ _ := .ok false
  checkSequence _ _ := .ok false

end HcsCoin
