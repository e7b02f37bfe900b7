import HcsCoin.Foundation.Budget
import HcsCoin.Script.Invariant

/-!
# Signature checks of one script

`GetSigOpCount` reads a script without executing it.  Its accurate count bounds
the ECDSA checks of a run: a skipped operation asks nothing, and where it trusts
an `OP_N` directly before `OP_CHECKMULTISIG`, that `N` is on top of the stack
whenever the operation is executed.  In a tapscript every Schnorr check is paid
for out of the validation weight.
-/

namespace HcsCoin

open Foundation Interaction CScript CScriptNum

/-! ## The count over the natural numbers -/

namespace CScript

def sigOpsOf (opcode lastOpcode : UInt8) : Nat :=
  if opcode = OP_CHECKSIG ∨ opcode = OP_CHECKSIGVERIFY then 1
  else if opcode = OP_CHECKMULTISIG ∨ opcode = OP_CHECKMULTISIGVERIFY then
    if lastOpcode ≥ OP_1 ∧ lastOpcode ≤ OP_16 then (decodeOpN lastOpcode).toNat
    else MAX_PUBKEYS_PER_MULTISIG.toNat
  else 0

def sigOpsFrom : Nat → Bytes → UInt8 → Nat
  | 0, _, _ => 0
  | rounds + 1, pc, lastOpcode =>
    match getScriptOp pc with
    | none => 0
    | some (opcode, pc) => sigOpsOf opcode lastOpcode + sigOpsFrom rounds pc opcode

theorem decodeOpN_le {opcode : UInt8} (h : opcode ≤ OP_16) (h₁ : opcode ≥ OP_1) :
    (decodeOpN opcode).toNat ≤ 16 := by
  have hall : ∀ opcode : UInt8, opcode ≤ OP_16 → opcode ≥ OP_1 → (decodeOpN opcode).toNat ≤ 16 := by
    refine @(forall_byte ?_)
    decide +kernel
  exact hall opcode h h₁

theorem sigOpsOf_le (opcode lastOpcode : UInt8) : sigOpsOf opcode lastOpcode ≤ 20 := by
  rw [sigOpsOf]
  split
  · decide
  · split
    · split
      · rename_i hlast
        exact (decodeOpN_le hlast.2 hlast.1).trans (by decide)
      · decide
    · decide

theorem toNat_sigOpLoop {rounds : Nat} {pc : Bytes} {lastOpcode : UInt8} {n : UInt32}
    (h : n.toNat + 20 * rounds < 2 ^ 32) :
    (sigOpLoop true rounds pc lastOpcode n).toNat = n.toNat + sigOpsFrom rounds pc lastOpcode := by
  induction rounds generalizing pc lastOpcode n with
  | zero => rfl
  | succ rounds ih =>
    cases hread : getScriptOp pc with
    | none => simp only [sigOpLoop, sigOpsFrom, hread, Nat.add_zero]
    | some next =>
      obtain ⟨opcode, rest⟩ := next
      have hop := sigOpsOf_le opcode lastOpcode
      -- the operation adds what `sigOpsOf` says, with room to spare
      have hadd {k : UInt32} (hk : k.toNat ≤ 20) : (n + k).toNat = n.toNat + k.toNat := by
        rw [UInt32.toNat_add]
        exact Nat.mod_eq_of_lt (by omega)
      have hstep : (if opcode = OP_CHECKSIG ∨ opcode = OP_CHECKSIGVERIFY then n + 1
          else if opcode = OP_CHECKMULTISIG ∨ opcode = OP_CHECKMULTISIGVERIFY then
            if lastOpcode ≥ OP_1 ∧ lastOpcode ≤ OP_16 then n + decodeOpN lastOpcode
            else n + MAX_PUBKEYS_PER_MULTISIG
          else n).toNat = n.toNat + sigOpsOf opcode lastOpcode := by
        rw [sigOpsOf]
        split
        · exact hadd (by decide)
        · split
          · split
            · rename_i hlast
              exact hadd ((decodeOpN_le hlast.2 hlast.1).trans (by decide))
            · exact hadd (by decide)
          · rfl
      simp only [sigOpLoop, sigOpsFrom, hread, true_and]
      rw [ih (by rw [hstep]; omega), hstep, Nat.add_assoc]

theorem toNat_getSigOpCount {script : Bytes} (h : script.length ≤ MAX_SCRIPT_SIZE) :
    (getSigOpCount script true).toNat = sigOpsFrom script.length script OP_INVALIDOPCODE := by
  rw [MAX_SCRIPT_SIZE] at h
  rw [getSigOpCount, toNat_sigOpLoop (by rw [UInt32.toNat_zero]; omega), UInt32.toNat_zero,
    Nat.zero_add]

end CScript

/-! ## ECDSA checks -/

def CheckerCall.isECDSA : CheckerCall → Bool
  | .checkECDSASignature .. => true
  | _ => false

def ecdsaOps (sigversion : SigVersion) (n : Nat) : Nat :=
  if sigversion = .tapscript then 0 else n

theorem ecdsaOps_add (sigversion : SigVersion) (n m : Nat) :
    ecdsaOps sigversion (n + m) = ecdsaOps sigversion n + ecdsaOps sigversion m := by
  rw [ecdsaOps, ecdsaOps, ecdsaOps]
  split <;> rfl

/-- At most `n` ECDSA checks are made, whatever is answered. -/
abbrev AsksECDSA {α : Type} (n : Nat) (p : Checked α) (R : α → Prop) : Prop :=
  Spends CheckerCall.isECDSA (fun _ _ => True) n p R

section
variable {crypto : ScriptCrypto} {flags : ScriptVerifyFlags} {sigversion : SigVersion}

theorem asksECDSA_checkECDSASignature (vchSig vchPubKey scriptCode : Bytes) :
    AsksECDSA 1 (checkECDSASignature vchSig vchPubKey scriptCode sigversion) fun _ => True :=
  Spends.call (q := CheckerCall.checkECDSASignature vchSig vchPubKey scriptCode sigversion)
    fun _ _ => trivial

theorem asksECDSA_checkSchnorrSignature (sig pubkey : Bytes) (execdata : ScriptExecutionData) :
    AsksECDSA 0 (checkSchnorrSignature sig pubkey sigversion execdata) fun _ => True :=
  Spends.call (q := CheckerCall.checkSchnorrSignature sig pubkey sigversion execdata)
    fun _ _ => trivial

theorem asksECDSA_checkLockTime (nLockTime : Int) :
    AsksECDSA 0 (checkLockTime nLockTime) fun _ => True :=
  Spends.call (q := CheckerCall.checkLockTime nLockTime) fun _ _ => trivial

theorem asksECDSA_checkSequence (nSequence : Int) :
    AsksECDSA 0 (checkSequence nSequence) fun _ => True :=
  Spends.call (q := CheckerCall.checkSequence nSequence) fun _ _ => trivial

theorem asksECDSA_evalChecksigPreTapscript (sig pubkey pbegincodehash : Bytes) :
    AsksECDSA 1 (evalChecksigPreTapscript crypto flags sigversion sig pubkey pbegincodehash)
      fun _ => True := by
  refine .skip fun _ => .skip fun _ => .skip fun _ => .skip fun _ => ?_
  exact (asksECDSA_checkECDSASignature _ _ _).bind (m := 0) fun _ _ => .skip fun _ => .ret trivial

theorem asksECDSA_evalChecksigTapscript (sig pubkey : Bytes) (execdata : ScriptExecutionData) :
    AsksECDSA 0 (evalChecksigTapscript flags sigversion sig pubkey execdata) fun _ => True := by
  refine .skip fun _ => .skip fun _ => .skip fun _ => ?_
  refine .ite (.ite ?_ (.ret trivial)) (.skip fun _ => .ret trivial)
  exact (asksECDSA_checkSchnorrSignature _ _ _).bind (m := 0) fun _ _ => .skip fun _ => .ret trivial

theorem asksECDSA_evalChecksig (sig pubkey pbegincodehash : Bytes)
    (execdata : ScriptExecutionData) :
    AsksECDSA (ecdsaOps sigversion 1)
      (evalChecksig crypto flags sigversion sig pubkey pbegincodehash execdata)
      fun _ => True := by
  cases sigversion with
  | taproot => exact .fail _
  | tapscript => exact asksECDSA_evalChecksigTapscript _ _ _
  | _ => exact (asksECDSA_evalChecksigPreTapscript _ _ _).bind (m := 0) fun _ _ => .ret trivial

theorem asksECDSA_matchSignatures (stack : List Bytes) (scriptCode : Bytes)
    (nKeysCount isig ikey nSigsCount : Nat) :
    AsksECDSA nKeysCount (matchSignatures crypto flags sigversion stack scriptCode nKeysCount isig
      ikey nSigsCount) fun _ => True := by
  induction nKeysCount generalizing isig ikey nSigsCount with
  | zero =>
    cases nSigsCount with
    | zero => exact .ret trivial
    | succ _ => exact .fail _
  | succ nKeysCount ih =>
    cases nSigsCount with
    | zero => exact .ret trivial
    | succ nSigsCount =>
      rw [matchSignatures, Nat.add_comm]
      refine .skip fun _ => .skip fun _ => .skip fun _ => .skip fun _ => ?_
      exact (asksECDSA_checkECDSASignature _ _ _).bind fun fOk _ => .ite (.ret trivial) (ih _ _ _)

theorem asksECDSA_evalCheckLockTimeVerify (st : EvalState) :
    AsksECDSA 0 (evalCheckLockTimeVerify flags st) fun _ => True := by
  refine .ite ?_ (.ret trivial)
  refine .skip fun _ => .skip fun _ => .skip fun _ => .skip fun _ => ?_
  exact (asksECDSA_checkLockTime _).bind (m := 0) fun _ _ => .skip fun _ => .ret trivial

theorem asksECDSA_evalCheckSequenceVerify (st : EvalState) :
    AsksECDSA 0 (evalCheckSequenceVerify flags st) fun _ => True := by
  refine .ite ?_ (.ret trivial)
  refine .skip fun _ => .skip fun _ => .skip fun _ => .skip fun _ => ?_
  refine .ite (.ret trivial) ?_
  exact (asksECDSA_checkSequence _).bind (m := 0) fun _ _ => .skip fun _ => .ret trivial

theorem asksECDSA_evalCheckSig (verify : Bool) (st : EvalState) :
    AsksECDSA (ecdsaOps sigversion 1)
      (evalCheckSig crypto flags sigversion verify st) fun _ => True := by
  refine .skip fun _ => .skip fun _ => .skip fun _ => ?_
  exact (asksECDSA_evalChecksig _ _ _ _).bind (m := 0) fun _ _ =>
    .skip fun _ => .skip fun _ => .skip fun _ => .ret trivial

theorem asksECDSA_evalCheckSigAdd (st : EvalState) :
    AsksECDSA 0 (evalCheckSigAdd crypto flags sigversion st) fun _ => True := by
  refine .lift_bind fun _ hversion => .skip fun _ => .skip fun _ =>
    .skip fun _ => .skip fun _ => .skip fun _ => ?_
  have hnot := rejectWhen_eq_ok hversion
  refine Spends.bind (n := 0) (m := 0) (R := fun _ => True) ?_ fun _ _ =>
    .skip fun _ => .skip fun _ => .skip fun _ => .ret trivial
  cases sigversion with
  | base => exact absurd (.inl rfl) hnot
  | witnessV0 => exact absurd (.inr rfl) hnot
  | taproot => exact .fail _
  | tapscript => exact asksECDSA_evalChecksigTapscript _ _ _

/-! ## Key counts -/

/-- An `OP_N` directly before, if executed, has left `N` on top. -/
def LastPushed (lastOpcode : UInt8) (st : EvalState) : Prop :=
  lastOpcode ≥ OP_1 ∧ lastOpcode ≤ OP_16 → st.vfExec.allTrue = true →
    st.stack.head? = some (serialize (decodeOpN lastOpcode).toNat)

variable {opcode lastOpcode : UInt8} {st : EvalState}

theorem operationOf_decodeOpN (h : opcode ≥ OP_1 ∧ opcode ≤ OP_16) :
    operationOf opcode = .pushNumber (decodeOpN opcode).toNat := by
  have hall : ∀ opcode : UInt8, opcode ≥ OP_1 ∧ opcode ≤ OP_16 →
      operationOf opcode = .pushNumber (decodeOpN opcode).toNat := by
    refine @(forall_byte ?_)
    decide +kernel
  exact hall opcode h

theorem scriptNum_decodeOpN (h : opcode ≥ OP_1 ∧ opcode ≤ OP_16) (fRequireMinimal : Bool) :
    ofVch (serialize (decodeOpN opcode).toNat) fRequireMinimal
      nDefaultMaxNumSize = some ((decodeOpN opcode).toNat : Int) := by
  have hall : ∀ opcode : UInt8, opcode ≥ OP_1 ∧ opcode ≤ OP_16 → ∀ fRequireMinimal : Bool,
      ofVch (serialize (decodeOpN opcode).toNat) fRequireMinimal
        nDefaultMaxNumSize = some ((decodeOpN opcode).toNat : Int) := by
    refine @(forall_byte ?_)
    decide +kernel
  exact hall opcode h fRequireMinimal

theorem readMultiSigCounts_keys_le {nOpCount : Nat}
    {counts : Nat × Nat × Nat} (hlast : LastPushed lastOpcode st)
    (hexec : st.vfExec.allTrue = true)
    (h : readMultiSigCounts flags st.stack nOpCount = .ok counts) :
    counts.1 ≤ if lastOpcode ≥ OP_1 ∧ lastOpcode ≤ OP_16 then (decodeOpN lastOpcode).toNat
      else MAX_PUBKEYS_PER_MULTISIG.toNat := by
  obtain ⟨-, h⟩ := rejectWhen_bind_eq_ok h
  obtain ⟨vch, hvch, h⟩ := bind_eq_ok h
  obtain ⟨n, hn, h⟩ := bind_eq_ok h
  obtain ⟨hkeys, h⟩ := rejectWhen_bind_eq_ok h
  obtain ⟨-, h⟩ := rejectWhen_bind_eq_ok h
  obtain ⟨-, h⟩ := rejectWhen_bind_eq_ok h
  obtain ⟨_, _, h⟩ := bind_eq_ok h
  obtain ⟨_, _, h⟩ := bind_eq_ok h
  obtain ⟨-, h⟩ := rejectWhen_bind_eq_ok h
  obtain ⟨-, h⟩ := rejectWhen_bind_eq_ok h
  cases h
  show (getint n).toNat ≤ _
  split
  · rename_i hN
    have htop := hlast hN hexec
    rw [List.head?_eq_getElem?, stacktop_eq_ok hvch] at htop
    cases htop
    rw [getint_scriptNum hn]
    rw [scriptNum, scriptNumUpTo, scriptNum_decodeOpN hN] at hn
    cases hn
    exact Nat.le_refl _
  · omega

theorem asksECDSA_evalCheckMultiSig {n : Nat} (verify : Bool)
    (hkeys : ∀ counts, readMultiSigCounts flags st.stack st.nOpCount = .ok counts → counts.1 ≤ n) :
    AsksECDSA (ecdsaOps sigversion n)
      (evalCheckMultiSig crypto flags sigversion verify st) fun _ => True := by
  refine .lift_bind fun _ hversion => .lift_bind fun counts hcounts => .skip fun _ => ?_
  rw [ecdsaOps, if_neg (rejectWhen_eq_ok hversion)]
  exact ((asksECDSA_matchSignatures _ _ _ _ _ _).mono (hkeys counts hcounts) fun _ h => h).bind
    (m := 0) fun _ _ => .skip fun _ => .ret trivial

/-! ## Runs -/

theorem operationOf_checkSig {verify : Bool} (h : operationOf opcode = .checkSig verify) :
    opcode = OP_CHECKSIG ∨ opcode = OP_CHECKSIGVERIFY := by
  have hall : ∀ opcode : UInt8, ∀ verify : Bool, operationOf opcode = .checkSig verify →
      opcode = OP_CHECKSIG ∨ opcode = OP_CHECKSIGVERIFY := by
    refine @(forall_byte ?_)
    decide +kernel
  exact hall opcode verify h

theorem operationOf_checkMultiSig {verify : Bool} (h : operationOf opcode = .checkMultiSig verify) :
    opcode = OP_CHECKMULTISIG ∨ opcode = OP_CHECKMULTISIGVERIFY := by
  have hall : ∀ opcode : UInt8, ∀ verify : Bool, operationOf opcode = .checkMultiSig verify →
      opcode = OP_CHECKMULTISIG ∨ opcode = OP_CHECKMULTISIGVERIFY := by
    refine @(forall_byte ?_)
    decide +kernel
  exact hall opcode verify h

theorem asksECDSA_execInstruction
    (hlast : LastPushed lastOpcode st) (opcode : UInt8) (vchPushValue : Bytes) :
    AsksECDSA (ecdsaOps sigversion (sigOpsOf opcode lastOpcode))
      (execInstruction crypto flags sigversion opcode vchPushValue st) fun _ => True := by
  rw [execInstruction]
  split
  · exact .skip fun _ => .ret trivial
  split
  · rename_i hexec
    have hzero {p : Checked EvalState} {R : EvalState → Prop} (hp : AsksECDSA 0 p R) (n : Nat) :
        AsksECDSA n p R := hp.mono (Nat.zero_le n) fun _ h => h
    have hplain (op : Operation) :
        AsksECDSA 0 (liftM (evalPlain crypto flags sigversion st.vfExec.allTrue st op) :
          Checked EvalState) fun _ => True := .lift fun _ _ => trivial
    cases hop : operationOf opcode with
    | checkLockTimeVerify => exact hzero (asksECDSA_evalCheckLockTimeVerify st) _
    | checkSequenceVerify => exact hzero (asksECDSA_evalCheckSequenceVerify st) _
    | checkSigAdd => exact hzero (asksECDSA_evalCheckSigAdd st) _
    | checkSig verify =>
      rw [sigOpsOf, if_pos (operationOf_checkSig hop)]
      exact asksECDSA_evalCheckSig verify st
    | checkMultiSig verify =>
      have hopcode := operationOf_checkMultiSig hop
      have hallTrue : st.vfExec.allTrue = true := by
        refine hexec.resolve_right fun h => ?_
        rcases hopcode with rfl | rfl <;> exact absurd h.2 (by decide)
      have hnot : ¬ (opcode = OP_CHECKSIG ∨ opcode = OP_CHECKSIGVERIFY) := by
        rcases hopcode with rfl | rfl <;> decide
      rw [sigOpsOf, if_neg hnot, if_pos hopcode]
      exact asksECDSA_evalCheckMultiSig verify fun counts hcounts =>
        readMultiSigCounts_keys_le hlast hallTrue hcounts
    | _ => exact hzero (hplain _) _
  · exact .ret trivial

theorem execInstruction_lastPushed (opcode : UInt8) (vchPushValue : Bytes) (st : EvalState) :
    (execInstruction crypto flags sigversion opcode vchPushValue st).Returns
      (LastPushed opcode) := by
  by_cases hN : opcode ≥ OP_1 ∧ opcode ≤ OP_16
  · have hpush : ¬ opcode ≤ OP_PUSHDATA4 := fun h => absurd (UInt8.le_trans hN.1 h) (by decide)
    rw [execInstruction, if_neg fun h => hpush h.2, operationOf_decodeOpN hN]
    split
    · refine .lift fun st' h _ _ => ?_
      rw [evalPlain, onStack] at h
      cases h
      rfl
    · rename_i hskip
      exact .ret fun _ hallTrue => absurd (.inl hallTrue) hskip
  · exact (Returns.trivial _).mono fun _ _ _ h => absurd h hN

theorem asksECDSA_evalStep {vchPushValue pc : Bytes} (hlast : LastPushed lastOpcode st)
    (hop : getOp st.pc = (some (opcode, vchPushValue), pc)) :
    AsksECDSA (ecdsaOps sigversion (sigOpsOf opcode lastOpcode))
      (evalStep crypto flags sigversion st) fun st' => LastPushed opcode st' ∧ st'.pc = pc := by
  have hasked : AsksECDSA (ecdsaOps sigversion (sigOpsOf opcode lastOpcode))
      (evalStep crypto flags sigversion st) (LastPushed opcode) := by
    simp only [evalStep, hop]
    refine .lift_bind fun nOpCount _ => ?_
    have hread : LastPushed lastOpcode { st with nOpCount, pc } := hlast
    refine ((asksECDSA_execInstruction hread opcode vchPushValue).and_returns
      (execInstruction_lastPushed _ _ _)).bind (m := 0) fun st' hst' => ?_
    exact .skip fun _ => .ret hst'.2
  exact (hasked.and_returns (evalStep_frame hop)).mono (Nat.le_refl _) fun _ h => ⟨h.1, h.2.1⟩

theorem asksECDSA_evalLoop (rounds : Nat) (hlast : LastPushed lastOpcode st) :
    AsksECDSA (ecdsaOps sigversion (sigOpsFrom rounds st.pc lastOpcode))
      (evalLoop crypto flags sigversion rounds st) fun _ => True := by
  induction rounds generalizing st lastOpcode with
  | zero => exact .ret trivial
  | succ rounds ih =>
    rw [evalLoop]
    split
    · exact .ret trivial
    · rcases hop : getOp st.pc with ⟨_ | ⟨opcode, vchPushValue⟩, pc⟩
      · rw [evalStep_of_none hop]
        exact .fail _
      · simp only [sigOpsFrom, getScriptOp_of_getOp hop, ecdsaOps_add]
        refine (asksECDSA_evalStep hlast hop).bind fun st' hst' => ?_
        rw [← hst'.2]
        exact ih hst'.1

theorem asksECDSA_evalScript (stack : List Bytes) (script : Bytes)
    (execdata : ScriptExecutionData) :
    AsksECDSA (ecdsaOps sigversion (getSigOpCount script true).toNat)
      (evalScript crypto flags sigversion stack script execdata) fun _ => True := by
  refine .lift_bind fun _ hsupported => .lift_bind fun _ hsize => ?_
  have hinit : LastPushed OP_INVALIDOPCODE (initialState stack script execdata) :=
    fun h => absurd h.2 (by decide)
  have hcost : ecdsaOps sigversion (getSigOpCount script true).toNat =
      ecdsaOps sigversion (sigOpsFrom script.length script OP_INVALIDOPCODE) := by
    rw [ecdsaOps, ecdsaOps]
    split
    · rfl
    · rename_i hversion
      have hlimit := rejectWhen_eq_ok hsize
      rw [toNat_getSigOpCount]
      have hbase : sigversion = .base ∨ sigversion = .witnessV0 :=
        (or_assoc.mpr (assertThat_eq_ok hsupported)).resolve_right hversion
      exact Nat.le_of_not_lt fun h => hlimit ⟨hbase, h⟩
  rw [hcost]
  exact (asksECDSA_evalLoop _ hinit).bind (m := 0) fun _ _ => .skip fun _ => .ret trivial

/-! ## Schnorr checks of a tapscript -/

end

def CheckerCall.isTapscriptSchnorr : CheckerCall → Bool
  | .checkSchnorrSignature _ _ sigversion _ => sigversion == .tapscript
  | _ => false

/-- The checker does not add to the validation weight that is left. -/
def WeightNotRaised : (q : CheckerCall) → q.Answer → Prop
  | .checkSchnorrSignature _ _ _ execdata, answer =>
    ∀ left ∈ answer.execdata.validationWeightLeft,
      ∃ before ∈ execdata.validationWeightLeft, left ≤ before
  | _, _ => True

/-- What is left of the validation weight pays for at most `n` checks. -/
def PaysFor (n : Int) (execdata : ScriptExecutionData) : Prop :=
  ∀ left ∈ execdata.validationWeightLeft, left < VALIDATION_WEIGHT_PER_SIGOP_PASSED * (n + 1)

variable {execdata : ScriptExecutionData}

theorem PaysFor.mono {n m : Int} (h : PaysFor n execdata) (hnm : n ≤ m) : PaysFor m execdata := by
  intro left hleft
  have hlt := h left hleft
  rw [VALIDATION_WEIGHT_PER_SIGOP_PASSED] at hlt ⊢
  omega

theorem chargeValidationWeight_eq_ok {success : Bool} {execdata' : ScriptExecutionData}
    (h : chargeValidationWeight success execdata = .ok execdata') :
    success = false ∧ execdata' = execdata ∨
      success = true ∧ ∃ left, execdata.validationWeightLeft = some left ∧
        VALIDATION_WEIGHT_PER_SIGOP_PASSED ≤ left ∧ execdata' = { execdata with
          validationWeightLeft := some (left - VALIDATION_WEIGHT_PER_SIGOP_PASSED) } := by
  cases success with
  | false =>
    cases h
    exact .inl ⟨rfl, rfl⟩
  | true =>
    rw [chargeValidationWeight, if_pos rfl] at h
    split at h
    · cases h
    · rename_i left hleft
      obtain ⟨hpaid, h⟩ := rejectWhen_bind_eq_ok h
      cases h
      exact .inr ⟨rfl, left, hleft, by omega, rfl⟩

variable {flags : ScriptVerifyFlags}

theorem follows_evalChecksigTapscript_weight {sig pubkey : Bytes} {g k : Nat} (hk : k ≤ g)
    (hpays : PaysFor (g - k) execdata) :
    Follows (budget CheckerCall.isTapscriptSchnorr WeightNotRaised) (fun _ => True)
      (fun g result => k ≤ g ∧ PaysFor (g - k) result.2) g
      (evalChecksigTapscript flags .tapscript sig pubkey execdata) := by
  refine .lift_bind (fun _ _ => trivial) fun _ _ => ?_
  refine .lift_bind (fun _ _ => trivial) fun execdata' hcharge => ?_
  refine .lift_bind (fun _ _ => trivial) fun _ _ => ?_
  rcases chargeValidationWeight_eq_ok hcharge with ⟨hsig, rfl⟩ | ⟨hsig, left, hleft, hpaid, rfl⟩
  · simp only [hsig, Bool.false_eq_true, if_false]
    split
    · exact .ret ⟨hk, hpays⟩
    · exact .lift_bind (fun _ _ => trivial) fun _ _ => .ret ⟨hk, hpays⟩
  · have hlt := hpays left hleft
    rw [VALIDATION_WEIGHT_PER_SIGOP_PASSED] at hlt hpaid
    -- the check paid for takes one off the account
    have hcharged : PaysFor ((g - 1 : Nat) - k) { execdata with
        validationWeightLeft := some (left - VALIDATION_WEIGHT_PER_SIGOP_PASSED) } := by
      rintro _ ⟨⟩
      rw [VALIDATION_WEIGHT_PER_SIGOP_PASSED]
      omega
    simp only [hsig, if_true]
    split
    · refine .ask (fun _ => by omega) fun answer hanswer => ?_
      refine .lift_bind (fun _ _ => trivial) fun _ _ => .ret ⟨?_, ?_⟩
      · show k ≤ g - 1
        omega
      · intro left' hleft'
        obtain ⟨before, hbefore, hle⟩ := hanswer left' hleft'
        exact lt_of_le_of_lt hle (hcharged before hbefore)
    · refine .lift_bind (fun _ _ => trivial) fun _ _ => .ret ⟨hk, hcharged.mono ?_⟩
      omega

theorem keepsExecdata_weight (flags : ScriptVerifyFlags) (sigversion : SigVersion) (k : Nat) :
    KeepsExecdata (budget CheckerCall.isTapscriptSchnorr WeightNotRaised) flags sigversion
      fun g execdata => k ≤ g ∧ PaysFor (g - k) execdata where
  lockTime _ _ := ⟨nofun, fun _ => rfl⟩
  sequence _ _ := ⟨nofun, fun _ => rfl⟩
  codeseparator _ h := h
  ecdsa _ _ _ _ _ _ h := ⟨nofun, fun _ => h⟩
  schnorr hversion {_ _} sig pubkey h := by
    subst hversion
    exact follows_evalChecksigTapscript_weight h.1 h.2

theorem spends_evalScript_weight {crypto : ScriptCrypto} {sigversion : SigVersion} {n : Nat}
    (hpays : PaysFor n execdata) (stack : List Bytes) (script : Bytes) :
    Spends CheckerCall.isTapscriptSchnorr WeightNotRaised n
      (evalScript crypto flags sigversion stack script execdata) fun _ => True := by
  intro g hg
  have hstart : g - n ≤ g ∧ PaysFor (g - (g - n : Nat)) execdata :=
    ⟨Nat.sub_le _ _, hpays.mono (by omega)⟩
  refine ((keepsExecdata_weight flags sigversion (g - n)).evalScript hstart stack script).mono ?_
  rintro left _ ⟨hleft, -⟩
  exact ⟨by omega, trivial⟩

end HcsCoin
