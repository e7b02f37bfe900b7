import HcsCoin.Script.Verify

/-!
# Flags only tighten validity

Two runs of the interpreter under flag sets `F' ⊆ F` are compared operation by
operation: the run under `F` does what the run under `F'` does, or fails.  It may
ask the checker about lock times the other run does not ask about, and once the
scripts have been run it may go on to a redeem script or a witness.
-/

namespace HcsCoin

open Foundation

def CheckerCall.ReadOnly : CheckerCall → Prop
  | .checkLockTime _ | .checkSequence _ => True
  | _ => False

theorem SignatureChecker.handler_readOnly {σ : Type} (checker : SignatureChecker σ) (q : CheckerCall)
    (s : σ) (hq : q.ReadOnly) : (checker.handler q s).2 = s := by
  cases q with
  | checkECDSASignature => exact hq.elim
  | checkSchnorrSignature => exact hq.elim
  | checkLockTime => rfl
  | checkSequence => rfl

abbrev TightensCheck {α : Type} : Checked α → Checked α → Prop :=
  Interaction.Tightens CheckerCall.ReadOnly

open Interaction

/-! ## Checks -/

variable {c c' : Prop}

theorem stricter_rejectWhen [Decidable c] [Decidable c'] {e e' : ScriptError} (h : c' → c) :
    Stricter (rejectWhen c e) (rejectWhen c' e') := by
  intro x hx
  rw [rejectWhen] at hx ⊢
  split at hx
  · cases hx
  · rename_i hc
    rw [if_neg (mt h hc)]

theorem stricter_onStack {f f' : List Bytes → Except EvalFailure (List Bytes)} {st : EvalState}
    (hf : ∀ stack, Stricter (f stack) (f' stack)) : Stricter (onStack f st) (onStack f' st) :=
  .bind (hf _) fun _ => .refl _

section
variable {crypto : ScriptCrypto} {F F' : ScriptVerifyFlags} {sigversion : SigVersion}
  (hsub : F' ⊆ F)
include hsub

theorem stricter_scriptNumUpTo (nMaxNumSize : Nat) (vch : Bytes) :
    Stricter (scriptNumUpTo nMaxNumSize vch (fRequireMinimal F))
      (scriptNumUpTo nMaxNumSize vch (fRequireMinimal F')) := by
  by_cases hF' : .minimalData ∈ F'
  · simp only [fRequireMinimal, hF', hsub hF']
    exact .refl _
  · by_cases hF : .minimalData ∈ F
    · intro n hn
      simp only [fRequireMinimal, hF, hF', decide_true, decide_false, scriptNumUpTo] at hn ⊢
      split at hn
      · rename_i m hm
        rw [CScriptNum.ofVch_of_minimal hm]
        exact hn
      · cases hn
    · simp only [fRequireMinimal, hF, hF']
      exact .refl _

theorem stricter_scriptNum (vch : Bytes) :
    Stricter (scriptNum vch (fRequireMinimal F)) (scriptNum vch (fRequireMinimal F')) :=
  stricter_scriptNumUpTo hsub _ vch

theorem stricter_evalPickRoll (roll : Bool) (stack : List Bytes) :
    Stricter (evalPickRoll (fRequireMinimal F) roll stack)
      (evalPickRoll (fRequireMinimal F') roll stack) :=
  .same fun _ => .same fun vch => .bind (stricter_scriptNum hsub vch) fun _ => .refl _

theorem stricter_evalUnary (op : UnaryOp) (stack : List Bytes) :
    Stricter (evalUnary (fRequireMinimal F) op stack)
      (evalUnary (fRequireMinimal F') op stack) :=
  .same fun _ => .same fun vch => .bind (stricter_scriptNum hsub vch) fun _ => .refl _

theorem stricter_evalBinary (op : BinaryOp) (stack : List Bytes) :
    Stricter (evalBinary (fRequireMinimal F) op stack)
      (evalBinary (fRequireMinimal F') op stack) :=
  .same fun _ => .same fun vch1 =>
    .bind (stricter_scriptNum hsub vch1) fun _ => .same fun vch2 =>
      .bind (stricter_scriptNum hsub vch2) fun _ => .refl _

variable (stack : List Bytes)

theorem stricter_evalWithin :
    Stricter (evalWithin (fRequireMinimal F) stack) (evalWithin (fRequireMinimal F') stack) :=
  .same fun _ => .same fun vch1 =>
    .bind (stricter_scriptNum hsub vch1) fun _ => .same fun vch2 =>
      .bind (stricter_scriptNum hsub vch2) fun _ => .same fun vch3 =>
        .bind (stricter_scriptNum hsub vch3) fun _ => .refl _

variable (fExec : Bool)

theorem stricter_evalCondition (notIf : Bool) (stack : List Bytes) :
    Stricter (evalCondition F sigversion fExec notIf stack)
      (evalCondition F' sigversion fExec notIf stack) := by
  cases fExec with
  | false => exact .refl _
  | true =>
    exact .same fun _ => .same fun _ => .same fun _ =>
      .bind (stricter_rejectWhen fun h => ⟨h.1, hsub h.2.1, h.2.2⟩) fun _ => .refl _

variable (vchSig : Bytes)

theorem stricter_checkSignatureEncoding :
    Stricter (checkSignatureEncoding crypto F vchSig)
      (checkSignatureEncoding crypto F' vchSig) := by
  rw [checkSignatureEncoding, checkSignatureEncoding]
  split
  · exact .refl _
  · split
    · exact .error _ _
    · rename_i hder
      have hder' : ¬ ((.derSig ∈ F' ∨ .lowS ∈ F' ∨ .strictEnc ∈ F') ∧
          isValidSignatureEncoding vchSig = false) := fun h =>
        hder ⟨h.1.imp (@hsub _) (Or.imp (@hsub _) (@hsub _)), h.2⟩
      rw [if_neg hder']
      refine .bind ?_ fun _ => stricter_rejectWhen fun h => ⟨hsub h.1, h.2⟩
      split
      · rename_i hlow
        split
        · exact .refl _
        · intro u _
          rfl
      · rename_i hlow
        rw [if_neg fun h => hlow (hsub h)]
        exact .refl _

theorem stricter_checkPubKeyEncoding (vchPubKey : Bytes) :
    Stricter (checkPubKeyEncoding F sigversion vchPubKey)
      (checkPubKeyEncoding F' sigversion vchPubKey) :=
  .bind (stricter_rejectWhen fun h => ⟨hsub h.1, h.2⟩) fun _ =>
    stricter_rejectWhen fun h => ⟨hsub h.1, h.2⟩

variable (scriptCode : Bytes)

theorem stricter_dropSignature :
    Stricter (dropSignature F sigversion vchSig scriptCode)
      (dropSignature F' sigversion vchSig scriptCode) := by
  rw [dropSignature, dropSignature]
  split
  · exact .bind (stricter_rejectWhen fun h => ⟨h.1, hsub h.2⟩) fun _ => .refl _
  · exact .refl _

theorem stricter_dropSignatures (isig nSigsCount : Nat) (scriptCode : Bytes) :
    Stricter (dropSignatures F sigversion stack isig nSigsCount scriptCode)
      (dropSignatures F' sigversion stack isig nSigsCount scriptCode) := by
  induction nSigsCount generalizing isig scriptCode with
  | zero => exact .refl _
  | succ nSigsCount ih =>
    exact .same fun _ => .bind (stricter_dropSignature hsub _ _) fun _ => ih _ _

variable (nOpCount : Nat)

theorem stricter_readMultiSigCounts :
    Stricter (readMultiSigCounts F stack nOpCount) (readMultiSigCounts F' stack nOpCount) :=
  .same fun _ => .same fun _ => .bind (stricter_scriptNum hsub _) fun _ =>
    .same fun _ => .same fun _ => .same fun _ =>
      .same fun _ => .bind (stricter_scriptNum hsub _) fun _ => .refl _

variable (fSuccess : Bool)

theorem stricter_checkNullFail (ikey2 : Nat) (stack : List Bytes) :
    Stricter (checkNullFail F fSuccess ikey2 stack) (checkNullFail F' fSuccess ikey2 stack) := by
  rw [checkNullFail, checkNullFail]
  split
  · split
    · exact .refl _
    · exact .unit _
  · rename_i hF
    rw [if_neg fun h => hF ⟨h.1, hsub h.2.1, h.2.2⟩]
    exact .refl _

theorem stricter_cleanUpMultiSig (i ikey2 : Nat) (stack : List Bytes) :
    Stricter (cleanUpMultiSig F fSuccess i ikey2 stack)
      (cleanUpMultiSig F' fSuccess i ikey2 stack) := by
  induction i generalizing ikey2 stack with
  | zero => exact .refl _
  | succ i ih => exact .bind (stricter_checkNullFail hsub _ _ _) fun _ => .same fun _ => ih _ _

variable (verify : Bool)

theorem stricter_finishMultiSig (nKeysCount nSigsCount : Nat) (stack : List Bytes) :
    Stricter (finishMultiSig F verify fSuccess nKeysCount nSigsCount stack)
      (finishMultiSig F' verify fSuccess nKeysCount nSigsCount stack) :=
  .bind (stricter_cleanUpMultiSig hsub _ _ _ _) fun _ => .same fun _ =>
    .same fun _ => .bind (stricter_rejectWhen fun h => ⟨hsub h.1, h.2⟩) fun _ => .refl _

variable (opcode : UInt8) (vchPushValue : Bytes)

theorem stricter_checkInstruction :
    Stricter (checkInstruction F sigversion opcode vchPushValue nOpCount)
      (checkInstruction F' sigversion opcode vchPushValue nOpCount) :=
  .same fun _ => .same fun _ => .same fun _ =>
    .bind (stricter_rejectWhen fun h => ⟨h.1, h.2.1, hsub h.2.2⟩) fun _ => .refl _

theorem stricter_evalPlain (st : EvalState) (op : Operation) :
    Stricter (evalPlain crypto F sigversion fExec st op)
      (evalPlain crypto F' sigversion fExec st op) := by
  cases op with
  | upgradableNop => exact .bind (stricter_rejectWhen fun h => hsub h) fun _ => .refl _
  | ifNotIf notIf => exact .bind (stricter_evalCondition hsub _ _ _) fun _ => .refl _
  | pickRoll roll => exact stricter_onStack (stricter_evalPickRoll hsub roll)
  | unary op => exact stricter_onStack (stricter_evalUnary hsub op)
  | binary op => exact stricter_onStack (stricter_evalBinary hsub op)
  | within => exact stricter_onStack (stricter_evalWithin hsub)
  | _ => exact .refl _

/-! ## Operations that ask the checker -/

theorem tightens_evalChecksigPreTapscript (vchPubKey pbegincodehash : Bytes) :
    TightensCheck (evalChecksigPreTapscript crypto F sigversion vchSig vchPubKey pbegincodehash)
      (evalChecksigPreTapscript crypto F' sigversion vchSig vchPubKey pbegincodehash) :=
  .same fun _ =>
    .bind (.lift (stricter_dropSignature hsub _ _)) fun _ =>
    .bind (.lift (stricter_checkSignatureEncoding hsub _)) fun _ =>
    .bind (.lift (stricter_checkPubKeyEncoding hsub _)) fun _ =>
    .same fun _ =>
    .bind (.lift (stricter_rejectWhen fun h => ⟨h.1, hsub h.2.1, h.2.2⟩)) fun _ => .refl _

theorem tightens_evalChecksigTapscript (sig pubkey : Bytes) (execdata : ScriptExecutionData) :
    TightensCheck (evalChecksigTapscript F sigversion sig pubkey execdata)
      (evalChecksigTapscript F' sigversion sig pubkey execdata) := by
  refine .same fun _ => .same fun _ => .same fun _ => ?_
  split
  · exact .refl _
  · exact .bind (.lift (stricter_rejectWhen fun h => hsub h)) fun _ => .refl _

theorem tightens_evalChecksig (sig pubkey pbegincodehash : Bytes) (execdata : ScriptExecutionData) :
    TightensCheck (evalChecksig crypto F sigversion sig pubkey pbegincodehash execdata)
      (evalChecksig crypto F' sigversion sig pubkey pbegincodehash execdata) := by
  cases sigversion with
  | base | witnessV0 => exact .bind (tightens_evalChecksigPreTapscript hsub _ _ _) fun _ => .refl _
  | tapscript => exact tightens_evalChecksigTapscript hsub _ _ _
  | taproot => exact .refl _

theorem tightens_matchSignatures (nKeysCount isig ikey nSigsCount : Nat) : TightensCheck
      (matchSignatures crypto F sigversion stack scriptCode nKeysCount isig ikey nSigsCount)
      (matchSignatures crypto F' sigversion stack scriptCode nKeysCount isig ikey nSigsCount) := by
  induction nKeysCount generalizing isig ikey nSigsCount with
  | zero =>
    cases nSigsCount with
    | zero => exact .refl _
    | succ nSigsCount => exact .refl _
  | succ nKeysCount ih =>
    cases nSigsCount with
    | zero => exact .refl _
    | succ nSigsCount =>
      refine .same fun _ => .same fun _ =>
        .bind (.lift (stricter_checkSignatureEncoding hsub _)) fun _ =>
        .bind (.lift (stricter_checkPubKeyEncoding hsub _)) fun _ =>
        .same fun fOk => ?_
      dsimp only
      by_cases hleft : (if fOk then nSigsCount else nSigsCount + 1) > nKeysCount
      · rw [if_pos hleft, if_pos hleft]
        exact .refl _
      · rw [if_neg hleft, if_neg hleft]
        exact ih _ _ _

theorem tightens_evalCheckMultiSig (st : EvalState) :
    TightensCheck (evalCheckMultiSig crypto F sigversion verify st)
      (evalCheckMultiSig crypto F' sigversion verify st) :=
  .same fun _ =>
    .bind (.lift (stricter_readMultiSigCounts hsub _ _)) fun _ =>
    .bind (.lift (stricter_dropSignatures hsub _ _ _ _)) fun _ =>
    .bind (tightens_matchSignatures hsub _ _ _ _ _ _) fun _ =>
    .bind (.lift (stricter_finishMultiSig hsub _ _ _ _ _)) fun _ => .refl _

theorem tightens_evalCheckSig (st : EvalState) :
    TightensCheck (evalCheckSig crypto F sigversion verify st)
      (evalCheckSig crypto F' sigversion verify st) :=
  .same fun _ => .same fun _ => .same fun _ =>
    .bind (tightens_evalChecksig hsub _ _ _ _) fun _ => .refl _

variable (st : EvalState)

theorem tightens_evalCheckSigAdd :
    TightensCheck (evalCheckSigAdd crypto F sigversion st)
      (evalCheckSigAdd crypto F' sigversion st) :=
  .same fun _ => .same fun _ => .same fun _ =>
    .same fun _ => .bind (.lift (stricter_scriptNum hsub _)) fun _ =>
    .same fun _ => .bind (tightens_evalChecksig hsub _ _ _ _) fun _ => .refl _

/-- Without its flag the operation does nothing; with it, it asks about the lock time and
leaves the state as it is. -/
theorem tightens_evalCheckLockTimeVerify :
    TightensCheck (evalCheckLockTimeVerify F st) (evalCheckLockTimeVerify F' st) := by
  by_cases hF' : .checkLockTimeVerify ∈ F'
  · rw [evalCheckLockTimeVerify, if_pos (hsub hF'), evalCheckLockTimeVerify, if_pos hF']
    exact .same fun _ => .same fun _ =>
      .bind (.lift (stricter_scriptNumUpTo hsub _ _)) fun _ => .refl _
  · rw [evalCheckLockTimeVerify, evalCheckLockTimeVerify, if_neg hF']
    split
    · exact .lift_bind_left fun _ => .lift_bind_left fun _ => .lift_bind_left fun _ =>
        .lift_bind_left fun _ => .call_bind_left trivial fun _ => .lift_bind_left fun _ => .ret st
    · exact .ret st

theorem tightens_evalCheckSequenceVerify :
    TightensCheck (evalCheckSequenceVerify F st) (evalCheckSequenceVerify F' st) := by
  by_cases hF' : .checkSequenceVerify ∈ F'
  · rw [evalCheckSequenceVerify, if_pos (hsub hF'), evalCheckSequenceVerify, if_pos hF']
    exact .same fun _ => .same fun _ =>
      .bind (.lift (stricter_scriptNumUpTo hsub _ _)) fun _ => .refl _
  · rw [evalCheckSequenceVerify, evalCheckSequenceVerify, if_neg hF']
    split
    · refine .lift_bind_left fun _ => .lift_bind_left fun _ => .lift_bind_left fun _ =>
        .lift_bind_left fun _ => ?_
      split
      · exact .ret st
      · exact .call_bind_left trivial fun _ => .lift_bind_left fun _ => .ret st
    · exact .ret st

theorem tightens_evalOperation (st : EvalState) (op : Operation) :
    TightensCheck (evalOperation crypto F sigversion fExec st op)
      (evalOperation crypto F' sigversion fExec st op) := by
  cases op with
  | checkLockTimeVerify => exact tightens_evalCheckLockTimeVerify hsub st
  | checkSequenceVerify => exact tightens_evalCheckSequenceVerify hsub st
  | checkSig verify => exact tightens_evalCheckSig hsub verify st
  | checkSigAdd => exact tightens_evalCheckSigAdd hsub st
  | checkMultiSig verify => exact tightens_evalCheckMultiSig hsub verify st
  | _ => exact .lift (stricter_evalPlain hsub _ _ _)

/-! ## Whole scripts -/

theorem tightens_execInstruction (st : EvalState) :
    TightensCheck (execInstruction crypto F sigversion opcode vchPushValue st)
      (execInstruction crypto F' sigversion opcode vchPushValue st) := by
  rw [execInstruction, execInstruction]
  split
  · refine .bind (.lift (stricter_rejectWhen fun h => ⟨?_, h.2⟩)) fun _ => .refl _
    simpa [fRequireMinimal] using hsub (of_decide_eq_true h.1)
  · split
    · exact tightens_evalOperation hsub _ _ _
    · exact .refl _

theorem tightens_evalStep :
    TightensCheck (evalStep crypto F sigversion st) (evalStep crypto F' sigversion st) := by
  rw [evalStep, evalStep]
  split
  · exact .refl _
  · exact .bind (.lift (stricter_checkInstruction hsub _ _ _)) fun _ =>
      .bind (tightens_execInstruction hsub _ _ _) fun _ => .refl _

theorem tightens_evalLoop (rounds : Nat) (st : EvalState) :
    TightensCheck (evalLoop crypto F sigversion rounds st)
      (evalLoop crypto F' sigversion rounds st) := by
  induction rounds generalizing st with
  | zero => exact .refl _
  | succ rounds ih =>
    rw [evalLoop, evalLoop]
    split
    · exact .refl _
    · exact .bind (tightens_evalStep hsub st) fun st => ih st

variable (script : Bytes)

theorem tightens_evalScript (execdata : ScriptExecutionData) :
    TightensCheck (evalScript crypto F sigversion stack script execdata)
      (evalScript crypto F' sigversion stack script execdata) :=
  .same fun _ => .same fun _ => .bind (tightens_evalLoop hsub _ _) fun _ => .refl _

theorem tightens_evalBaseScript :
    TightensCheck (evalBaseScript crypto F stack script) (evalBaseScript crypto F' stack script) :=
  .bind (tightens_evalScript hsub _ _ _) fun _ => .refl _

/-! ## Witness programs -/

variable (execScript : Bytes) (execdata : ScriptExecutionData)

theorem tightens_runWitnessScript :
    TightensCheck (runWitnessScript crypto F sigversion stack execScript execdata)
      (runWitnessScript crypto F' sigversion stack execScript execdata) :=
  .same fun _ => .bind (tightens_evalScript hsub _ _ _) fun _ => .refl _

theorem tightens_executeWitnessScript :
    TightensCheck (executeWitnessScript crypto F sigversion stack execScript execdata)
      (executeWitnessScript crypto F' sigversion stack execScript execdata) := by
  rw [executeWitnessScript, executeWitnessScript]
  split
  · refine .same fun success => ?_
    cases success with
    | true => exact .lift (stricter_rejectWhen fun h => hsub h)
    | false => exact .same fun _ => tightens_runWitnessScript hsub _ _ _
  · exact tightens_runWitnessScript hsub _ _ _

variable (witness : List Bytes)

theorem tightens_verifyTaprootScriptPath (control script : Bytes) (stack : List Bytes)
    (program : Bytes) (execdata : ScriptExecutionData) :
    TightensCheck (verifyTaprootScriptPath crypto F witness control script stack program execdata)
      (verifyTaprootScriptPath crypto F' witness control script stack program execdata) := by
  refine .same fun _ => .same fun _ => ?_
  split
  · exact tightens_executeWitnessScript hsub _ _ _
  · exact .lift (stricter_rejectWhen fun h => hsub h)

variable (program : Bytes)

theorem tightens_verifyTaproot :
    TightensCheck (verifyTaproot crypto F witness program)
      (verifyTaproot crypto F' witness program) := by
  refine .same fun _ => ?_
  dsimp only
  split
  · exact .refl _
  · exact .refl _
  · exact tightens_verifyTaprootScriptPath hsub _ _ _ _ _ _

theorem tightens_verifyWitnessV0 :
    TightensCheck (verifyWitnessV0 crypto F witness program)
      (verifyWitnessV0 crypto F' witness program) := by
  rw [verifyWitnessV0, verifyWitnessV0]
  split
  · split
    · exact .refl _
    · exact .same fun _ => tightens_executeWitnessScript hsub _ _ _
  · split
    · exact .same fun _ => tightens_executeWitnessScript hsub _ _ _
    · exact .refl _

theorem tightens_verifyWitnessProgram_p2sh (witversion : Nat) (program : Bytes) :
    TightensCheck (verifyWitnessProgram crypto F witness witversion program true)
      (verifyWitnessProgram crypto F' witness witversion program true) := by
  simp only [verifyWitnessProgram, Bool.true_eq_false, and_false, false_and, if_false]
  split
  · exact tightens_verifyWitnessV0 hsub _ _
  · exact .lift (stricter_rejectWhen fun h => hsub h)

theorem succeeds_verifyWitnessProgram {σ : Type} (checker : SignatureChecker σ) {s : σ}
    {witness : List Bytes} {witversion : Nat} {program : Bytes} {isP2sh : Bool}
    (h : Succeeds checker.handler (verifyWitnessProgram crypto F witness witversion program isP2sh)
      s) :
    Succeeds checker.handler (verifyWitnessProgram crypto F' witness witversion program isP2sh)
      s := by
  have tightens {p p' : Checked Unit} (hp : TightensCheck p p')
      (h : Succeeds checker.handler p s) : Succeeds checker.handler p' s :=
    hp.succeeds checker.handler_readOnly h
  rw [verifyWitnessProgram] at h ⊢
  split
  · rename_i hv0
    rw [if_pos hv0] at h
    exact tightens (tightens_verifyWitnessV0 hsub _ _) h
  · rename_i hv0
    rw [if_neg hv0] at h
    split
    · rename_i hv1
      rw [if_pos hv1] at h
      split
      · rename_i hF'
        rw [if_pos (hsub hF')] at h
        exact tightens (tightens_verifyTaproot hsub _ _) h
      · exact .ret _ _ _
    · rename_i hv1
      rw [if_neg hv1] at h
      split
      · exact .ret _ _ _
      · rename_i hanchor
        rw [if_neg hanchor] at h
        exact tightens (.lift (stricter_rejectWhen fun h => hsub h)) h

theorem tightens_verifyP2SHWitness (hwitness : .witness ∈ F') (scriptSig pubKey2 : Bytes)
    (witness stack : List Bytes) (hadWitness : Bool) :
    TightensCheck (verifyP2SHWitness crypto F scriptSig pubKey2 witness stack hadWitness)
      (verifyP2SHWitness crypto F' scriptSig pubKey2 witness stack hadWitness) := by
  rw [verifyP2SHWitness, if_pos (hsub hwitness), verifyP2SHWitness, if_pos hwitness]
  split
  · exact .refl _
  · exact .same fun _ => .bind (tightens_verifyWitnessProgram_p2sh hsub _ _ _) fun _ => .refl _

end

/-! ## The last checks -/

structure ScriptVerifyFlags.Consistent (flags : ScriptVerifyFlags) : Prop where
  witness_p2sh : .witness ∈ flags → .p2sh ∈ flags
  cleanStack_p2sh : .cleanStack ∈ flags → .p2sh ∈ flags
  cleanStack_witness : .cleanStack ∈ flags → .witness ∈ flags

theorem assertThat_of [Decidable c] (h : c) : assertThat c = .ok () := if_pos h

theorem stricter_assertThat [Decidable c] [Decidable c'] (h : c') :
    Stricter (assertThat c) (assertThat c') := by
  rw [assertThat_of h]
  exact .unit _

section
variable {F F' : ScriptVerifyFlags}

theorem stricter_finalChecks (hsub : F' ⊆ F) (hF' : F'.Consistent) (hadWitness : Bool)
    (witness stack : List Bytes) :
    Stricter (finalChecks F hadWitness witness stack)
      (finalChecks F' hadWitness witness stack) := by
  refine .bind ?_ fun _ => ?_
  · rw [checkCleanStack, checkCleanStack]
    split
    · split
      · rename_i hclean
        exact .bind (stricter_assertThat (hF'.cleanStack_p2sh hclean)) fun _ =>
          .bind (stricter_assertThat (hF'.cleanStack_witness hclean)) fun _ => .refl _
      · exact .unit _
    · rename_i hclean
      rw [if_neg fun h => hclean (hsub h)]
      exact .refl _
  · rw [checkUnexpectedWitness, checkUnexpectedWitness]
    split
    · split
      · rename_i hwitness
        exact .bind (stricter_assertThat (hF'.witness_p2sh hwitness)) fun _ => .refl _
      · exact .unit _
    · rename_i hwitness
      rw [if_neg fun h => hwitness (hsub h)]
      exact .refl _

theorem finalChecks_of_not_witness (hF' : F'.Consistent) (hwitness : .witness ∉ F')
    (hadWitness : Bool) (witness stack : List Bytes) :
    finalChecks F' hadWitness witness stack = .ok () := by
  rw [finalChecks, checkCleanStack, if_neg fun h => hwitness (hF'.cleanStack_witness h),
    checkUnexpectedWitness, if_neg hwitness]
  rfl

end

section
variable {crypto : ScriptCrypto} {F F' : ScriptVerifyFlags} {scriptSig scriptPubKey : Bytes}
  {witness stackCopy stack : List Bytes}

variable {σ : Type} (checker : SignatureChecker σ) {s : σ} (hsub : F' ⊆ F) (hF' : F'.Consistent)
  (hs : Succeeds checker.handler
    (verifyTail crypto F scriptSig scriptPubKey witness stackCopy stack) s)
include hsub hF' hs

theorem succeeds_verifyTail_of_bare {version : Nat} {program : Bytes}
    (hprogram : CScript.isWitnessProgram scriptPubKey = some (version, program))
    (hwitness : .witness ∈ F') :
    Succeeds checker.handler
      (verifyTail crypto F' scriptSig scriptPubKey witness stackCopy stack) s := by
  rw [verifyTail_of_bare (hsub hwitness) hprogram] at hs
  rw [verifyTail_of_bare hwitness hprogram]
  refine (Tightens.refl _).succeeds_bind checker.handler_readOnly (fun _ s hs => ?_) hs
  exact hs.bind_liftM (succeeds_verifyWitnessProgram hsub checker)
    (stricter_finalChecks hsub hF' _ _ _)

theorem succeeds_verifyTail_of_redeem (hprogram : CScript.isWitnessProgram scriptPubKey = none)
    (hp2sh : .p2sh ∈ F') :
    Succeeds checker.handler
      (verifyTail crypto F' scriptSig scriptPubKey witness stackCopy stack) s := by
  have hfinal (hadWitness : Bool) (stack : List Bytes) :
      TightensCheck (liftM (finalChecks F hadWitness witness stack))
        (liftM (finalChecks F' hadWitness witness stack)) :=
    .lift (stricter_finalChecks hsub hF' _ _ _)
  rw [verifyTail_of_not_bare (.inr hprogram)] at hs ⊢
  unfold verifyRedeemScript at hs ⊢
  by_cases hscript : CScript.isPayToScriptHash scriptPubKey = true
  · rw [if_pos ⟨hsub hp2sh, hscript⟩] at hs
    rw [if_pos ⟨hp2sh, hscript⟩]
    cases stackCopy with
    | nil => exact (Tightens.same fun x => hfinal _ _).succeeds checker.handler_readOnly hs
    | cons pubKey2 rest =>
      by_cases hwitness : .witness ∈ F'
      · exact (Tightens.bind (.same fun _ => .bind (tightens_evalBaseScript hsub _ _)
          fun _ => .same fun _ => tightens_verifyP2SHWitness hsub hwitness _ _ _ _ _)
          fun _ => hfinal _ _).succeeds checker.handler_readOnly hs
      · simp only [Interaction.bind_assoc] at hs ⊢
        refine (Tightens.refl _).succeeds_bind checker.handler_readOnly (fun _ s hs => ?_) hs
        refine (tightens_evalBaseScript hsub _ _).succeeds_bind checker.handler_readOnly
          (fun stack s hs => ?_) hs
        refine (Tightens.refl _).succeeds_bind checker.handler_readOnly (fun _ s _ => ?_) hs
        rw [verifyP2SHWitness, if_neg hwitness]
        exact succeeds_liftM.mpr ⟨(), finalChecks_of_not_witness hF' hwitness _ _ _⟩
  · rw [if_neg fun h => hscript h.2] at hs ⊢
    exact (hfinal _ _).succeeds checker.handler_readOnly hs

theorem succeeds_verifyTail : Succeeds checker.handler
      (verifyTail crypto F' scriptSig scriptPubKey witness stackCopy stack) s := by
  by_cases hskip : .witness ∉ F' ∧ ¬ (.p2sh ∈ F' ∧ CScript.isPayToScriptHash scriptPubKey = true)
  · -- Under `F'` nothing follows the two scripts.
    rw [verifyTail_of_not_bare (.inl hskip.1), verifyRedeemScript_of_not hskip.2]
    exact succeeds_liftM.mpr ⟨(), finalChecks_of_not_witness hF' hskip.1 _ _ _⟩
  · rw [not_and_or, not_not, not_not] at hskip
    cases hprogram : CScript.isWitnessProgram scriptPubKey with
    | none =>
      refine succeeds_verifyTail_of_redeem checker hsub hF' hs hprogram ?_
      exact hskip.elim hF'.witness_p2sh And.left
    | some versioned =>
      refine succeeds_verifyTail_of_bare checker hsub hF' hs hprogram ?_
      refine hskip.resolve_right fun h => ?_
      rw [isPayToScriptHash_eq_false hprogram] at h
      exact Bool.noConfusion h.2

end

/-- If an input verifies under flags `F`, it verifies under every smaller flag set that keeps
the dependencies between flags. -/
theorem verifyScript_of_subset {σ : Type} (checker : SignatureChecker σ) (s : σ)
    (crypto : ScriptCrypto) {F F' : ScriptVerifyFlags} (hsub : F' ⊆ F)
    (hF' : F'.Consistent) (scriptSig scriptPubKey : Bytes) (witness : List Bytes)
    (hs : Succeeds checker.handler (verifyScript crypto F scriptSig scriptPubKey witness) s) :
    Succeeds checker.handler (verifyScript crypto F' scriptSig scriptPubKey witness) s := by
  refine Tightens.succeeds_bind (.lift (stricter_rejectWhen fun h => ⟨hsub h.1, h.2⟩))
    checker.handler_readOnly (fun _ s hs => ?_) hs
  refine (tightens_evalBaseScript hsub _ _).succeeds_bind checker.handler_readOnly
    (fun stackCopy s hs => ?_) hs
  refine (tightens_evalBaseScript hsub _ _).succeeds_bind checker.handler_readOnly
    (fun stack s hs => ?_) hs
  refine (Tightens.refl _).succeeds_bind checker.handler_readOnly (fun _ s hs => ?_) hs
  exact succeeds_verifyTail checker hsub hF' hs

theorem verifyScript_of_subset_equal :
    Succeeds refusingChecker.handler
      (verifyScript unusedCrypto {.p2sh} [OP_1] [OP_1, OP_EQUAL] []) () :=
  verifyScript_of_subset refusingChecker () unusedCrypto
    (show {.p2sh} ⊆ ({.p2sh, .witness, .cleanStack, .minimalData, .sigPushOnly} :
      ScriptVerifyFlags) by decide)
    ⟨by decide, by decide, by decide⟩ [OP_1] [OP_1, OP_EQUAL] [] ⟨(), (), by rfl⟩

end HcsCoin
