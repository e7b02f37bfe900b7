import HcsCoin.Script.Safety

/-!
# Runs of the interpreter with any checker

The checker is only assumed to answer, and to say why a Schnorr check fails.
Signature operations then keep within the stack like all others, so every run
ends with a code that the interpreter or the checker has set.
-/

namespace HcsCoin

open Foundation Interaction

/-- Failures of a run: reported ones, and the assertion on the validation weight, which cannot
fail under `K`. -/
def SafeFailure (K : Prop) (e : EvalFailure) : Prop := Reported e ∨ ¬ K ∧ e = .aborted

theorem SafeFailure.admits (K : Prop) : AdmitsReported (SafeFailure K) := fun _ => .inl

/-- What is assumed of a checker; under `K` it also leaves the validation weight initialised. -/
def reporting (K : Prop) : Protocol CheckerCall.Answer Unit where
  allowed _ _ := True
  assumed
    | .checkSchnorrSignature _ _ _ execdata, answer =>
      (answer.success = false → answer.serror ≠ .ok ∧ answer.serror ≠ .unknownError) ∧
        (K → execdata.validationWeightLeft.isSome → answer.execdata.validationWeightLeft.isSome)
    | _, _ => True
  next _ _ _ := ()

/-- A part of a run that fails only as allowed and returns what `R` says. -/
abbrev Safe (K : Prop) {α : Type} (R : α → Prop) (part : Checked α) : Prop :=
  Follows (reporting K) (SafeFailure K) (fun _ => R) () part

def Ready (K : Prop) (sigversion : SigVersion) (execdata : ScriptExecutionData) : Prop :=
  K → sigversion = .tapscript → execdata.validationWeightLeft.isSome

structure Kept (K : Prop) (sigversion : SigVersion) (st st' : EvalState) : Prop where
  grown : StackGrown st.elements st'.elements
  ready : Ready K sigversion st'.execdata

section
variable {K : Prop} {crypto : ScriptCrypto} {flags : ScriptVerifyFlags} {sigversion : SigVersion}
  {stack : List Bytes}

theorem safe_reject {α : Type} {R : α → Prop} {c : Prop} [Decidable c] {serror : ScriptError}
    {f : Unit → Checked α} (hserror : serror ≠ .ok ∧ serror ≠ .unknownError)
    (hf : ¬ c → Safe K R (f ())) : Safe K R (liftM (rejectWhen c serror) >>= f) :=
  .ensures_bind (ensures_rejectWhen (SafeFailure.admits K) hserror) fun _ => hf

/-! ## Signature checks -/

theorem follows_checkECDSASignature (vchSig vchPubKey scriptCode : Bytes)
    (sigversion : SigVersion) :
    Safe K (fun _ => True) (checkECDSASignature vchSig vchPubKey scriptCode sigversion) :=
  .ask trivial fun _ _ => .ret trivial

theorem follows_checkLockTime (nLockTime : Int) :
    Safe K (fun _ => True) (checkLockTime nLockTime) :=
  .ask trivial fun _ _ => .ret trivial

theorem follows_checkSequence (nSequence : Int) :
    Safe K (fun _ => True) (checkSequence nSequence) :=
  .ask trivial fun _ _ => .ret trivial

variable {pbegincodehash pubkey sig : Bytes} {execdata : ScriptExecutionData}

theorem follows_evalChecksigPreTapscript (h : sigversion = .base ∨ sigversion = .witnessV0) :
    Safe K (fun _ => True)
      (evalChecksigPreTapscript crypto flags sigversion sig pubkey pbegincodehash) := by
  have hE := SafeFailure.admits K
  refine .ensures_bind (ensures_assertThat h) fun _ _ => ?_
  refine .ensures_bind (ensures_dropSignature hE _ _) fun _ _ => ?_
  refine .ensures_bind (ensures_checkSignatureEncoding hE _) fun _ _ => ?_
  refine .ensures_bind (ensures_checkPubKeyEncoding hE _) fun _ _ => ?_
  refine .bind (follows_checkECDSASignature ..) fun _ fSuccess _ => ?_
  exact safe_reject (by decide) fun _ => .ret trivial

theorem ensures_chargeValidationWeight {success : Bool} (hready : Ready K .tapscript execdata) :
    Ensures (SafeFailure K) (chargeValidationWeight success execdata) (Ready K .tapscript) := by
  cases success with
  | false => exact .ok hready
  | true =>
    rw [chargeValidationWeight, if_pos rfl]
    split
    · rename_i hnone
      refine ensures_error (.inr ⟨fun hK => ?_, rfl⟩)
      have := hready hK rfl
      rw [hnone] at this
      cases this
    · exact (ensures_rejectWhen (SafeFailure.admits K) (by decide)).bind fun _ _ =>
        .pure fun _ _ => rfl

theorem follows_evalChecksigTapscript (hready : Ready K .tapscript execdata) :
    Safe K (Ready K .tapscript ·.2)
      (evalChecksigTapscript flags .tapscript sig pubkey execdata) := by
  have hE := SafeFailure.admits K
  refine .ensures_bind (ensures_assertThat rfl) fun _ _ => ?_
  refine .ensures_bind (ensures_chargeValidationWeight hready) fun execdata hready => ?_
  refine safe_reject (by decide) fun _ => ?_
  split
  · split
    · refine .bind (R := fun _ answer => (reporting K).assumed
        (.checkSchnorrSignature sig pubkey .tapscript execdata) answer)
        (.call trivial fun _ h => h) fun _ answer hanswer => ?_
      have hreject : Ensures (SafeFailure K) (rejectWhen (answer.success = false) answer.serror)
          fun _ => True := by
        rw [rejectWhen]
        split
        · exact ensures_error (Reported.admits hE (hanswer.1 ‹_›))
        · exact .ok trivial
      refine .ensures_bind hreject fun _ _ => .ret fun hK _ => ?_
      exact hanswer.2 hK (hready hK rfl)
    · exact .ret hready
  · exact safe_reject (by decide) fun _ => .ret hready

theorem follows_evalChecksig (hsigversion : sigversion ≠ .taproot)
    (hready : Ready K sigversion execdata) :
    Safe K (Ready K sigversion ·.2)
      (evalChecksig crypto flags sigversion sig pubkey pbegincodehash execdata) := by
  cases sigversion with
  | base => exact .bind (follows_evalChecksigPreTapscript (.inl rfl)) fun _ _ _ => .ret hready
  | witnessV0 => exact .bind (follows_evalChecksigPreTapscript (.inr rfl)) fun _ _ _ => .ret hready
  | taproot => exact absurd rfl hsigversion
  | tapscript => exact follows_evalChecksigTapscript hready

theorem ensures_scriptNumUpTo {E : EvalFailure → Prop} (hE : AdmitsReported E) (size : Nat)
    (vch : Bytes) (fRequireMinimal : Bool) :
    Ensures E (scriptNumUpTo size vch fRequireMinimal) fun _ => True := by
  rw [scriptNumUpTo]
  split
  · exact .ok trivial
  · exact ensures_error (Reported.admits hE (by decide))

theorem follows_matchSignatures {scriptCode : Bytes} {nKeysCount isig ikey nSigsCount : Nat}
    (hcounts : nSigsCount ≤ nKeysCount) (hisig : isig + nSigsCount ≤ stack.length)
    (hikey : ikey + nKeysCount ≤ stack.length) : Safe K (fun _ => True)
      (matchSignatures crypto flags sigversion stack scriptCode nKeysCount (isig + 1) (ikey + 1)
        nSigsCount) := by
  have hE := SafeFailure.admits K
  induction nKeysCount generalizing isig ikey nSigsCount with
  | zero =>
    obtain rfl : nSigsCount = 0 := Nat.le_zero.mp hcounts
    rw [matchSignatures]
    exact .ret trivial
  | succ nKeysCount ih =>
    cases nSigsCount with
    | zero =>
      rw [matchSignatures]
      exact .ret trivial
    | succ nSigsCount =>
      rw [matchSignatures]
      refine .ensures_bind (ensures_stacktop (by omega)) fun _ _ => ?_
      refine .ensures_bind (ensures_stacktop (by omega)) fun _ _ => ?_
      refine .ensures_bind (ensures_checkSignatureEncoding hE _) fun _ _ => ?_
      refine .ensures_bind (ensures_checkPubKeyEncoding hE _) fun _ _ => ?_
      refine .bind (follows_checkECDSASignature ..) fun _ fOk _ => ?_
      cases fOk with
      | true =>
        simp only [if_true]
        split
        · exact .ret trivial
        · exact ih (by omega) (by omega) (by omega)
      | false =>
        simp only [Bool.false_eq_true, if_false]
        split
        · exact .ret trivial
        · exact ih (by omega) (by omega) (by omega)

/-! ## Operations -/

section
variable {st : EvalState} (hready : Ready K sigversion st.execdata)
include hready

theorem follows_evalCheckLockTimeVerify :
    Safe K (Kept K sigversion st) (evalCheckLockTimeVerify flags st) := by
  have hE := SafeFailure.admits K
  rw [evalCheckLockTimeVerify]
  split
  · refine safe_reject (by decide) fun hsize => ?_
    refine .ensures_bind (ensures_stacktop (by omega)) fun _ _ => ?_
    refine .ensures_bind (ensures_scriptNumUpTo hE _ _ _) fun _ _ => ?_
    refine safe_reject (by decide) fun _ => ?_
    refine .bind (follows_checkLockTime _) fun _ satisfied _ => ?_
    exact safe_reject (by decide) fun _ => .ret ⟨.refl _, hready⟩
  · exact .ret ⟨.refl _, hready⟩

theorem follows_evalCheckSequenceVerify :
    Safe K (Kept K sigversion st) (evalCheckSequenceVerify flags st) := by
  have hE := SafeFailure.admits K
  rw [evalCheckSequenceVerify]
  split
  · refine safe_reject (by decide) fun hsize => ?_
    refine .ensures_bind (ensures_stacktop (by omega)) fun _ _ => ?_
    refine .ensures_bind (ensures_scriptNumUpTo hE _ _ _) fun _ _ => ?_
    refine safe_reject (by decide) fun _ => ?_
    split
    · exact .ret ⟨.refl _, hready⟩
    · refine .bind (follows_checkSequence _) fun _ satisfied _ => ?_
      exact safe_reject (by decide) fun _ => .ret ⟨.refl _, hready⟩
  · exact .ret ⟨.refl _, hready⟩

theorem follows_evalCheckMultiSig (verify : Bool) :
    Safe K (Kept K sigversion st) (evalCheckMultiSig crypto flags sigversion verify st) := by
  have hE := SafeFailure.admits K
  refine safe_reject (by decide) fun _ => ?_
  refine .ensures_bind (ensures_readMultiSigCounts hE _ _) fun counts hcounts => ?_
  obtain ⟨nKeysCount, nSigsCount, nOpCount⟩ := counts
  obtain ⟨hle, hsize⟩ := hcounts
  dsimp only at hle hsize ⊢
  rw [show 3 + nKeysCount = 2 + nKeysCount + 1 by omega]
  refine .ensures_bind (ensures_dropSignatures hE _ (by omega)) fun _ _ => ?_
  refine .bind (follows_matchSignatures hle (by omega) (by omega)) fun _ fSuccess _ => ?_
  refine .ensures_bind (ensures_finishMultiSig hE hsize) fun stack hstack => .ret ⟨?_, hready⟩
  exact hstack.append _

variable (hsigversion : sigversion ≠ .taproot)
include hsigversion

theorem follows_evalCheckSig (verify : Bool) :
    Safe K (Kept K sigversion st) (evalCheckSig crypto flags sigversion verify st) := by
  have hE := SafeFailure.admits K
  refine safe_reject (by decide) fun hsize => ?_
  refine .ensures_bind (ensures_stacktop (by omega)) fun _ _ => ?_
  refine .ensures_bind (ensures_stacktop (by omega)) fun _ _ => ?_
  refine .bind (follows_evalChecksig hsigversion hready) fun _ result hresult => ?_
  refine .ensures_bind (ensures_popstack (by omega)) fun rest hrest => ?_
  refine .ensures_bind (ensures_popstack (by rw [hrest, List.length_tail]; omega)) fun rest₁ h₁ => ?_
  subst hrest h₁
  refine .ensures_bind (ensures_verifyResult hE (by decide)) fun stack hstack => .ret ⟨?_, hresult⟩
  exact (grown_of_verifyResult (tail_tail_subset _) (length_vchOfBool_le _) hstack).append _

theorem follows_evalCheckSigAdd :
    Safe K (Kept K sigversion st) (evalCheckSigAdd crypto flags sigversion st) := by
  have hE := SafeFailure.admits K
  refine safe_reject (by decide) fun _ => ?_
  refine safe_reject (by decide) fun hsize => ?_
  refine .ensures_bind (ensures_stacktop (by omega)) fun _ _ => ?_
  refine .ensures_bind (ensures_stacktop (by omega)) fun _ _ => ?_
  refine .ensures_bind (ensures_scriptNum hE _ _) fun _ _ => ?_
  refine .ensures_bind (ensures_stacktop (by omega)) fun _ _ => ?_
  refine .bind (follows_evalChecksig hsigversion hready) fun _ result hresult => ?_
  refine .ensures_bind (ensures_popstack (by omega)) fun rest hrest => ?_
  refine .ensures_bind (ensures_popstack (by rw [hrest, List.length_tail]; omega)) fun rest₁ h₁ => ?_
  refine .ensures_bind (ensures_popstack (by rw [h₁, hrest]; simp only [List.length_tail]; omega))
    fun rest₂ h₂ => .ret ⟨?_, hresult⟩
  subst hrest h₁ h₂
  have hsub : st.stack.tail.tail.tail ⊆ st.stack :=
    List.Subset.trans (List.tail_subset _) (tail_tail_subset _)
  exact (StackGrown.cons_short (length_serialize_le_element _) (.of_subset hsub)).append _

theorem follows_evalOperation (fExec : Bool) (op : Operation) :
    Safe K (Kept K sigversion st) (evalOperation crypto flags sigversion fExec st op) := by
  have hplain : Safe K (Kept K sigversion st)
      (liftM (evalPlain crypto flags sigversion fExec st op) : Checked EvalState) := by
    have hgrown : Ensures (SafeFailure K) (evalPlain crypto flags sigversion fExec st op)
        (fun st' => StackGrown st.elements st'.elements) :=
      ensures_evalPlain (SafeFailure.admits K) fExec st op
    refine .lift hgrown.and_eq_ok ?_
    rintro st' ⟨hst', hok⟩
    obtain ⟨-, pos, hpos⟩ := evalPlain_frame hok
    exact ⟨hst', by rw [hpos]; exact hready⟩
  cases op with
  | checkLockTimeVerify => exact follows_evalCheckLockTimeVerify hready
  | checkSequenceVerify => exact follows_evalCheckSequenceVerify hready
  | checkSig verify => exact follows_evalCheckSig hready hsigversion verify
  | checkSigAdd => exact follows_evalCheckSigAdd hready hsigversion
  | checkMultiSig verify => exact follows_evalCheckMultiSig hready verify
  | _ => exact hplain

theorem follows_execInstruction (opcode : UInt8)
    {vchPushValue : Bytes} (hpush : vchPushValue.length ≤ MAX_SCRIPT_ELEMENT_SIZE) :
    Safe K (Kept K sigversion st)
      (execInstruction crypto flags sigversion opcode vchPushValue st) := by
  rw [execInstruction]
  split
  · refine safe_reject (by decide) fun _ => ?_
    exact .ret ⟨.cons_short hpush (.refl _), hready⟩
  · split
    · exact follows_evalOperation hready hsigversion _ _
    · exact .ret ⟨.refl _, hready⟩

theorem follows_evalStep :
    Safe K (fun st' => Kept K sigversion st st' ∧ st'.elements.length ≤ MAX_STACK_SIZE)
      (evalStep crypto flags sigversion st) := by
  have hE := SafeFailure.admits K
  rw [evalStep]
  split
  · exact .fail (Reported.admits hE (by decide))
  · rename_i opcode vchPushValue pc _
    refine .ensures_bind (ensures_checkInstruction hE _ _ _) fun nOpCount hpush => ?_
    have hread : Ready K sigversion ({ st with nOpCount, pc } : EvalState).execdata := hready
    refine .bind (follows_execInstruction hread hsigversion _ hpush) fun _ st' hst' => ?_
    refine safe_reject (by decide) fun hsize => .ret ⟨?_, ?_⟩
    · exact ⟨hst'.grown, hst'.ready⟩
    · rw [EvalState.elements, List.length_append]
      exact Nat.le_of_not_lt hsize

end

/-! ## The loop -/

theorem follows_evalLoop (hsigversion : sigversion ≠ .taproot) (rounds : Nat) {st : EvalState}
    (hready : Ready K sigversion st.execdata) :
    Safe K (fun st' => (Small st.elements → Small st'.elements) ∧
        (st.elements.length ≤ MAX_STACK_SIZE ∨ 0 < rounds ∧ st.pc ≠ [] →
          st'.elements.length ≤ MAX_STACK_SIZE))
      (evalLoop crypto flags sigversion rounds st) := by
  induction rounds generalizing st with
  | zero => exact .ret ⟨id, fun h => h.resolve_right fun h => absurd h.1 (Nat.lt_irrefl 0)⟩
  | succ rounds ih =>
    rw [evalLoop]
    split
    · rename_i hempty
      exact .ret ⟨id, fun h => h.resolve_right fun h => h.2 (List.isEmpty_iff.mp hempty)⟩
    · refine .bind (follows_evalStep hready hsigversion) ?_
      rintro _ st₁ ⟨hkept, hsize⟩
      refine (ih hkept.ready).mono ?_
      rintro _ st' ⟨hsmall, hlimit⟩
      exact ⟨fun h => hsmall (hkept.grown.small h), fun _ => hlimit (.inl hsize)⟩

theorem follows_evalScript {script : Bytes} (hsigversion : sigversion ≠ .taproot)
    (hready : Ready K sigversion execdata) :
    Safe K (fun _ => True) (evalScript crypto flags sigversion stack script execdata) := by
  have hsupported : sigversion = .base ∨ sigversion = .witnessV0 ∨ sigversion = .tapscript := by
    cases sigversion <;> simp_all
  refine .ensures_bind (ensures_assertThat hsupported) fun _ _ => ?_
  refine safe_reject (by decide) fun _ => ?_
  refine .bind (follows_evalLoop hsigversion _ hready) fun _ _ _ => ?_
  exact safe_reject (by decide) fun _ => .ret trivial

theorem evalScript_closes (stack : List Bytes) (script : Bytes) (execdata : ScriptExecutionData) :
    (evalScript crypto flags sigversion stack script execdata).Returns fun _ =>
      ClosesConditionals script := by
  refine .of_bind fun _ => .of_bind fun _ => ?_
  refine .bind (evalLoop_depth _ _) fun st hst => .lift_bind fun _ hclosed => .ret ?_
  have hempty := rejectWhen_eq_ok hclosed
  rw [Bool.not_eq_false, ConditionStack.empty, beq_iff_eq] at hempty
  exact hst.trans (congrArg some hempty)

end

/-! ## What the caller sees -/

/-- The value returned and the code left in `serror`; nothing if the program stops. -/
def evalOutcome {α : Type} : Except EvalFailure α → Option (Bool × ScriptError)
  | .ok _ => some (true, .ok)
  | .error (.error serror) => some (false, serror)
  | .error .aborted => none

/-- The checker always answers, and sets an error code when a Schnorr check fails. -/
structure SignatureChecker.Reports {σ : Type} (checker : SignatureChecker σ) : Prop where
  answers : ∀ q s, ∃ a s', checker.handler q s = (.ok a, s')
  code : ∀ {sig pubkey sigversion execdata s answer s'},
    checker.checkSchnorrSignature sig pubkey sigversion execdata s = (.ok answer, s') →
      answer.success = false → answer.serror ≠ .ok ∧ answer.serror ≠ .unknownError

def SignatureChecker.KeepsWeight {σ : Type} (checker : SignatureChecker σ) : Prop :=
  ∀ {sig pubkey sigversion execdata s answer s'},
    checker.checkSchnorrSignature sig pubkey sigversion execdata s = (.ok answer, s') →
      execdata.validationWeightLeft.isSome → answer.execdata.validationWeightLeft.isSome

theorem SignatureChecker.Reports.serves {σ : Type} {checker : SignatureChecker σ}
    (h : checker.Reports) :
    Serves checker.handler (reporting checker.KeepsWeight) (SafeFailure checker.KeepsWeight)
      fun _ _ => True where
  answers {s s' g q a} _ _ hq := by
    cases q with
    | checkSchnorrSignature sig pubkey sigversion execdata =>
      exact ⟨⟨h.code hq, fun hkeeps => hkeeps hq⟩, trivial⟩
    | _ => exact ⟨trivial, trivial⟩
  fails {s s' g q e} _ _ hq := by
    obtain ⟨a, s₁, ha⟩ := h.answers q s
    rw [hq] at ha
    cases ha

section
variable {σ : Type} {crypto : ScriptCrypto} {flags : ScriptVerifyFlags} {sigversion : SigVersion}
  {checker : SignatureChecker σ} {stack : List Bytes} {script : Bytes}
  {execdata : ScriptExecutionData} {s : σ}

theorem evalScript_reports (hsigversion : sigversion ≠ .taproot) (hchecker : checker.Reports)
    (hinit : sigversion = .tapscript → execdata.validationWeightLeft.isSome) :
    let result := ((evalScript crypto flags sigversion stack script execdata).run
      checker.handler s).1
    (∀ fSuccess serror, evalOutcome result = some (fSuccess, serror) →
      serror ≠ .unknownError ∧ (fSuccess = true ↔ serror = .ok) ∧
        (fSuccess = true → ClosesConditionals script)) ∧
      (checker.KeepsWeight → evalOutcome result ≠ none) ∧
      (Small stack → script ≠ [] → ∀ rounds st s', 0 < rounds →
        (evalLoop crypto flags sigversion rounds (initialState stack script execdata)).run
          checker.handler s = (.ok st, s') →
        st.elements.length ≤ MAX_STACK_SIZE ∧ Small st.elements) := by
  intro result
  have hready : Ready checker.KeepsWeight sigversion execdata := fun _ => hinit
  have hfollows := @follows_evalScript _ crypto flags sigversion stack _ script hsigversion hready
  have hcases : (∃ serror, result = .error (.error serror) ∧ serror ≠ .ok ∧ serror ≠ .unknownError) ∨
      (¬ checker.KeepsWeight ∧ result = .error .aborted) ∨
      ∃ x, result = .ok x ∧ ClosesConditionals script := by
    rcases hrun : (evalScript crypto flags sigversion stack script execdata).run checker.handler s
      with ⟨e | x, s'⟩
    · have hresult : result = .error e := congrArg Prod.fst hrun
      obtain ⟨⟨serror, rfl, hserror⟩ | ⟨hnot, rfl⟩, -⟩ :=
        hfollows.run_error hchecker.serves trivial hrun
      · exact .inl ⟨serror, hresult, hserror⟩
      · exact .inr (.inl ⟨hnot, hresult⟩)
    · exact .inr (.inr ⟨x, congrArg Prod.fst hrun, (evalScript_closes _ _ _).run hrun⟩)
  refine ⟨?_, ?_, ?_⟩
  · intro fSuccess serror houtcome
    rcases hcases with ⟨_, hresult, hok, hunknown⟩ | ⟨-, hresult⟩ | ⟨_, hresult, hcloses⟩ <;>
      rw [hresult] at houtcome <;> cases houtcome
    · exact ⟨hunknown, iff_of_false Bool.false_ne_true hok, nofun⟩
    · exact ⟨by decide, iff_of_true rfl rfl, fun _ => hcloses⟩
  · intro hkeeps houtcome
    rcases hcases with ⟨_, hresult, -⟩ | ⟨hnot, -⟩ | ⟨_, hresult, -⟩
    · rw [hresult] at houtcome
      cases houtcome
    · exact hnot hkeeps
    · rw [hresult] at houtcome
      cases houtcome
  · intro hsmall hscript rounds st s' hrounds hrun
    have hloop := @follows_evalLoop _ crypto flags sigversion hsigversion rounds
      (initialState stack script execdata) hready
    obtain ⟨-, ⟨hkept, hsize⟩, -⟩ := hloop.run_ok hchecker.serves trivial hrun
    refine ⟨hsize (.inr ⟨hrounds, hscript⟩), hkept ?_⟩
    rw [EvalState.elements, initialState, List.append_nil]
    exact hsmall

end

theorem refusingChecker_reports : refusingChecker.Reports where
  answers q s := by cases q <;> exact ⟨_, _, rfl⟩
  code h _ := by
    cases h
    exact ⟨nofun, nofun⟩

theorem evalScript_reports_refused :
    let outcome := evalOutcome ((evalScript unusedCrypto ∅ .tapscript
      [List.replicate 32 2, [1]] [OP_CHECKSIG] { validationWeightLeft := some 100 }).run
        refusingChecker.handler ()).1
    outcome = some (false, .schnorrSig) ∧ ∀ fSuccess serror, outcome = some (fSuccess, serror) →
      serror ≠ .unknownError ∧ (fSuccess = true ↔ serror = .ok) ∧
        (fSuccess = true → ClosesConditionals [OP_CHECKSIG]) :=
  ⟨by rfl, (evalScript_reports (by decide) refusingChecker_reports fun _ => rfl).1⟩

end HcsCoin
