import HcsCoin.Script.Frame

/-!
# Invariants of the execution data

An invariant between the account of a protocol and the execution data is kept by
every run of a script if the signature checks keep it: nothing else asks a
question that counts, or changes more of the execution data than the position of
the last code separator.
-/

namespace HcsCoin

open Foundation Interaction

section
variable {G : Type}

/-- What signature checks have to do for `I` to be kept by every script. -/
structure KeepsExecdata (π : Protocol CheckerCall.Answer G) (flags : ScriptVerifyFlags)
    (sigversion : SigVersion) (I : G → ScriptExecutionData → Prop) : Prop where
  lockTime : ∀ g nLockTime, π.allowed g (.checkLockTime nLockTime) ∧
    ∀ answer, π.next g (.checkLockTime nLockTime) answer = g
  sequence : ∀ g nSequence, π.allowed g (.checkSequence nSequence) ∧
    ∀ answer, π.next g (.checkSequence nSequence) answer = g
  codeseparator : ∀ {g execdata} pos, I g execdata → I g { execdata with codeseparatorPos := pos }
  ecdsa : sigversion = .base ∨ sigversion = .witnessV0 →
    ∀ {g execdata} vchSig vchPubKey scriptCode, I g execdata →
      let q := CheckerCall.checkECDSASignature vchSig vchPubKey scriptCode sigversion
      π.allowed g q ∧ ∀ answer, I (π.next g q answer) execdata
  schnorr : sigversion = .tapscript → ∀ {g execdata} sig pubkey, I g execdata →
    Follows π (fun _ => True) (fun g result => I g result.2) g
      (evalChecksigTapscript flags sigversion sig pubkey execdata)

namespace KeepsExecdata

variable {π : Protocol CheckerCall.Answer G} {crypto : ScriptCrypto} {flags : ScriptVerifyFlags}
  {sigversion : SigVersion} {I : G → ScriptExecutionData → Prop} {g : G}

private theorem lift_bind {α β : Type} {m : Except EvalFailure α} {f : α → Checked β}
    {R : G → β → Prop} (hf : ∀ x, m = .ok x → Follows π (fun _ => True) R g (f x)) :
    Follows π (fun _ => True) R g (liftM m >>= f) :=
  .lift_bind (fun _ _ => trivial) hf

section
variable (hI : KeepsExecdata π flags sigversion I)
include hI

variable {execdata : ScriptExecutionData}

theorem checkECDSASignature
    (hversion : sigversion = .base ∨ sigversion = .witnessV0) (hg : I g execdata)
    (vchSig vchPubKey scriptCode : Bytes) :
    Follows π (fun _ => True) (fun g _ => I g execdata) g
      (checkECDSASignature vchSig vchPubKey scriptCode sigversion) := by
  obtain ⟨hallowed, hnext⟩ := hI.ecdsa hversion vchSig vchPubKey scriptCode hg
  exact .ask hallowed fun answer _ => .ret (hnext answer)

theorem evalChecksig (hg : I g execdata) (sig pubkey pbegincodehash : Bytes) :
    Follows π (fun _ => True) (fun g result => I g result.2) g
      (evalChecksig crypto flags sigversion sig pubkey pbegincodehash execdata) := by
  have hpre (hversion : sigversion = .base ∨ sigversion = .witnessV0) :
      Follows π (fun _ => True) (fun g _ => I g execdata) g
        (evalChecksigPreTapscript crypto flags sigversion sig pubkey pbegincodehash) := by
    refine lift_bind fun _ _ => lift_bind fun _ _ => lift_bind fun _ _ => lift_bind fun _ _ => ?_
    exact .bind (hI.checkECDSASignature hversion hg _ _ _) fun _ _ hg =>
      lift_bind fun _ _ => .ret hg
  cases sigversion with
  | base => exact .bind (hpre (.inl rfl)) fun _ _ hg => .ret hg
  | witnessV0 => exact .bind (hpre (.inr rfl)) fun _ _ hg => .ret hg
  | taproot => exact .fail trivial
  | tapscript => exact hI.schnorr rfl sig pubkey hg

theorem matchSignatures
    (hversion : sigversion = .base ∨ sigversion = .witnessV0) (hg : I g execdata)
    (stack : List Bytes) (scriptCode : Bytes) (nKeysCount isig ikey nSigsCount : Nat) :
    Follows π (fun _ => True) (fun g _ => I g execdata) g
      (matchSignatures crypto flags sigversion stack scriptCode nKeysCount isig ikey
        nSigsCount) := by
  induction nKeysCount generalizing g isig ikey nSigsCount with
  | zero =>
    cases nSigsCount with
    | zero => exact .ret hg
    | succ _ => exact .fail trivial
  | succ nKeysCount ih =>
    cases nSigsCount with
    | zero => exact .ret hg
    | succ nSigsCount =>
      rw [HcsCoin.matchSignatures]
      refine lift_bind fun _ _ => lift_bind fun _ _ => lift_bind fun _ _ => lift_bind fun _ _ => ?_
      refine .bind (hI.checkECDSASignature hversion hg _ _ _) fun g fOk hg => ?_
      cases fOk with
      | true =>
        simp only [if_true]
        split
        · exact .ret hg
        · exact ih hg _ _ _
      | false =>
        simp only [Bool.false_eq_true, if_false]
        split
        · exact .ret hg
        · exact ih hg _ _ _

variable {st : EvalState}

theorem evalOperation (hsupported : sigversion ≠ .taproot) (hg : I g st.execdata) (fExec : Bool)
    (op : Operation) :
    Follows π (fun _ => True) (fun g st' => I g st'.execdata) g
      (evalOperation crypto flags sigversion fExec st op) := by
  have hplain : Follows π (fun _ => True) (fun g st' => I g st'.execdata) g
      (liftM (evalPlain crypto flags sigversion fExec st op) : Checked EvalState) := by
    refine .lift ⟨fun st' h => h, fun _ _ => trivial⟩ fun st' h => ?_
    obtain ⟨-, pos, hpos⟩ := evalPlain_frame h
    rw [hpos]
    exact hI.codeseparator pos hg
  cases op with
  | checkLockTimeVerify =>
    rw [HcsCoin.evalOperation, evalCheckLockTimeVerify]
    split
    · refine lift_bind fun _ _ => lift_bind fun _ _ => lift_bind fun nLockTime _ =>
        lift_bind fun _ _ => ?_
      obtain ⟨hallowed, hnext⟩ := hI.lockTime g nLockTime
      refine .ask hallowed fun answer _ => ?_
      rw [hnext]
      exact lift_bind fun _ _ => .ret hg
    · exact .ret hg
  | checkSequenceVerify =>
    rw [HcsCoin.evalOperation, evalCheckSequenceVerify]
    split
    · refine lift_bind fun _ _ => lift_bind fun _ _ => lift_bind fun nSequence _ =>
        lift_bind fun _ _ => ?_
      split
      · exact .ret hg
      · obtain ⟨hallowed, hnext⟩ := hI.sequence g nSequence
        refine .ask hallowed fun answer _ => ?_
        rw [hnext]
        exact lift_bind fun _ _ => .ret hg
    · exact .ret hg
  | checkSig verify =>
    refine lift_bind fun _ _ => lift_bind fun _ _ => lift_bind fun _ _ => ?_
    refine .bind (hI.evalChecksig hg _ _ _) fun g result hg => ?_
    exact lift_bind fun _ _ => lift_bind fun _ _ => lift_bind fun _ _ => .ret hg
  | checkSigAdd =>
    refine lift_bind fun _ _ => lift_bind fun _ _ => lift_bind fun _ _ => lift_bind fun _ _ =>
      lift_bind fun _ _ => lift_bind fun _ _ => ?_
    refine .bind (hI.evalChecksig hg _ _ _) fun g result hg => ?_
    exact lift_bind fun _ _ => lift_bind fun _ _ => lift_bind fun _ _ => .ret hg
  | checkMultiSig verify =>
    refine lift_bind fun _ hversion => lift_bind fun counts _ => lift_bind fun _ _ => ?_
    have hbase : sigversion = .base ∨ sigversion = .witnessV0 := by
      have hnot := rejectWhen_eq_ok hversion
      cases sigversion <;> simp_all
    refine .bind (hI.matchSignatures hbase hg _ _ _ _ _ _) fun g _ hg => ?_
    exact lift_bind fun _ _ => .ret hg
  | _ => exact hplain

theorem evalStep (hsupported : sigversion ≠ .taproot) (hg : I g st.execdata) :
    Follows π (fun _ => True) (fun g st' => I g st'.execdata) g
      (evalStep crypto flags sigversion st) := by
  rw [HcsCoin.evalStep]
  split
  · exact .fail trivial
  · rename_i opcode vchPushValue pc _
    refine lift_bind fun nOpCount _ => ?_
    refine .bind (R := fun g st' => I g st'.execdata) ?_ fun g st' hg =>
      lift_bind fun _ _ => .ret hg
    rw [execInstruction]
    split
    · exact lift_bind fun _ _ => .ret hg
    · split
      · have hread : I g ({ st with nOpCount, pc } : EvalState).execdata := hg
        exact hI.evalOperation hsupported hread _ _
      · exact .ret hg

theorem evalLoop (hsupported : sigversion ≠ .taproot) (rounds : Nat) (hg : I g st.execdata) :
    Follows π (fun _ => True) (fun g st' => I g st'.execdata) g
      (evalLoop crypto flags sigversion rounds st) := by
  induction rounds generalizing g st with
  | zero => exact .ret hg
  | succ rounds ih =>
    rw [HcsCoin.evalLoop]
    split
    · exact .ret hg
    · exact .bind (hI.evalStep hsupported hg) fun _ _ hg => ih hg

theorem evalScript (hg : I g execdata) (stack : List Bytes) (script : Bytes) :
    Follows π (fun _ => True) (fun g result => I g result.2) g
      (evalScript crypto flags sigversion stack script execdata) := by
  refine lift_bind fun _ hassert => lift_bind fun _ _ => ?_
  have hsupported : sigversion ≠ .taproot := by
    rintro rfl
    rcases assertThat_eq_ok hassert with h | h | h <;> cases h
  refine .bind (hI.evalLoop hsupported _ (hI.codeseparator _ hg)) fun g st hg => ?_
  exact lift_bind fun _ _ => .ret hg

end

end KeepsExecdata

end

end HcsCoin
