import HcsCoin.Script.SigOps
import HcsCoin.Script.Verify

/-!
# Signature checks of an input

The counts of the `scriptSig`, of the `scriptPubKey`, of the redeem script read
off the `scriptSig` and of the witness script bound the ECDSA checks of
`VerifyScript`: the scripts that are counted are those that are run.
-/

namespace HcsCoin

open Foundation Interaction CScript

section
variable {crypto : ScriptCrypto} {flags : ScriptVerifyFlags} {sigversion : SigVersion}
  {opcode : UInt8} {st : EvalState}

/-! ## The last push of a script -/

def sigOps (script : Bytes) : Nat := (getSigOpCount script true).toNat

/-- The top of the stack is the data pushed last, or a number, which as a script checks
nothing. -/
def TopPushed (vData : Bytes) (stack : List Bytes) : Prop :=
  ∀ top ∈ stack.head?, top = vData ∨ sigOps top = 0

theorem operationOf_pushOnly (hpush : ¬ opcode ≤ OP_PUSHDATA4) (h : opcode ≤ OP_16) :
    operationOf opcode = .default ∨
      ∃ n, operationOf opcode = .pushNumber n ∧ sigOps (CScriptNum.serialize n) = 0 := by
  have hall : ∀ opcode : UInt8, ¬ opcode ≤ OP_PUSHDATA4 → opcode ≤ OP_16 →
      operationOf opcode = .default ∨ operationOf opcode = .pushNumber (opcode.toNat - 0x50) ∧
        sigOps (CScriptNum.serialize (opcode.toNat - 0x50)) = 0 := by
    refine @(forall_byte ?_)
    decide +kernel
  exact (hall opcode hpush h).imp_right fun h => ⟨_, h⟩

theorem execInstruction_push {vchPushValue : Bytes} (hpush : opcode ≤ OP_16)
    (hexec : st.vfExec.allTrue = true) :
    (execInstruction crypto flags sigversion opcode vchPushValue st).Returns fun st' =>
      st'.vfExec = st.vfExec ∧ TopPushed vchPushValue st'.stack := by
  rw [execInstruction]
  split
  · exact .lift_bind fun _ _ => .ret ⟨rfl, fun top htop => .inl (by cases htop; rfl)⟩
  · rename_i hdata
    rw [if_pos (.inl hexec)]
    rcases operationOf_pushOnly (fun h => hdata ⟨hexec, h⟩) hpush with hop | ⟨n, hop, hn⟩
    · rw [hop]
      exact .fail trivial
    · rw [hop]
      refine .lift fun st' h => ?_
      rw [evalPlain, onStack] at h
      cases h
      refine ⟨rfl, fun top htop => .inr ?_⟩
      cases htop
      exact hn

theorem evalLoop_pushOnly {rounds : Nat} {vData : Bytes}
    (hpush : isPushOnlyFrom rounds st.pc = true) (hexec : st.vfExec.allTrue = true)
    (htop : TopPushed vData st.stack) :
    (evalLoop crypto flags sigversion rounds st).Returns fun st' =>
      ∃ vData', lastPushFrom rounds st.pc vData = some vData' ∧ TopPushed vData' st'.stack := by
  induction rounds generalizing st vData with
  | zero => exact .ret ⟨vData, rfl, htop⟩
  | succ rounds ih =>
    rw [evalLoop, lastPushFrom]
    rw [isPushOnlyFrom] at hpush
    split
    · exact .ret ⟨vData, rfl, htop⟩
    · rename_i hempty
      rw [if_neg hempty] at hpush
      rcases hop : getOp st.pc with ⟨_ | ⟨opcode, vchPushValue⟩, pc⟩
      · rw [evalStep_of_none hop]
        exact .fail trivial
      · simp only [getScriptOp_of_getOp hop] at hpush
        split at hpush
        · exact absurd hpush Bool.false_ne_true
        · rename_i hgt
          have hle : opcode ≤ OP_16 := UInt8.not_lt.mp hgt
          have hstep : (evalStep crypto flags sigversion st).Returns fun st' =>
              st'.vfExec = st.vfExec ∧ TopPushed vchPushValue st'.stack ∧ st'.pc = pc := by
            simp only [evalStep, hop]
            refine .of_bind fun nOpCount => ?_
            have hread : ({ st with nOpCount, pc } : EvalState).vfExec.allTrue = true := hexec
            refine .bind ((execInstruction_push hle hread).and_returns
              (execInstruction_frame _ _ _)) fun st' hst' => ?_
            obtain ⟨⟨hvf, htop'⟩, hframe⟩ := hst'
            exact .of_bind fun _ => .ret ⟨hvf, htop', hframe.pc⟩
          simp only [if_neg hgt]
          refine .bind hstep fun st' hst' => ?_
          obtain ⟨hvf, htop', hpc⟩ := hst'
          subst hpc
          exact ih hpush (by rw [hvf]; exact hexec) htop'

variable {scriptSig scriptPubKey : Bytes} {witness : List Bytes} {program : Bytes}
  {witnessOps version : Nat}

theorem evalBaseScript_pushOnly (hpush : isPushOnly scriptSig = true) :
    (evalBaseScript crypto flags [] scriptSig).Returns fun stack =>
      ∃ vData, lastPushFrom scriptSig.length scriptSig [] = some vData ∧ TopPushed vData stack := by
  refine .bind (R := fun result => ∃ vData, lastPushFrom scriptSig.length scriptSig [] =
    some vData ∧ TopPushed vData result.1) ?_ fun result h => .ret h
  refine .of_bind fun _ => .of_bind fun _ => ?_
  have hinit : TopPushed [] (initialState [] scriptSig {}).stack := nofun
  have hexec : (initialState [] scriptSig {}).vfExec.allTrue = true := rfl
  exact .bind (evalLoop_pushOnly hpush hexec hinit) fun st hst => .of_bind fun _ => .ret hst

/-! ## Witness programs -/

variable (sigversion : SigVersion) (stack : List Bytes)

variable (execScript : Bytes) (execdata : ScriptExecutionData)

theorem asksECDSA_runWitnessScript :
    AsksECDSA (ecdsaOps sigversion (sigOps execScript))
      (runWitnessScript crypto flags sigversion stack execScript execdata) fun _ => True := by
  refine .skip fun _ => ?_
  exact (asksECDSA_evalScript _ _ _).bind (m := 0) fun _ _ =>
    .skip fun _ => .lift fun _ _ => trivial

theorem asksECDSA_executeWitnessScript :
    AsksECDSA (ecdsaOps sigversion (sigOps execScript))
      (executeWitnessScript crypto flags sigversion stack execScript execdata) fun _ => True := by
  refine .ite (.skip fun _ => .ite (.lift fun _ _ => trivial) ?_)
    (asksECDSA_runWitnessScript _ _ _ _)
  exact .skip fun _ => asksECDSA_runWitnessScript _ _ _ _

theorem asksECDSA_verifyTaproot (witness : List Bytes) (program : Bytes) :
    AsksECDSA 0 (verifyTaproot crypto flags witness program) fun _ => True := by
  refine .skip fun _ => ?_
  rcases hstack : dropAnnex witness.reverse with ⟨annexHash, stack⟩
  dsimp only
  split
  · exact .fail _
  · exact (asksECDSA_checkSchnorrSignature _ _ _).bind (m := 0) fun _ _ => .lift fun _ _ => trivial
  · refine .skip fun _ => .skip fun _ => .ite ?_ (.lift fun _ _ => trivial)
    exact asksECDSA_executeWitnessScript .tapscript _ _ _

theorem sigOps_keyHashScript (h : program.length = WITNESS_V0_KEYHASH_SIZE) :
    sigOps (keyHashScript program) = 1 := by
  have hpush : pushData program = 0x14 :: program := by
    rw [pushData, h]
    rfl
  have hlength : (keyHashScript program).length = 25 := by
    rw [keyHashScript, hpush]
    simp [h, WITNESS_V0_KEYHASH_SIZE]
  have hread := getScriptOp_of_getOp
    (@getOp_pushData program (by rw [h]; decide) [OP_EQUALVERIFY, OP_CHECKSIG])
  rw [hpush, List.headD_cons, List.cons_append] at hread
  have hdup (rest : Bytes) : getScriptOp (OP_DUP :: rest) = some (OP_DUP, rest) := rfl
  have hhash (rest : Bytes) : getScriptOp (OP_HASH160 :: rest) = some (OP_HASH160, rest) := rfl
  rw [sigOps, toNat_getSigOpCount (by rw [hlength]; decide), hlength]
  simp only [keyHashScript, List.cons_append, List.nil_append,
    sigOpsFrom, hdup, hhash, hpush, hread]
  rfl

theorem asksECDSA_verifyWitnessV0 (witness : List Bytes) (program : Bytes) :
    AsksECDSA (witnessSigOps 0 program witness) (verifyWitnessV0 crypto flags witness program)
      fun _ => True := by
  rw [verifyWitnessV0]
  by_cases hscript : program.length = WITNESS_V0_SCRIPTHASH_SIZE
  · rw [if_pos hscript]
    split
    · exact .fail _
    · rename_i execScript stack hwitness
      have hlast : witness.getLast? = some execScript := by
        rw [← List.head?_reverse, hwitness]
        rfl
      have hops : witnessSigOps 0 program witness = sigOps execScript := by
        simp only [witnessSigOps, hscript, hlast]
        rfl
      rw [hops]
      exact .skip fun _ => asksECDSA_executeWitnessScript .witnessV0 _ _ _
  · rw [if_neg hscript]
    by_cases hkey : program.length = WITNESS_V0_KEYHASH_SIZE
    · have hops : witnessSigOps 0 program witness = sigOps (keyHashScript program) := by
        rw [sigOps_keyHashScript hkey, witnessSigOps, if_pos rfl, if_pos hkey]
      rw [if_pos hkey, hops]
      exact .skip fun _ => asksECDSA_executeWitnessScript .witnessV0 _ _ _
    · rw [if_neg hkey]
      exact .fail _

theorem asksECDSA_verifyWitnessProgram (witness : List Bytes) (witversion : Nat) (program : Bytes)
    (isP2sh : Bool) :
    AsksECDSA (witnessSigOps witversion program witness)
      (verifyWitnessProgram crypto flags witness witversion program isP2sh) fun _ => True := by
  rw [verifyWitnessProgram]
  by_cases hzero : witversion = 0
  · subst hzero
    rw [if_pos rfl]
    exact asksECDSA_verifyWitnessV0 witness program
  · rw [if_neg hzero, witnessSigOps, if_neg hzero]
    exact .ite (.ite (asksECDSA_verifyTaproot _ _) (.ret trivial))
      (.ite (.ret trivial) (.lift fun _ _ => trivial))

/-! ## All scripts of an input -/

theorem asksECDSA_evalBaseScript (script : Bytes) :
    AsksECDSA (sigOps script) (evalBaseScript crypto flags stack script) fun _ => True := by
  have heval : AsksECDSA (ecdsaOps .base (getSigOpCount script true).toNat)
      (evalScript crypto flags .base stack script {}) fun _ => True :=
    asksECDSA_evalScript stack script {}
  exact heval.bind (m := 0) fun _ _ => .ret trivial

theorem length_le_of_isWitnessProgram {script : Bytes}
    (h : isWitnessProgram script = some (version, program)) : script.length ≤ 42 := by
  rcases script with _ | ⟨opcode, _ | ⟨size, rest⟩⟩
  · cases h
  · cases h
  · rw [isWitnessProgram] at h
    split at h
    · cases h
    · simp only [List.length_cons]
      omega

theorem countWitnessSigOps_pushData {pubKey2 : Bytes} (hp2sh : .p2sh ∈ flags)
    (hwitness : .witness ∈ flags) (hscript : isPayToScriptHash scriptPubKey = true)
    (hprogram : isWitnessProgram pubKey2 = some (version, program)) :
    countWitnessSigOps (pushData pubKey2) scriptPubKey witness flags =
      some (witnessSigOps version program witness) := by
  have hlength := length_le_of_isWitnessProgram hprogram
  have hread := @getOp_pushData pubKey2 (by omega) []
  rw [List.append_nil] at hread
  obtain ⟨rounds, hrounds⟩ : ∃ rounds, (pushData pubKey2).length = rounds + 1 := by
    cases hpush : pushData pubKey2 with
    | nil =>
      rw [hpush] at hread
      cases hread
    | cons first rest => exact ⟨rest.length, rfl⟩
  have hempty : (pushData pubKey2).isEmpty = false := by
    rw [← Bool.not_eq_true, List.isEmpty_iff_length_eq_zero, hrounds]
    exact Nat.succ_ne_zero rounds
  have hop : ¬ (pushData pubKey2).headD 0 > OP_16 := by
    exact UInt8.not_lt.mpr (UInt8.le_trans (headD_pushData_le pubKey2) (by decide))
  have hpushOnly : isPushOnly (pushData pubKey2) = true := by
    simp only [isPushOnly, hrounds, isPushOnlyFrom, hempty, getScriptOp_of_getOp hread, if_neg hop]
    cases rounds <;> rfl
  have hlast : lastData (pushData pubKey2).length (pushData pubKey2) [] = pubKey2 := by
    simp only [hrounds, lastData, hempty, hread]
    cases rounds <;> rfl
  have hbare : isWitnessProgram scriptPubKey = none := by
    cases hbare : isWitnessProgram scriptPubKey with
    | none => rfl
    | some program =>
      rw [isPayToScriptHash_eq_false hbare] at hscript
      cases hscript
  simp [countWitnessSigOps, hp2sh, hwitness, hbare, hscript, hpushOnly, hlast, hprogram]

theorem asksECDSA_verifyRedeemScript
    {stackCopy stack : List Bytes} {hadWitness : Bool}
    (hp2sh : .p2sh ∈ flags) (hwitness : .witness ∈ flags)
    (hops : countWitnessSigOps scriptSig scriptPubKey witness flags = some witnessOps)
    (htop : isPushOnly scriptSig = true → ∃ vData,
      lastPushFrom scriptSig.length scriptSig [] = some vData ∧ TopPushed vData stackCopy) :
    AsksECDSA ((if isPayToScriptHash scriptPubKey = true then
        (getSigOpCountSpending scriptPubKey scriptSig).toNat else 0) + witnessOps)
      (verifyRedeemScript crypto flags scriptSig scriptPubKey witness stackCopy stack hadWitness)
      fun _ => True := by
  by_cases hscript : isPayToScriptHash scriptPubKey = true
  · unfold verifyRedeemScript
    rw [if_pos hscript, if_pos ⟨hp2sh, hscript⟩]
    refine .lift_bind fun _ hpushOnly => ?_
    obtain ⟨vData, hlast, htop⟩ := htop (Bool.not_eq_false _ ▸ rejectWhen_eq_ok hpushOnly)
    cases stackCopy with
    | nil => exact .fail _
    | cons pubKey2 rest =>
      have hredeem : sigOps pubKey2 ≤ (getSigOpCountSpending scriptPubKey scriptSig).toNat := by
        rw [getSigOpCountSpending, hscript, hlast]
        rcases htop pubKey2 rfl with rfl | hzero
        · exact Nat.le_refl _
        · rw [hzero]
          exact Nat.zero_le _
      refine ((asksECDSA_evalBaseScript _ _).mono hredeem fun _ h => h).bind fun stack _ => ?_
      refine .skip fun _ => ?_
      rw [verifyP2SHWitness, if_pos hwitness]
      split
      · exact .ret trivial
      · rename_i version program hprogram
        refine .lift_bind fun _ hmalleated => ?_
        obtain rfl := not_not.mp (rejectWhen_eq_ok hmalleated)
        rw [countWitnessSigOps_pushData hp2sh hwitness hscript hprogram] at hops
        cases hops
        exact (asksECDSA_verifyWitnessProgram _ _ _ _).bind (m := 0) fun _ _ => .ret trivial
  · rw [verifyRedeemScript_of_not fun h => hscript h.2]
    exact .ret trivial

def inputSigOps (scriptSig scriptPubKey : Bytes) : Nat :=
  sigOps scriptSig + sigOps scriptPubKey +
    if isPayToScriptHash scriptPubKey = true then
      (getSigOpCountSpending scriptPubKey scriptSig).toNat
    else 0

theorem asksECDSA_verifyScript (hp2sh : .p2sh ∈ flags) (hwitness : .witness ∈ flags)
    (hops : countWitnessSigOps scriptSig scriptPubKey witness flags = some witnessOps) :
    AsksECDSA (inputSigOps scriptSig scriptPubKey + witnessOps)
      (verifyScript crypto flags scriptSig scriptPubKey witness) fun _ => True := by
  have hpushed : (evalBaseScript crypto flags [] scriptSig).Returns fun stack =>
      isPushOnly scriptSig = true → ∃ vData,
        lastPushFrom scriptSig.length scriptSig [] = some vData ∧ TopPushed vData stack := by
    by_cases hpush : isPushOnly scriptSig = true
    · exact (evalBaseScript_pushOnly hpush).mono fun _ _ h _ => h
    · exact (Returns.trivial _).mono fun _ _ _ h => absurd h hpush
  rw [inputSigOps, Nat.add_assoc, Nat.add_assoc]
  refine .skip fun _ => ?_
  refine ((asksECDSA_evalBaseScript _ _).and_returns hpushed).bind fun stackCopy hstackCopy => ?_
  refine (asksECDSA_evalBaseScript _ _).bind fun stack _ => .skip fun _ => ?_
  rcases hprogram : isWitnessProgram scriptPubKey with _ | ⟨version, program⟩
  · rw [verifyTail_of_not_bare (.inr hprogram)]
    exact (asksECDSA_verifyRedeemScript hp2sh hwitness hops hstackCopy.2).bind (m := 0)
      fun _ _ => .lift fun _ _ => trivial
  · rw [verifyTail_of_bare hwitness hprogram]
    obtain rfl : witnessSigOps version program witness = witnessOps := by
      simpa [countWitnessSigOps, hp2sh, hwitness, hprogram] using hops
    refine Spends.mono ?_ (Nat.le_add_left _ _) fun _ h => h
    refine .skip fun _ => ?_
    exact (asksECDSA_verifyWitnessProgram _ _ _ _).bind (m := 0) fun _ _ => .lift fun _ _ => trivial

theorem exists_countWitnessSigOps (scriptSig scriptPubKey : Bytes) (witness : List Bytes)
    (hp2sh : .p2sh ∈ flags) :
    ∃ witnessOps, countWitnessSigOps scriptSig scriptPubKey witness flags = some witnessOps := by
  simp only [countWitnessSigOps, not_true, hp2sh, if_false]
  split
  · exact ⟨_, rfl⟩
  · split
    · exact ⟨_, rfl⟩
    · split
      · split <;> exact ⟨_, rfl⟩
      · exact ⟨_, rfl⟩

/-! ## Schnorr checks of an input -/

def schnorrLimit (witness : List Bytes) : Nat := (getSerializeSize witness + 50) / 50

theorem paysFor_empty (h : execdata.validationWeightLeft = none) (n : Int) :
    PaysFor n execdata := by
  intro left hleft
  rw [h] at hleft
  cases hleft

section
variable {n : Nat}

abbrev AsksSchnorr {α : Type} (n : Nat) (p : Checked α) : Prop :=
  Spends CheckerCall.isTapscriptSchnorr WeightNotRaised n p fun _ => True

theorem asksSchnorr_executeWitnessScript {sigversion : SigVersion}
    {execdata : ScriptExecutionData} (hpays : PaysFor n execdata) (stack : List Bytes)
    (execScript : Bytes) :
    AsksSchnorr n (executeWitnessScript crypto flags sigversion stack execScript execdata) := by
  have hrun : AsksSchnorr n (runWitnessScript crypto flags sigversion stack execScript execdata) :=
    .skip fun _ => (spends_evalScript_weight hpays stack execScript).bind (m := 0)
      fun _ _ => .skip fun _ => .lift fun _ _ => trivial
  exact .ite (.skip fun _ => .ite (.lift fun _ _ => trivial) (.skip fun _ => hrun)) hrun

theorem asksSchnorr_evalBaseScript (stack : List Bytes) (script : Bytes) :
    AsksSchnorr 0 (evalBaseScript crypto flags stack script) :=
  (spends_evalScript_weight (paysFor_empty {} rfl 0) stack script).bind (m := 0) fun _ _ =>
    .ret trivial

theorem asksSchnorr_verifyTaproot (witness : List Bytes) (program : Bytes) :
    AsksSchnorr (schnorrLimit witness) (verifyTaproot crypto flags witness program) := by
  refine .skip fun _ => ?_
  rcases hstack : dropAnnex witness.reverse with ⟨annexHash, stack⟩
  dsimp only
  split
  · exact .fail _
  · rename_i sig
    have hkey : AsksSchnorr 0 (checkSchnorrSignature sig program .taproot
        { annexHash := some annexHash }) :=
      Spends.call (q := CheckerCall.checkSchnorrSignature sig program .taproot _) fun _ _ => trivial
    exact (hkey.mono (Nat.zero_le _) fun _ h => h).bind (m := 0) fun _ _ => .lift fun _ _ => trivial
  · refine .skip fun _ => .skip fun _ => .ite ?_ (.lift fun _ _ => trivial)
    refine asksSchnorr_executeWitnessScript ?_ _ _
    rintro left ⟨⟩
    rw [schnorrLimit, VALIDATION_WEIGHT_OFFSET, VALIDATION_WEIGHT_PER_SIGOP_PASSED]
    omega

theorem asksSchnorr_verifyWitnessV0 (witness : List Bytes) (program : Bytes) :
    AsksSchnorr 0 (verifyWitnessV0 crypto flags witness program) := by
  rw [verifyWitnessV0]
  split
  · split
    · exact .fail _
    · exact .skip fun _ => asksSchnorr_executeWitnessScript (paysFor_empty {} rfl _) _ _
  · refine .ite ?_ (.fail _)
    exact .skip fun _ => asksSchnorr_executeWitnessScript (paysFor_empty {} rfl _) _ _

theorem asksSchnorr_verifyWitnessProgram (witness : List Bytes) (witversion : Nat)
    (program : Bytes) (isP2sh : Bool) :
    AsksSchnorr (if isP2sh then 0 else schnorrLimit witness)
      (verifyWitnessProgram crypto flags witness witversion program isP2sh) := by
  have hv0 (n : Nat) : AsksSchnorr n (verifyWitnessV0 crypto flags witness program) :=
    (asksSchnorr_verifyWitnessV0 witness program).mono (Nat.zero_le n) fun _ h => h
  cases isP2sh with
  | true =>
    rw [if_pos rfl]
    refine .ite (hv0 _) ?_
    rw [if_neg fun h => Bool.noConfusion h.2.2]
    exact .ite (.ret trivial) (.lift fun _ _ => trivial)
  | false =>
    refine .ite (hv0 _) ?_
    exact .ite (.ite (asksSchnorr_verifyTaproot _ _) (.ret trivial))
      (.ite (.ret trivial) (.lift fun _ _ => trivial))

theorem asksSchnorr_verifyScript (scriptSig scriptPubKey : Bytes) (witness : List Bytes) :
    AsksSchnorr (schnorrLimit witness)
      (verifyScript crypto flags scriptSig scriptPubKey witness) := by
  refine .skip fun _ => ?_
  rw [← Nat.zero_add (schnorrLimit witness)]
  refine (asksSchnorr_evalBaseScript _ _).bind fun stackCopy _ => ?_
  rw [← Nat.zero_add (schnorrLimit witness)]
  refine (asksSchnorr_evalBaseScript _ _).bind fun stack _ => .skip fun _ => ?_
  have hbare : AsksSchnorr (schnorrLimit witness)
      (verifyBareWitness crypto flags scriptSig scriptPubKey witness stack) := by
    rw [verifyBareWitness]
    split
    · split
      · exact .ret trivial
      · refine .skip fun _ => ?_
        exact (asksSchnorr_verifyWitnessProgram _ _ _ false).bind (m := 0) fun _ _ => .ret trivial
    · exact .ret trivial
  refine hbare.bind (m := 0) fun bare _ => ?_
  refine Spends.bind (n := 0) (m := 0) (R := fun _ => True) ?_ fun _ _ => .lift fun _ _ => trivial
  unfold verifyRedeemScript
  split
  · refine .skip fun _ => ?_
    cases stackCopy with
    | nil => exact .fail _
    | cons pubKey2 rest =>
      refine (asksSchnorr_evalBaseScript _ _).bind (m := 0) fun stack _ => .skip fun _ => ?_
      rw [verifyP2SHWitness]
      split
      · split
        · exact .ret trivial
        · refine .skip fun _ => ?_
          exact (asksSchnorr_verifyWitnessProgram _ _ _ true).bind (m := 0)
            fun _ _ => .ret trivial
      · exact .ret trivial
  · exact .ret trivial

end

end

def SignatureChecker.LowersWeight {σ : Type} (checker : SignatureChecker σ) : Prop :=
  ∀ q s a s', checker.handler q s = (.ok a, s') → WeightNotRaised q a

/-- With any checker, the counts bound the ECDSA checks; and with one that does not add to the
validation weight, the size of the witness bounds the Schnorr checks of a tapscript. -/
theorem verifyScript_signature_checks {flags : ScriptVerifyFlags} (hp2sh : .p2sh ∈ flags)
    (hwitness : .witness ∈ flags) (crypto : ScriptCrypto) (scriptSig scriptPubKey : Bytes)
    (witness : List Bytes) {σ : Type} (checker : SignatureChecker σ) (s : σ) :
    let calls := (verifyScript crypto flags scriptSig scriptPubKey witness).asked checker.handler s
    (∃ witnessOps, countWitnessSigOps scriptSig scriptPubKey witness flags = some witnessOps ∧
      calls.countP CheckerCall.isECDSA ≤
        (getSigOpCount scriptSig true).toNat +
          (getSigOpCount scriptPubKey true).toNat +
          (if isPayToScriptHash scriptPubKey = true then
            (getSigOpCountSpending scriptPubKey scriptSig).toNat else 0) + witnessOps) ∧
      (checker.LowersWeight →
        calls.countP CheckerCall.isTapscriptSchnorr ≤ (getSerializeSize witness + 50) / 50) := by
  constructor
  · obtain ⟨witnessOps, hops⟩ := exists_countWitnessSigOps scriptSig scriptPubKey witness hp2sh
    refine ⟨witnessOps, hops, ?_⟩
    exact (asksECDSA_verifyScript hp2sh hwitness hops).countP_asked_le (fun _ _ _ _ _ => trivial) s
  · intro hlowers
    exact (asksSchnorr_verifyScript scriptSig scriptPubKey witness).countP_asked_le hlowers s

def schnorrChecker (pass : ScriptExecutionData → ScriptExecutionData) : SignatureChecker Unit where
  checkECDSASignature _ _ _ _ s := (.ok false, s)
  checkSchnorrSignature _ _ _ execdata s := (.ok ⟨true, pass execdata, .ok⟩, s)
  checkLockTime _ _ := .ok false
  checkSequence _ _ := .ok false

def refillingChecker : SignatureChecker Unit :=
  schnorrChecker ({ · with validationWeightLeft := some 1000 })

def fourChecks : List Bytes :=
  [[1], 0x20 :: List.replicate 32 2 ++ [0x6e, 0xad, 0x6e, 0xad, 0x6e, 0xad, 0x6e, 0xad],
    TAPROOT_LEAF_TAPSCRIPT :: List.replicate 32 3]

theorem verifyScript_signature_checks_pubKey :
    (let calls := (verifyScript unusedCrypto {.p2sh, .witness} [OP_0] [0x01, 0x02, OP_CHECKSIG]
      []).asked refusingChecker.handler ()
    calls.countP CheckerCall.isECDSA = 1 ∧
      ∃ witnessOps, countWitnessSigOps [OP_0] [0x01, 0x02, OP_CHECKSIG] [] {.p2sh, .witness} =
        some witnessOps ∧ calls.countP CheckerCall.isECDSA ≤ 0 + 1 + 0 + witnessOps) ∧
    let calls := (verifyScript unusedCrypto {.p2sh, .witness, .taproot} []
      (OP_1 :: 0x20 :: List.replicate 32 4) fourChecks).asked (schnorrChecker id).handler ()
    calls.countP CheckerCall.isTapscriptSchnorr = 2 ∧
      calls.countP CheckerCall.isTapscriptSchnorr ≤ (getSerializeSize fourChecks + 50) / 50 := by
  have hlowers : (schnorrChecker id).LowersWeight := by
    intro q s a s' h
    cases q with
    | checkSchnorrSignature =>
      obtain rfl := Except.ok.inj (congrArg Prod.fst h)
      exact fun left hleft => ⟨left, hleft, le_rfl⟩
    | _ => trivial
  exact ⟨⟨by decide +kernel, (verifyScript_signature_checks (by decide) (by decide) unusedCrypto
    [OP_0] [0x01, 0x02, OP_CHECKSIG] [] refusingChecker ()).1⟩, by decide +kernel,
    (verifyScript_signature_checks (by decide) (by decide) unusedCrypto [] _ fourChecks
      (schnorrChecker id) ()).2 hlowers⟩

/-- With a checker that refills the weight, four checks are made where the witness pays for
two. -/
theorem verifyScript_schnorr_refilled :
    schnorrLimit fourChecks = 2 ∧
      ((verifyScript unusedCrypto {.p2sh, .witness, .taproot} []
        (OP_1 :: 0x20 :: List.replicate 32 4) fourChecks).asked refillingChecker.handler
          ()).countP CheckerCall.isTapscriptSchnorr = 4 := by
  decide +kernel

end HcsCoin
