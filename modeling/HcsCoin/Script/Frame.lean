import HcsCoin.Script.Operands

/-!
# What a step leaves alone

Reading moves the iterator and nothing else does; only `OP_IF`, `OP_NOTIF` and
`OP_ENDIF` change how many conditionals are open, executed or not.  So the loop
needs no more rounds than the script has bytes, and the open conditionals are
those of the text read so far.
-/

namespace HcsCoin

open Foundation Interaction

/-- How many conditionals are open after an operation; `none` where there is none to close or
to switch. -/
def Operation.depthAfter (depth : Nat) : Operation → Option Nat
  | .ifNotIf _ => some (depth + 1)
  | .else => if depth = 0 then none else some depth
  | .endIf => if depth = 0 then none else some (depth - 1)
  | _ => some depth

/-- The conditionals left open by the operations of a script, read without executing it. -/
def conditionalDepth : Nat → Nat → Bytes → Option Nat
  | 0, depth, _ => some depth
  | rounds + 1, depth, pc =>
    if pc.isEmpty then some depth
    else do
      let (opcode, pc) ← CScript.getScriptOp pc
      let depth ← (operationOf opcode).depthAfter depth
      conditionalDepth rounds depth pc

/-- Every conditional of the script is closed, and none is closed or switched outside. -/
def ClosesConditionals (script : Bytes) : Prop := conditionalDepth script.length 0 script = some 0

structure Framed (op : Operation) (st st' : EvalState) : Prop where
  pc : st'.pc = st.pc
  depth : op.depthAfter st.vfExec.stackSize = some st'.vfExec.stackSize

section
variable {crypto : ScriptCrypto} {flags : ScriptVerifyFlags} {sigversion : SigVersion}

variable {st : EvalState} {opcode : UInt8} {st' : EvalState} {c : Prop} {op : Operation}
  {pc : Bytes}

theorem onStack_eq_ok {f : List Bytes → Except EvalFailure (List Bytes)}
    (h : onStack f st = .ok st') : ∃ stack, f st.stack = .ok stack ∧ st' = { st with stack } := by
  obtain ⟨stack, hstack, h⟩ := bind_eq_ok h
  cases h
  exact ⟨stack, hstack, rfl⟩

theorem assertThat_eq_ok [Decidable c] {u : Unit} (h : assertThat c = .ok u) : c := by
  rw [assertThat] at h
  split at h
  · assumption
  · cases h

theorem assertThat_bind_eq_ok {α : Type} [Decidable c] {f : Unit → Except EvalFailure α} {y : α}
    (h : (assertThat c >>= f) = .ok y) : c ∧ f () = .ok y := by
  rw [assertThat] at h
  split at h
  · exact ⟨‹_›, h⟩
  · cases h

/-- Operations that ask nothing keep the iterator and, but for the position of the last code
separator, the execution data. -/
theorem evalPlain_frame {fExec : Bool}
    (h : evalPlain crypto flags sigversion fExec st op = .ok st') :
    Framed op st st' ∧ ∃ pos, st'.execdata = { st.execdata with codeseparatorPos := pos } := by
  have hkept {f : List Bytes → Except EvalFailure (List Bytes)}
      (hdepth : op.depthAfter st.vfExec.stackSize = some st.vfExec.stackSize)
      (h : onStack f st = .ok st') :
      Framed op st st' ∧ ∃ pos, st'.execdata = { st.execdata with codeseparatorPos := pos } := by
    obtain ⟨stack, -, rfl⟩ := onStack_eq_ok h
    exact ⟨⟨rfl, hdepth⟩, _, rfl⟩
  cases op with
  | pushNumber n =>
    rw [evalPlain] at h
    exact hkept rfl h
  | nop | codeSeparator =>
    cases h
    exact ⟨⟨rfl, rfl⟩, _, rfl⟩
  | upgradableNop =>
    obtain ⟨-, h⟩ := rejectWhen_bind_eq_ok h
    cases h
    exact ⟨⟨rfl, rfl⟩, _, rfl⟩
  | ifNotIf notIf =>
    obtain ⟨⟨fValue, stack⟩, -, h⟩ := bind_eq_ok h
    cases h
    exact ⟨⟨rfl, rfl⟩, _, rfl⟩
  | «else» | endIf =>
    -- the assertion of `toggleTop` and `popBack` is that a conditional is open
    obtain ⟨-, h⟩ := rejectWhen_bind_eq_ok h
    obtain ⟨vfExec, hchange, h⟩ := bind_eq_ok h
    obtain ⟨hpos, hchange⟩ := assertThat_bind_eq_ok hchange
    cases h
    cases hchange
    exact ⟨⟨rfl, if_neg (Nat.ne_of_gt hpos)⟩, _, rfl⟩
  | «return» => cases h
  | toAltStack | fromAltStack =>
    obtain ⟨-, h⟩ := rejectWhen_bind_eq_ok h
    obtain ⟨vch, -, h⟩ := bind_eq_ok h
    obtain ⟨rest, -, h⟩ := bind_eq_ok h
    cases h
    exact ⟨⟨rfl, rfl⟩, _, rfl⟩
  | verify | stackOp _ | pickRoll _ | equal _ | unary _ | binary _ | within | hash _ =>
    exact hkept rfl h
  | _ => cases h

theorem evalOperation_frame (fExec : Bool) (st : EvalState) (op : Operation) :
    (evalOperation crypto flags sigversion fExec st op).Returns (Framed op st) := by
  cases op with
  | checkLockTimeVerify =>
    rw [evalOperation, evalCheckLockTimeVerify]
    split
    · exact .of_bind fun _ => .of_bind fun _ => .of_bind fun _ => .of_bind fun _ =>
        .of_bind fun _ => .of_bind fun _ => .ret ⟨rfl, rfl⟩
    · exact .ret ⟨rfl, rfl⟩
  | checkSequenceVerify =>
    rw [evalOperation, evalCheckSequenceVerify]
    split
    · refine .of_bind fun _ => .of_bind fun _ => .of_bind fun _ => .of_bind fun _ => ?_
      split
      · exact .ret ⟨rfl, rfl⟩
      · exact .of_bind fun _ => .of_bind fun _ => .ret ⟨rfl, rfl⟩
    · exact .ret ⟨rfl, rfl⟩
  | checkSig verify =>
    exact .of_bind fun _ => .of_bind fun _ => .of_bind fun _ => .of_bind fun _ =>
      .of_bind fun _ => .of_bind fun _ => .of_bind fun _ => .ret ⟨rfl, rfl⟩
  | checkSigAdd =>
    exact .of_bind fun _ => .of_bind fun _ => .of_bind fun _ => .of_bind fun _ =>
      .of_bind fun _ => .of_bind fun _ => .of_bind fun _ => .of_bind fun _ =>
      .of_bind fun _ => .of_bind fun _ => .ret ⟨rfl, rfl⟩
  | checkMultiSig verify =>
    refine .of_bind fun _ => .of_bind fun counts => ?_
    exact .of_bind fun _ => .of_bind fun _ => .of_bind fun _ => .ret ⟨rfl, rfl⟩
  | _ => exact .lift fun _ h => (evalPlain_frame h).1

/-! ## Steps and the loop -/

def Operation.isConditional : Operation → Bool
  | .ifNotIf _ | .else | .endIf => true
  | _ => false

theorem Operation.depthAfter_of_not_conditional (h : op.isConditional = false) (depth : Nat) :
    op.depthAfter depth = some depth := by
  cases op <;> first | rfl | cases h

theorem operationOf_push (h : opcode ≤ OP_PUSHDATA4) : operationOf opcode = .default := by
  have hall : ∀ opcode : UInt8, opcode ≤ OP_PUSHDATA4 → operationOf opcode = .default := by
    refine @(forall_byte ?_)
    decide +kernel
  exact hall opcode h

theorem isConditional_operationOf (h : (operationOf opcode).isConditional = true) :
    OP_IF ≤ opcode ∧ opcode ≤ OP_ENDIF := by
  have hall : ∀ opcode : UInt8, (operationOf opcode).isConditional = true →
      OP_IF ≤ opcode ∧ opcode ≤ OP_ENDIF := by
    refine @(forall_byte ?_)
    decide +kernel
  exact hall opcode h

theorem execInstruction_frame (opcode : UInt8) (vchPushValue : Bytes) (st : EvalState) :
    (execInstruction crypto flags sigversion opcode vchPushValue st).Returns
      (Framed (operationOf opcode) st) := by
  rw [execInstruction]
  split
  · rename_i hpush
    rw [operationOf_push hpush.2]
    exact .of_bind fun _ => .ret ⟨rfl, rfl⟩
  · split
    · exact evalOperation_frame _ _ _
    · rename_i hskip
      have hplain : (operationOf opcode).isConditional = false := by
        by_contra hcond
        exact hskip (.inr (isConditional_operationOf (Bool.eq_true_of_not_eq_false hcond)))
      exact .ret ⟨rfl, Operation.depthAfter_of_not_conditional hplain _⟩

theorem evalStep_frame {vchPushValue : Bytes}
    (hop : CScript.getOp st.pc = (some (opcode, vchPushValue), pc)) :
    (evalStep crypto flags sigversion st).Returns fun st' =>
      st'.pc = pc ∧ (operationOf opcode).depthAfter st.vfExec.stackSize =
        some st'.vfExec.stackSize := by
  simp only [evalStep, hop]
  refine .of_bind fun nOpCount => ?_
  refine Returns.bind (execInstruction_frame _ _ _) fun st' hst' => ?_
  exact .of_bind fun _ => .ret ⟨hst'.pc, hst'.depth⟩

theorem getScriptOp_of_getOp {rest data : Bytes}
    (hop : CScript.getOp pc = (some (opcode, data), rest)) :
    CScript.getScriptOp pc = some (opcode, rest) := by
  rw [CScript.getScriptOp_eq_getOp, hop]
  rfl

theorem evalStep_of_none (hop : CScript.getOp st.pc = (none, pc)) :
    evalStep crypto flags sigversion st = .fail (.error .badOpcode) := by
  simp only [evalStep, hop]

theorem evalLoop_depth (rounds : Nat) (st : EvalState) :
    (evalLoop crypto flags sigversion rounds st).Returns fun st' =>
      conditionalDepth rounds st.vfExec.stackSize st.pc = some st'.vfExec.stackSize := by
  induction rounds generalizing st with
  | zero => exact .ret rfl
  | succ rounds ih =>
    rw [evalLoop, conditionalDepth]
    split
    · exact .ret rfl
    · rcases hop : CScript.getOp st.pc with ⟨_ | ⟨opcode, data⟩, pc⟩
      · rw [evalStep_of_none hop]
        exact .fail trivial
      · refine Returns.bind (evalStep_frame hop) fun st' hst' => (ih st').mono fun _ st'' hst'' => ?_
        rw [hst'.1] at hst''
        rw [getScriptOp_of_getOp hop]
        change ((operationOf opcode).depthAfter st.vfExec.stackSize >>= fun depth =>
          conditionalDepth rounds depth pc) = _
        rw [hst'.2]
        exact hst''

end

end HcsCoin
