import HcsCoin.Script.Frame

/-!
# The interpreter reports its failures

No operation reaches outside the stack, so a run never ends with the code for a
stray exception, and no assertion fails.  Elements stay short and the stacks stay
within their limit after every operation.
-/

namespace HcsCoin

open Foundation Interaction

/-! ## Elements an operation may leave -/

def StackGrown (stack stack' : List Bytes) : Prop :=
  ∀ vch ∈ stack', vch ∈ stack ∨ vch.length ≤ MAX_SCRIPT_ELEMENT_SIZE

def Small (stack : List Bytes) : Prop := ∀ vch ∈ stack, vch.length ≤ MAX_SCRIPT_ELEMENT_SIZE

namespace StackGrown

variable {stack stack' : List Bytes} {vch : Bytes}

theorem of_subset (h : stack' ⊆ stack) : StackGrown stack stack' := fun _ hv => .inl (h hv)

theorem refl (stack : List Bytes) : StackGrown stack stack := of_subset (List.Subset.refl _)

theorem cons_mem (hv : vch ∈ stack) (h : StackGrown stack stack') : StackGrown stack (vch :: stack') :=
  List.forall_mem_cons.mpr ⟨.inl hv, h⟩

theorem cons_short (hv : vch.length ≤ MAX_SCRIPT_ELEMENT_SIZE) (h : StackGrown stack stack') :
    StackGrown stack (vch :: stack') :=
  List.forall_mem_cons.mpr ⟨.inr hv, h⟩

theorem small (h : StackGrown stack stack') (hsmall : Small stack) : Small stack' :=
  fun vch hv => (h vch hv).elim (hsmall vch) id

end StackGrown

theorem length_serialize_le_element (value : Int) :
    (CScriptNum.serialize value).length ≤ MAX_SCRIPT_ELEMENT_SIZE :=
  (CScriptNum.length_serialize_le value).trans (by decide)

theorem length_vchOfBool_le (fValue : Bool) :
    (vchOfBool fValue).length ≤ MAX_SCRIPT_ELEMENT_SIZE := by
  cases fValue <;> decide

theorem length_hash_le (crypto : ScriptCrypto) (vch : Bytes) (op : HashOp) :
    (op.apply crypto vch).length ≤ MAX_SCRIPT_ELEMENT_SIZE := by
  cases op <;> exact (BaseBlob.size_eq _).trans_le (by decide)

/-! ## Operations on the stack alone -/

variable {E : EvalFailure → Prop} {stack : List Bytes}

theorem ensures_swapTop {i j : Nat} (hi : i < stack.length) (hj : j < stack.length) :
    Ensures E (swapTop stack (i + 1) (j + 1))
      (fun stack' => stack'.length = stack.length ∧ stack' ⊆ stack) := by
  refine (ensures_stacktop hi).bind fun vchi hvchi => (ensures_stacktop hj).bind fun vchj hvchj => ?_
  refine .pure ⟨by simp, fun vch hv => ?_⟩
  rcases List.mem_or_eq_of_mem_set hv with hv | rfl
  · rcases List.mem_or_eq_of_mem_set hv with hv | rfl
    · exact hv
    · exact hvchj
  · exact hvchi

theorem tail_tail_subset (stack : List Bytes) : stack.tail.tail ⊆ stack :=
  List.Subset.trans (List.tail_subset _) (List.tail_subset _)

theorem take_append_drop_subset (stack : List Bytes) (i j : Nat) :
    stack.take i ++ stack.drop j ⊆ stack :=
  List.append_subset.mpr ⟨List.take_subset _ _, List.drop_subset _ _⟩

variable {stack' : List Bytes}

theorem grown_of_verifyResult {rest : List Bytes} {vch : Bytes} (hsub : rest ⊆ stack)
    (hv : vch.length ≤ MAX_SCRIPT_ELEMENT_SIZE) (h : stack' = rest ∨ stack' = vch :: rest) :
    StackGrown stack stack' := by
  rcases h with rfl | rfl
  · exact .of_subset hsub
  · exact .cons_short hv (.of_subset hsub)

theorem ensures_popTwice (h : 2 ≤ stack.length) {α : Type} {P : α → Prop}
    {f : List Bytes → Except EvalFailure α} (hf : Ensures E (f stack.tail.tail) P) :
    Ensures E (popstack stack >>= fun stack => popstack stack >>= f) P := by
  refine (ensures_popstack (by omega)).bind fun stack₁ h₁ => ?_
  subst h₁
  refine (ensures_popstack (by rw [List.length_tail]; omega)).bind fun stack₂ h₂ => ?_
  subst h₂
  exact hf

theorem ensures_unaryApply (op : UnaryOp) {bn : Int} (hbn : bn.natAbs < 2 ^ 31) :
    Ensures E (op.apply bn) fun _ => True := by
  have hchecked {n : Int} (hn : n.natAbs < 2 ^ 32) : Ensures E (checkedInt64 n) fun _ => True :=
    (ensures_assertThat (by omega)).bind fun _ _ => .pure trivial
  cases op with
  | add1 | sub1 | negate => exact hchecked (by omega)
  | abs =>
    rw [UnaryOp.apply]
    split
    · exact hchecked (by omega)
    · exact .ok trivial
  | not => exact .ok trivial
  | notEqual0 => exact .ok trivial

section
variable {E : EvalFailure → Prop} (hE : AdmitsReported E)
include hE

variable {α : Type} {P : α → Prop}

theorem ensures_of_size {f : Unit → Except EvalFailure α} {size need : Nat}
    (hf : need ≤ size → Ensures E (f ()) P) :
    Ensures E (rejectWhen (size < need) .invalidStackOperation >>= f) P :=
  (ensures_rejectWhen hE (by decide)).bind fun _ h => hf (Nat.le_of_not_lt h)

theorem ensures_evalVerify (stack : List Bytes) : Ensures E (evalVerify stack) (StackGrown stack) := by
  refine ensures_of_size hE fun hsize => ?_
  refine (ensures_stacktop hsize).bind fun _ _ => ?_
  refine (ensures_rejectWhen hE (by decide)).bind fun _ _ => ?_
  refine (ensures_popstack hsize).mono ?_
  rintro _ rfl
  exact .of_subset (List.tail_subset stack)

theorem ensures_evalStackOp (op : StackOp) (stack : List Bytes) :
    Ensures E (evalStackOp op stack) (StackGrown stack) := by
  cases op with
  | twoDrop =>
    refine ensures_of_size hE fun hsize => ?_
    refine (ensures_popstack (by omega)).bind fun stack₁ h₁ => ?_
    subst h₁
    refine (ensures_popstack (by rw [List.length_tail]; omega)).mono ?_
    rintro _ rfl
    exact .of_subset (tail_tail_subset _)
  | twoDup | twoOver =>
    refine ensures_of_size hE fun hsize => ?_
    refine (ensures_stacktop (by omega)).bind fun vch1 h1 => ?_
    refine (ensures_stacktop (by omega)).bind fun vch2 h2 => ?_
    exact .pure (.cons_mem h2 (.cons_mem h1 (.refl _)))
  | threeDup =>
    refine ensures_of_size hE fun hsize => ?_
    refine (ensures_stacktop (by omega)).bind fun vch1 h1 => ?_
    refine (ensures_stacktop (by omega)).bind fun vch2 h2 => ?_
    refine (ensures_stacktop (by omega)).bind fun vch3 h3 => ?_
    exact .pure (.cons_mem h3 (.cons_mem h2 (.cons_mem h1 (.refl _))))
  | twoRot =>
    refine ensures_of_size hE fun hsize => ?_
    refine (ensures_stacktop (by omega)).bind fun vch1 h1 => ?_
    refine (ensures_stacktop (by omega)).bind fun vch2 h2 => ?_
    refine (ensures_eraseTop hsize).bind fun rest hrest => ?_
    subst hrest
    exact .pure (.cons_mem h2 (.cons_mem h1 (.of_subset (take_append_drop_subset _ _ _))))
  | twoSwap | rot =>
    refine ensures_of_size hE fun hsize => ?_
    refine (ensures_swapTop (by omega) (by omega)).bind fun stack₁ h₁ => ?_
    refine (ensures_swapTop (by omega) (by omega)).mono fun stack₂ h₂ => ?_
    exact .of_subset (List.Subset.trans h₂.2 h₁.2)
  | ifDup =>
    refine ensures_of_size hE fun hsize => ?_
    refine (ensures_stacktop hsize).bind fun vch hv => .pure ?_
    split
    · exact .cons_mem hv (.refl _)
    · exact .refl _
  | depth => exact .pure (.cons_short (length_serialize_le_element _) (.refl _))
  | drop =>
    refine ensures_of_size hE fun hsize => ?_
    refine (ensures_popstack hsize).mono ?_
    rintro _ rfl
    exact .of_subset (List.tail_subset _)
  | dup | opOver =>
    refine ensures_of_size hE fun hsize => ?_
    exact (ensures_stacktop (by omega)).bind fun vch hv => .pure (.cons_mem hv (.refl _))
  | nip =>
    refine ensures_of_size hE fun hsize => ?_
    refine (ensures_eraseTop hsize).mono ?_
    rintro _ rfl
    exact .of_subset (take_append_drop_subset _ _ _)
  | swap =>
    refine ensures_of_size hE fun hsize => ?_
    exact (ensures_swapTop (by omega) (by omega)).mono fun _ h => .of_subset h.2
  | tuck =>
    refine ensures_of_size hE fun hsize => ?_
    refine (ensures_stacktop (by omega)).bind fun vch hv => ?_
    refine (ensures_insertTop hsize).mono ?_
    rintro _ rfl
    refine .of_subset (List.append_subset.mpr ⟨List.take_subset _ _, ?_⟩)
    exact List.cons_subset.mpr ⟨hv, List.drop_subset _ _⟩
  | size =>
    refine ensures_of_size hE fun hsize => ?_
    refine (ensures_stacktop hsize).bind fun vch _ => ?_
    exact .pure (.cons_short (length_serialize_le_element _) (.refl _))

theorem ensures_evalPickRoll (fRequireMinimal roll : Bool) (stack : List Bytes) :
    Ensures E (evalPickRoll fRequireMinimal roll stack) (StackGrown stack) := by
  refine ensures_of_size hE fun hsize => ?_
  refine ensures_operand hE (by omega) fun n _ => ?_
  refine (ensures_popstack (by omega)).bind fun rest hrest => ?_
  refine (ensures_rejectWhen hE (by decide)).bind fun _ hn => ?_
  have hint := intSize_le rest.length
  have hlt : (CScriptNum.getint n).toNat < rest.length := by omega
  have hsub : rest ⊆ stack := hrest ▸ List.tail_subset stack
  refine (ensures_stacktop hlt).bind fun vch hv => ?_
  cases roll with
  | true =>
    refine (ensures_eraseTop hlt).bind fun erased herased => ?_
    subst herased
    exact .pure (.cons_mem (hsub hv)
      (.of_subset (List.Subset.trans (take_append_drop_subset _ _ _) hsub)))
  | false => exact .pure (.cons_mem (hsub hv) (.of_subset hsub))

theorem ensures_verifyResult {verify fSuccess : Bool} {serror : ScriptError} {stack : List Bytes}
    {vch : Bytes} (hserror : serror ≠ .ok ∧ serror ≠ .unknownError) :
    Ensures E (verifyResult verify fSuccess serror (vch :: stack))
      (fun stack' => stack' = stack ∨ stack' = vch :: stack) := by
  cases verify with
  | true => exact (ensures_rejectWhen hE hserror).bind fun _ _ => .ok (.inl rfl)
  | false => exact .ok (.inr rfl)

theorem ensures_evalEqual (verify : Bool) (stack : List Bytes) :
    Ensures E (evalEqual verify stack) (StackGrown stack) := by
  refine ensures_of_size hE fun hsize => ?_
  refine (ensures_stacktop (by omega)).bind fun _ _ => ?_
  refine (ensures_stacktop (by omega)).bind fun _ _ => ?_
  refine ensures_popTwice hsize ?_
  exact (ensures_verifyResult hE (by decide)).mono fun _ => grown_of_verifyResult
    (tail_tail_subset _) (length_vchOfBool_le _)

theorem ensures_evalUnary (fRequireMinimal : Bool) (op : UnaryOp) (stack : List Bytes) :
    Ensures E (evalUnary fRequireMinimal op stack) (StackGrown stack) := by
  refine ensures_of_size hE fun hsize => ?_
  refine ensures_operand hE hsize fun bn hbn => ?_
  refine (ensures_unaryApply op hbn).bind fun bn' _ => ?_
  refine (ensures_popstack hsize).bind fun rest hrest => ?_
  subst hrest
  exact .pure (.cons_short (length_serialize_le_element _) (.of_subset (List.tail_subset _)))

theorem ensures_evalBinary (fRequireMinimal : Bool) (op : BinaryOp) (stack : List Bytes) :
    Ensures E (evalBinary fRequireMinimal op stack) (StackGrown stack) := by
  refine ensures_of_size hE fun hsize => ?_
  refine ensures_operand hE (by omega) fun _ _ => ?_
  refine ensures_operand hE (by omega) fun _ _ => ?_
  refine ensures_popTwice hsize ?_
  exact (ensures_verifyResult hE (by decide)).mono fun _ => grown_of_verifyResult
    (tail_tail_subset _) (length_serialize_le_element _)

theorem ensures_evalWithin (fRequireMinimal : Bool) (stack : List Bytes) :
    Ensures E (evalWithin fRequireMinimal stack) (StackGrown stack) := by
  refine ensures_of_size hE fun hsize => ?_
  refine ensures_operand hE (by omega) fun _ _ => ?_
  refine ensures_operand hE (by omega) fun _ _ => ?_
  refine ensures_operand hE (by omega) fun _ _ => ?_
  refine ensures_popTwice (by omega) ?_
  refine (ensures_popstack (by simp only [List.length_tail]; omega)).bind fun rest hrest => ?_
  subst hrest
  exact .pure (.cons_short (length_vchOfBool_le _) (.of_subset
    (List.Subset.trans (List.tail_subset _) (tail_tail_subset _))))

theorem ensures_evalHash (crypto : ScriptCrypto) (op : HashOp) (stack : List Bytes) :
    Ensures E (evalHash crypto op stack) (StackGrown stack) := by
  refine ensures_of_size hE fun hsize => ?_
  refine (ensures_stacktop hsize).bind fun vch _ => ?_
  refine (ensures_popstack hsize).bind fun rest hrest => ?_
  subst hrest
  exact .pure (.cons_short (length_hash_le _ _ _) (.of_subset (List.tail_subset _)))

/-! ## The cases that ask the checker nothing -/

omit hE in
theorem ensures_error {e : EvalFailure} (h : E e) : Ensures E (.error e : Except EvalFailure α) P :=
  ⟨nofun, fun _ he => by cases he; exact h⟩

theorem ensures_evalCondition (flags : ScriptVerifyFlags) (sigversion : SigVersion)
    (fExec notIf : Bool) (stack : List Bytes) :
    Ensures E (evalCondition flags sigversion fExec notIf stack)
      (fun result => result.2 ⊆ stack) := by
  cases fExec with
  | false => exact .ok (List.Subset.refl _)
  | true =>
    refine ensures_of_size hE fun hsize => ?_
    refine (ensures_stacktop hsize).bind fun _ _ => ?_
    refine (ensures_rejectWhen hE (by decide)).bind fun _ _ => ?_
    refine (ensures_rejectWhen hE (by decide)).bind fun _ _ => ?_
    refine (ensures_popstack hsize).bind fun rest hrest => ?_
    subst hrest
    exact .pure (List.tail_subset _)

end

def EvalState.elements (st : EvalState) : List Bytes := st.stack ++ st.altstack

theorem StackGrown.append (h : StackGrown stack stack') (altstack : List Bytes) :
    StackGrown (stack ++ altstack) (stack' ++ altstack) := by
  intro vch hv
  rcases List.mem_append.mp hv with hv | hv
  · exact (h vch hv).imp_left (List.mem_append_left _)
  · exact .inl (List.mem_append_right _ hv)

section
variable {E : EvalFailure → Prop} (hE : AdmitsReported E) {crypto : ScriptCrypto}
  {flags : ScriptVerifyFlags} {sigversion : SigVersion}
include hE

theorem ensures_evalPlain (fExec : Bool) (st : EvalState) (op : Operation) :
    Ensures E (evalPlain crypto flags sigversion fExec st op)
      (fun st' => StackGrown st.elements st'.elements) := by
  have onStack {f : List Bytes → Except EvalFailure (List Bytes)}
      (hf : Ensures E (f st.stack) (StackGrown st.stack)) :
      Ensures E (onStack f st) (fun st' => StackGrown st.elements st'.elements) :=
    hf.bind fun stack hstack => .pure (hstack.append st.altstack)
  have hbad : E (.error .badOpcode) := Reported.admits hE (by decide)
  cases op with
  | pushNumber n =>
    rw [evalPlain]
    exact onStack (.ok (.cons_short (length_serialize_le_element _) (.refl _)))
  | nop => exact .ok (.refl _)
  | upgradableNop => exact (ensures_rejectWhen hE (by decide)).bind fun _ _ => .pure (.refl _)
  | ifNotIf notIf =>
    refine (ensures_evalCondition hE _ _ _ _ _).bind fun result hresult => .pure ?_
    exact (StackGrown.of_subset hresult).append st.altstack
  | «else» =>
    refine (ensures_rejectWhen hE (by decide)).bind fun _ hopen => ?_
    have hpos : 0 < st.vfExec.stackSize := by
      simpa [ConditionStack.empty, Nat.pos_iff_ne_zero] using hopen
    have htoggle : Ensures E st.vfExec.toggleTop fun _ => True :=
      (ensures_assertThat hpos).bind fun _ _ => .pure trivial
    exact htoggle.bind fun _ _ => .pure (.refl _)
  | endIf =>
    refine (ensures_rejectWhen hE (by decide)).bind fun _ hopen => ?_
    have hpos : 0 < st.vfExec.stackSize := by
      simpa [ConditionStack.empty, Nat.pos_iff_ne_zero] using hopen
    have hpop : Ensures E st.vfExec.popBack fun _ => True :=
      (ensures_assertThat hpos).bind fun _ _ => .pure trivial
    exact hpop.bind fun _ _ => .pure (.refl _)
  | verify => exact onStack (ensures_evalVerify hE _)
  | «return» => exact ensures_error (Reported.admits hE (by decide))
  | toAltStack =>
    refine ensures_of_size hE fun hsize => ?_
    refine (ensures_stacktop hsize).bind fun vch hv => ?_
    refine (ensures_popstack hsize).bind fun rest hrest => .pure ?_
    subst hrest
    refine .of_subset (List.append_subset.mpr ⟨?_, List.cons_subset.mpr ⟨?_, ?_⟩⟩)
    · exact List.Subset.trans (List.tail_subset _) (List.subset_append_left _ _)
    · exact List.mem_append_left _ hv
    · exact List.subset_append_right _ _
  | fromAltStack =>
    refine (ensures_rejectWhen hE (by decide)).bind fun _ hempty => ?_
    have hsize := Nat.le_of_not_lt hempty
    refine (ensures_stacktop hsize).bind fun vch hv => ?_
    refine (ensures_popstack hsize).bind fun rest hrest => .pure ?_
    subst hrest
    refine .of_subset (List.append_subset.mpr ⟨List.cons_subset.mpr ⟨?_, ?_⟩, ?_⟩)
    · exact List.mem_append_right _ hv
    · exact List.subset_append_left _ _
    · exact List.Subset.trans (List.tail_subset _) (List.subset_append_right _ _)
  | stackOp op => exact onStack (ensures_evalStackOp hE op _)
  | pickRoll roll => exact onStack (ensures_evalPickRoll hE _ roll _)
  | equal verify => exact onStack (ensures_evalEqual hE verify _)
  | unary op => exact onStack (ensures_evalUnary hE _ op _)
  | binary op => exact onStack (ensures_evalBinary hE _ op _)
  | within => exact onStack (ensures_evalWithin hE _ _)
  | hash op => exact onStack (ensures_evalHash hE crypto op _)
  | codeSeparator => exact .ok (.refl _)
  | _ => exact ensures_error hbad

/-! ## Encodings and script code -/

theorem ensures_checkSignatureEncoding (vchSig : Bytes) :
    Ensures E (checkSignatureEncoding crypto flags vchSig) fun _ => True := by
  rw [checkSignatureEncoding]
  split
  · exact .ok trivial
  · split
    · exact ensures_error (Reported.admits hE (by decide))
    · have hlow : Ensures E (if .lowS ∈ flags then isLowDERSignature crypto vchSig else .ok ())
          fun _ => True := by
        split
        · exact (ensures_rejectWhen hE (by decide)).bind fun _ _ =>
            (ensures_rejectWhen hE (by decide)).mono fun _ _ => trivial
        · exact .ok trivial
      exact hlow.bind fun _ _ => (ensures_rejectWhen hE (by decide)).mono fun _ _ => trivial

theorem ensures_checkPubKeyEncoding (vchPubKey : Bytes) :
    Ensures E (checkPubKeyEncoding flags sigversion vchPubKey) fun _ => True :=
  (ensures_rejectWhen hE (by decide)).bind fun _ _ =>
    (ensures_rejectWhen hE (by decide)).mono fun _ _ => trivial

theorem ensures_dropSignature (vchSig scriptCode : Bytes) :
    Ensures E (dropSignature flags sigversion vchSig scriptCode) fun _ => True := by
  rw [dropSignature]
  split
  · exact (ensures_rejectWhen hE (by decide)).bind fun _ _ => .pure trivial
  · exact .ok trivial

variable {stack : List Bytes} {nSigsCount : Nat} {fSuccess : Bool}

theorem ensures_dropSignatures {isig : Nat} (scriptCode : Bytes)
    (h : isig + nSigsCount ≤ stack.length) :
    Ensures E (dropSignatures flags sigversion stack (isig + 1) nSigsCount scriptCode)
      fun _ => True := by
  induction nSigsCount generalizing isig scriptCode with
  | zero => exact .ok trivial
  | succ nSigsCount ih =>
    refine (ensures_stacktop (by omega)).bind fun _ _ => ?_
    exact (ensures_dropSignature hE _ _).bind fun _ _ => ih _ (by omega)

theorem ensures_readMultiSigCounts (stack : List Bytes) (nOpCount : Nat) :
    Ensures E (readMultiSigCounts flags stack nOpCount) fun counts =>
      counts.2.1 ≤ counts.1 ∧ counts.1 + counts.2.1 + 3 ≤ stack.length := by
  have hint := intSize_le stack.length
  refine (ensures_rejectWhen hE (by decide)).bind fun _ hsize => ?_
  refine ensures_operand hE (by omega) fun n _ => ?_
  refine (ensures_rejectWhen hE (by decide)).bind fun _ hn => ?_
  refine (ensures_rejectWhen hE (by decide)).bind fun _ _ => ?_
  refine (ensures_rejectWhen hE (by decide)).bind fun _ hsize₁ => ?_
  rw [Nat.add_comm 2]
  refine ensures_operand hE (by omega) fun m _ => ?_
  refine (ensures_rejectWhen hE (by decide)).bind fun _ hm => ?_
  refine (ensures_rejectWhen hE (by decide)).bind fun _ hsize₂ => .pure ?_
  show (CScriptNum.getint m).toNat ≤ (CScriptNum.getint n).toNat ∧
    (CScriptNum.getint n).toNat + (CScriptNum.getint m).toNat + 3 ≤ stack.length
  constructor
  · omega
  · omega

theorem ensures_cleanUpMultiSig {i ikey2 : Nat} (h : i ≤ stack.length) :
    Ensures E (cleanUpMultiSig flags fSuccess i ikey2 stack) (· = stack.drop i) := by
  induction i generalizing ikey2 stack with
  | zero => exact .ok rfl
  | succ i ih =>
    have hnull : Ensures E (checkNullFail flags fSuccess ikey2 stack) fun _ => True := by
      rw [checkNullFail]
      split
      · refine (ensures_stacktop (by omega)).bind fun _ _ => ?_
        exact (ensures_rejectWhen hE (by decide)).mono fun _ _ => trivial
      · exact .ok trivial
    refine hnull.bind fun _ _ => ?_
    refine (ensures_popstack (by omega)).bind fun rest hrest => ?_
    subst hrest
    refine (ih (by rw [List.length_tail]; omega)).mono fun _ h => ?_
    rw [h, List.drop_tail]

theorem ensures_finishMultiSig {verify : Bool} {nKeysCount : Nat}
    (h : nKeysCount + nSigsCount + 3 ≤ stack.length) :
    Ensures E (finishMultiSig flags verify fSuccess nKeysCount nSigsCount stack)
      (StackGrown stack) := by
  refine (ensures_cleanUpMultiSig hE (by omega)).bind fun rest hrest => ?_
  subst hrest
  refine ensures_of_size hE fun hsize => ?_
  refine (ensures_stacktop hsize).bind fun _ _ => ?_
  refine (ensures_rejectWhen hE (by decide)).bind fun _ _ => ?_
  refine (ensures_popstack hsize).bind fun rest hrest => ?_
  subst hrest
  exact (ensures_verifyResult hE (by decide)).mono fun _ => grown_of_verifyResult
    (List.Subset.trans (List.tail_subset _) (List.drop_subset _ _)) (length_vchOfBool_le _)

theorem ensures_checkInstruction (opcode : UInt8) (vchPushValue : Bytes) (nOpCount : Nat) :
    Ensures E (checkInstruction flags sigversion opcode vchPushValue nOpCount)
      fun _ => vchPushValue.length ≤ MAX_SCRIPT_ELEMENT_SIZE := by
  refine (ensures_rejectWhen hE (by decide)).bind fun _ hpush => ?_
  refine (ensures_rejectWhen hE (by decide)).bind fun _ _ => ?_
  refine (ensures_rejectWhen hE (by decide)).bind fun _ _ => ?_
  exact (ensures_rejectWhen hE (by decide)).bind fun _ _ => .pure (Nat.le_of_not_lt hpush)

end

end HcsCoin
