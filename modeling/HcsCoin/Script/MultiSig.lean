import HcsCoin.Foundation.GreedyMatching
import HcsCoin.Script.Operands

/-!
# What `OP_CHECKMULTISIG` computes

The matching loop goes through the keys once and takes a signature as soon as a
key fits it; with the early exit when too few keys are left, this is the greedy
matching of signatures with keys.  The clean-up loop pops the arguments and, by
its countdown, knows the signatures among them.
-/

namespace HcsCoin

open Foundation Interaction

/-! ## Reading the stack -/

/-- The arguments of `OP_CHECKMULTISIG` on a stack: the key count, the keys, the signature
count, the signatures, and the extra element it consumes. -/
structure MultiSigArguments (flags : ScriptVerifyFlags) (stack keys sigs rest : List Bytes) :
    Prop where
  layout : ∃ keyCount sigCount dummy,
    stack = keyCount :: (keys ++ sigCount :: (sigs ++ dummy :: rest)) ∧
    scriptNum keyCount (fRequireMinimal flags) = .ok keys.length ∧
    scriptNum sigCount (fRequireMinimal flags) = .ok sigs.length
  sigs_le : sigs.length ≤ keys.length
  keys_le : keys.length ≤ 20

variable {stack : List Bytes} {flags : ScriptVerifyFlags} {i : Nat} {fSuccess : Bool}
  {stack' : List Bytes}

theorem exists_split {vch : Bytes} (h : stack[i]? = some vch) :
    ∃ front back, stack = front ++ vch :: back ∧ front.length = i := by
  obtain ⟨hi, rfl⟩ := List.getElem?_eq_some_iff.mp h
  exact ⟨stack.take i, stack.drop (i + 1), by simp, by simp; omega⟩

theorem exists_layout {n m : Nat} {keyCount sigCount : Bytes}
    (hkeys : stack[0]? = some keyCount) (hsigs : stack[n + 1]? = some sigCount)
    (hsize : n + m + 3 ≤ stack.length) :
    ∃ keys sigs dummy rest, stack = keyCount :: (keys ++ sigCount :: (sigs ++ dummy :: rest)) ∧
      keys.length = n ∧ sigs.length = m := by
  obtain ⟨front, back, rfl, hfront⟩ := exists_split hsigs
  rw [List.length_append, List.length_cons] at hsize
  obtain ⟨sigs, tail, rfl, hlength⟩ : ∃ sigs tail, back = sigs ++ tail ∧ sigs.length = m :=
    ⟨back.take m, back.drop m, by simp, by simp; omega⟩
  rw [List.length_append] at hsize
  cases front with
  | nil => cases hfront
  | cons first keys =>
    cases tail with
    | nil =>
      rw [List.length_nil] at hsize
      omega
    | cons dummy rest =>
      cases hkeys
      exact ⟨keys, sigs, dummy, rest, rfl, Nat.succ.inj hfront, hlength⟩

theorem readMultiSigCounts_eq_ok {nOpCount nOpCount' nKeysCount nSigsCount : Nat}
    (h : readMultiSigCounts flags stack nOpCount = .ok (nKeysCount, nSigsCount, nOpCount')) :
    ∃ keys sigs rest, MultiSigArguments flags stack keys sigs rest ∧
      keys.length = nKeysCount ∧ sigs.length = nSigsCount := by
  obtain ⟨-, h⟩ := rejectWhen_bind_eq_ok h
  obtain ⟨keyCount, hkeyCount, h⟩ := bind_eq_ok h
  obtain ⟨n, hn, h⟩ := bind_eq_ok h
  obtain ⟨hkeys, h⟩ := rejectWhen_bind_eq_ok h
  obtain ⟨-, h⟩ := rejectWhen_bind_eq_ok h
  obtain ⟨-, h⟩ := rejectWhen_bind_eq_ok h
  obtain ⟨sigCount, hsigCount, h⟩ := bind_eq_ok h
  obtain ⟨m, hm, h⟩ := bind_eq_ok h
  obtain ⟨hsigs, h⟩ := rejectWhen_bind_eq_ok h
  obtain ⟨hsize, h⟩ := rejectWhen_bind_eq_ok h
  cases h
  have hkeys20 : MAX_PUBKEYS_PER_MULTISIG.toNat = 20 := rfl
  have hint := intSize_le stack.length
  rw [getint_scriptNum hn] at hkeys hsigs hsize hsigCount ⊢
  rw [getint_scriptNum hm] at hsigs hsize ⊢
  rw [hkeys20] at hkeys
  obtain ⟨n, rfl⟩ := Int.eq_ofNat_of_zero_le (show 0 ≤ n by omega)
  obtain ⟨m, rfl⟩ := Int.eq_ofNat_of_zero_le (show 0 ≤ m by omega)
  simp only [Int.toNat_natCast] at hsigCount hsigs hsize ⊢
  rw [Nat.add_comm] at hsigCount
  obtain ⟨keys, sigs, dummy, rest, hstack, rfl, rfl⟩ :=
    exists_layout (stacktop_eq_ok hkeyCount) (stacktop_eq_ok hsigCount)
      (show n + m + 3 ≤ stack.length by omega)
  exact ⟨keys, sigs, rest,
    ⟨⟨keyCount, sigCount, dummy, hstack, hn, hm⟩, by omega, by omega⟩, rfl, rfl⟩

/-! ## The matching loop -/

def predicateChecker (valid : Bytes → Bytes → Bytes → SigVersion → Bool) :
    SignatureChecker Unit where
  checkECDSASignature vchSig vchPubKey scriptCode sigversion s :=
    (.ok (valid vchSig vchPubKey scriptCode sigversion), s)
  checkSchnorrSignature _ _ _ execdata s := (.ok ⟨false, execdata, .schnorrSig⟩, s)
  checkLockTime _ _ := .ok false
  checkSequence _ _ := .ok false

section
variable {crypto : ScriptCrypto} {flags : ScriptVerifyFlags} {sigversion : SigVersion}
  {valid : Bytes → Bytes → Bytes → SigVersion → Bool}

theorem run_liftM_bind_eq_ok {α β : Type} {h : Handler CheckerCall.Answer EvalFailure Unit}
    {m : Except EvalFailure α} {f : α → Checked β} {s s' : Unit} {y : β}
    (hrun : ((liftM m : Checked α) >>= f).run h s = (.ok y, s')) :
    ∃ x, m = .ok x ∧ (f x).run h s = (.ok y, s') := by
  obtain ⟨x, s₁, hm, hf⟩ := run_bind_eq_ok hrun
  obtain ⟨rfl, rfl⟩ := run_liftM_eq_ok hm
  exact ⟨x, rfl, hf⟩

theorem cons_isPrefix_drop {stack xs : List Bytes} {x : Bytes} {i : Nat}
    (h : x :: xs <+: stack.drop i) : stack[i]? = some x ∧ xs <+: stack.drop (i + 1) := by
  obtain ⟨rest, hrest⟩ := h
  constructor
  · rw [← Nat.add_zero i, ← List.getElem?_drop, ← hrest]
    rfl
  · rw [← List.drop_drop, ← hrest]
    exact List.prefix_append _ _

/-- Where the stack holds `sigs` from `isig` and `keys` from `ikey` on, the loop is the greedy
matching of the signatures with the keys. -/
theorem run_matchSignatures {stack : List Bytes} {scriptCode : Bytes} {isig ikey : Nat}
    {sigs keys : List Bytes} {b : Bool} {s : Unit}
    (hsigs : sigs <+: stack.drop isig) (hkeys : keys <+: stack.drop ikey)
    (hle : sigs.length ≤ keys.length)
    (hrun : (matchSignatures crypto flags sigversion stack scriptCode keys.length (isig + 1)
      (ikey + 1) sigs.length).run (predicateChecker valid).handler () = (.ok b, s)) :
    b = greedyMatch (fun sig key => valid sig key scriptCode sigversion) sigs keys := by
  induction keys generalizing isig ikey sigs with
  | nil =>
    cases sigs with
    | nil =>
      cases hrun
      rfl
    | cons sig sigs => exact absurd hle (by simp)
  | cons key keys ih =>
    cases sigs with
    | nil =>
      cases hrun
      rfl
    | cons sig sigs =>
      obtain ⟨hsig, hsigs'⟩ := cons_isPrefix_drop hsigs
      obtain ⟨hkey, hkeys'⟩ := cons_isPrefix_drop hkeys
      obtain ⟨vchSig, hvchSig, hrun₁⟩ := run_liftM_bind_eq_ok hrun
      obtain ⟨vchPubKey, hvchPubKey, hrun₂⟩ := run_liftM_bind_eq_ok hrun₁
      obtain ⟨_, -, hrun₃⟩ := run_liftM_bind_eq_ok hrun₂
      obtain ⟨_, -, hcall⟩ := run_liftM_bind_eq_ok hrun₃
      clear hrun hrun₁ hrun₂ hrun₃
      obtain rfl := Option.some.inj ((stacktop_eq_ok hvchSig).symm.trans hsig)
      obtain rfl := Option.some.inj ((stacktop_eq_ok hvchPubKey).symm.trans hkey)
      rw [List.length_cons, List.length_cons] at hle
      simp only [checkECDSASignature, call, ask_bind, ret_bind, run, SignatureChecker.handler,
        predicateChecker] at hcall
      change b = if valid vchSig vchPubKey scriptCode sigversion = true then greedyMatch _ sigs keys
        else greedyMatch _ (vchSig :: sigs) keys
      cases hvalid : valid vchSig vchPubKey scriptCode sigversion with
      | true =>
        rw [if_pos rfl]
        simp only [hvalid, if_true] at hcall
        rw [if_neg (by omega)] at hcall
        exact ih hsigs' hkeys' (by omega) hcall
      | false =>
        rw [if_neg Bool.false_ne_true]
        simp only [hvalid, Bool.false_eq_true, if_false] at hcall
        split at hcall
        · cases hcall
          refine (Bool.eq_false_iff.mpr fun hmatch => ?_).symm
          have := length_le_of_greedyMatch hmatch
          rw [List.length_cons] at this
          omega
        · exact ih hsigs hkeys' (by rw [List.length_cons]; omega) hcall

end

/-! ## Cleaning up -/

theorem cleanUpMultiSig_eq_ok {ikey2 : Nat}
    (h : cleanUpMultiSig flags fSuccess i ikey2 stack = .ok stack') :
    stack' = stack.drop i ∧
      (fSuccess = false → .nullFail ∈ flags → ∀ j, ikey2 ≤ j → j < i → stack[j]? = some []) := by
  induction i generalizing ikey2 stack with
  | zero =>
    cases h
    exact ⟨rfl, fun _ _ j _ hj => absurd hj (Nat.not_lt_zero j)⟩
  | succ i ih =>
    obtain ⟨_, hnull, h⟩ := bind_eq_ok h
    obtain ⟨rest, hpop, h⟩ := bind_eq_ok h
    obtain ⟨vch, rfl⟩ := popstack_eq_ok hpop
    obtain ⟨hstack, hempty⟩ := ih h
    refine ⟨hstack, fun hfail hflag j hj hji => ?_⟩
    cases j with
    | succ j => exact hempty hfail hflag j (by omega) (by omega)
    | zero =>
      rw [checkNullFail, if_pos ⟨hfail, hflag, by omega⟩] at hnull
      obtain ⟨top, htop, hnull⟩ := bind_eq_ok hnull
      rw [stacktop_eq_ok htop]
      have hlength := rejectWhen_eq_ok hnull
      rw [ne_eq, not_not, List.length_eq_zero_iff] at hlength
      rw [hlength]

theorem finishMultiSig_eq_ok {keys sigs rest : List Bytes}
    (hargs : MultiSigArguments flags stack keys sigs rest)
    (h : finishMultiSig flags false fSuccess keys.length sigs.length stack = .ok stack') :
    stack' = vchOfBool fSuccess :: rest ∧
      (fSuccess = false → .nullFail ∈ flags → ∀ sig ∈ sigs, sig = []) := by
  obtain ⟨keyCount, sigCount, dummy, rfl, -, -⟩ := hargs.layout
  obtain ⟨cleaned, hclean, h⟩ := bind_eq_ok h
  obtain ⟨-, h⟩ := rejectWhen_bind_eq_ok h
  obtain ⟨_, -, h⟩ := bind_eq_ok h
  obtain ⟨-, h⟩ := rejectWhen_bind_eq_ok h
  obtain ⟨popped, hpop, h⟩ := bind_eq_ok h
  obtain ⟨rfl, hempty⟩ := cleanUpMultiSig_eq_ok hclean
  have hdrop : (keyCount :: (keys ++ sigCount :: (sigs ++ dummy :: rest))).drop
      (2 + keys.length + sigs.length) = dummy :: rest := by
    rw [show 2 + keys.length + sigs.length = keys.length + (sigs.length + 1) + 1 by omega,
      List.drop_succ_cons, ← List.drop_drop, List.drop_left, List.drop_succ_cons, List.drop_left]
  rw [hdrop] at hpop
  cases hpop
  cases h
  refine ⟨rfl, fun hfail hflag sig hsig => ?_⟩
  obtain ⟨j, hj, rfl⟩ := List.getElem_of_mem hsig
  have hslot := hempty hfail hflag (keys.length + 2 + j) (by omega) (by omega)
  rw [show keys.length + 2 + j = keys.length + (j + 1) + 1 by omega, List.getElem?_cons_succ,
    List.getElem?_append_right (by omega), Nat.add_sub_cancel_left, List.getElem?_cons_succ,
    List.getElem?_append_left hj, List.getElem?_eq_getElem hj] at hslot
  exact Option.some.inj hslot

/-- Whenever `OP_CHECKMULTISIG` completes, its stack starts with `n` keys and `m` signatures,
and it replaces `n + m + 3` elements by the answer to whether a strictly increasing choice of
keys, counted from the top like the signatures, fits the signatures. -/
theorem evalCheckMultiSig_completes {crypto : ScriptCrypto} {flags : ScriptVerifyFlags}
    {sigversion : SigVersion} {st st' : EvalState}
    (valid : Bytes → Bytes → Bytes → SigVersion → Bool)
    (hrun : ((evalCheckMultiSig crypto flags sigversion false st).run
      (predicateChecker valid).handler ()).1 = .ok st') :
    ∃ keys sigs rest scriptCode success, MultiSigArguments flags st.stack keys sigs rest ∧
      dropSignatures flags sigversion st.stack (3 + keys.length) sigs.length st.pbegincodehash =
        .ok scriptCode ∧
      st'.stack = vchOfBool success :: rest ∧
      st.stack.length = rest.length + (keys.length + sigs.length + 3) ∧
      (success = true ↔ ∃ f : Fin sigs.length → Fin keys.length, StrictMono f ∧
        ∀ i, valid (sigs.get i) (keys.get (f i)) scriptCode sigversion = true) ∧
      (.nullFail ∈ flags → success = false → ∀ sig ∈ sigs, sig = []) := by
  replace hrun : (evalCheckMultiSig crypto flags sigversion false st).run
      (predicateChecker valid).handler () = (.ok st', ()) := Prod.ext hrun rfl
  obtain ⟨_, -, hrun⟩ := run_liftM_bind_eq_ok hrun
  obtain ⟨⟨nKeysCount, nSigsCount, nOpCount⟩, hcounts, hrun⟩ := run_liftM_bind_eq_ok hrun
  obtain ⟨scriptCode, hcode, hrun⟩ := run_liftM_bind_eq_ok hrun
  obtain ⟨success, _, hmatch, hrun⟩ := run_bind_eq_ok hrun
  obtain ⟨stack, hfinish, hrun⟩ := run_liftM_bind_eq_ok hrun
  cases hrun
  obtain ⟨keys, sigs, rest, hargs, rfl, rfl⟩ := readMultiSigCounts_eq_ok hcounts
  obtain ⟨rfl, hempty⟩ := finishMultiSig_eq_ok hargs hfinish
  obtain ⟨keyCount, sigCount, dummy, hstack, -, -⟩ := hargs.layout
  refine ⟨keys, sigs, rest, scriptCode, success, hargs, hcode, rfl, ?_, ?_, fun hflag hfail =>
    hempty hfail hflag⟩
  · rw [hstack]
    simp only [List.length_cons, List.length_append]
    omega
  · have hsigs : sigs <+: st.stack.drop (keys.length + 2) := by
      rw [hstack, List.drop_succ_cons, ← List.drop_drop, List.drop_left, List.drop_succ_cons,
        List.drop_zero]
      exact List.prefix_append _ _
    have hkeys : keys <+: st.stack.drop 1 := by
      rw [hstack, List.drop_succ_cons, List.drop_zero]
      exact List.prefix_append _ _
    rw [Nat.add_comm 3] at hmatch
    rw [run_matchSignatures hsigs hkeys hargs.sigs_le hmatch]
    exact greedyMatch_iff_strictMono

private def oneOfTwoState : EvalState where
  stack := [[2], [7], [8], [1], [9], []]
  pc := []
  pbegincodehash := []
  execdata := {}

theorem evalCheckMultiSig_completes_oneOfTwo :
    let valid : Bytes → Bytes → Bytes → SigVersion → Bool := fun sig key _ _ => sig == [9] && key == [8]
    ∃ keys sigs rest scriptCode success,
      MultiSigArguments {} oneOfTwoState.stack keys sigs rest ∧
      dropSignatures {} .base oneOfTwoState.stack (3 + keys.length) sigs.length [] =
        .ok scriptCode ∧
      [[1]] = vchOfBool success :: rest ∧
      6 = rest.length + (keys.length + sigs.length + 3) ∧
      (success = true ↔ ∃ f : Fin sigs.length → Fin keys.length, StrictMono f ∧
        ∀ i, valid (sigs.get i) (keys.get (f i)) scriptCode .base = true) ∧
      (.nullFail ∈ (∅ : ScriptVerifyFlags) → success = false → ∀ sig ∈ sigs, sig = []) :=
  @evalCheckMultiSig_completes ⟨fun _ => .null, fun _ => .null, fun _ => true, fun _ _ _ _ => true⟩
    {} .base oneOfTwoState { oneOfTwoState with stack := [[1]], nOpCount := 2 }
    (fun sig key _ _ => sig == [9] && key == [8]) (by rfl)

end HcsCoin
