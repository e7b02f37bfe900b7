import HcsCoin.Script.Interpreter

/-!
# Stack accesses and operands

What a check, an access to the stack or a number read from it returns, and with
what it may fail: an access within the stack never throws.
-/

namespace HcsCoin

open Foundation

variable {e : ScriptError} {c : Prop} {α : Type} {stack : List Bytes} {n : Int}

theorem rejectWhen_eq_ok [Decidable c] {u : Unit} (h : rejectWhen c e = .ok u) : ¬ c := by
  intro hc
  rw [rejectWhen, if_pos hc] at h
  cases h

theorem bind_eq_ok {β : Type} {m : Except EvalFailure α} {f : α → Except EvalFailure β} {y : β}
    (h : (m >>= f) = .ok y) : ∃ x, m = .ok x ∧ f x = .ok y := by
  cases m with
  | ok x => exact ⟨x, rfl, h⟩
  | error e => cases h

theorem rejectWhen_bind_eq_ok [Decidable c] {f : Unit → Except EvalFailure α} {y : α}
    (h : (rejectWhen c e >>= f) = .ok y) : ¬ c ∧ f () = .ok y := by
  obtain ⟨_, hc, h⟩ := bind_eq_ok h
  exact ⟨rejectWhen_eq_ok hc, h⟩

variable {vch : Bytes} {fRequireMinimal : Bool}

theorem stacktop_eq_ok {i : Nat} (h : stacktop stack (i + 1) = .ok vch) : stack[i]? = some vch := by
  rw [stacktop] at h
  split at h
  · cases h
    assumption
  · cases h

theorem popstack_eq_ok {stack' : List Bytes} (h : popstack stack = .ok stack') :
    ∃ vch, stack = vch :: stack' := by
  cases stack with
  | nil => cases h
  | cons vch rest =>
    cases h
    exact ⟨vch, rfl⟩

private theorem bmod_le (size m : Nat) : Int.bmod size m ≤ size := by
  have hmod : (size : Int) % m ≤ size := by
    rw [← Int.natCast_emod]
    exact_mod_cast Nat.mod_le size m
  rw [Int.bmod_def]
  split <;> omega

theorem intSize_le (size : Nat) : intSize size ≤ size := bmod_le size _

theorem natAbs_scriptNum_lt (h : scriptNum vch fRequireMinimal = .ok n) : n.natAbs < 2 ^ 31 := by
  rw [scriptNum, scriptNumUpTo] at h
  split at h
  · rename_i m hm
    cases h
    exact CScriptNum.natAbs_ofVch_lt hm
  · cases h

theorem getint_scriptNum (h : scriptNum vch fRequireMinimal = .ok n) : CScriptNum.getint n = n := by
  have hn := natAbs_scriptNum_lt h
  rw [CScriptNum.getint, if_neg (by omega), if_neg (by omega)]

/-! ## Failures that the interpreter reports -/

/-- An error code set by a check: neither success nor the code for a stray exception. -/
def Reported (e : EvalFailure) : Prop :=
  ∃ serror, e = .error serror ∧ serror ≠ .ok ∧ serror ≠ .unknownError

section
variable {E : EvalFailure → Prop} {stack : List Bytes} {serror : ScriptError} {i : Nat}

def AdmitsReported (E : EvalFailure → Prop) : Prop := ∀ e, Reported e → E e

theorem Reported.admits (hE : AdmitsReported E) (h : serror ≠ .ok ∧ serror ≠ .unknownError) :
    E (.error serror) :=
  hE _ ⟨serror, rfl, h⟩

theorem ensures_rejectWhen (hE : AdmitsReported E) {c : Prop} [Decidable c]
    (h : serror ≠ .ok ∧ serror ≠ .unknownError) : Ensures E (rejectWhen c serror) fun _ => ¬ c := by
  rw [rejectWhen]
  split
  · exact ⟨nofun, fun e he => by cases he; exact Reported.admits hE h⟩
  · exact .ok ‹_›

theorem ensures_assertThat {c : Prop} [Decidable c] (h : c) :
    Ensures E (assertThat c) fun _ => True := by
  rw [assertThat, if_pos h]
  exact .ok trivial

theorem ensures_stacktop (h : i < stack.length) :
    Ensures E (stacktop stack (i + 1)) (· ∈ stack) := by
  rw [stacktop, List.getElem?_eq_getElem h]
  exact .ok (List.getElem_mem h)

theorem ensures_popstack (h : 0 < stack.length) : Ensures E (popstack stack) (· = stack.tail) := by
  cases stack with
  | nil => exact absurd h (Nat.lt_irrefl 0)
  | cons vch rest => exact .ok rfl

theorem ensures_eraseTop {first last : Nat} (h : first ≤ stack.length) :
    Ensures E (eraseTop stack first last) (· = stack.take last ++ stack.drop first) :=
  (ensures_assertThat h).bind fun _ _ => .pure rfl

theorem ensures_insertTop {vch : Bytes} (h : i ≤ stack.length) :
    Ensures E (insertTop stack i vch) (· = stack.take i ++ vch :: stack.drop i) :=
  (ensures_assertThat h).bind fun _ _ => .pure rfl

theorem ensures_scriptNum (hE : AdmitsReported E) (vch : Bytes) (fRequireMinimal : Bool) :
    Ensures E (scriptNum vch fRequireMinimal) (fun n => n.natAbs < 2 ^ 31) := by
  refine ⟨fun n hn => natAbs_scriptNum_lt hn, fun e he => ?_⟩
  rw [scriptNum, scriptNumUpTo] at he
  split at he
  · cases he
  · cases he
    exact Reported.admits hE (by decide)

theorem ensures_operand (hE : AdmitsReported E) (h : i < stack.length) {fRequireMinimal : Bool}
    {α : Type} {P : α → Prop} {f : Int → Except EvalFailure α}
    (hf : ∀ n : Int, n.natAbs < 2 ^ 31 → Ensures E (f n) P) :
    Ensures E (stacktop stack (i + 1) >>= fun vch => scriptNum vch fRequireMinimal >>= f) P :=
  (ensures_stacktop h).bind fun vch _ => (ensures_scriptNum hE vch _).bind hf

end

end HcsCoin
