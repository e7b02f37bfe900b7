import HcsCoin.Foundation.Interaction

/-!
# How often a program asks

`budget` is the protocol of programs that may ask a counted question only while
something is left of an allowance.  `Spends n` says that `n` is enough; the costs
of programs run one after the other add up, and `n` bounds the counted questions
of every run.
-/

namespace HcsCoin.Foundation.Interaction

variable {Q : Type} {A : Q → Type} {ε α β σ : Type}

def asked (h : Handler A ε σ) : Interaction A ε α → σ → List Q
  | ret _, _ => []
  | fail _, _ => []
  | ask q next, s =>
    q :: match h q s with
      | (.ok a, s) => (next a).asked h s
      | (.error _, _) => []

def budget (counted : Q → Bool) (assumed : (q : Q) → A q → Prop) : Protocol A Nat where
  allowed left q := counted q = true → 0 < left
  assumed
  next left q _ := left - (counted q).toNat

/-- With an allowance of `n` or more, `p` uses up at most `n` of it and returns in `R`. -/
def Spends (counted : Q → Bool) (assumed : (q : Q) → A q → Prop) (n : Nat)
    (p : Interaction A ε α) (R : α → Prop) : Prop :=
  ∀ g, n ≤ g → Follows (budget counted assumed) (fun _ => True)
    (fun left x => g ≤ left + n ∧ R x) g p

variable {counted : Q → Bool} {assumed : (q : Q) → A q → Prop} {n m : Nat}
  {p : Interaction A ε α} {R R' : α → Prop} {S : β → Prop}

namespace Spends

theorem ret {x : α} (h : R x) : Spends counted assumed n (ret x : Interaction A ε α) R :=
  fun _ _ => .ret ⟨Nat.le_add_right _ _, h⟩

theorem fail (e : ε) : Spends counted assumed n (fail e : Interaction A ε α) R :=
  fun _ _ => .fail trivial

theorem mono (hp : Spends counted assumed n p R) (hn : n ≤ m) (hR : ∀ x, R x → R' x) :
    Spends counted assumed m p R' := by
  intro g hg
  refine (hp g (Nat.le_trans hn hg)).mono ?_
  rintro left x ⟨hleft, hx⟩
  exact ⟨by omega, hR x hx⟩

variable {f : α → Interaction A ε β} {e : Except ε α}

theorem bind (hp : Spends counted assumed n p R)
    (hf : ∀ x, R x → Spends counted assumed m (f x) S) :
    Spends counted assumed (n + m) (p >>= f) S := by
  intro g hg
  refine (hp g (by omega)).bind ?_
  rintro left x ⟨hleft, hx⟩
  refine (hf x hx left (by omega)).mono ?_
  rintro left' y ⟨hleft', hy⟩
  exact ⟨by omega, hy⟩

theorem lift (h : ∀ x, e = .ok x → R x) :
    Spends counted assumed n (liftM e : Interaction A ε α) R := by
  cases he : e with
  | ok x => exact ret (h x he)
  | error e => exact fail e

theorem lift_bind (hf : ∀ x, e = .ok x → Spends counted assumed n (f x) S) :
    Spends counted assumed n (liftM e >>= f) S := by
  cases he : e with
  | ok x => exact hf x he
  | error e => exact fail e

/-- A step that asks nothing costs nothing. -/
theorem skip (hf : ∀ x, Spends counted assumed n (f x) S) :
    Spends counted assumed n (liftM e >>= f) S :=
  lift_bind fun x _ => hf x

theorem ite {c : Prop} [Decidable c] {p' : Interaction A ε α} (hp : Spends counted assumed n p R)
    (hp' : Spends counted assumed n p' R) :
    Spends counted assumed n (if c then p else p') R := by
  split
  · exact hp
  · exact hp'

theorem call {q : Q} {R : A q → Prop} (hR : ∀ a, assumed q a → R a) :
    Spends counted assumed (counted q).toNat (call q : Interaction A ε (A q)) R := by
  intro g hg
  refine .ask (fun hq => ?_) fun a ha => .ret ⟨?_, hR a ha⟩
  · rw [hq] at hg
    exact hg
  · exact Nat.le_add_of_sub_le (Nat.le_refl _)

theorem and_returns (hp : Spends counted assumed n p R) (hR : p.Returns R') :
    Spends counted assumed n p fun x => R x ∧ R' x := by
  intro g hg
  exact ((hp g hg).and_returns hR).mono fun _ _ h => ⟨h.1.1, h.1.2, h.2⟩

end Spends

variable {h : Handler A ε σ}

theorem Follows.countP_asked_le {E : ε → Prop} {T : Nat → α → Prop} {g : Nat}
    (hp : Follows (budget counted assumed) E T g p)
    (hh : ∀ q s a s', h q s = (.ok a, s') → assumed q a) (s : σ) :
    (p.asked h s).countP counted ≤ g := by
  induction hp generalizing s with
  | ret _ => exact Nat.zero_le _
  | fail _ => exact Nat.zero_le _
  | @ask g q next hallowed _ ih =>
    have hrest : (match h q s with
        | (.ok a, s) => (next a).asked h s
        | (.error _, _) => []).countP counted ≤ g - (counted q).toNat := by
      split
      · rename_i a s' hq
        exact ih a (hh q s a s' hq) s'
      · exact Nat.zero_le _
    rw [asked, List.countP_cons]
    cases hq : counted q with
    | true =>
      have hpos : 0 < g := hallowed hq
      rw [hq] at hrest
      simp only [Bool.toNat_true, if_true] at hrest ⊢
      omega
    | false =>
      rw [hq] at hrest
      simpa using hrest

theorem Spends.countP_asked_le (hp : Spends counted assumed n p R)
    (hh : ∀ q s a s', h q s = (.ok a, s') → assumed q a) (s : σ) :
    (p.asked h s).countP counted ≤ n :=
  (hp n (Nat.le_refl n)).countP_asked_le hh s

end HcsCoin.Foundation.Interaction
