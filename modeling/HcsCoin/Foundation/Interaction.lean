import HcsCoin.Foundation.Ensures

/-!
# Programs that ask an environment

An `Interaction` is a program that returns, fails, or asks its environment a
question and goes on with the answer.  A handler answers the questions against a
state of its own.  Two judgements are about the program alone, whatever handler
it is run with later: `Follows`, that the program asks only what a protocol
allows, and `Tightens`, that one program does what another does or fails.  Each
comes with the rules for sequencing and with what it says about runs.
-/

namespace HcsCoin.Foundation

inductive Interaction {Q : Type} (A : Q → Type) (ε α : Type) where
  | ret (x : α)
  | fail (e : ε)
  | ask (q : Q) (next : A q → Interaction A ε α)

/-- Answers to questions, which may also fail, with the state kept in either case. -/
abbrev Handler {Q : Type} (A : Q → Type) (ε σ : Type) := (q : Q) → σ → Except ε (A q) × σ

namespace Interaction

variable {Q : Type} {A : Q → Type} {ε α β σ : Type}

protected def bind : Interaction A ε α → (α → Interaction A ε β) → Interaction A ε β
  | ret x, f => f x
  | fail e, _ => fail e
  | ask q next, f => ask q fun a => (next a).bind f

instance : Monad (Interaction A ε) where
  pure := ret
  bind := Interaction.bind

def ofExcept : Except ε α → Interaction A ε α
  | .ok x => ret x
  | .error e => fail e

instance : MonadLift (Except ε) (Interaction A ε) where
  monadLift := ofExcept

def call (q : Q) : Interaction A ε (A q) := ask q ret

@[simp] theorem pure_def (x : α) : (pure x : Interaction A ε α) = ret x := rfl

@[simp] theorem ret_bind (x : α) (f : α → Interaction A ε β) : (ret x >>= f) = f x := rfl

@[simp] theorem fail_bind (e : ε) (f : α → Interaction A ε β) : (fail e >>= f) = fail e := rfl

@[simp] theorem ask_bind (q : Q) (next : A q → Interaction A ε α) (f : α → Interaction A ε β) :
    (ask q next >>= f) = ask q fun a => next a >>= f := rfl

@[simp] theorem liftM_ok (x : α) : (liftM (Except.ok x : Except ε α) : Interaction A ε α) = ret x :=
  rfl

@[simp] theorem liftM_error (e : ε) :
    (liftM (Except.error e : Except ε α) : Interaction A ε α) = fail e := rfl

protected theorem bind_assoc {γ : Type} (p : Interaction A ε α) (f : α → Interaction A ε β)
    (g : β → Interaction A ε γ) : (p >>= f) >>= g = p >>= fun x => f x >>= g := by
  induction p with
  | ret x => rfl
  | fail e => rfl
  | ask q next ih =>
    simp only [ask_bind]
    exact congrArg _ (funext ih)

/-! ## Runs -/

def run (h : Handler A ε σ) : Interaction A ε α → σ → Except ε α × σ
  | ret x, s => (.ok x, s)
  | fail e, s => (.error e, s)
  | ask q next, s =>
    match h q s with
    | (.ok a, s) => (next a).run h s
    | (.error e, s) => (.error e, s)

variable {h : Handler A ε σ} {p : Interaction A ε α} {f : α → Interaction A ε β} {s s' : σ}

@[simp] theorem run_ret (x : α) : (ret x : Interaction A ε α).run h s = (.ok x, s) := rfl

@[simp] theorem run_fail (e : ε) : (fail e : Interaction A ε α).run h s = (.error e, s) := rfl

variable {q : Q} {next : A q → Interaction A ε α} {e : ε} {x : α}

theorem run_ask_ok {a : A q} (hq : h q s = (.ok a, s')) :
    (ask q next).run h s = (next a).run h s' := by
  rw [run, hq]

theorem run_ask_error (hq : h q s = (.error e, s')) : (ask q next).run h s = (.error e, s') := by
  rw [run, hq]

theorem run_bind_ok (hp : p.run h s = (.ok x, s')) : (p >>= f).run h s = (f x).run h s' := by
  induction p generalizing s with
  | ret y =>
    cases hp
    rfl
  | fail e => cases hp
  | ask q next ih =>
    rcases hq : h q s with ⟨_ | a, s₁⟩
    · rw [run_ask_error hq] at hp
      cases hp
    · rw [run_ask_ok hq] at hp
      rw [ask_bind, run_ask_ok hq]
      exact ih a hp

theorem run_bind_error (hp : p.run h s = (.error e, s')) : (p >>= f).run h s = (.error e, s') := by
  induction p generalizing s with
  | ret y => cases hp
  | fail e' =>
    cases hp
    rfl
  | ask q next ih =>
    rcases hq : h q s with ⟨_ | a, s₁⟩
    · rw [run_ask_error hq] at hp
      rw [ask_bind, run_ask_error hq]
      cases hp
      rfl
    · rw [run_ask_ok hq] at hp
      rw [ask_bind, run_ask_ok hq]
      exact ih a hp

theorem run_bind_eq_ok {y : β} (hpf : (p >>= f).run h s = (.ok y, s')) :
    ∃ x s₁, p.run h s = (.ok x, s₁) ∧ (f x).run h s₁ = (.ok y, s') := by
  rcases hp : p.run h s with ⟨_ | x, s₁⟩
  · rw [run_bind_error hp] at hpf
    cases hpf
  · rw [run_bind_ok hp] at hpf
    exact ⟨x, s₁, rfl, hpf⟩

theorem run_liftM_eq_ok {m : Except ε α}
    (hm : (liftM m : Interaction A ε α).run h s = (.ok x, s')) : m = .ok x ∧ s' = s := by
  cases m with
  | ok y =>
    cases hm
    exact ⟨rfl, rfl⟩
  | error e => cases hm

/-! ## Protocols -/

end Interaction

/-- What may be asked, what is known of the answers, and how the account of what has been
asked goes on. -/
structure Protocol {Q : Type} (A : Q → Type) (G : Type) where
  allowed : G → Q → Prop
  assumed : (q : Q) → A q → Prop
  next : G → (q : Q) → A q → G

namespace Interaction

variable {Q : Type} {A : Q → Type} {ε α β σ G : Type}

/-- From account `g` on, the program asks what `π` allows, its failures satisfy `E`, and what
it returns stands in `R` to the account then reached. -/
inductive Follows (π : Protocol A G) (E : ε → Prop) (R : G → α → Prop) :
    G → Interaction A ε α → Prop
  | ret {g : G} {x : α} (h : R g x) : Follows π E R g (ret x)
  | fail {g : G} {e : ε} (h : E e) : Follows π E R g (fail e)
  | ask {g : G} {q : Q} {next : A q → Interaction A ε α} (hq : π.allowed g q)
      (hnext : ∀ a, π.assumed q a → Follows π E R (π.next g q a) (next a)) :
      Follows π E R g (ask q next)

namespace Follows

variable {π : Protocol A G} {E : ε → Prop} {R R' : G → α → Prop} {S : G → β → Prop} {g : G}
  {p : Interaction A ε α}

theorem mono (hp : Follows π E R g p) (hR : ∀ g x, R g x → R' g x) : Follows π E R' g p := by
  induction hp with
  | ret h => exact .ret (hR _ _ h)
  | fail h => exact .fail h
  | ask hq _ ih => exact .ask hq ih

variable {f : α → Interaction A ε β} {m : Except ε α}

theorem bind (hp : Follows π E R g p)
    (hf : ∀ g x, R g x → Follows π E S g (f x)) : Follows π E S g (p >>= f) := by
  induction hp with
  | ret h => exact hf _ _ h
  | fail h => exact .fail h
  | ask hq _ ih => exact .ask hq ih

variable {P : α → Prop}

theorem lift (hm : Ensures E m P) (hR : ∀ x, P x → R g x) :
    Follows π E R g (liftM m : Interaction A ε α) := by
  cases hx : m with
  | ok x => exact .ret (hR x (hm.returns x hx))
  | error e => exact .fail (hm.throws e hx)

theorem lift_bind (hE : ∀ e, m = .error e → E e) (hf : ∀ x, m = .ok x → Follows π E S g (f x)) :
    Follows π E S g (liftM m >>= f) := by
  cases hm : m with
  | ok x => exact hf x hm
  | error e => exact .fail (hE e hm)

theorem ensures_bind (hm : Ensures E m P) (hf : ∀ x, P x → Follows π E S g (f x)) :
    Follows π E S g (liftM m >>= f) :=
  lift_bind hm.throws fun x hx => hf x (hm.returns x hx)

theorem call {q : Q} {R : G → A q → Prop} (hq : π.allowed g q)
    (hR : ∀ a, π.assumed q a → R (π.next g q a) a) :
    Follows π E R g (call q : Interaction A ε (A q)) :=
  .ask hq fun a ha => .ret (hR a ha)

end Follows

def anything : Protocol A Unit where
  allowed _ _ := True
  assumed _ _ := True
  next _ _ _ := ()

abbrev Returns (p : Interaction A ε α) (R : α → Prop) : Prop :=
  Follows anything (fun _ => True) (fun _ => R) () p

namespace Returns

variable {p : Interaction A ε α} {f : α → Interaction A ε β} {R : α → Prop} {S : β → Prop}

theorem trivial (p : Interaction A ε α) : p.Returns fun _ => True := by
  induction p with
  | ret x => exact .ret True.intro
  | fail e => exact .fail True.intro
  | ask q next ih => exact .ask True.intro fun a _ => ih a

theorem bind (hp : p.Returns R) (hf : ∀ x, R x → (f x).Returns S) : (p >>= f).Returns S :=
  Follows.bind hp fun _ => hf

theorem of_bind (hf : ∀ x, (f x).Returns S) : (p >>= f).Returns S :=
  (trivial p).bind fun x _ => hf x

variable {m : Except ε α}

theorem lift (h : ∀ x, m = .ok x → R x) : (liftM m : Interaction A ε α).Returns R :=
  Follows.lift ⟨h, fun _ _ => True.intro⟩ fun _ hx => hx

theorem lift_bind (hf : ∀ x, m = .ok x → (f x).Returns S) : (liftM m >>= f).Returns S :=
  Follows.lift_bind (fun _ _ => True.intro) hf

end Returns

variable {R : G → α → Prop} {p : Interaction A ε α} {h : Handler A ε σ} {π : Protocol A G}
  {E : ε → Prop} {I : σ → G → Prop} {g : G} {s s' : σ} {x : α}

theorem Follows.and_returns {R' : α → Prop} (hp : Follows π E R g p) (hR : p.Returns R') :
    Follows π E (fun g x => R g x ∧ R' x) g p := by
  induction hp with
  | ret h =>
    cases hR with
    | ret hx => exact .ret ⟨h, hx⟩
  | fail h => exact .fail h
  | ask hq _ ih =>
    cases hR with
    | ask _ hnext => exact .ask hq fun a ha => ih a ha (hnext a True.intro)

/-- A handler keeps `I` between its state and the account of a protocol. -/
structure Serves (h : Handler A ε σ) (π : Protocol A G) (E : ε → Prop) (I : σ → G → Prop) :
    Prop where
  answers : ∀ {s s' g q a}, I s g → π.allowed g q → h q s = (.ok a, s') →
    π.assumed q a ∧ I s' (π.next g q a)
  fails : ∀ {s s' g q e}, I s g → π.allowed g q → h q s = (.error e, s') → E e ∧ ∃ g', I s' g'

theorem Follows.run_ok (hp : Follows π E R g p) (hh : Serves h π E I) (hs : I s g)
    (hrun : p.run h s = (.ok x, s')) : ∃ g', R g' x ∧ I s' g' := by
  induction hp generalizing s with
  | ret hx =>
    cases hrun
    exact ⟨_, hx, hs⟩
  | fail _ => cases hrun
  | @ask _ q _ hallowed _ ih =>
    rcases hq : h q s with ⟨_ | a, s₁⟩
    · rw [run_ask_error hq] at hrun
      cases hrun
    · rw [run_ask_ok hq] at hrun
      obtain ⟨ha, hs₁⟩ := hh.answers hs hallowed hq
      exact ih a ha hs₁ hrun

theorem Follows.run_error {e : ε} (hp : Follows π E R g p) (hh : Serves h π E I) (hs : I s g)
    (hrun : p.run h s = (.error e, s')) : E e ∧ ∃ g', I s' g' := by
  induction hp generalizing s with
  | ret _ => cases hrun
  | fail he =>
    cases hrun
    exact ⟨he, _, hs⟩
  | @ask _ q _ hallowed _ ih =>
    rcases hq : h q s with ⟨_ | a, s₁⟩
    · rw [run_ask_error hq] at hrun
      cases hrun
      exact hh.fails hs hallowed hq
    · rw [run_ask_ok hq] at hrun
      obtain ⟨ha, hs₁⟩ := hh.answers hs hallowed hq
      exact ih a ha hs₁ hrun

theorem Returns.run {R : α → Prop} (hp : p.Returns R) (hrun : p.run h s = (.ok x, s')) : R x := by
  have hserves : Serves h anything (fun _ => True) fun _ _ => True :=
    ⟨fun _ _ _ => ⟨True.intro, True.intro⟩, fun _ _ _ => ⟨True.intro, (), True.intro⟩⟩
  obtain ⟨_, hx, -⟩ := hp.run_ok hserves True.intro hrun
  exact hx

/-! ## Programs that fail more often -/

end Interaction

/-- What `m` returns, `m'` returns as well. -/
def Stricter {ε α : Type} (m m' : Except ε α) : Prop := ∀ x, m = .ok x → m' = .ok x

namespace Stricter

variable {ε α β : Type} {m m' : Except ε α}

theorem refl (m : Except ε α) : Stricter m m := fun _ h => h

theorem error (e : ε) (m' : Except ε α) : Stricter (.error e) m' := fun _ h => by cases h

theorem unit (m : Except ε Unit) : Stricter m (.ok ()) := fun _ _ => rfl

variable {f f' : α → Except ε β}

theorem bind (hm : Stricter m m') (hf : ∀ x, Stricter (f x) (f' x)) :
    Stricter (m >>= f) (m' >>= f') :=
  Extends.bind hm hf

theorem same (hf : ∀ x, Stricter (f x) (f' x)) : Stricter (m >>= f) (m >>= f') :=
  bind (refl m) hf

end Stricter

namespace Interaction

variable {Q : Type} {A : Q → Type} {ε α β σ : Type}

/-- `p` does what `p'` does, or fails; it may also ask questions of its own, if they are
`silent`. -/
inductive Tightens (silent : Q → Prop) : Interaction A ε α → Interaction A ε α → Prop
  | fail (e : ε) (p' : Interaction A ε α) : Tightens silent (fail e) p'
  | ret (x : α) : Tightens silent (ret x) (ret x)
  | ask (q : Q) {next next' : A q → Interaction A ε α}
      (hnext : ∀ a, Tightens silent (next a) (next' a)) :
      Tightens silent (ask q next) (ask q next')
  | silent (q : Q) (hq : silent q) {next : A q → Interaction A ε α} {p' : Interaction A ε α}
      (hnext : ∀ a, Tightens silent (next a) p') : Tightens silent (.ask q next) p'

namespace Tightens

variable {silent : Q → Prop} {p p' : Interaction A ε α}

theorem refl (p : Interaction A ε α) : Tightens silent p p := by
  induction p with
  | ret x => exact .ret x
  | fail e => exact .fail e _
  | ask q next ih => exact .ask q ih

variable {f f' : α → Interaction A ε β} {m : Except ε α}

theorem bind (hp : Tightens silent p p') (hf : ∀ x, Tightens silent (f x) (f' x)) :
    Tightens silent (p >>= f) (p' >>= f') := by
  induction hp with
  | fail e p' => exact .fail e _
  | ret x => exact hf x
  | ask q _ ih => exact .ask q ih
  | silent q hq _ ih => exact .silent q hq ih

theorem same (hf : ∀ x, Tightens silent (f x) (f' x)) : Tightens silent (p >>= f) (p >>= f') :=
  bind (refl p) hf

theorem lift {m' : Except ε α} (h : Stricter m m') :
    Tightens silent (liftM m : Interaction A ε α) (liftM m') := by
  cases hm : m with
  | ok x =>
    rw [h x hm]
    exact .ret x
  | error e => exact .fail e _

theorem lift_bind_left {p' : Interaction A ε β} (hf : ∀ x, Tightens silent (f x) p') :
    Tightens silent (liftM m >>= f) p' := by
  cases m with
  | ok x => exact hf x
  | error e => exact .fail e p'

theorem call_bind_left {q : Q} {f : A q → Interaction A ε β} {p' : Interaction A ε β}
    (hq : silent q) (hf : ∀ a, Tightens silent (f a) p') : Tightens silent (call q >>= f) p' :=
  .silent q hq hf

theorem run {h : Handler A ε σ} {s s' : σ} {x : α} (hp : Tightens silent p p')
    (hsilent : ∀ q s, silent q → (h q s).2 = s) (hrun : p.run h s = (.ok x, s')) :
    p'.run h s = (.ok x, s') := by
  induction hp generalizing s with
  | fail e p' => cases hrun
  | ret y => exact hrun
  | ask q _ ih =>
    rcases hq : h q s with ⟨_ | a, s₁⟩
    · rw [run_ask_error hq] at hrun
      cases hrun
    · rw [run_ask_ok hq] at hrun ⊢
      exact ih a hrun
  | silent q hsil _ ih =>
    have hstate := hsilent q s hsil
    rcases hq : h q s with ⟨_ | a, s₁⟩
    · rw [run_ask_error hq] at hrun
      cases hrun
    · rw [run_ask_ok hq] at hrun
      rw [hq] at hstate
      replace hstate : s₁ = s := hstate
      rw [hstate] at hrun
      exact ih a hrun

end Tightens

def Succeeds (h : Handler A ε σ) (p : Interaction A ε α) (s : σ) : Prop :=
  ∃ x s', p.run h s = (.ok x, s')

theorem Succeeds.ret (h : Handler A ε σ) (x : α) (s : σ) :
    Succeeds h (ret x : Interaction A ε α) s := ⟨x, s, rfl⟩

variable {h : Handler A ε σ} {s : σ} {silent : Q → Prop} {m : Except ε α} {p p' : Interaction A ε α}

theorem succeeds_liftM : Succeeds h (liftM m : Interaction A ε α) s ↔ ∃ x, m = .ok x := by
  constructor
  · rintro ⟨x, s', hrun⟩
    exact ⟨x, (run_liftM_eq_ok hrun).1⟩
  · rintro ⟨x, rfl⟩
    exact ⟨x, s, rfl⟩

theorem Succeeds.bind_liftM {p p' : Interaction A ε Unit} {m' : Except ε α}
    (hp : Succeeds h p s → Succeeds h p' s) (hm : Stricter m m')
    (hs : Succeeds h (p >>= fun _ => liftM m) s) : Succeeds h (p' >>= fun _ => liftM m') s := by
  obtain ⟨x, s', hrun⟩ := hs
  obtain ⟨u, s₁, hu, hx⟩ := run_bind_eq_ok hrun
  obtain ⟨u', s₂, hu'⟩ := hp ⟨u, s₁, hu⟩
  refine ⟨x, s₂, ?_⟩
  rw [run_bind_ok hu', hm x (run_liftM_eq_ok hx).1]
  rfl

theorem Tightens.succeeds (hp : Tightens silent p p') (hsilent : ∀ q s, silent q → (h q s).2 = s)
    (hs : Succeeds h p s) : Succeeds h p' s := by
  obtain ⟨x, s', hrun⟩ := hs
  exact ⟨x, s', hp.run hsilent hrun⟩

/-- After a part that `p'` repeats, the rest of `p` need only succeed where the rest of `p'`
does. -/
theorem Tightens.succeeds_bind {f : α → Interaction A ε β} {f' : α → Interaction A ε β}
    (hp : Tightens silent p p') (hsilent : ∀ q s, silent q → (h q s).2 = s)
    (hf : ∀ x s, Succeeds h (f x) s → Succeeds h (f' x) s) (hs : Succeeds h (p >>= f) s) :
    Succeeds h (p' >>= f') s := by
  obtain ⟨y, s', hrun⟩ := hs
  obtain ⟨x, s₁, hx, hy⟩ := run_bind_eq_ok hrun
  obtain ⟨y', s'', hy'⟩ := hf x s₁ ⟨y, s', hy⟩
  refine ⟨y', s'', ?_⟩
  rw [run_bind_ok (hp.run hsilent hx)]
  exact hy'

end Interaction

end HcsCoin.Foundation
