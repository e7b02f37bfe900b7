import Mathlib.Order.Defs.Unbundled

/-!
# Computations on a state that may refuse

An `Action` changes a state and returns, or is undefined.  A `Check` may also
refuse, with a reason, in the state it has reached.  The rules say when a
sequence returns or passes, and when whatever it does to the state is covered by
a relation that composes.
-/

namespace HcsCoin.Foundation

variable {σ ε α β : Type}

def Action (σ α : Type) : Type := σ → Option (α × σ)

def Check (σ ε α : Type) : Type := σ → Option (Except ε α × σ)

namespace Action

protected def bind (x : Action σ α) (f : α → Action σ β) : Action σ β := fun s =>
  match x s with
  | none => none
  | some (a, s') => f a s'

instance : Monad (Action σ) where
  pure a := fun s => some (a, s)
  bind := Action.bind

def assert (condition : Bool) : Action σ Unit := fun s => if condition then some ((), s) else none

def ofOption (value : Option α) : Action σ α := fun s => value.map fun a => (a, s)

variable {s s' : σ} {f : α → Action σ β} {a : α} {x : Action σ α} {condition : Bool}

theorem pure_iff {b : α} : (pure a : Action σ α) s = some (b, s') ↔ b = a ∧ s' = s := by
  change some (a, s) = _ ↔ _
  rw [Option.some.injEq, Prod.mk.injEq, eq_comm, @eq_comm _ s]

theorem bind_of (h : x s = some (a, s')) : (x >>= f) s = f a s' := by
  change Action.bind x f s = _
  rw [Action.bind, h]

theorem bind_iff {b : β} {s'' : σ} :
    (x >>= f) s = some (b, s'') ↔ ∃ a s', x s = some (a, s') ∧ f a s' = some (b, s'') := by
  constructor
  · intro h
    change Action.bind x f s = _ at h
    rw [Action.bind] at h
    cases hx : x s with
    | none =>
      rw [hx] at h
      cases h
    | some r =>
      rw [hx] at h
      exact ⟨r.1, r.2, rfl, h⟩
  · rintro ⟨a, s', hx, hf⟩
    rw [bind_of hx, hf]

theorem assert_of (h : condition = true) : assert condition s = some ((), s) := if_pos h

theorem assert_iff {u : Unit} : assert condition s = some (u, s') ↔ condition = true ∧ s' = s := by
  rw [assert]
  split
  case isTrue h => simp [h, eq_comm]
  case isFalse h => simp [h]

theorem ofOption_iff {value : Option α} :
    ofOption value s = some (a, s') ↔ value = some a ∧ s' = s := by
  rw [ofOption]
  cases value <;> simp [eq_comm]

/-- Whatever `x` does to the state is covered by `R`. -/
def Keeps (R : σ → σ → Prop) (x : Action σ α) : Prop := ∀ s a s', x s = some (a, s') → R s s'

section Keeps

variable {R : σ → σ → Prop}

theorem Keeps.pure [Std.Refl R] (a : α) : Keeps R (Pure.pure a : Action σ α) := by
  rintro s b s' h
  rw [(pure_iff.mp h).2]
  exact refl_of R s

theorem Keeps.assert [Std.Refl R] (condition : Bool) : Keeps R (assert condition) := by
  rintro s b s' h
  rw [(assert_iff.mp h).2]
  exact refl_of R s

theorem Keeps.bind [IsTrans σ R] {x : Action σ α} {f : α → Action σ β} (hx : Keeps R x)
    (hf : ∀ a, Keeps R (f a)) : Keeps R (x >>= f) := by
  intro s b s'' h
  obtain ⟨a, s', hxs, hfs⟩ := bind_iff.mp h
  exact trans_of R (hx s a s' hxs) (hf a s' b s'' hfs)

end Keeps

end Action

namespace Check

protected def bind (x : Check σ ε α) (f : α → Check σ ε β) : Check σ ε β := fun s =>
  match x s with
  | none => none
  | some (.error e, s') => some (.error e, s')
  | some (.ok a, s') => f a s'

instance : Monad (Check σ ε) where
  pure a := fun s => some (.ok a, s)
  bind := Check.bind

instance : MonadLift (Action σ) (Check σ ε) where
  monadLift x := fun s => (x s).map fun r => (.ok r.1, r.2)

def rejectIf (condition : Bool) (reason : ε) : Check σ ε Unit := fun s =>
  some (if condition then .error reason else .ok (), s)

def outcome (x : Check σ ε α) : Action σ (Except ε α) := x

def ofExcept (result : Except ε α) : Check σ ε α := fun s => some (result, s)

def mapError {ε' : Type} (f : ε → ε') (x : Check σ ε α) : Check σ ε' α := fun s =>
  (x s).map fun r => (r.1.mapError f, r.2)

variable {a : α} {s s' : σ} {x : Check σ ε α} {condition : Bool} {f : Unit → Check σ ε β}
  {reason : ε}

theorem pure_iff {b : α} : (pure a : Check σ ε α) s = some (.ok b, s') ↔ b = a ∧ s' = s := by
  change some (Except.ok a, s) = _ ↔ _
  rw [Option.some.injEq, Prod.mk.injEq, Except.ok.injEq, eq_comm, @eq_comm _ s]

theorem bind_of {f : α → Check σ ε β} (h : x s = some (.ok a, s')) : (x >>= f) s = f a s' := by
  change Check.bind x f s = _
  rw [Check.bind, h]

theorem bind_iff {f : α → Check σ ε β} {b : β} {s'' : σ} : (x >>= f) s = some (.ok b, s'') ↔
      ∃ a s', x s = some (.ok a, s') ∧ f a s' = some (.ok b, s'') := by
  constructor
  · intro h
    change Check.bind x f s = _ at h
    rw [Check.bind] at h
    rcases hx : x s with _ | ⟨e | a, s'⟩
    · rw [hx] at h
      cases h
    · rw [hx] at h
      cases h
    · rw [hx] at h
      exact ⟨a, s', rfl, h⟩
  · rintro ⟨a, s', hx, hf⟩
    rw [bind_of hx, hf]

theorem lift_of {x : Action σ α} (h : x s = some (a, s')) :
    (liftM x : Check σ ε α) s = some (.ok a, s') := by
  change (x s).map _ = _
  rw [h]
  rfl

theorem lift_iff {x : Action σ α} :
    (liftM x : Check σ ε α) s = some (.ok a, s') ↔ x s = some (a, s') := by
  constructor
  · intro h
    change (x s).map (fun r => ((Except.ok r.1 : Except ε α), r.2)) = _ at h
    obtain ⟨⟨b, s''⟩, hx, hr⟩ := Option.map_eq_some_iff.mp h
    cases hr
    exact hx
  · exact lift_of

theorem rejectIf_iff {u : Unit} :
    rejectIf condition reason s = some (.ok u, s') ↔ condition = false ∧ s' = s := by
  rw [rejectIf]
  cases condition <;> simp [eq_comm]

theorem ofExcept_iff {result : Except ε α} :
    ofExcept result s = some (.ok a, s') ↔ result = .ok a ∧ s' = s := by
  rw [ofExcept, Option.some.injEq, Prod.mk.injEq, @eq_comm _ s]

theorem rejectIf_bind_iff {b : β} : (rejectIf condition reason >>= f) s = some (.ok b, s') ↔
      condition = false ∧ f () s = some (.ok b, s') := by
  rw [bind_iff]
  constructor
  · rintro ⟨_, s₁, hreject, hf⟩
    obtain ⟨hcond, rfl⟩ := rejectIf_iff.mp hreject
    exact ⟨hcond, hf⟩
  · rintro ⟨hcond, hf⟩
    exact ⟨(), s, rejectIf_iff.mpr ⟨hcond, rfl⟩, hf⟩

theorem rejectIf_bind_of (h : condition = false) : (rejectIf condition reason >>= f) s = f () s :=
  bind_of (rejectIf_iff.mpr ⟨h, rfl⟩)

theorem assert_bind_iff {b : β} :
    ((liftM (Action.assert condition : Action σ Unit) : Check σ ε Unit) >>= f) s =
        some (.ok b, s') ↔ condition = true ∧ f () s = some (.ok b, s') := by
  rw [bind_iff]
  constructor
  · rintro ⟨_, s₁, hassert, hf⟩
    obtain ⟨hcond, rfl⟩ := Action.assert_iff.mp (lift_iff.mp hassert)
    exact ⟨hcond, hf⟩
  · rintro ⟨hcond, hf⟩
    exact ⟨(), s, lift_of (Action.assert_of hcond), hf⟩

theorem mapError_iff {ε' : Type} {f : ε → ε'} :
    mapError f x s = some (.ok a, s') ↔ x s = some (.ok a, s') := by
  rw [mapError]
  rcases x s with _ | ⟨e | b, s''⟩
  · simp
  · change some (Except.error (f e), s'') = _ ↔ _
    simp
  · change some (Except.ok b, s'') = _ ↔ _
    simp

def Keeps (R : σ → σ → Prop) (x : Check σ ε α) : Prop := ∀ s r s', x s = some (r, s') → R s s'

section Keeps

variable {R : σ → σ → Prop}

theorem Keeps.pure [Std.Refl R] (a : α) : Keeps R (Pure.pure a : Check σ ε α) := by
  rintro s b s' h
  cases h
  exact refl_of R s

theorem Keeps.ofExcept [Std.Refl R] (result : Except ε α) : Keeps R (ofExcept result) := by
  rintro s b s' h
  cases h
  exact refl_of R s

theorem Keeps.lift {x : Action σ α} (hx : Action.Keeps R x) : Keeps R (liftM x : Check σ ε α) := by
  intro s r s' h
  change (x s).map (fun r => ((Except.ok r.1 : Except ε α), r.2)) = _ at h
  obtain ⟨⟨b, s''⟩, hxs, hr⟩ := Option.map_eq_some_iff.mp h
  cases hr
  exact hx s b s'' hxs

theorem Keeps.bind [IsTrans σ R] {x : Check σ ε α} {f : α → Check σ ε β} (hx : Keeps R x)
    (hf : ∀ a, Keeps R (f a)) : Keeps R (x >>= f) := by
  intro s r s'' h
  change Check.bind x f s = _ at h
  rw [Check.bind] at h
  rcases hxs : x s with _ | ⟨e | a, s'⟩
  · rw [hxs] at h
    cases h
  · rw [hxs] at h
    cases h
    exact hx s _ s'' hxs
  · rw [hxs] at h
    exact trans_of R (hx s _ s' hxs) (hf a s' r s'' h)

end Keeps

end Check

end HcsCoin.Foundation
