import Mathlib.Data.List.Basic

/-!
# Loops of computations that may fail

`Ensures E m P` is the correctness judgement used for computations in
`Except ε`: what `m` returns satisfies `P`, and what it throws is admitted by
`E`.  With an `E` that admits nothing it says that `m` returns.  The rules below
follow the shape of the programs: sequencing, loops with an invariant, tables
filled entry by entry, and loops that rewrite pairs of entries in place.
-/

namespace HcsCoin.Foundation

variable {ε α β σ : Type}

structure Ensures (E : ε → Prop) (m : Except ε α) (P : α → Prop) : Prop where
  returns : ∀ x, m = .ok x → P x
  throws : ∀ e, m = .error e → E e

@[simp] theorem ok_bind (x : α) (f : α → Except ε β) : (Except.ok x >>= f) = f x := rfl

namespace Ensures

variable {E : ε → Prop} {m : Except ε α} {P Q : α → Prop} {x : α} {f : α → Except ε β}

theorem ok (h : P x) : Ensures E (.ok x) P where
  returns y hy := by
    cases hy
    exact h
  throws e he := by cases he

theorem pure (h : P x) : Ensures E (Pure.pure x) P := ok h

theorem of_eq_ok (hm : m = .ok x) (h : P x) : Ensures E m P := by
  rw [hm]
  exact ok h

theorem apply (h : Ensures E m P) (hm : m = .ok x) : P x := h.returns x hm

theorem mono (h : Ensures E m P) (hPQ : ∀ x, P x → Q x) : Ensures E m Q :=
  ⟨fun x hx => hPQ x (h.returns x hx), h.throws⟩

theorem and_eq_ok (h : Ensures E m P) : Ensures E m fun x => P x ∧ m = .ok x :=
  ⟨fun x hx => ⟨h.returns x hx, hx⟩, h.throws⟩

theorem bind {R : β → Prop} (h : Ensures E m P) (hf : ∀ x, P x → Ensures E (f x) R) :
    Ensures E (m >>= f) R := by
  cases hm : m with
  | ok x => exact hf x (h.returns x hm)
  | error e =>
    refine ⟨fun y hy => ?_, fun e' he' => ?_⟩
    · cases hy
    · cases he'
      exact h.throws e hm

theorem bind_assoc {γ : Type} {g : β → Except ε γ} {Q : β → Prop} {R : γ → Prop}
    (h : Ensures E (m >>= f) Q) (hg : ∀ y, Q y → Ensures E (g y) R) :
    Ensures E (m >>= fun x => f x >>= g) R := by
  rw [← LawfulMonad.bind_assoc]
  exact h.bind hg

theorem exists_ok (h : Ensures (fun _ => False) m P) : ∃ x, m = .ok x ∧ P x := by
  cases hm : m with
  | ok x => exact ⟨x, rfl, h.returns x hm⟩
  | error e => exact (h.throws e hm).elim

theorem anyM {f : α → Except ε Bool} {xs : List α} (h : ∀ x ∈ xs, Ensures E (f x) (· = true ↔ P x)) :
    Ensures E (xs.anyM f) (· = true ↔ ∃ x ∈ xs, P x) := by
  induction xs with
  | nil => exact pure (by simp)
  | cons x xs ih =>
    obtain ⟨hx, hxs⟩ := List.forall_mem_cons.mp h
    rw [List.anyM]
    refine hx.bind fun b hb => ?_
    cases b with
    | true => exact pure (by simp [hb.mp rfl])
    | false =>
      have hnot : ¬ P x := fun hP => absurd (hb.mpr hP) Bool.false_ne_true
      exact (ih hxs).mono fun b hb => by simp [hb, hnot]

end Ensures

theorem foldlM_congr {f g : β → α → Except ε β} {xs : List α}
    (h : ∀ x ∈ xs, ∀ b, f b x = g b x) (init : β) : xs.foldlM f init = xs.foldlM g init := by
  induction xs generalizing init with
  | nil => rfl
  | cons x xs ih =>
    rw [List.foldlM_cons, List.foldlM_cons, h x List.mem_cons_self]
    exact bind_congr fun b => ih (List.forall_mem_cons.mp h).2 b

/-! ## Tables -/

/-- An entry named by a `Fin n` is always there. -/
instance getElemFin {n : Nat} : GetElem (Vector α n) (Fin n) α fun _ _ => True where
  getElem v i _ := v.get i

@[simp] theorem vector_getElem_fin {n : Nat} (v : Vector α n) (i : Fin n) : v[i] = v[i.val] := rfl

def tabulate : (n : Nat) → (Fin n → Except ε α) → Except ε (Vector α n)
  | 0, _ => .ok #v[]
  | n + 1, f => do
    let v ← tabulate n fun i => f i.castSucc
    let x ← f (Fin.last n)
    pure (v.push x)

variable {E : ε → Prop}

theorem Ensures.tabulate {n : Nat} {f : Fin n → Except ε α} {P : Fin n → α → Prop}
    (h : ∀ i, Ensures E (f i) (P i)) : Ensures E (tabulate n f) fun v => ∀ i : Fin n, P i v[i] := by
  induction n with
  | zero => exact Ensures.ok fun i => i.elim0
  | succ n ih =>
    refine (ih fun i => h i.castSucc).bind fun v hv => (h (Fin.last n)).bind fun x hx => ?_
    refine Ensures.pure fun i => ?_
    refine Fin.lastCases ?_ (fun i => ?_) i
    · simpa using hx
    · simpa using hv i

theorem tabulate_eq_ok_iff {n : Nat} {f : Fin n → Except ε α} {v : Vector α n} :
    tabulate n f = .ok v ↔ ∀ i : Fin n, f i = .ok v[i] := by
  constructor
  · intro h
    have hentry : ∀ i, Ensures (fun _ => True) (f i) fun x => f i = .ok x := by
      intro i
      exact ⟨fun x hx => hx, fun _ _ => trivial⟩
    exact (Ensures.tabulate hentry).apply h
  · intro h
    have hentry : ∀ i, Ensures (fun _ => False) (f i) fun x => x = v[i] :=
      fun i => Ensures.of_eq_ok (h i) rfl
    obtain ⟨w, hw, hentries⟩ := (Ensures.tabulate hentry).exists_ok
    rw [hw, Vector.ext fun i hi => hentries ⟨i, hi⟩]

/-! ## Computations with a bound on their rounds -/

def Extends (m m' : Except ε α) : Prop := ∀ x, m = .ok x → m' = .ok x

namespace Extends

theorem refl (m : Except ε α) : Extends m m := fun _ h => h

theorem bind {m m' : Except ε α} {f f' : α → Except ε β} (hm : Extends m m')
    (hf : ∀ x, Extends (f x) (f' x)) : Extends (m >>= f) (m' >>= f') := by
  intro y hy
  cases hx : m with
  | error e =>
    rw [hx] at hy
    cases hy
  | ok x =>
    rw [hx] at hy
    rw [hm x hx]
    exact hf x y hy

theorem foldlM {f g : β → α → Except ε β} {xs : List α} (h : ∀ b x, Extends (f b x) (g b x))
    (init : β) : Extends (xs.foldlM f init) (xs.foldlM g init) := by
  induction xs generalizing init with
  | nil => exact refl _
  | cons x xs ih => exact bind (h init x) ih

theorem tabulate {n : Nat} {f g : Fin n → Except ε α} (h : ∀ i, Extends (f i) (g i)) :
    Extends (tabulate n f) (tabulate n g) := by
  intro v hv
  rw [tabulate_eq_ok_iff] at hv ⊢
  exact fun i => h i v[i] (hv i)

end Extends

/-! ## Pairs of entries rewritten in place -/

variable {n : Nat}

def modifyPair (f : α → α → Except ε (α × α)) (a : Vector α n) (i j : Fin n) :
    Except ε (Vector α n) := do
  let (x, y) ← f a[i] a[j]
  pure ((a.set i x i.isLt).set j y j.isLt)

def DisjointRounds (fst snd : σ → Fin n) (steps : List σ) : Prop :=
  (∀ s ∈ steps, fst s ≠ snd s) ∧
    steps.Pairwise fun s t => fst s ≠ fst t ∧ fst s ≠ snd t ∧ snd s ≠ fst t ∧ snd s ≠ snd t

/-- Each round of a loop over disjoint pairs sees the entries as they were before the
loop, and nothing else changes. -/
theorem Ensures.pairLoop {fst snd : σ → Fin n} {f : σ → α → α → Except ε (α × α)}
    {P : σ → α → α → Prop} {steps : List σ} {a : Vector α n}
    (hdisjoint : DisjointRounds fst snd steps)
    (hstep : ∀ s ∈ steps, Ensures E (f s a[fst s] a[snd s]) fun r => P s r.1 r.2) :
    Ensures E (steps.foldlM (fun a s => modifyPair (f s) a (fst s) (snd s)) a) fun a' =>
      (∀ s ∈ steps, P s a'[fst s] a'[snd s]) ∧
        ∀ k, (∀ s ∈ steps, k ≠ fst s ∧ k ≠ snd s) → a'[k] = a[k] := by
  induction steps generalizing a with
  | nil => exact Ensures.pure ⟨fun s hs => absurd hs List.not_mem_nil, fun k _ => rfl⟩
  | cons s steps ih =>
    obtain ⟨hne, hpairwise⟩ := hdisjoint
    obtain ⟨happart, hrest⟩ := List.pairwise_cons.mp hpairwise
    have hs := hne s List.mem_cons_self
    rw [List.foldlM_cons]
    refine Ensures.bind (P := fun b => P s b[fst s] b[snd s] ∧
      ∀ k, k ≠ fst s → k ≠ snd s → b[k] = a[k]) ?_ ?_
    · rw [modifyPair]
      refine (hstep s List.mem_cons_self).bind fun r hr => Ensures.pure ⟨?_, fun k hk hk' => ?_⟩
      · simpa [Vector.getElem_set, Fin.val_inj, hs.symm] using hr
      · simp [Fin.val_inj, hk.symm, hk'.symm]
    · rintro b ⟨hb, hothers⟩
      have hsame : ∀ t ∈ steps, b[fst t] = a[fst t] ∧ b[snd t] = a[snd t] := by
        intro t ht
        obtain ⟨h₁, h₂, h₃, h₄⟩ := happart t ht
        exact ⟨hothers _ h₁.symm h₃.symm, hothers _ h₂.symm h₄.symm⟩
      refine (ih ⟨(List.forall_mem_cons.mp hne).2, hrest⟩ fun t ht => ?_).mono ?_
      · rw [(hsame t ht).1, (hsame t ht).2]
        exact hstep t (List.mem_cons_of_mem s ht)
      · rintro c ⟨hc, hkept⟩
        refine ⟨fun t ht => ?_, fun k hk => ?_⟩
        · rcases List.mem_cons.mp ht with rfl | ht
          · rwa [hkept _ fun u hu => ⟨(happart u hu).1, (happart u hu).2.1⟩,
              hkept _ fun u hu => ⟨(happart u hu).2.2.1, (happart u hu).2.2.2⟩]
          · exact hc t ht
        · rw [hkept k (List.forall_mem_cons.mp hk).2]
          exact hothers k (hk s List.mem_cons_self).1 (hk s List.mem_cons_self).2

end HcsCoin.Foundation
