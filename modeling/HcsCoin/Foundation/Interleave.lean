import Mathlib.Data.List.Nodup

/-!
# Threads on disjoint parts of a memory

A thread is a tree of loads and stores.  Threads run against one memory, one
access at a time, in the order a schedule names them.  When every address has
one owner and a thread touches only the addresses it owns, the order does not
matter: once all threads are through, each address holds what its owner, run
alone on the initial memory, leaves there.
-/

namespace HcsCoin.Foundation

inductive Thread (A V : Type) where
  | done
  | load (a : A) (next : V → Thread A V)
  | store (a : A) (v : V) (next : Thread A V)

variable {A V ι : Type}

namespace Thread

inductive Within (P : A → Prop) : Thread A V → Prop
  | done : Within P done
  | load {a : A} {next : V → Thread A V} (ha : P a) (hnext : ∀ v, Within P (next v)) :
      Within P (load a next)
  | store {a : A} {v : V} {next : Thread A V} (ha : P a) (hnext : Within P next) :
      Within P (store a v next)

variable [DecidableEq A]

def step (mem : A → V) : Thread A V → (A → V) × Thread A V
  | done => (mem, done)
  | load a next => (mem, next (mem a))
  | store a v next => (Function.update mem a v, next)

def run : Thread A V → (A → V) → A → V
  | done, mem => mem
  | load a next, mem => (next (mem a)).run mem
  | store a v next, mem => next.run (Function.update mem a v)

theorem run_step (p : Thread A V) (mem : A → V) :
    (p.step mem).2.run (p.step mem).1 = p.run mem := by
  cases p <;> rfl

variable {P : A → Prop} {p : Thread A V}

theorem Within.step (h : p.Within P) (mem : A → V) : (p.step mem).2.Within P := by
  cases h with
  | done => exact .done
  | load _ hnext => exact hnext _
  | store _ hnext => exact hnext

theorem Within.step_mem (h : p.Within P) (mem : A → V) {a : A} (ha : ¬ P a) :
    (p.step mem).1 a = mem a := by
  cases h with
  | done | load => rfl
  | @store b v _ hb => exact Function.update_of_ne (fun (hab : a = b) => ha (hab ▸ hb)) _ _

theorem Within.run_mem (h : p.Within P) (mem : A → V) {a : A} (ha : ¬ P a) :
    p.run mem a = mem a := by
  induction h generalizing mem with
  | done => rfl
  | load _ _ ih => exact ih _ mem
  | @store b v _ hb _ ih =>
    exact (ih _).trans (Function.update_of_ne (fun (hab : a = b) => ha (hab ▸ hb)) _ _)

theorem Within.run_congr (h : p.Within P) {mem mem' : A → V} (hmem : ∀ a, P a → mem a = mem' a)
    {a : A} (ha : P a) : p.run mem a = p.run mem' a := by
  induction h generalizing mem mem' with
  | done => exact hmem a ha
  | load hb _ ih =>
    rw [run, run, hmem _ hb]
    exact ih _ hmem
  | @store b v _ hb _ ih =>
    refine ih fun c hc => ?_
    by_cases hcb : c = b
    · rw [hcb, Function.update_self, Function.update_self]
    · rw [Function.update_of_ne hcb, Function.update_of_ne hcb, hmem c hc]

end Thread

open Thread

def Owned (owner : A → ι) (threads : ι → Thread A V) : Prop :=
  ∀ t, (threads t).Within fun a => owner a = t

structure Pool (A V ι : Type) where
  mem : A → V
  threads : ι → Thread A V

namespace Pool

variable [DecidableEq A] [DecidableEq ι]

def step (pool : Pool A V ι) (t : ι) : Pool A V ι where
  mem := ((pool.threads t).step pool.mem).1
  threads := Function.update pool.threads t ((pool.threads t).step pool.mem).2

def run (pool : Pool A V ι) (schedule : List ι) : Pool A V ι := schedule.foldl step pool

def Finished (pool : Pool A V ι) : Prop := ∀ t, pool.threads t = .done

variable {owner : A → ι} {pool : Pool A V ι}

section
variable (h : Owned owner pool.threads)
include h

theorem step_owned (t : ι) : Owned owner (pool.step t).threads := by
  intro u
  by_cases hut : u = t
  · subst hut
    change (Function.update pool.threads u _ u).Within _
    rw [Function.update_self]
    exact (h u).step pool.mem
  · change (Function.update pool.threads t _ u).Within _
    rw [Function.update_of_ne hut]
    exact h u

theorem step_run_owner (t : ι) (a : A) : ((pool.step t).threads (owner a)).run (pool.step t).mem a =
      (pool.threads (owner a)).run pool.mem a := by
  change (Function.update pool.threads t _ (owner a)).run _ a = _
  by_cases hat : owner a = t
  · subst hat
    rw [Function.update_self]
    exact congrFun (run_step _ _) a
  · rw [Function.update_of_ne hat]
    refine (h (owner a)).run_congr (fun b hb => ?_) rfl
    exact (h t).step_mem pool.mem fun hbt => hat (hb.symm.trans hbt)

theorem run_run_owner (schedule : List ι) (a : A) :
    ((pool.run schedule).threads (owner a)).run (pool.run schedule).mem a =
      (pool.threads (owner a)).run pool.mem a := by
  induction schedule generalizing pool with
  | nil => rfl
  | cons t schedule ih => exact (ih (step_owned h t)).trans (step_run_owner h t a)

theorem Finished.mem_eq {schedule : List ι} (hfinished : (pool.run schedule).Finished) (a : A) :
    (pool.run schedule).mem a = (pool.threads (owner a)).run pool.mem a := by
  rw [← run_run_owner h schedule a, hfinished (owner a)]
  rfl

end

end Pool

def runInOrder [DecidableEq A] (threads : ι → Thread A V) (order : List ι) (mem : A → V) : A → V :=
  order.foldl (fun mem t => (threads t).run mem) mem

variable {a : A} {order : List ι} {owner : A → ι} {threads : ι → Thread A V}

theorem runInOrder_of_not_mem [DecidableEq A] (h : Owned owner threads) (mem : A → V)
    (ha : owner a ∉ order) : runInOrder threads order mem a = mem a := by
  induction order generalizing mem with
  | nil => rfl
  | cons t order ih =>
    rw [List.mem_cons, not_or] at ha
    obtain ⟨hat, hrest⟩ := ha
    exact (ih _ hrest).trans ((h t).run_mem mem hat)

theorem runInOrder_eq [DecidableEq A] [DecidableEq ι] (h : Owned owner threads)
    (hnodup : order.Nodup) (mem : A → V) (ha : owner a ∈ order) :
    runInOrder threads order mem a = (threads (owner a)).run mem a := by
  induction order generalizing mem with
  | nil => exact absurd ha List.not_mem_nil
  | cons t order ih =>
    obtain ⟨htnot, hrest⟩ := List.nodup_cons.mp hnodup
    change runInOrder threads order ((threads t).run mem) a = _
    by_cases hat : owner a = t
    · subst hat
      exact runInOrder_of_not_mem h _ htnot
    · rw [ih hrest _ ((List.mem_cons.mp ha).resolve_left hat)]
      refine (h (owner a)).run_congr (fun b hb => ?_) rfl
      exact (h t).run_mem mem fun hbt => hat (hb.symm.trans hbt)

end HcsCoin.Foundation
