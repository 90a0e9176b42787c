import Mathlib.Data.List.Basic

/-!
# Threads that own parts of a store

Threads that take turns on one store (`Threads.run`). If each of them only
reads and writes what it owns (`Ownership`), then in any interleaving it does
what it does alone, on a store of its own (`Ownership.run_alone`), and what no
thread owns stays as it is (`Ownership.run_unowned`).
-/

theorem List.flatMap_eq_of_unique {α β : Type} {l : List α} {f : α → List β} {i : Nat} {x : α} (hx : l[i]? = some x)
    (h : ∀ (j : Nat) (y : α), l[j]? = some y → j ≠ i → f y = []) : l.flatMap f = f x := by
  induction l generalizing i with
  | nil => cases hx
  | cons y l ih =>
    rw [List.flatMap_cons]
    cases i with
    | zero =>
      cases hx
      have hrest : ∀ y ∈ l, f y = [] := fun y hy => by
        obtain ⟨j, hj⟩ := List.getElem?_of_mem hy
        exact h (j + 1) y hj (Nat.succ_ne_zero j)
      rw [List.flatMap_eq_nil_iff.mpr hrest, List.append_nil]
    | succ i =>
      rw [h 0 y rfl (Nat.succ_ne_zero i).symm, List.nil_append]
      exact ih hx fun j z hz hj => h (j + 1) z hz (fun e => hj (Nat.succ.inj e))

namespace MRE

/-- Threads and the store they share. -/
structure Threads (T S : Type) where
  store : S
  threads : List T

namespace Threads

variable {A T S : Type}

def step (next : A → T → S → T × S) (x : Threads T S) (i : Nat) (a : A) : Threads T S :=
  match x.threads[i]? with
  | some t => { store := (next a t x.store).2, threads := x.threads.set i (next a t x.store).1 }
  | none => x

def run (next : A → T → S → T × S) (x : Threads T S) (actions : List (Nat × A)) : Threads T S :=
  actions.foldl (fun x a => x.step next a.1 a.2) x

def stepsOf (i : Nat) (actions : List (Nat × A)) : List A := (actions.filter fun a => a.1 = i).map Prod.snd

def alone (next : A → T → S → T × S) (t : T) (s : S) (steps : List A) : T × S :=
  steps.foldl (fun x a => next a x.1 x.2) (t, s)

variable {next : A → T → S → T × S} {x : Threads T S} {i j : Nat} {t : T} {a : A}

theorem step_of_some (h : x.threads[i]? = some t) (a : A) :
    x.step next i a = { store := (next a t x.store).2, threads := x.threads.set i (next a t x.store).1 } := by
  simp only [step, h]

theorem step_of_none (h : x.threads[i]? = none) (a : A) : x.step next i a = x := by
  simp only [step, h]

theorem step_self (h : x.threads[i]? = some t) (a : A) : (x.step next i a).threads[i]? = some (next a t x.store).1 := by
  rw [step_of_some h]
  exact List.getElem?_set_self (List.getElem?_eq_some_iff.mp h).1

theorem step_ne (h : i ≠ j) (x : Threads T S) (a : A) : (x.step next i a).threads[j]? = x.threads[j]? := by
  cases hi : x.threads[i]? with
  | none => rw [step_of_none hi]
  | some t =>
    rw [step_of_some hi]
    exact List.getElem?_set_ne h

theorem length_step (x : Threads T S) (i : Nat) (a : A) : (x.step next i a).threads.length = x.threads.length := by
  cases hi : x.threads[i]? with
  | none => rw [step_of_none hi]
  | some t =>
    rw [step_of_some hi]
    exact List.length_set

theorem length_run (x : Threads T S) (actions : List (Nat × A)) :
    (x.run next actions).threads.length = x.threads.length := by
  induction actions generalizing x with
  | nil => rfl
  | cons a actions ih => exact (ih (x.step next a.1 a.2)).trans (length_step x a.1 a.2)

end Threads

/-- The steps of threads each of which owns a part of the store, its own by its
place among the threads. -/
structure Ownership (A T S : Type) where
  next : A → T → S → T × S
  /-- The thread `i` keeps to what it owns. -/
  Wf : Nat → T → Prop
  /-- The same thread, which may have seen another store. -/
  Same : T → T → Prop
  /-- What the thread `i` owns is the same. -/
  Agree : Nat → S → S → Prop
  next_wf {i : Nat} {a : A} {t : T} {s : S} : Wf i t → Wf i (next a t s).1
  /-- A thread does the same where it finds the same. -/
  next_same {i : Nat} {a : A} {t t' : T} {s s' : S} : Wf i t → Same t t' → Agree i s s' →
    Same (next a t s).1 (next a t' s').1 ∧ Agree i (next a t s).2 (next a t' s').2
  /-- A thread leaves alone what it does not own. -/
  next_agree {i j : Nat} {a : A} {t : T} {s s' : S} : Wf j t → i ≠ j → Agree i s s' → Agree i (next a t s).2 s'

namespace Ownership

open Threads

variable {A T S : Type} (o : Ownership A T S) {x : Threads T S} {i : Nat} {t' : T} {s' : S}

/-- Every thread keeps to what it owns. -/
def AllWf (x : Threads T S) : Prop := ∀ (j : Nat) (t : T), x.threads[j]? = some t → o.Wf j t

variable {o}

theorem AllWf.step (h : o.AllWf x) (j : Nat) (a : A) : o.AllWf (x.step o.next j a) := by
  intro k u hu
  by_cases hk : j = k
  · subst hk
    cases hj : x.threads[j]? with
    | none =>
      rw [step_of_none hj] at hu
      exact h j u hu
    | some t =>
      rw [step_self hj] at hu
      cases hu
      exact o.next_wf (h j t hj)
  · rw [step_ne hk] at hu
    exact h k u hu

theorem AllWf.agree {j : Nat} (h : o.AllWf x) (hij : i ≠ j) (hagree : o.Agree i x.store s') (a : A) :
    o.Agree i (x.step o.next j a).store s' := by
  cases hj : x.threads[j]? with
  | none =>
    rw [step_of_none hj]
    exact hagree
  | some t =>
    rw [step_of_some hj]
    exact o.next_agree (h j t hj) hij hagree

/-- What a thread does in an interleaving it does alone. -/
theorem run_alone (h : o.AllWf x) {t : T} (ht : x.threads[i]? = some t) (hsame : o.Same t t') (hagree : o.Agree i x.store s')
    (actions : List (Nat × A)) :
    ∃ u, (x.run o.next actions).threads[i]? = some u ∧ o.Wf i u ∧
      o.Same u (alone o.next t' s' (stepsOf i actions)).1 ∧
      o.Agree i (x.run o.next actions).store (alone o.next t' s' (stepsOf i actions)).2 := by
  induction actions generalizing x t t' s' with
  | nil => exact ⟨t, ht, h i t ht, hsame, hagree⟩
  | cons a actions ih =>
    obtain ⟨j, a⟩ := a
    have hwf := AllWf.step h j a
    by_cases hij : j = i
    · subst hij
      have hsteps : stepsOf j ((j, a) :: actions) = a :: stepsOf j actions := by simp [stepsOf]
      obtain ⟨hsame', hagree'⟩ := o.next_same (a := a) (h j t ht) hsame hagree
      have hstore : o.Agree j (x.step o.next j a).store (o.next a t' s').2 := by
        rw [step_of_some ht]
        exact hagree'
      rw [hsteps]
      exact ih hwf (step_self ht a) hsame' hstore
    · have hsteps : stepsOf i ((j, a) :: actions) = stepsOf i actions := by simp [stepsOf, hij]
      rw [hsteps]
      exact ih hwf ((step_ne hij x a).trans ht) hsame (AllWf.agree h (Ne.symm hij) hagree a)

theorem run_unowned (h : o.AllWf x) (hi : x.threads.length ≤ i) (hagree : o.Agree i x.store s')
    (actions : List (Nat × A)) : o.Agree i (x.run o.next actions).store s' := by
  induction actions generalizing x with
  | nil => exact hagree
  | cons a actions ih =>
    obtain ⟨j, a⟩ := a
    have hstore : o.Agree i (x.step o.next j a).store s' := by
      by_cases hij : i = j
      · subst hij
        rw [step_of_none (List.getElem?_eq_none hi)]
        exact hagree
      · exact AllWf.agree h hij hagree a
    exact ih (AllWf.step h j a) ((length_step x j a).symm ▸ hi) hstore

end Ownership

end MRE
