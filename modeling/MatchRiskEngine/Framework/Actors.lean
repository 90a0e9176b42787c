import Mathlib.Algebra.BigOperators.Group.List.Basic
import Mathlib.Algebra.GroupWithZero.Nat

/-!
# Threads by number

A pool of threads is the list of their states, and a step of thread `i` sets
the `i`-th. How many threads are in a given kind of state then changes by that
thread alone.

A run is a fold of a step function over the actions taken. `AllSteps` says that
each action meets a condition in the state that finds it, and
`AllSteps.foldl_inv` is the rule for invariants that rest on the condition.
-/

namespace List

variable {α : Type} {l : List α} {i : Nat} {a b : α} {p : α → Bool}

theorem countP_set_add (h : l[i]? = some a) (b : α) (p : α → Bool) :
    (l.set i b).countP p + (if p a then 1 else 0) = l.countP p + (if p b then 1 else 0) := by
  obtain ⟨hlt, ha⟩ := getElem?_eq_some_iff.mp h
  rw [countP_set hlt, ha]
  by_cases hp : p a = true
  · have hpos : 0 < l.countP p := countP_pos_iff.mpr ⟨a, mem_of_getElem? h, hp⟩
    rw [if_pos hp]
    omega
  · rw [if_neg hp]
    omega

theorem countP_set_same (h : l[i]? = some a) (hab : p a = p b) : (l.set i b).countP p = l.countP p := by
  have := countP_set_add h b p
  rw [hab] at this
  omega

theorem countP_set_enter (h : l[i]? = some a) (ha : p a = false) (hb : p b = true) :
    (l.set i b).countP p = l.countP p + 1 := by
  simpa [ha, hb] using countP_set_add h b p

theorem countP_set_leave (h : l[i]? = some a) (ha : p a = true) (hb : p b = false) :
    l.countP p = (l.set i b).countP p + 1 := by
  simpa [ha, hb] using (countP_set_add h b p).symm

/-- A sum over all threads changes by one thread's part. -/
theorem sum_map_set_add (f : α → Nat) (h : l[i]? = some a) (b : α) :
    ((l.set i b).map f).sum + f a = (l.map f).sum + f b := by
  induction l generalizing i with
  | nil => cases h
  | cons x xs ih =>
    cases i with
    | zero =>
      cases h
      simp only [set_cons_zero, map_cons, sum_cons]
      omega
    | succ i =>
      have := ih h
      simp only [set_cons_succ, map_cons, sum_cons]
      omega

/-- What holds of the states of all threads after a step of one. -/
theorem forall_getElem?_set {P : Nat → α → Prop} (hi : P i b) (h : ∀ j c, j ≠ i → l[j]? = some c → P j c) :
    ∀ j c, (l.set i b)[j]? = some c → P j c := by
  intro j c hc
  rw [getElem?_set] at hc
  split at hc
  · rename_i hij
    subst hij
    split at hc
    · cases hc
      exact hi
    · cases hc
  · rename_i hij
    exact h j c (Ne.symm hij) hc

/-- What holds of all initial segments holds before the first action and from it on. -/
theorem forall_prefix_cons {P : List α → Prop} :
    (∀ done, done <+: a :: l → P done) ↔ P [] ∧ ∀ done, done <+: l → P (a :: done) := by
  constructor
  · exact fun h => ⟨h [] nil_prefix, fun done hdone => h (a :: done) ((prefix_cons_inj a).mpr hdone)⟩
  · rintro ⟨hnil, hcons⟩ done hdone
    rcases prefix_cons_iff.mp hdone with rfl | ⟨rest, rfl, hrest⟩
    · exact hnil
    · exact hcons rest hrest

end List

namespace MRE

variable {σ α : Type}

/-- Each action of a run meets the condition in the state that finds it. -/
def AllSteps (step : σ → α → σ) (ok : σ → α → Prop) : σ → List α → Prop
  | _, [] => True
  | s, a :: actions => ok s a ∧ AllSteps step ok (step s a) actions

instance AllSteps.decidable (step : σ → α → σ) (ok : σ → α → Prop) [∀ s a, Decidable (ok s a)] :
    ∀ (s : σ) (actions : List α), Decidable (AllSteps step ok s actions)
  | _, [] => inferInstanceAs (Decidable True)
  | s, a :: actions =>
    have := AllSteps.decidable step ok (step s a) actions
    inferInstanceAs (Decidable (ok s a ∧ AllSteps step ok (step s a) actions))

/-- Some action of a run does so in the state that finds it. -/
def SomeStep (step : σ → α → σ) (does : σ → α → Prop) : σ → List α → Prop
  | _, [] => False
  | s, a :: actions => does s a ∨ SomeStep step does (step s a) actions

instance SomeStep.decidable (step : σ → α → σ) (does : σ → α → Prop) [∀ s a, Decidable (does s a)] :
    ∀ (s : σ) (actions : List α), Decidable (SomeStep step does s actions)
  | _, [] => inferInstanceAs (Decidable False)
  | s, a :: actions =>
    have := SomeStep.decidable step does (step s a) actions
    inferInstanceAs (Decidable (does s a ∨ SomeStep step does (step s a) actions))

variable {step : σ → α → σ} {ok : σ → α → Prop}

theorem AllSteps.append {s : σ} {actions more : List α} :
    AllSteps step ok s (actions ++ more) ↔ AllSteps step ok s actions ∧ AllSteps step ok (actions.foldl step s) more := by
  induction actions generalizing s with
  | nil => exact ⟨fun h => ⟨trivial, h⟩, And.right⟩
  | cons a actions ih => exact (and_congr_right fun _ => ih).trans and_assoc.symm

theorem AllSteps.foldl_inv {I : σ → Prop}
    (hstep : ∀ s a, I s → ok s a → I (step s a)) {s : σ} {actions : List α} (h : AllSteps step ok s actions) (hs : I s) :
    I (actions.foldl step s) := by
  induction actions generalizing s with
  | nil => exact hs
  | cons a actions ih => exact ih h.2 (hstep s a hs h.1)

/-- A condition on the steps implies another one along an invariant. -/
theorem AllSteps.imp {ok ok' : σ → α → Prop} {I : σ → Prop}
    (hstep : ∀ s a, I s → ok s a → I (step s a)) (himp : ∀ s a, I s → ok s a → ok' s a) {s : σ} {actions : List α}
    (h : AllSteps step ok s actions) (hs : I s) : AllSteps step ok' s actions := by
  induction actions generalizing s with
  | nil => trivial
  | cons a actions ih => exact ⟨himp s a hs h.1, ih h.2 (hstep s a hs h.1)⟩

/-- If each step keeps a property exactly when it meets the condition, then the
property holds all along a run exactly when each step meets it. -/
theorem AllSteps.iff_forall_prefix {I P : σ → Prop}
    (hI : ∀ s a, I s → I (step s a)) (hP : ∀ s a, I s → P s → (P (step s a) ↔ ok s a)) {s : σ} (hs : I s) (h : P s)
    (actions : List α) : (∀ done, done <+: actions → P (done.foldl step s)) ↔ AllSteps step ok s actions := by
  induction actions generalizing s with
  | nil =>
    refine ⟨fun _ => trivial, fun _ done hdone => ?_⟩
    rw [List.prefix_nil.mp hdone]
    exact h
  | cons a actions ih =>
    rw [List.forall_prefix_cons]
    constructor
    · rintro ⟨-, hall⟩
      have hnext : P (step s a) := hall [] List.nil_prefix
      exact ⟨(hP s a hs h).mp hnext, (ih (hI s a hs) hnext).mp hall⟩
    · rintro ⟨hok, hall⟩
      exact ⟨h, (ih (hI s a hs) ((hP s a hs h).mpr hok)).mpr hall⟩

/-- An invariant of every step is one of every run. -/
theorem foldl_inv {I : σ → Prop} (hstep : ∀ s a, I s → I (step s a)) {s : σ} (hs : I s)
    (actions : List α) : I (actions.foldl step s) := by
  induction actions generalizing s with
  | nil => exact hs
  | cons a actions ih => exact ih (hstep s a hs)

end MRE
