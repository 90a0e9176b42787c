import Mathlib.Data.List.Basic

/-!
# Attempts that may fail

A list of things is attempted one after the other, the `i`-th attempt
succeeding if `ok i`. `succeeded` are those that went through, and
`untilFailure` counts those before the first failure. What went through is what
came before the first failure exactly if no attempt succeeds after one that
failed (`succeeded_prefix_iff`).
-/

namespace MRE

variable {α : Type} {ok : Nat → Bool}

/-- What went through, the attempts being numbered from `n` on. -/
def succeededFrom (ok : Nat → Bool) : Nat → List α → List α
  | _, [] => []
  | n, x :: xs => if ok n then x :: succeededFrom ok (n + 1) xs else succeededFrom ok (n + 1) xs

def succeeded (ok : Nat → Bool) (xs : List α) : List α := succeededFrom ok 0 xs

/-- How many of the attempts `n, n + 1, …` come before a failure, or before
there are `count` of them. -/
def untilFailureFrom (ok : Nat → Bool) : Nat → Nat → Nat
  | _, 0 => 0
  | n, count + 1 => if ok n then untilFailureFrom ok (n + 1) count + 1 else 0

def untilFailure (ok : Nat → Bool) (count : Nat) : Nat := untilFailureFrom ok 0 count

/-- Among the attempts before the `count`-th none succeeds after one that
failed. -/
def FailsForGood (ok : Nat → Bool) (count : Nat) : Prop := ∀ i j, i < j → j < count → ok i = false → ok j = false

theorem succeededFrom_concat (ok : Nat → Bool) (n : Nat) (xs : List α) (x : α) :
    succeededFrom ok n (xs ++ [x]) = succeededFrom ok n xs ++ if ok (n + xs.length) then [x] else [] := by
  induction xs generalizing n with
  | nil => rfl
  | cons y ys ih =>
    have hn : n + 1 + ys.length = n + (y :: ys).length := by
      rw [List.length_cons]
      omega
    rw [List.cons_append, succeededFrom, succeededFrom, ih, hn]
    split <;> rfl

theorem succeeded_concat (ok : Nat → Bool) (xs : List α) (x : α) :
    succeeded ok (xs ++ [x]) = succeeded ok xs ++ if ok xs.length then [x] else [] := by
  rw [succeeded, succeededFrom_concat, Nat.zero_add]
  rfl

theorem succeededFrom_eq_nil {n : Nat} {xs : List α} :
    succeededFrom ok n xs = [] ↔ ∀ j, n ≤ j → j < n + xs.length → ok j = false := by
  induction xs generalizing n with
  | nil =>
    refine iff_of_true rfl fun j hle hlt => ?_
    rw [List.length_nil] at hlt
    omega
  | cons x xs ih =>
    rw [succeededFrom, List.length_cons]
    split
    · rename_i hok
      refine iff_of_false (List.cons_ne_nil _ _) fun h => ?_
      rw [h n (Nat.le_refl n) (by omega)] at hok
      cases hok
    · rename_i hok
      rw [ih]
      refine ⟨fun h j hle hlt => ?_, fun h j hle hlt => h j (by omega) (by omega)⟩
      rcases Nat.eq_or_lt_of_le hle with rfl | hgt
      · exact Bool.eq_false_iff.mpr hok
      · exact h j hgt (by omega)

theorem succeededFrom_prefix_iff {n : Nat} {xs : List α} :
    succeededFrom ok n xs <+: xs.take (untilFailureFrom ok n xs.length) ↔
      ∀ i j, n ≤ i → i < j → j < n + xs.length → ok i = false → ok j = false := by
  induction xs generalizing n with
  | nil =>
    refine iff_of_true List.nil_prefix fun i j hi hij hj _ => ?_
    rw [List.length_nil] at hj
    omega
  | cons x xs ih =>
    rw [succeededFrom, List.length_cons, untilFailureFrom]
    split
    · rename_i hok
      rw [List.take_succ_cons, List.prefix_cons_inj, ih]
      refine ⟨fun h i j hi hij hj hfail => ?_, fun h i j hi hij hj => h i j (by omega) hij (by omega)⟩
      rcases Nat.eq_or_lt_of_le hi with rfl | hgt
      · rw [hok] at hfail
        cases hfail
      · exact h i j hgt hij (by omega) hfail
    · rename_i hok
      rw [List.take_zero, List.prefix_nil, succeededFrom_eq_nil]
      refine ⟨fun h i j hi hij hj _ => h j (by omega) (by omega), fun h j hle hlt => ?_⟩
      exact h n j (Nat.le_refl n) (by omega) (by omega) (Bool.eq_false_iff.mpr hok)

/-- What went through is what came before the first failure, if nothing goes
through after it. -/
theorem succeeded_prefix_iff {xs : List α} :
    succeeded ok xs <+: xs.take (untilFailure ok xs.length) ↔ FailsForGood ok xs.length := by
  rw [succeeded, untilFailure, succeededFrom_prefix_iff]
  simp only [FailsForGood, Nat.zero_le, Nat.zero_add, forall_true_left]

end MRE
