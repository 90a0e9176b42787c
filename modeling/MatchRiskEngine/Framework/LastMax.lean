import Mathlib.Data.List.Induction
import Mathlib.Data.List.Sort

/-!
# The last of the largest

`lastMax key l`: of the elements with the largest key, the last. What is found
first when the keys are gone through from the largest down is found this way
(`findSome?_reverse_insertionSort`).
-/

namespace List

variable {α β κ : Type} [LinearOrder κ] {key : α → κ} {l : List α} {a : α}

/-- The last of the elements with the largest key. -/
def lastMax (key : α → κ) (l : List α) : Option α :=
  l.foldl (fun best a => best.elim (some a) fun b => if key a < key b then some b else some a) none

theorem lastMax_concat (key : α → κ) (l : List α) (a : α) :
    lastMax key (l ++ [a]) = (lastMax key l).elim (some a) fun b => if key a < key b then some b else some a :=
  List.foldl_concat ..

theorem lastMax_eq_none : lastMax key l = none ↔ l = [] := by
  rcases eq_nil_or_concat l with rfl | ⟨l, a, rfl⟩
  · exact iff_of_true rfl rfl
  · rw [concat_eq_append, lastMax_concat]
    refine iff_of_false ?_ (by simp)
    rcases lastMax key l with _ | b
    · exact Option.some_ne_none a
    · rw [Option.elim_some]
      split <;> exact Option.some_ne_none _

/-- It is an element, no key is larger, and the keys behind it are smaller. -/
theorem lastMax_eq_some (h : lastMax key l = some a) :
    ∃ l₁ l₂, l = l₁ ++ a :: l₂ ∧ (∀ x ∈ l, key x ≤ key a) ∧ ∀ x ∈ l₂, key x < key a := by
  induction l using reverseRecOn generalizing a with
  | nil => cases h
  | append_singleton l x ih =>
    rw [lastMax_concat] at h
    rcases hb : lastMax key l with _ | b
    · rw [hb] at h
      obtain rfl : x = a := Option.some.inj h
      rw [lastMax_eq_none.mp hb]
      exact ⟨[], [], rfl, by simp, by simp⟩
    · obtain ⟨l₁, l₂, rfl, hle, hlt⟩ := ih hb
      rw [hb, Option.elim_some] at h
      split at h
      · rename_i hx
        obtain rfl : b = a := Option.some.inj h
        refine ⟨l₁, l₂ ++ [x], by simp, fun y hy => ?_, fun y hy => ?_⟩
        · rcases mem_append.mp hy with hy | hy
          · exact hle y hy
          · exact mem_singleton.mp hy ▸ le_of_lt hx
        · rcases mem_append.mp hy with hy | hy
          · exact hlt y hy
          · exact mem_singleton.mp hy ▸ hx
      · rename_i hx
        obtain rfl : x = a := Option.some.inj h
        have hx := not_lt.mp hx
        refine ⟨l₁ ++ b :: l₂, [], rfl, fun y hy => ?_, by simp⟩
        rcases mem_append.mp hy with hy | hy
        · exact (hle y hy).trans hx
        · exact mem_singleton.mp hy ▸ le_refl _

/-- Going down a sorted list, the largest element at which something is found
is found. -/
theorem findSome?_reverse_insertionSort (r : α → α → Prop) [DecidableRel r] [Std.Total r] [IsTrans α r]
    {f : α → Option β} {b : β} (ha : a ∈ l) (hb : f a = some b) (hlarger : ∀ x ∈ l, r a x → x ≠ a → f x = none) :
    (insertionSort r l).reverse.findSome? f = some b := by
  have hmem {x : α} : x ∈ (insertionSort r l).reverse ↔ x ∈ l := by
    rw [mem_reverse, (perm_insertionSort r l).mem_iff]
  obtain ⟨l₁, l₂, hl, hfirst⟩ := eq_append_cons_of_mem (hmem.mpr ha)
  have hsorted : (insertionSort r l).reverse.Pairwise fun x y => r y x :=
    pairwise_reverse.mpr (pairwise_insertionSort r l)
  rw [hl] at hsorted
  refine findSome?_eq_some_iff.mpr ⟨l₁, a, l₂, hl, hb, fun x hx => ?_⟩
  have hx' : x ∈ l := hmem.mp (hl ▸ mem_append_left _ hx)
  exact hlarger x hx' ((pairwise_append.mp hsorted).2.2 x hx a mem_cons_self) fun h => hfirst (h ▸ hx)

end List
