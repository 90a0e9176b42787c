import Mathlib.Algebra.Group.Nat.Defs
import Mathlib.Data.List.Basic

/-!
# Numbers from a counter

A 64-bit counter that is incremented for each new number hands out
`start + 1`, `start + 2` and so on (`Numbered`). The numbers increase as long as
the counter does not wrap.
-/

namespace MRE

/-- The numbers handed out from `start` on. -/
def Numbered (start : UInt64) (xs : List UInt64) : Prop := ∀ k x, xs[k]? = some x → x = start + UInt64.ofNat (k + 1)

namespace Numbered

variable {start : UInt64} {xs : List UInt64}

theorem nil (start : UInt64) : Numbered start [] := fun _ _ h => (by cases h)

theorem next_eq (start : UInt64) (n : Nat) : start + UInt64.ofNat n + 1 = start + UInt64.ofNat (n + 1) := by
  rw [UInt64.ofNat_add, UInt64.add_assoc]
  rfl

theorem concat (h : Numbered start xs) {x : UInt64} (hx : x = start + UInt64.ofNat (xs.length + 1)) :
    Numbered start (xs ++ [x]) := by
  intro k y hy
  obtain hlt | hge := Nat.lt_or_ge k xs.length
  · rw [List.getElem?_append_left hlt] at hy
    exact h k y hy
  · have hk := (List.getElem?_eq_some_iff.mp hy).1
    rw [List.length_append, List.length_singleton] at hk
    obtain rfl : k = xs.length := by omega
    rw [List.getElem?_concat_length] at hy
    cases hy
    exact hx

/-- The number at a place, as its distance from the start. -/
theorem toNat_sub (h : Numbered start xs) (hlt : xs.length < 2 ^ 64) {k : Nat} {x : UInt64} (hx : xs[k]? = some x) :
    (x - start).toNat = k + 1 := by
  have hk := (List.getElem?_eq_some_iff.mp hx).1
  rw [h k x hx, UInt64.add_comm, UInt64.add_sub_cancel]
  exact UInt64.toNat_ofNat_of_lt' (show k + 1 < 2 ^ 64 by omega)

/-- No number is handed out twice before the counter has gone round. -/
theorem index_inj (h : Numbered start xs) (hlt : xs.length < 2 ^ 64) {j k : Nat} {x : UInt64} (hj : xs[j]? = some x)
    (hk : xs[k]? = some x) : j = k := by
  have hdist := (h.toNat_sub hlt hj).symm.trans (h.toNat_sub hlt hk)
  omega

theorem toNat_eq (h : Numbered start xs) (hlt : start.toNat + xs.length < 2 ^ 64) {k : Nat} {x : UInt64}
    (hx : xs[k]? = some x) : x.toNat = start.toNat + (k + 1) := by
  have hk := (List.getElem?_eq_some_iff.mp hx).1
  rw [h k x hx, UInt64.toNat_add, UInt64.toNat_ofNat_of_lt' (show k + 1 < 2 ^ 64 by omega), Nat.mod_eq_of_lt (by omega)]

theorem start_lt (h : Numbered start xs) (hlt : start.toNat + xs.length < 2 ^ 64) : ∀ x ∈ xs, start < x := by
  intro x hx
  obtain ⟨k, hk⟩ := List.mem_iff_getElem?.mp hx
  rw [UInt64.lt_iff_toNat_lt, h.toNat_eq hlt hk]
  omega

theorem pairwise_lt (h : Numbered start xs) (hlt : start.toNat + xs.length < 2 ^ 64) : xs.Pairwise (· < ·) := by
  rw [List.pairwise_iff_getElem]
  intro i j hi hj hij
  rw [UInt64.lt_iff_toNat_lt, h.toNat_eq hlt (List.getElem?_eq_getElem hi), h.toNat_eq hlt (List.getElem?_eq_getElem hj)]
  omega

/-- Counted from the start they increase even if the counter wraps. -/
theorem pairwise_sub_lt (h : Numbered start xs) (hlt : xs.length < 2 ^ 64) :
    xs.Pairwise fun x y => (x - start).toNat < (y - start).toNat := by
  rw [List.pairwise_iff_getElem]
  intro i j hi hj hij
  rw [h.toNat_sub hlt (List.getElem?_eq_getElem hi), h.toNat_sub hlt (List.getElem?_eq_getElem hj)]
  omega

end Numbered

end MRE
