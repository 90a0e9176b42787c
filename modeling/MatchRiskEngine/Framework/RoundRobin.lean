import Mathlib.Data.List.Basic

/-!
# Going round

A cursor goes round `n` places. `ahead n cursor i` is how far the place `i` is
ahead of it. If the cursor moves past a place that is less far ahead, `i` is
nearer than before (`ahead_past`): whoever waits at `i` is passed over fewer than
`n` times.
-/

namespace MRE

/-- How far `i` is ahead of the cursor. -/
def ahead (n cursor i : Nat) : Nat := if cursor % n ≤ i then i - cursor % n else n - cursor % n + i

variable {n i e : Nat} (cursor : Nat)

theorem ahead_lt (h : i < n) : ahead n cursor i < n := by
  have := Nat.mod_lt cursor (Nat.zero_lt_of_lt h)
  unfold ahead
  split <;> omega

theorem add_mod_cases (h : e < n) :
    (cursor + e) % n = cursor % n + e ∧ cursor % n + e < n ∨ (cursor + e) % n + n = cursor % n + e := by
  rw [Nat.add_mod_eq_ite, Nat.mod_eq_of_lt h]
  split
  · exact .inr (by omega)
  · exact .inl ⟨rfl, by omega⟩

theorem mod_add_ahead (h : i < n) :
    cursor % n + ahead n cursor i = i ∨ cursor % n + ahead n cursor i = n + i := by
  have := Nat.mod_lt cursor (Nat.zero_lt_of_lt h)
  unfold ahead
  split
  · exact .inl (by omega)
  · exact .inr (by omega)

variable {cursor}

theorem add_ahead (h : i < n) : (cursor + ahead n cursor i) % n = i := by
  have hcases := add_mod_cases cursor (ahead_lt cursor h)
  have hvalue := mod_add_ahead cursor h
  omega

/-- The cursor moves past the place `e` ahead of it. -/
theorem ahead_past (h : i < n) (he : e < ahead n cursor i) :
    ahead n (((cursor + e) % n + 1) % n) i + e + 1 = ahead n cursor i := by
  have hlt := Nat.mod_lt cursor (Nat.zero_lt_of_lt h)
  have hnear := ahead_lt cursor h
  -- past `e` means at `e + 1`, which is no further than `i`
  have hpast : ((cursor + e) % n + 1) % n = (cursor + (e + 1)) % n := by rw [Nat.mod_add_mod, Nat.add_assoc]
  have hcases := add_mod_cases cursor (show e + 1 < n by omega)
  have hvalue := mod_add_ahead cursor h
  have hvalue' := mod_add_ahead ((cursor + (e + 1)) % n) h
  have hnear' := ahead_lt ((cursor + (e + 1)) % n) h
  rw [hpast]
  rw [Nat.mod_mod] at hvalue'
  omega

end MRE
