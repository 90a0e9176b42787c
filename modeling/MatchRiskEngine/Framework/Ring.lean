import Mathlib.Algebra.Order.Ring.Int
import Mathlib.Data.List.Basic
import Mathlib.Data.Nat.ModEq
import Mathlib.Tactic.Ring

/-!
# Cursors and slots of a ring

A ring of `cap` slots is used through cursors that count the items and wrap at
`2^64`. Proofs speak of the unbounded counts: `cursor n` lists the values a
cursor has stored once it has counted to `n`, two counts less than `2^64` apart
are told apart by their values (`ofNat_eq_iff`, `ofNat_sub_eq_iff`), and a slot
belongs to the counts with its remainder (`toNat_and_mask`). `Intact` says that
the slots hold the items from some count on.
-/

namespace MRE.Ring

/-- A power of two that fits in a cursor. -/
def IsPowerOfTwo (cap : UInt64) : Prop := ∃ k < 64, cap.toNat = 2 ^ k

instance (cap : UInt64) : Decidable (IsPowerOfTwo cap) := inferInstanceAs (Decidable (∃ k < 64, cap.toNat = 2 ^ k))

theorem IsPowerOfTwo.pos {cap : UInt64} (h : IsPowerOfTwo cap) : 0 < cap.toNat := by
  obtain ⟨k, -, hk⟩ := h
  rw [hk]
  exact Nat.two_pow_pos k

theorem IsPowerOfTwo.le {cap : UInt64} (h : IsPowerOfTwo cap) : cap.toNat ≤ 2 ^ 63 := by
  obtain ⟨k, hlt, hk⟩ := h
  rw [hk]
  exact Nat.pow_le_pow_right (by decide) (by omega)

/-! ## Counts and their values -/

theorem toNat_ofNat (n : Nat) : (UInt64.ofNat n).toNat = n % 2 ^ 64 := UInt64.toNat_ofNat'

/-- Counts less than `2^64` apart have different values. -/
theorem ofNat_eq_iff {m n : Nat} (hle : m ≤ n) (hlt : n < m + 2 ^ 64) : UInt64.ofNat n = UInt64.ofNat m ↔ n = m := by
  rw [← UInt64.toNat_inj, toNat_ofNat, toNat_ofNat]
  omega

/-- The distance of two cursors that are at most `cap` apart. -/
theorem ofNat_sub_eq_iff {cap : UInt64} {m n : Nat} (hle : m ≤ n) (hcap : n ≤ m + cap.toNat) :
    UInt64.ofNat n - UInt64.ofNat m = cap ↔ n = m + cap.toNat := by
  have hlt := cap.toNat_lt
  rw [← UInt64.toNat_inj, UInt64.toNat_sub, toNat_ofNat, toNat_ofNat]
  omega

theorem ofNat_succ (n : Nat) : UInt64.ofNat n + 1 = UInt64.ofNat (n + 1) := by
  rw [UInt64.ofNat_add]
  rfl

/-- The values a cursor has stored when it stands at `n`. -/
def cursor (n : Nat) : List UInt64 := (List.range (n + 1)).map UInt64.ofNat

theorem cursor_zero : cursor 0 = [0] := rfl

theorem cursor_succ (n : Nat) : cursor (n + 1) = cursor n ++ [UInt64.ofNat (n + 1)] := by
  rw [cursor, List.range_succ, List.map_append]
  rfl

theorem getElem?_cursor {n i : Nat} {v : UInt64} (h : (cursor n)[i]? = some v) : i ≤ n ∧ v = UInt64.ofNat i := by
  rw [cursor, List.getElem?_map, Option.map_eq_some_iff] at h
  obtain ⟨j, hj, rfl⟩ := h
  obtain ⟨hlt, rfl⟩ := List.getElem?_eq_some_iff.mp hj
  rw [List.length_range] at hlt
  exact ⟨by omega, by rw [List.getElem_range]⟩

/-! ## Slots -/

/-- Masking an index takes the remainder of the count. -/
theorem toNat_and_mask {cap : UInt64} (h : IsPowerOfTwo cap) (n : Nat) :
    (UInt64.ofNat n &&& (cap - 1)).toNat = n % cap.toNat := by
  have hpos := h.pos
  obtain ⟨k, hk64, hk⟩ := h
  have hmask : (cap - 1).toNat = 2 ^ k - 1 := by
    have hle : (1 : UInt64) ≤ cap := UInt64.le_iff_toNat_le.mpr hpos
    rw [UInt64.toNat_sub_of_le _ _ hle, hk]
    rfl
  rw [UInt64.toNat_and, hmask, Nat.and_two_pow_sub_one_eq_mod, toNat_ofNat, hk,
    Nat.mod_mod_of_dvd _ (Nat.pow_dvd_pow 2 (Nat.le_of_lt hk64))]

/-- Counts less than `cap` apart have different slots. -/
theorem mod_ne_of_lt {cap i j : Nat} (hij : i < j) (hcap : j < i + cap) : i % cap ≠ j % cap := by
  intro h
  have hdvd : cap ∣ j - i := (Nat.modEq_iff_dvd' (Nat.le_of_lt hij)).mp h
  have := Nat.le_of_dvd (by omega) hdvd
  omega

variable {α : Type} {slots : List (Option α)} {items : List α} {cap lo : Nat}

/-- The slots hold the items from `lo` on. -/
def Intact (slots : List (Option α)) (cap : Nat) (items : List α) (lo : Nat) : Prop :=
  ∀ i, lo ≤ i → i < items.length → slots[i % cap]? = some items[i]?

theorem Intact.mono {lo' : Nat} (h : Intact slots cap items lo) (hle : lo ≤ lo') : Intact slots cap items lo' :=
  fun i hi => h i (Nat.le_trans hle hi)

/-- Writing the next item takes the slot of one that is `cap` older. -/
theorem Intact.write (h : Intact slots cap items lo) (hslots : slots.length = cap) (hroom : items.length < lo + cap)
    (x : α) : Intact (slots.set (items.length % cap) (some x)) cap (items ++ [x]) lo := by
  intro i hlo hi
  rw [List.length_append, List.length_singleton] at hi
  obtain hlt | rfl := Nat.lt_succ_iff_lt_or_eq.mp hi
  · rw [List.getElem?_set_ne (mod_ne_of_lt hlt (by omega)).symm, h i hlo hlt, List.getElem?_append_left hlt]
  · rw [List.getElem?_set_self (by rw [hslots]; exact Nat.mod_lt _ (by omega)), List.getElem?_concat_length]

/-- The items themselves are a part of what has been written. -/
theorem Intact.of_append {ys : List α} (h : Intact slots cap (items ++ ys) lo) : Intact slots cap items lo := by
  intro i hlo hi
  rw [h i hlo (by rw [List.length_append]; omega), List.getElem?_append_left hi]

end MRE.Ring
