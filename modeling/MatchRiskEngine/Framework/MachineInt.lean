import Mathlib.Algebra.BigOperators.Group.List.Basic
import Mathlib.Algebra.Order.BigOperators.Group.List
import Mathlib.Algebra.Order.Ring.Int
import Mathlib.Tactic.Ring

/-!
# Fixed-width integers

Checked and saturating arithmetic on 64-bit integers, each operation with its value
in `Int` or `Nat`. Plain `+`, `-` and `*` on `Int64` and `UInt64` wrap, and
`Int64.ofInt` narrows a wider value by dropping its high bits. A 128-bit
intermediate that holds the product of two 64-bit values is an `Int`.

Saturating addition does not associate: a sum that saturates and comes back depends
on the order of its summands, unless they are `Int64.OrderFree`. A sum that does
not saturate in one order (`Int64.SumsFit`) is exact, and unless it goes from one
end of the range to the other no other sum is (`sumsFit_of_toInt_foldl`).
-/

/-- The value of `x` clamped to the range of a signed 64-bit integer. -/
def Int64.clamp (x : Int) : Int := max (-2 ^ 63) (min x (2 ^ 63 - 1))

/-- The value is a signed 64-bit integer. -/
def Int64.Fits (x : Int) : Prop := -2 ^ 63 ≤ x ∧ x < 2 ^ 63

instance (x : Int) : Decidable (Int64.Fits x) := inferInstanceAs (Decidable (_ ∧ _))

/-- `a - b`, unless it leaves the range. -/
def Int64.checkedSub (a b : Int64) : Option Int64 :=
  if -2 ^ 63 ≤ a.toInt - b.toInt ∧ a.toInt - b.toInt < 2 ^ 63 then some (a - b) else none

def Int64.saturatingAdd (a b : Int64) : Int64 := Int64.ofIntClamp (a.toInt + b.toInt)

def Int64.saturatingSub (a b : Int64) : Int64 := Int64.ofIntClamp (a.toInt - b.toInt)

def Int64.saturatingMul (a b : Int64) : Int64 := Int64.ofIntClamp (a.toInt * b.toInt)

def UInt64.saturatingSub (a b : UInt64) : UInt64 := if a < b then 0 else a - b

namespace Int64

theorem bmod_of_range {x : Int} (h₁ : -2 ^ 63 ≤ x) (h₂ : x < 2 ^ 63) : x.bmod (2 ^ 64) = x := by
  rw [Int.bmod_eq_of_le] <;> omega

theorem clamp_of_range {x : Int} (h₁ : -2 ^ 63 ≤ x) (h₂ : x < 2 ^ 63) : clamp x = x := by
  unfold clamp; omega

theorem clamp_le (x : Int) : clamp x ≤ 2 ^ 63 - 1 := by
  unfold clamp; omega

theorem toInt_ofIntClamp_eq (x : Int) : (Int64.ofIntClamp x).toInt = clamp x := by
  unfold Int64.ofIntClamp clamp
  have hmin : Int64.minValue.toInt = -2 ^ 63 := rfl
  have hmax : Int64.maxValue.toInt = 2 ^ 63 - 1 := rfl
  split
  · split
    · rw [Int64.toInt_ofIntLE]; omega
    · rw [hmax]; omega
  · rw [hmin]; omega

theorem toInt_saturatingAdd (a b : Int64) : (a.saturatingAdd b).toInt = clamp (a.toInt + b.toInt) :=
  toInt_ofIntClamp_eq _

theorem toInt_saturatingSub (a b : Int64) : (a.saturatingSub b).toInt = clamp (a.toInt - b.toInt) :=
  toInt_ofIntClamp_eq _

theorem toInt_saturatingMul (a b : Int64) : (a.saturatingMul b).toInt = clamp (a.toInt * b.toInt) :=
  toInt_ofIntClamp_eq _

/-- Dividing what is clipped, rounding towards zero. -/
theorem clamp_tdiv_of_nonneg {x c : Int} (hx : 0 ≤ x) (hc : 0 < c) :
    (clamp x).tdiv c = min (x / c) ((2 ^ 63 - 1) / c) := by
  rcases Int.le_total x (2 ^ 63 - 1) with h | h
  · rw [clamp_of_range (by omega) (by omega), Int.tdiv_eq_ediv_of_nonneg hx, min_eq_left (Int.ediv_le_ediv hc h)]
  · have hclamp : clamp x = 2 ^ 63 - 1 := by unfold clamp; omega
    rw [hclamp, Int.tdiv_eq_ediv_of_nonneg (by decide), min_eq_right (Int.ediv_le_ediv hc h)]

theorem clamp_tdiv_of_nonpos {x : Int} (hx : x ≤ 0) (c : Int) : (clamp x).tdiv c = -(min (-x) (2 ^ 63) / c) := by
  have hclamp : clamp x = -min (-x) (2 ^ 63) := by unfold clamp; omega
  rw [hclamp, Int.neg_tdiv, Int.tdiv_eq_ediv_of_nonneg (by omega)]

theorem checkedSub_eq_some {a b c : Int64} :
    a.checkedSub b = some c ↔ c.toInt = a.toInt - b.toInt := by
  unfold checkedSub
  have hc₁ := c.le_toInt
  have hc₂ := c.toInt_lt
  split
  · rename_i h
    rw [Option.some.injEq, ← Int64.toInt_inj, Int64.toInt_sub, bmod_of_range h.1 h.2, eq_comm]
  · simp only [reduceCtorEq, false_iff]
    omega

theorem toInt_abs {a : Int64} (h : a ≠ minValue) : a.abs.toInt = a.toInt.natAbs := by
  have habs : a.toBitVec.abs.toInt = if a.toBitVec = BitVec.intMin 64 then (BitVec.intMin 64).toInt
      else a.toBitVec.toInt.natAbs := BitVec.toInt_abs_eq_natAbs
  rw [if_neg fun e => h (Int64.toBitVec_inj.mp (e.trans rfl))] at habs
  exact habs

theorem eq_zero_iff (a : Int64) : a = 0 ↔ a.toInt = 0 := by rw [← Int64.toInt_inj, Int64.toInt_zero]

theorem pos_iff (a : Int64) : 0 < a ↔ 0 < a.toInt := by rw [Int64.lt_iff_toInt_lt, Int64.toInt_zero]

theorem toInt_abs_of_fits {a : Int64} (h : Fits a.toInt.natAbs) : a.abs.toInt = a.toInt.natAbs := by
  refine toInt_abs fun e => ?_
  rw [e] at h
  exact absurd h (by decide)

theorem toInt_min (a b : Int64) : (min a b).toInt = min a.toInt b.toInt := by
  show (if a ≤ b then a else b).toInt = _
  split
  · rename_i h
    rw [min_eq_left (Int64.le_iff_toInt_le.mp h)]
  · rename_i h
    rw [min_eq_right (Int.le_of_lt (Int.not_le.mp (mt Int64.le_iff_toInt_le.mpr h)))]

/-- A product of a signed number and an absolute value. -/
theorem natAbs_mul_le {a : Int64} {n : Nat} (h : Fits n) :
    (a.toInt * n).natAbs ≤ 85070591730234615856620279821087277056 := by
  have ha : a.toInt.natAbs ≤ 2 ^ 63 := by
    have := a.le_toInt
    have := a.toInt_lt
    omega
  have hn : n ≤ 2 ^ 63 - 1 := by
    have := h.2
    omega
  rw [Int.natAbs_mul, Int.natAbs_natCast]
  exact Nat.mul_le_mul ha hn

theorem bmod_mul_add_mul {a b : Int64} {m n : Nat} (hm : Fits m) (hn : Fits n) :
    (a.toInt * m + b.toInt * n).bmod (2 ^ 128) = a.toInt * m + b.toInt * n := by
  have h₁ := natAbs_mul_le (a := a) hm
  have h₂ := natAbs_mul_le (a := b) hn
  rw [Int.bmod_eq_of_le] <;> omega

theorem abs_ne_zero {a : Int64} (h : a ≠ 0) : a.abs ≠ 0 := by
  intro habs
  by_cases hmin : a = minValue
  · rw [hmin] at habs
    exact absurd habs (by decide)
  · have hval := toInt_abs hmin
    rw [habs, Int64.toInt_zero] at hval
    exact h ((eq_zero_iff a).mpr (by omega))

theorem add_ne_zero_of_sameSign {a b : Int64} (ha : a ≠ 0) (hb : -2 ^ 63 < b.toInt)
    (hsign : decide (0 < a) = decide (0 < b)) : a + b ≠ 0 := by
  intro hsum
  have hneg : a = -b := by
    rw [← Int64.add_zero a, ← Int64.add_right_neg b, ← Int64.add_assoc, hsum, Int64.zero_add]
  have hval : a.toInt = -b.toInt := by
    have := b.toInt_lt
    rw [hneg, Int64.toInt_neg, bmod_of_range (by omega) (by omega)]
  rw [decide_eq_decide, pos_iff, pos_iff] at hsign
  exact ha ((eq_zero_iff a).mpr (by omega))

theorem toInt_ofInt_of_range {x : Int} (h₁ : -2 ^ 63 ≤ x) (h₂ : x < 2 ^ 63) : (Int64.ofInt x).toInt = x := by
  rw [Int64.toInt_ofInt]
  exact bmod_of_range h₁ h₂

theorem toInt_abs_least {a : Int64} (h : a.toInt = -2 ^ 63) : a.abs.toInt = -2 ^ 63 := by
  have hmin : a = minValue := Int64.toInt_inj.mp h
  rw [hmin]
  rfl

theorem toInt_ofInt_neg_iff {x : Int} (h : Fits x) : (Int64.ofInt (-x)).toInt = x ↔ x = 0 ∨ x = -2 ^ 63 := by
  obtain ⟨h₁, h₂⟩ := h
  rw [Int64.toInt_ofInt]
  show (-x).bmod (2 ^ 64) = x ↔ _
  rw [Int.bmod_def]
  split <;> omega

/-- A summand that is narrowed before it is added, to a sum that fits. -/
theorem clamp_add_bmod_iff {a : Int64} {d : Int} (h : Fits (a.toInt + d)) :
    clamp (a.toInt + d.bmod (2 ^ 64)) = a.toInt + d ↔ Fits d := by
  have h₁ := a.le_toInt
  have h₂ := a.toInt_lt
  have h₃ := h.1
  have h₄ := h.2
  constructor
  · intro heq
    rw [Int.bmod_def] at heq
    unfold clamp at heq
    split at heq <;> exact ⟨by omega, by omega⟩
  · intro hd
    rw [bmod_of_range hd.1 hd.2, clamp_of_range h₃ h₄]

/-- Division by a positive number is exact up to rounding. -/
theorem toInt_div_of_pos (a : Int64) {b : Int64} (hb : 0 < b.toInt) : (a / b).toInt = a.toInt.tdiv b.toInt := by
  have h₁ := a.le_toInt
  have h₂ := a.toInt_lt
  have habs := Int.natAbs_tdiv_le_natAbs a.toInt b.toInt
  have hneg : 0 ≤ -a.toInt → 0 ≤ -(a.toInt.tdiv b.toInt) := fun h => by
    rw [← Int.neg_tdiv]
    exact Int.tdiv_nonneg h (Int.le_of_lt hb)
  rw [Int64.toInt_div]
  refine bmod_of_range ?_ ?_
  · omega
  · omega

end Int64

namespace UInt64

theorem toInt_toInt64 (a : UInt64) :
    a.toInt64.toInt = if a.toNat < 2 ^ 63 then (a.toNat : Int) else a.toNat - 2 ^ 64 := by
  have h : a.toInt64.toInt = _ := BitVec.toInt_eq_toNat_cond a.toBitVec
  rw [h, UInt64.toNat_toBitVec]
  split <;> split <;> omega

theorem toNat_pos {a : UInt64} (h : a ≠ 0) : 0 < a.toNat :=
  UInt64.lt_iff_toNat_lt.mp (UInt64.pos_iff_ne_zero.mpr h)

theorem sub_ne_zero_of_lt {a b : UInt64} (h : b < a) : a - b ≠ 0 := by
  intro e
  have h₁ := UInt64.lt_iff_toNat_lt.mp h
  have h₂ := UInt64.toNat_sub_of_le a b (UInt64.le_of_lt h)
  rw [e, UInt64.toNat_zero] at h₂
  omega

/-- Saturating subtraction is truncated subtraction of the values. -/
theorem toNat_saturatingSub (a b : UInt64) : (a.saturatingSub b).toNat = a.toNat - b.toNat := by
  unfold saturatingSub
  split
  · rename_i h
    rw [UInt64.lt_iff_toNat_lt] at h
    rw [UInt64.toNat_zero]; omega
  · rename_i h
    rw [UInt64.lt_iff_toNat_lt, Nat.not_lt] at h
    rw [UInt64.toNat_sub_of_le _ _ (UInt64.le_iff_toNat_le.mpr h)]

end UInt64

namespace Int64

/-- The summands above zero do not saturate the sum, or there are none below;
and the other way round. -/
def OrderFree (start : Int64) (xs : List Int64) : Prop :=
  (start.toInt + (xs.map fun x => max x.toInt 0).sum < 2 ^ 63 ∨ ∀ x ∈ xs, 0 ≤ x.toInt) ∧
    (-2 ^ 63 ≤ start.toInt + (xs.map fun x => min x.toInt 0).sum ∨ ∀ x ∈ xs, x.toInt ≤ 0)

instance (start : Int64) (xs : List Int64) : Decidable (OrderFree start xs) :=
  inferInstanceAs (Decidable ((_ ∨ _) ∧ (_ ∨ _)))

theorem saturatingAdd_zero (a : Int64) : a.saturatingAdd 0 = a := by
  rw [← Int64.toInt_inj, toInt_saturatingAdd, Int64.toInt_zero, Int.add_zero]
  exact clamp_of_range a.le_toInt a.toInt_lt

theorem saturatingAdd_right_comm_of_nonneg (a : Int64) {b c : Int64} (hb : 0 ≤ b.toInt) (hc : 0 ≤ c.toInt) :
    (a.saturatingAdd b).saturatingAdd c = (a.saturatingAdd c).saturatingAdd b := by
  have ha := a.le_toInt
  rw [← Int64.toInt_inj]
  simp only [toInt_saturatingAdd, clamp]
  omega

theorem saturatingAdd_right_comm_of_nonpos (a : Int64) {b c : Int64} (hb : b.toInt ≤ 0) (hc : c.toInt ≤ 0) :
    (a.saturatingAdd b).saturatingAdd c = (a.saturatingAdd c).saturatingAdd b := by
  have ha := a.toInt_lt
  rw [← Int64.toInt_inj]
  simp only [toInt_saturatingAdd, clamp]
  omega

theorem sum_max_nonneg (xs : List Int64) : 0 ≤ (xs.map fun x => max x.toInt 0).sum :=
  List.sum_nonneg fun n hn => by
    obtain ⟨x, _, rfl⟩ := List.mem_map.mp hn
    exact le_max_right _ _

theorem sum_min_nonpos (xs : List Int64) : (xs.map fun x => min x.toInt 0).sum ≤ 0 := by
  have := List.sum_le_card_nsmul (xs.map fun x => min x.toInt 0) 0 fun n hn => by
    obtain ⟨x, _, rfl⟩ := List.mem_map.mp hn
    exact min_le_right _ _
  rwa [nsmul_zero] at this

variable {xs : List Int64}

theorem toInt_foldl_saturatingAdd {a : Int64} (hmax : a.toInt + (xs.map fun x => max x.toInt 0).sum < 2 ^ 63)
    (hmin : -2 ^ 63 ≤ a.toInt + (xs.map fun x => min x.toInt 0).sum) :
    (xs.foldl saturatingAdd a).toInt = a.toInt + (xs.map Int64.toInt).sum := by
  induction xs generalizing a with
  | nil => exact (Int.add_zero _).symm
  | cons x xs ih =>
    rw [List.map_cons, List.sum_cons] at hmax hmin ⊢
    have h₁ := sum_max_nonneg xs
    have h₂ := sum_min_nonpos xs
    have hadd : (a.saturatingAdd x).toInt = a.toInt + x.toInt := by
      rw [toInt_saturatingAdd]
      exact clamp_of_range (by omega) (by omega)
    rw [List.foldl_cons, ih (by rw [hadd]; omega) (by rw [hadd]; omega), hadd]
    omega

theorem OrderFree.foldl_eq {a : Int64} {xs ys : List Int64} (h : OrderFree a xs) (hp : xs.Perm ys) :
    xs.foldl saturatingAdd a = ys.foldl saturatingAdd a := by
  obtain ⟨hmax | hpos, hmin | hneg⟩ := h
  · have hmax' := (hp.map fun x : Int64 => max x.toInt 0).sum_eq ▸ hmax
    have hmin' := (hp.map fun x : Int64 => min x.toInt 0).sum_eq ▸ hmin
    rw [← Int64.toInt_inj, toInt_foldl_saturatingAdd hmax hmin, toInt_foldl_saturatingAdd hmax' hmin',
      (hp.map Int64.toInt).sum_eq]
  · exact hp.foldl_eq' (fun x hx y hy a => saturatingAdd_right_comm_of_nonpos a (hneg x hx) (hneg y hy)) a
  · exact hp.foldl_eq' (fun x hx y hy a => saturatingAdd_right_comm_of_nonneg a (hpos x hx) (hpos y hy)) a
  · exact hp.foldl_eq' (fun x hx y hy a => saturatingAdd_right_comm_of_nonneg a (hpos x hx) (hpos y hy)) a

/-! ## One order -/

/-- No partial sum leaves the range. -/
def SumsFit (start : Int64) (xs : List Int64) : Prop := ∀ n, Fits (start.toInt + ((xs.take n).map Int64.toInt).sum)

theorem sumsFit_iff {a : Int64} :
    SumsFit a xs ↔ ∀ n < xs.length + 1, Fits (a.toInt + ((xs.take n).map Int64.toInt).sum) := by
  refine ⟨fun h n _ => h n, fun h n => ?_⟩
  rcases Nat.lt_or_ge n (xs.length + 1) with hn | hn
  · exact h n hn
  · rw [List.take_of_length_le (by omega), ← List.take_length (l := xs)]
    exact h xs.length (Nat.lt_succ_self _)

instance (a : Int64) (xs : List Int64) : Decidable (SumsFit a xs) := decidable_of_iff' _ sumsFit_iff

theorem SumsFit.toInt_foldl {a : Int64} (h : SumsFit a xs) :
    (xs.foldl saturatingAdd a).toInt = a.toInt + (xs.map Int64.toInt).sum := by
  induction xs generalizing a with
  | nil => exact (Int.add_zero _).symm
  | cons x xs ih =>
    have hadd : (a.saturatingAdd x).toInt = a.toInt + x.toInt := by
      have hfits : Fits (a.toInt + (x.toInt + 0)) := h 1
      rw [Int.add_zero] at hfits
      rw [toInt_saturatingAdd, clamp_of_range hfits.1 hfits.2]
    have hrest : SumsFit (a.saturatingAdd x) xs := fun n => by
      have hfits := h (n + 1)
      rwa [List.take_succ_cons, List.map_cons, List.sum_cons, ← Int.add_assoc, ← hadd] at hfits
    rw [List.foldl_cons, ih hrest, hadd, List.map_cons, List.sum_cons, Int.add_assoc]

/-- The summands above zero do not reach `2^64`, nor do those below. -/
def Narrow (xs : List Int64) : Prop :=
  (xs.map fun x => max x.toInt 0).sum < 2 ^ 64 ∧ -2 ^ 64 < (xs.map fun x => min x.toInt 0).sum

instance (xs : List Int64) : Decidable (Narrow xs) := inferInstanceAs (Decidable (_ ∧ _))

/-- A sum that does not come to the lower end is at most the exact one. -/
theorem toInt_foldl_le {a : Int64} (xs : List Int64) (hmin : -2 ^ 63 ≤ a.toInt + (xs.map fun x => min x.toInt 0).sum)
    (hnarrow : -2 ^ 64 < (xs.map fun x => min x.toInt 0).sum) :
    (xs.foldl saturatingAdd a).toInt ≤ a.toInt + (xs.map Int64.toInt).sum := by
  induction xs generalizing a with
  | nil => exact Int.le_of_eq (Int.add_zero _).symm
  | cons x xs ih =>
    rw [List.map_cons, List.sum_cons] at hmin hnarrow
    rw [List.map_cons, List.sum_cons, List.foldl_cons]
    have hadd := toInt_saturatingAdd a x
    have hrest := sum_min_nonpos xs
    unfold clamp at hadd
    have := ih (a := a.saturatingAdd x) (by omega) (by omega)
    omega

/-- A sum that does not come to the upper end is at least the exact one. -/
theorem le_toInt_foldl {a : Int64} (xs : List Int64) (hmax : a.toInt + (xs.map fun x => max x.toInt 0).sum < 2 ^ 63)
    (hnarrow : (xs.map fun x => max x.toInt 0).sum < 2 ^ 64) :
    a.toInt + (xs.map Int64.toInt).sum ≤ (xs.foldl saturatingAdd a).toInt := by
  induction xs generalizing a with
  | nil => exact Int.le_of_eq (Int.add_zero _)
  | cons x xs ih =>
    rw [List.map_cons, List.sum_cons] at hmax hnarrow
    rw [List.map_cons, List.sum_cons, List.foldl_cons]
    have hadd := toInt_saturatingAdd a x
    have hrest := sum_max_nonneg xs
    unfold clamp at hadd
    have := ih (a := a.saturatingAdd x) (by omega) (by omega)
    omega

/-- What saturates at one end is not made up for at the other. -/
theorem sumsFit_of_toInt_foldl {a : Int64} (hnarrow : Narrow xs)
    (h : (xs.foldl saturatingAdd a).toInt = a.toInt + (xs.map Int64.toInt).sum) : SumsFit a xs := by
  induction xs generalizing a with
  | nil =>
    intro n
    rw [List.take_nil, List.map_nil, List.sum_nil, Int.add_zero]
    exact ⟨a.le_toInt, a.toInt_lt⟩
  | cons x xs ih =>
    obtain ⟨hmax, hmin⟩ := hnarrow
    rw [List.map_cons, List.sum_cons] at hmax hmin h
    have hadd := toInt_saturatingAdd a x
    have h₁ := sum_max_nonneg xs
    have h₂ := sum_min_nonpos xs
    rw [List.foldl_cons] at h
    -- if this summand saturates, the rest cannot lead back to the exact sum
    have hfits : Fits (a.toInt + x.toInt) := by
      unfold clamp at hadd
      by_contra hfits
      unfold Fits at hfits
      rcases Int.lt_or_le (a.toInt + x.toInt) (-2 ^ 63) with hlow | hlow
      · have := le_toInt_foldl (a := a.saturatingAdd x) xs (by omega) (by omega)
        omega
      · have := toInt_foldl_le (a := a.saturatingAdd x) xs (by omega) (by omega)
        omega
    rw [clamp_of_range hfits.1 hfits.2] at hadd
    have hrest : SumsFit (a.saturatingAdd x) xs := ih ⟨by omega, by omega⟩ (by rw [h, hadd, Int.add_assoc])
    intro n
    cases n with
    | zero =>
      rw [List.take_zero, List.map_nil, List.sum_nil, Int.add_zero]
      exact ⟨a.le_toInt, a.toInt_lt⟩
    | succ n =>
      have := hrest n
      rwa [hadd, Int.add_assoc] at this

/-- A short sum of small summands does not saturate in any order. -/
theorem sums_of_small (bound : Nat) (hxs : ∀ x ∈ xs, x.toInt.natAbs ≤ bound) (hlen : xs.length * bound < 2 ^ 63) :
    Int64.toInt 0 + (xs.map fun x => max x.toInt 0).sum < 2 ^ 63 ∧
      -2 ^ 63 ≤ Int64.toInt 0 + (xs.map fun x => min x.toInt 0).sum := by
  have hmax : (xs.map fun x => max x.toInt 0).sum ≤ (xs.length * bound : Nat) := by
    have := List.sum_le_card_nsmul (xs.map fun x => max x.toInt 0) (bound : Int) fun n hn => by
      obtain ⟨x, hx, rfl⟩ := List.mem_map.mp hn
      have := hxs x hx
      omega
    rwa [List.length_map, nsmul_eq_mul, ← Nat.cast_mul] at this
  have hmin : -((xs.length * bound : Nat) : Int) ≤ (xs.map fun x => min x.toInt 0).sum := by
    have := List.card_nsmul_le_sum (xs.map fun x => min x.toInt 0) (-bound : Int) fun n hn => by
      obtain ⟨x, hx, rfl⟩ := List.mem_map.mp hn
      have := hxs x hx
      omega
    rwa [List.length_map, nsmul_eq_mul, Int.mul_neg, ← Nat.cast_mul] at this
  rw [Int64.toInt_zero]
  omega

end Int64
