import Mathlib.Algebra.Order.Ring.Int
import Mathlib.Tactic.LinearCombination
import Mathlib.Tactic.Ring

/-!
# Average-cost accounting

A position has a net quantity, an average entry price and the profit realised so
far. A fill opens or increases it, which averages the price, or reduces, closes or
flips it, which realises a profit (`CostBasis.fill`). Both divisions round towards
zero.

The profit is what was received less what was paid, with the position at its
average price, but for the `CostBasis.imbalance`, which a fill changes by one
remainder (`CostBasis.imbalance_fill`). The average price lies between the prices
at which the position was entered (`CostBasis.between_trail`): rounding towards
zero does not leave an interval whose ends are integers.
-/

/-- Dividing and multiplying again leaves out a remainder. -/
theorem Int.exists_mul_tdiv (a : Int) {b : Int} (hb : b ≠ 0) : ∃ r : Int, b * a.tdiv b = a - r ∧ r.natAbs < b.natAbs := by
  refine ⟨a.tmod b, ?_, ?_⟩
  · have h := Int.mul_tdiv_add_tmod a b
    omega
  · rw [Int.natAbs_tmod]
    exact Nat.mod_lt _ (by omega)

/-- A weighted mean of numbers from an interval, rounded towards zero. -/
theorem Int.weightedMean_mem {lo hi a b : Int} {m n : Nat} (hpos : 0 < m + n) (ha : lo ≤ a ∧ a ≤ hi)
    (hb : lo ≤ b ∧ b ≤ hi) : lo ≤ (a * m + b * n).tdiv (m + n : Nat) ∧ (a * m + b * n).tdiv (m + n : Nat) ≤ hi := by
  have hdiv : 0 < ((m + n : Nat) : Int) := by omega
  have hcancel : ∀ x : Int, (x * m + x * n).tdiv (m + n : Nat) = x := fun x => by
    rw [← Int.mul_add, ← Int.natCast_add]
    exact Int.mul_tdiv_cancel x (by omega)
  constructor
  · calc lo = (lo * m + lo * n).tdiv (m + n : Nat) := (hcancel lo).symm
      _ ≤ _ := Int.tdiv_le_tdiv hdiv (Int.add_le_add (Int.mul_le_mul_of_nonneg_right ha.1 (by omega))
        (Int.mul_le_mul_of_nonneg_right hb.1 (by omega)))
  · calc _ ≤ (hi * m + hi * n).tdiv (m + n : Nat) := Int.tdiv_le_tdiv hdiv (Int.add_le_add
        (Int.mul_le_mul_of_nonneg_right ha.2 (by omega)) (Int.mul_le_mul_of_nonneg_right hb.2 (by omega)))
      _ = hi := hcancel hi

namespace MRE

structure CostBasis where
  net : Int
  avg : Int
  pnl : Int
  deriving DecidableEq, Repr

namespace CostBasis

/-- Buy `qty` at `price`, or sell if `qty` is negative. The profit is in units
of `scale`. -/
def fill (scale : Int) (p : CostBasis) (qty price : Int) : CostBasis :=
  if p.net = 0 then { p with net := p.net + qty, avg := price }
  else if 0 < p.net ↔ 0 < qty then
    { p with
      net := p.net + qty
      avg := (p.avg * p.net.natAbs + price * qty.natAbs).tdiv (p.net + qty).natAbs }
  else
    { net := p.net + qty
      avg := if p.net + qty = 0 then 0 else if 0 < p.net + qty ↔ 0 < p.net then p.avg else price
      pnl := p.pnl + ((price - p.avg) * p.net.sign * (min qty.natAbs p.net.natAbs : Nat)).tdiv scale }

/-- The profit, less the cash flow and the position at its average price. -/
def imbalance (scale cash : Int) (p : CostBasis) : Int := scale * p.pnl - (cash + p.net * p.avg)

variable {scale : Int} {p : CostBasis} {qty : Int}

theorem fill_open (hnet : p.net = 0) (qty price : Int) :
    p.fill scale qty price = { p with net := p.net + qty, avg := price } := if_pos hnet

theorem fill_increase (hnet : p.net ≠ 0) (hsame : 0 < p.net ↔ 0 < qty) (price : Int) :
    p.fill scale qty price =
      { p with
        net := p.net + qty
        avg := (p.avg * p.net.natAbs + price * qty.natAbs).tdiv (p.net + qty).natAbs } := by
  rw [fill, if_neg hnet, if_pos hsame]

theorem fill_reduce (hnet : p.net ≠ 0) (hother : ¬ (0 < p.net ↔ 0 < qty)) (price : Int) :
    p.fill scale qty price =
      { net := p.net + qty
        avg := if p.net + qty = 0 then 0 else if 0 < p.net + qty ↔ 0 < p.net then p.avg else price
        pnl := p.pnl + ((price - p.avg) * p.net.sign * (min qty.natAbs p.net.natAbs : Nat)).tdiv scale } := by
  rw [fill, if_neg hnet, if_neg hother]

theorem net_fill (scale : Int) (p : CostBasis) (qty price : Int) : (p.fill scale qty price).net = p.net + qty := by
  unfold fill
  split
  · rfl
  · split <;> rfl

/-- Increasing a position leaves out the remainder of the average price. -/
theorem imbalance_increase (hnet : p.net ≠ 0) (hsame : 0 < p.net ↔ 0 < qty) (price cash : Int) :
    ∃ r : Int, r.natAbs ≤ (p.net + qty).natAbs ∧
      (p.fill scale qty price).imbalance scale (cash - qty * price) = p.imbalance scale cash + r := by
  rw [fill_increase hnet hsame]
  obtain ⟨net, avg, pnl⟩ := p
  dsimp only at hnet hsame ⊢
  have hne : ((net + qty).natAbs : Int) ≠ 0 := by omega
  obtain ⟨r, hr, hlt⟩ := Int.exists_mul_tdiv (avg * net.natAbs + price * qty.natAbs) hne
  simp only [imbalance]
  generalize (avg * net.natAbs + price * qty.natAbs).tdiv _ = avg' at hr ⊢
  rcases Int.lt_or_gt_of_ne hnet with hneg | hpos
  · refine ⟨-r, by omega, ?_⟩
    rw [show (net.natAbs : Int) = -net by omega, show (qty.natAbs : Int) = -qty by omega,
      show ((net + qty).natAbs : Int) = -(net + qty) by omega] at hr
    linear_combination hr
  · refine ⟨r, by omega, ?_⟩
    rw [show (net.natAbs : Int) = net by omega, show (qty.natAbs : Int) = qty by omega,
      show ((net + qty).natAbs : Int) = net + qty by omega] at hr
    linear_combination -hr

/-- How much is closed: the whole position, or as much as is filled. -/
theorem closed_cases {net close : Int} (hnet : net ≠ 0) (hother : ¬ (0 < net ↔ 0 < qty))
    (hclose : close = net.sign * (min qty.natAbs net.natAbs : Nat)) :
    net + qty = 0 ∧ close = net ∨ net + qty ≠ 0 ∧ (0 < net + qty ↔ 0 < net) ∧ close = -qty ∨
      net + qty ≠ 0 ∧ ¬ (0 < net + qty ↔ 0 < net) ∧ close = net := by
  rcases Int.lt_or_gt_of_ne hnet with hneg | hpos
  · have hqty : 0 ≤ qty := by omega
    rw [Int.sign_eq_neg_one_of_neg hneg] at hclose
    rcases Int.lt_trichotomy (net + qty) 0 with h | h | h
    · exact .inr (.inl ⟨by omega, by omega, by omega⟩)
    · exact .inl ⟨h, by omega⟩
    · exact .inr (.inr ⟨by omega, by omega, by omega⟩)
  · have hqty : qty ≤ 0 := by omega
    rw [Int.sign_eq_one_of_pos hpos] at hclose
    rcases Int.lt_trichotomy (net + qty) 0 with h | h | h
    · exact .inr (.inr ⟨by omega, by omega, by omega⟩)
    · exact .inl ⟨h, by omega⟩
    · exact .inr (.inl ⟨by omega, by omega, by omega⟩)

/-- Reducing, closing or flipping a position leaves out the remainder of the
profit. -/
theorem imbalance_reduce (hscale : scale ≠ 0) (hnet : p.net ≠ 0) (hother : ¬ (0 < p.net ↔ 0 < qty))
    (price cash : Int) :
    ∃ r : Int, r.natAbs ≤ scale.natAbs ∧
      (p.fill scale qty price).imbalance scale (cash - qty * price) = p.imbalance scale cash + r := by
  rw [fill_reduce hnet hother]
  obtain ⟨net, avg, pnl⟩ := p
  dsimp only at hnet hother ⊢
  -- what is closed, and what is left of it
  obtain ⟨close, hclose⟩ : ∃ close : Int, close = net.sign * (min qty.natAbs net.natAbs : Nat) := ⟨_, rfl⟩
  obtain ⟨r, hr, hlt⟩ := Int.exists_mul_tdiv ((price - avg) * net.sign * (min qty.natAbs net.natAbs : Nat)) hscale
  refine ⟨-r, by omega, ?_⟩
  simp only [imbalance]
  generalize ((price - avg) * net.sign * _).tdiv scale = delta at hr ⊢
  rw [Int.mul_assoc, ← hclose] at hr
  rcases closed_cases hnet hother hclose with ⟨h₀, hc⟩ | ⟨h₀, hs, hc⟩ | ⟨h₀, hs, hc⟩
  · rw [if_pos h₀]
    rw [hc] at hr
    linear_combination hr + price * h₀
  · rw [if_neg h₀, if_pos hs]
    rw [hc] at hr
    linear_combination hr
  · rw [if_neg h₀, if_neg hs]
    rw [hc] at hr
    linear_combination hr

/-- A fill changes the imbalance by one remainder. -/
theorem imbalance_fill (hscale : scale ≠ 0) (p : CostBasis) (qty price cash : Int) :
    ∃ r : Int, r.natAbs ≤ max (p.fill scale qty price).net.natAbs scale.natAbs ∧
      (p.fill scale qty price).imbalance scale (cash - qty * price) = p.imbalance scale cash + r := by
  rw [net_fill]
  by_cases hnet : p.net = 0
  · refine ⟨0, Nat.zero_le _, ?_⟩
    rw [fill_open hnet]
    simp only [imbalance]
    linear_combination (p.avg - price) * hnet
  by_cases hsame : 0 < p.net ↔ 0 < qty
  · obtain ⟨r, hr, h⟩ := imbalance_increase hnet hsame price cash
    exact ⟨r, Nat.le_trans hr (Nat.le_max_left _ _), h⟩
  · obtain ⟨r, hr, h⟩ := imbalance_reduce hscale hnet hsame price cash
    exact ⟨r, Nat.le_trans hr (Nat.le_max_right _ _), h⟩

/-! ## Many fills -/

/-- The positions after each of some fills, given by quantity and price. -/
def trail (scale : Int) : CostBasis → List (Int × Int) → List CostBasis
  | _, [] => []
  | p, f :: fs => p.fill scale f.1 f.2 :: trail scale (p.fill scale f.1 f.2) fs

/-- What is received for what is sold, less what is paid. -/
def cashFlow (fs : List (Int × Int)) : Int := (fs.map fun f => -f.1 * f.2).sum

/-- The imbalance changes by one remainder for each fill. -/
theorem imbalance_trail (hscale : scale ≠ 0) (p : CostBasis) (fs : List (Int × Int)) (cash : Int) :
    (((p.trail scale fs).getLastD p).imbalance scale (cash + cashFlow fs) - p.imbalance scale cash).natAbs ≤
      ((p.trail scale fs).map fun q => max q.net.natAbs scale.natAbs).sum := by
  induction fs generalizing p cash with
  | nil => simp [trail, cashFlow]
  | cons f fs ih =>
    have ih := ih (p.fill scale f.1 f.2) (cash - f.1 * f.2)
    obtain ⟨r, hr, h⟩ := imbalance_fill hscale p f.1 f.2 cash
    have hcash : cash + cashFlow (f :: fs) = cash - f.1 * f.2 + cashFlow fs := by
      rw [cashFlow, List.map_cons, List.sum_cons, ← cashFlow]
      ring
    rw [hcash, trail, List.getLastD_cons, List.map_cons, List.sum_cons]
    omega

/-! ## Entry prices -/

/-- The prices at which a position was opened or increased since it was last
flat or flipped, after one more fill. -/
def entryPrices (net : Int) (prices : List Int) (qty price : Int) : List Int :=
  if (net + qty).sign = net.sign then
    if net.natAbs < (net + qty).natAbs then prices ++ [price] else prices
  else if net + qty = 0 then [] else [price]

/-- The same after some fills. -/
def entryPricesAfter : Int → List Int → List (Int × Int) → List Int
  | _, prices, [] => prices
  | net, prices, f :: fs => entryPricesAfter (net + f.1) (entryPrices net prices f.1 f.2) fs

/-- The number lies between the least and the greatest of some numbers. -/
def Between (x : Int) (prices : List Int) : Prop := ∃ lo ∈ prices, ∃ hi ∈ prices, lo ≤ x ∧ x ≤ hi

theorem between_singleton (x : Int) : Between x [x] :=
  ⟨x, List.mem_singleton_self x, x, List.mem_singleton_self x, Int.le_refl x, Int.le_refl x⟩

theorem Between.mean {avg price : Int} {prices : List Int} {m n : Nat} (h : Between avg prices) (hpos : 0 < m + n) :
    Between ((avg * m + price * n).tdiv (m + n : Nat)) (prices ++ [price]) := by
  obtain ⟨lo, hlo, hi, hhi, h₁, h₂⟩ := h
  have hmem : ∀ x, x ∈ prices ∨ x = price → x ∈ prices ++ [price] := fun x hx =>
    List.mem_append.mpr (hx.imp_right fun e => List.mem_singleton.mpr e)
  have havg : min lo price ≤ avg ∧ avg ≤ max hi price := by omega
  have hprice : min lo price ≤ price ∧ price ≤ max hi price := by omega
  refine ⟨min lo price, hmem _ ?_, max hi price, hmem _ ?_, Int.weightedMean_mem hpos havg hprice⟩
  · rcases Int.le_total lo price with hle | hle
    · exact .inl (by rwa [min_eq_left hle])
    · exact .inr (min_eq_right hle)
  · rcases Int.le_total hi price with hle | hle
    · exact .inr (max_eq_right hle)
    · exact .inl (by rwa [max_eq_left hle])

theorem entryPrices_enter {net qty : Int} (hnew : net + qty ≠ 0) (hsign : (net + qty).sign ≠ net.sign)
    (prices : List Int) (price : Int) : entryPrices net prices qty price = [price] := by
  rw [entryPrices, if_neg hsign, if_neg hnew]

theorem entryPrices_increase {net qty : Int} (hnet : net ≠ 0) (hsame : 0 < net ↔ 0 < qty) (hqty : qty ≠ 0)
    (prices : List Int) (price : Int) : entryPrices net prices qty price = prices ++ [price] := by
  have hsign : (net + qty).sign = net.sign := by
    rcases Int.lt_or_gt_of_ne hnet with hneg | hpos
    · rw [Int.sign_eq_neg_one_of_neg hneg, Int.sign_eq_neg_one_of_neg (by omega)]
    · rw [Int.sign_eq_one_of_pos hpos, Int.sign_eq_one_of_pos (by omega)]
  rw [entryPrices, if_pos hsign, if_pos (by omega)]

theorem entryPrices_keep {net qty : Int} (hsign : (net + qty).sign = net.sign)
    (hle : (net + qty).natAbs ≤ net.natAbs) (prices : List Int) (price : Int) :
    entryPrices net prices qty price = prices := by
  rw [entryPrices, if_pos hsign, if_neg (by omega)]

/-- A fill keeps the average price between the entry prices. -/
theorem between_fill (scale : Int) {prices : List Int} (h : p.net ≠ 0 → Between p.avg prices) (qty price : Int)
    (hnew : (p.fill scale qty price).net ≠ 0) :
    Between (p.fill scale qty price).avg (entryPrices p.net prices qty price) := by
  rw [net_fill] at hnew
  by_cases hnet : p.net = 0
  · have hsign : (p.net + qty).sign ≠ p.net.sign := by
      rw [hnet, Int.sign_zero, ne_eq, Int.sign_eq_zero_iff_zero]
      omega
    rw [fill_open hnet, entryPrices_enter hnew hsign]
    exact between_singleton price
  by_cases hsame : 0 < p.net ↔ 0 < qty
  · rw [fill_increase hnet hsame]
    have habs : (p.net + qty).natAbs = p.net.natAbs + qty.natAbs := by omega
    by_cases hqty : qty = 0
    -- nothing is added to a short position
    · rw [entryPrices_keep (by rw [hqty, Int.add_zero]) (by omega)]
      have hcancel : (p.avg * p.net.natAbs + price * qty.natAbs).tdiv (p.net + qty).natAbs = p.avg := by
        rw [hqty, Int.natAbs_zero, Int.natCast_zero, Int.mul_zero, Int.add_zero, Int.add_zero]
        exact Int.mul_tdiv_cancel _ (by omega)
      rw [hcancel]
      exact h hnet
    · rw [entryPrices_increase hnet hsame hqty, habs]
      exact (h hnet).mean (by omega)
  · rw [fill_reduce hnet hsame]
    dsimp only
    rw [if_neg hnew]
    by_cases hside : 0 < p.net + qty ↔ 0 < p.net
    · have hsign : (p.net + qty).sign = p.net.sign := by
        rcases Int.lt_or_gt_of_ne hnet with hneg | hpos
        · rw [Int.sign_eq_neg_one_of_neg hneg, Int.sign_eq_neg_one_of_neg (by omega)]
        · rw [Int.sign_eq_one_of_pos hpos, Int.sign_eq_one_of_pos (by omega)]
      rw [if_pos hside, entryPrices_keep hsign (by omega)]
      exact h hnet
    · have hsign : (p.net + qty).sign ≠ p.net.sign := by
        rcases Int.lt_or_gt_of_ne hnet with hneg | hpos
        · rw [Int.sign_eq_neg_one_of_neg hneg, Int.sign_eq_one_of_pos (by omega)]
          decide
        · rw [Int.sign_eq_one_of_pos hpos, Int.sign_eq_neg_one_of_neg (by omega)]
          decide
      rw [if_neg hside, entryPrices_enter hnew hsign]
      exact between_singleton price

/-- After any fills it lies between the entry prices. -/
theorem between_trail (scale : Int) (fs : List (Int × Int)) (p : CostBasis) {prices : List Int}
    (h : p.net ≠ 0 → Between p.avg prices) (hnet : ((p.trail scale fs).getLastD p).net ≠ 0) :
    Between ((p.trail scale fs).getLastD p).avg (entryPricesAfter p.net prices fs) := by
  induction fs generalizing p prices with
  | nil => exact h hnet
  | cons f fs ih =>
    rw [trail, List.getLastD_cons] at hnet ⊢
    have hstep := ih (p.fill scale f.1 f.2) (between_fill scale h f.1 f.2) hnet
    rwa [net_fill] at hstep

end CostBasis

end MRE
