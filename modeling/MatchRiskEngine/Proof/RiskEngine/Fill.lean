import MatchRiskEngine.Proof.RiskEngine.Exposure
import MatchRiskEngine.Spec.CashFlow

/-!
# One fill

`Position.applyFill` branch by branch (`applyFill_open`, `applyFill_increase`,
`applyFill_reduce`), and its machine integers as the exact ones: the quantities
(`toInt_newQty`), the average price (`toInt_mean`, `toInt_avgEntryPrice`) and
the profit (`toInt_pnlDelta`). As long as the quantities are below `2^63` the
net quantity and the average price are exact (`applyFill_netAvg`): the mean of
two prices needs no more room than they do.
-/

namespace MRE.Proof.Risk

open Position

variable {p : Position} {f : Position.Fill}

/-! ## Branches -/

theorem applyFill_open (hnet : p.netQty = 0) (f : Position.Fill) :
    p.applyFill f.side f.price f.qty =
      some { p with avgEntryPrice := f.price.raw, netQty := p.netQty + signedQty f.side f.qty } := by
  obtain ⟨side, price, qty⟩ := f
  cases side <;> exact if_pos hnet

theorem applyFill_increase (hnet : p.netQty ≠ 0)
    (hsame : decide (0 < p.netQty) = decide (0 < signedQty f.side f.qty))
    (hnew : ¬ (p.netQty + signedQty f.side f.qty).abs = 0) :
    p.applyFill f.side f.price f.qty =
      some
        { p with
          avgEntryPrice := Int64.ofInt (((p.avgEntryPrice.toInt * p.netQty.abs.toInt +
            f.price.raw.toInt * f.qty.raw.toNat).bmod (2 ^ 128)).tdiv (p.netQty + signedQty f.side f.qty).abs.toInt)
          netQty := p.netQty + signedQty f.side f.qty } := by
  obtain ⟨side, price, qty⟩ := f
  cases side <;> exact (if_neg hnet).trans ((if_pos hsame).trans (if_neg hnew))

theorem applyFill_reduce (hnet : p.netQty ≠ 0)
    (hother : ¬ decide (0 < p.netQty) = decide (0 < signedQty f.side f.qty)) :
    p.applyFill f.side f.price f.qty =
      some
        { netQty := p.netQty + signedQty f.side f.qty
          avgEntryPrice :=
            if p.netQty + signedQty f.side f.qty = 0 then 0
            else if decide (0 < p.netQty + signedQty f.side f.qty) ≠ decide (0 < p.netQty) then f.price.raw
            else p.avgEntryPrice
          realisedPnl := p.realisedPnl.saturatingAdd (Int64.ofInt
            ((((f.price.raw - p.avgEntryPrice) * if 0 < p.netQty then 1 else -1).toInt *
              (min (signedQty f.side f.qty).abs p.netQty.abs).toInt).tdiv 100000000)) } := by
  obtain ⟨side, price, qty⟩ := f
  cases side <;> exact (if_neg hnet).trans (if_neg hother)

/-! ## Quantities -/

theorem natAbs_signedQty (f : Position.Fill) : f.signedQty.natAbs = f.qty.raw.toNat := by
  unfold Fill.signedQty
  cases f.side
  · exact Int.natAbs_natCast _
  · exact (Int.natAbs_neg _).trans (Int.natAbs_natCast _)

/-- The signed quantity is the exact one, but for wrapping. -/
theorem toInt_signedQty_bmod (f : Position.Fill) : (signedQty f.side f.qty).toInt = f.signedQty.bmod (2 ^ 64) := by
  have hval : f.qty.raw.toInt64.toInt = (f.qty.raw.toNat : Int).bmod (2 ^ 64) := by
    have hlt := f.qty.raw.toNat_lt
    rw [UInt64.toInt_toInt64, Int.bmod_def]
    split <;> omega
  unfold signedQty Fill.signedQty
  cases f.side with
  | buy => exact hval
  | sell =>
    show (-f.qty.raw.toInt64).toInt = _
    rw [Int64.toInt_neg, hval, Int.bmod_neg_bmod]

theorem toInt_signedQty (h : Int64.Fits f.qty.raw.toNat) : (signedQty f.side f.qty).toInt = f.signedQty := by
  have habs := natAbs_signedQty f
  have hlt := h.2
  rw [toInt_signedQty_bmod]
  exact Int64.bmod_of_range (by omega) (by omega)

/-- A net quantity that fits is exact, whatever wrapped on the way. -/
theorem toInt_newQty (h : Int64.Fits (p.netQty.toInt + f.signedQty)) :
    (p.netQty + signedQty f.side f.qty).toInt = p.netQty.toInt + f.signedQty := by
  rw [Int64.toInt_add, toInt_signedQty_bmod, Int.add_bmod_bmod]
  exact Int64.bmod_of_range h.1 h.2

theorem sameSign_iff (h : Int64.Fits f.qty.raw.toNat) :
    decide (0 < p.netQty) = decide (0 < signedQty f.side f.qty) ↔ (0 < p.netQty.toInt ↔ 0 < f.signedQty) := by
  rw [decide_eq_decide, Int64.pos_iff, Int64.pos_iff, toInt_signedQty h]

/-! ## The average price -/

/-- The mean of the average price and the price of the fill. -/
def vwap (p : Position) (f : Position.Fill) : Int :=
  (p.avgEntryPrice.toInt * p.netQty.toInt.natAbs + f.price.raw.toInt * f.signedQty.natAbs).tdiv
    (p.netQty.toInt + f.signedQty).natAbs

theorem vwap_fits (hnet : p.netQty.toInt ≠ 0) (hsame : 0 < p.netQty.toInt ↔ 0 < f.signedQty) :
    Int64.Fits (vwap p f) := by
  have ha₁ := p.avgEntryPrice.le_toInt
  have ha₂ := p.avgEntryPrice.toInt_lt
  have hb₁ := f.price.raw.le_toInt
  have hb₂ := f.price.raw.toInt_lt
  have hmean := @Int.weightedMean_mem (-2 ^ 63) (2 ^ 63 - 1) p.avgEntryPrice.toInt f.price.raw.toInt
    p.netQty.toInt.natAbs f.signedQty.natAbs (by omega) (by omega) (by omega)
  rw [show p.netQty.toInt.natAbs + f.signedQty.natAbs = (p.netQty.toInt + f.signedQty).natAbs by omega] at hmean
  exact ⟨hmean.1, by have := hmean.2; unfold vwap; omega⟩

theorem numerator_eq (hqty : Int64.Fits f.qty.raw.toNat) (hprev : Int64.Fits p.netQty.toInt.natAbs) :
    (p.avgEntryPrice.toInt * p.netQty.abs.toInt + f.price.raw.toInt * f.qty.raw.toNat).bmod (2 ^ 128) =
      p.avgEntryPrice.toInt * p.netQty.toInt.natAbs + f.price.raw.toInt * f.signedQty.natAbs := by
  rw [Int64.toInt_abs_of_fits hprev, Int64.bmod_mul_add_mul hprev hqty, natAbs_signedQty]

theorem toInt_avgEntryPrice (hnew : Int64.Fits (p.netQty.toInt + f.signedQty)) :
    (if p.netQty + signedQty f.side f.qty = 0 then 0
      else if decide (0 < p.netQty + signedQty f.side f.qty) ≠ decide (0 < p.netQty) then f.price.raw
      else p.avgEntryPrice).toInt =
      if p.netQty.toInt + f.signedQty = 0 then 0
      else if 0 < p.netQty.toInt + f.signedQty ↔ 0 < p.netQty.toInt then p.avgEntryPrice.toInt
      else f.price.raw.toInt := by
  have hnew := toInt_newQty hnew
  have hzero : p.netQty + signedQty f.side f.qty = 0 ↔ p.netQty.toInt + f.signedQty = 0 := by rw [Int64.eq_zero_iff, hnew]
  have hflip : decide (0 < p.netQty + signedQty f.side f.qty) ≠ decide (0 < p.netQty) ↔
      ¬ (0 < p.netQty.toInt + f.signedQty ↔ 0 < p.netQty.toInt) := by
    rw [ne_eq, decide_eq_decide, Int64.pos_iff, Int64.pos_iff, hnew]
  by_cases h₀ : p.netQty.toInt + f.signedQty = 0
  · rw [if_pos h₀, if_pos (hzero.mpr h₀)]
    rfl
  rw [if_neg h₀, if_neg (mt hzero.mp h₀)]
  by_cases hs : 0 < p.netQty.toInt + f.signedQty ↔ 0 < p.netQty.toInt
  · rw [if_pos hs, if_neg fun hne => hflip.mp hne hs]
  · rw [if_neg hs, if_pos (hflip.mpr hs)]

/-! ## The profit -/

theorem toInt_direction (hnet : p.netQty.toInt ≠ 0) :
    (if 0 < p.netQty then 1 else -1 : Int64).toInt = p.netQty.toInt.sign := by
  split
  · rename_i hpos
    rw [Int.sign_eq_one_of_pos ((Int64.pos_iff _).mp hpos)]
    rfl
  · rename_i hneg
    rw [Int64.pos_iff] at hneg
    rw [Int.sign_eq_neg_one_of_neg (by omega)]
    rfl

/-- A profit per unit that fits is exact, even if the difference of the prices
wrapped. -/
theorem toInt_pnlPerUnit (hnet : p.netQty.toInt ≠ 0) (h : Int64.Fits (p.pnlPerUnit f)) :
    ((f.price.raw - p.avgEntryPrice) * if 0 < p.netQty then 1 else -1).toInt = p.pnlPerUnit f := by
  rw [Int64.toInt_mul, toInt_direction hnet, Int64.toInt_sub, Int.bmod_mul_bmod]
  exact Int64.bmod_of_range h.1 h.2

theorem toInt_closeQty (hqty : Int64.Fits f.qty.raw.toNat) (hprev : Int64.Fits p.netQty.toInt.natAbs) :
    (min (signedQty f.side f.qty).abs p.netQty.abs).toInt = (min f.signedQty.natAbs p.netQty.toInt.natAbs : Nat) := by
  have hsigned := toInt_signedQty hqty
  have habs : (signedQty f.side f.qty).abs.toInt = f.signedQty.natAbs := by
    rw [Int64.toInt_abs_of_fits (by rw [hsigned, natAbs_signedQty]; exact hqty), hsigned]
  rw [Int64.toInt_min, habs, Int64.toInt_abs_of_fits hprev]
  omega

theorem pnlDelta_eq (hqty : Int64.Fits f.qty.raw.toNat) (hprev : Int64.Fits p.netQty.toInt.natAbs)
    (hnet : p.netQty.toInt ≠ 0) (hunit : Int64.Fits (p.pnlPerUnit f)) :
    (((f.price.raw - p.avgEntryPrice) * if 0 < p.netQty then 1 else -1).toInt *
      (min (signedQty f.side f.qty).abs p.netQty.abs).toInt).tdiv 100000000 = p.pnlDelta f := by
  rw [toInt_pnlPerUnit hnet hunit, toInt_closeQty hqty hprev, Position.pnlDelta]

/-- The stored profit, with the narrowing and the saturation. -/
theorem toInt_realisedPnl (hqty : Int64.Fits f.qty.raw.toNat) (hprev : Int64.Fits p.netQty.toInt.natAbs)
    (hnet : p.netQty.toInt ≠ 0) (hunit : Int64.Fits (p.pnlPerUnit f)) :
    (p.realisedPnl.saturatingAdd (Int64.ofInt
      ((((f.price.raw - p.avgEntryPrice) * if 0 < p.netQty then 1 else -1).toInt *
        (min (signedQty f.side f.qty).abs p.netQty.abs).toInt).tdiv 100000000))).toInt =
      Int64.clamp (p.realisedPnl.toInt + (p.pnlDelta f).bmod (2 ^ 64)) := by
  rw [Int64.toInt_saturatingAdd, pnlDelta_eq hqty hprev hnet hunit, Int64.toInt_ofInt]
  rfl

/-! ## The position -/

/-- The net quantity and the average price are exact, as long as no quantity
reaches `2^63`. -/
theorem applyFill_netAvg (hqty : Int64.Fits f.qty.raw.toNat) (hprev : Int64.Fits p.netQty.toInt.natAbs)
    (hnew : Int64.Fits (p.netQty.toInt + f.signedQty).natAbs) :
    ∃ p', p.applyFill f.side f.price f.qty = some p' ∧ p'.netQty.toInt = (p.filled f).net ∧
      p'.avgEntryPrice.toInt = (p.filled f).avg := by
  have hlt := hnew.2
  have hfits : Int64.Fits (p.netQty.toInt + f.signedQty) := ⟨by omega, by omega⟩
  have hval := toInt_newQty hfits
  unfold Position.filled
  by_cases hnet : p.netQty.toInt = 0
  · rw [CostBasis.fill_open (show p.exact.net = 0 from hnet)]
    exact ⟨_, applyFill_open ((Int64.eq_zero_iff _).mpr hnet) f, hval, rfl⟩
  have hne := mt (Int64.eq_zero_iff _).mp hnet
  by_cases hsame : 0 < p.netQty.toInt ↔ 0 < f.signedQty
  · have habs : (p.netQty + signedQty f.side f.qty).abs.toInt = (p.netQty.toInt + f.signedQty).natAbs := by
      rw [Int64.toInt_abs_of_fits (by rw [hval]; exact hnew), hval]
    have hnewAbs : ¬ (p.netQty + signedQty f.side f.qty).abs = 0 := by
      rw [Int64.eq_zero_iff, habs]
      omega
    rw [CostBasis.fill_increase (show p.exact.net ≠ 0 from hnet) hsame]
    refine ⟨_, applyFill_increase hne ((sameSign_iff hqty).mpr hsame) hnewAbs, hval, ?_⟩
    have hmean := vwap_fits hnet hsame
    show (Int64.ofInt _).toInt = _
    rw [numerator_eq hqty hprev, habs]
    exact Int64.toInt_ofInt_of_range hmean.1 hmean.2
  · rw [CostBasis.fill_reduce (show p.exact.net ≠ 0 from hnet) hsame]
    exact ⟨_, applyFill_reduce hne (mt (sameSign_iff hqty).mp hsame), hval, toInt_avgEntryPrice hfits⟩

end MRE.Proof.Risk
