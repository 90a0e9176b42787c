import MatchRiskEngine.Spec.MatchingEngine

/-!
# The inline check in exact arithmetic

What passes the inline check has a notional within its limit. Its position is
within its limit unless the saturated or reinterpreted number that is compared
hides it, and its price is within the band unless rounding or the sign of the
reference hides it (`check_exact_iff`, `limits_exceeded`).
-/

namespace MRE.Proof.Engine

open RiskCheck

variable {order : NewOrder} {limits : Tier0Limits} {state : AccountRiskState} {referencePrice : Option Price}

/-! ## What is compared -/

/-- What was compared when an order passes. -/
structure Passed (order : NewOrder) (limits : Tier0Limits) (state : AccountRiskState) (referencePrice : Option Price) :
    Prop where
  notional : ¬ limits.maxOrderNotional < notionalOf order.price order.qty
  band : 0 < limits.priceBandBps → ∀ r ∈ referencePrice, priceOutOfBand order.price r limits.priceBandBps = false
  position : ¬ limits.maxPositionAbs <
    Int64.ofNat (projectedPosition state.position order.side order.qty).toInt.natAbs

theorem passed_of_check (h : checkNewOrder order limits state referencePrice = .ok ()) :
    Passed order limits state referencePrice := by
  -- the last two checks come after each of the branches on the price
  have hlast : ∀ {c p : Prop} [Decidable c] [Decidable p], (if c then Except.error RiskRejectReason.openOrderLimitExceeded
      else if p then Except.error RiskRejectReason.positionLimitExceeded else Except.ok ()) = Except.ok () → ¬ p := by
    intro c p _ _ h
    split at h
    · cases h
    split at h
    · cases h
    · assumption
  simp only [checkNewOrder, bind, Except.bind, pure, Except.pure, throw, throwThe, MonadExceptOf.throw] at h
  split at h
  · cases h
  split at h
  · cases h
  split at h
  · cases h
  split at h
  · cases h
  rename_i hnotional
  split at h
  · split at h
    · rename_i reference
      split at h
      · cases h
      rename_i hin
      refine ⟨hnotional, fun _ r hr => ?_, hlast h⟩
      cases hr
      exact Bool.eq_false_iff.mpr hin
    · rename_i hnone
      exact ⟨hnotional, fun _ r hr => absurd hr (hnone r), hlast h⟩
  · rename_i hoff
    exact ⟨hnotional, fun hon => absurd hon hoff, hlast h⟩

/-! ## The notional -/

theorem toNat_notionalOf (price : Price) (qty : Qty) :
    ((notionalOf price qty).toNat : Int) = min (max price.raw.toInt 0 * qty.raw.toNat / 100000000) (2 ^ 64 - 1) := by
  have hmax : (18446744073709551615 : UInt64).toNat = 2 ^ 64 - 1 := rfl
  unfold notionalOf
  dsimp only
  split
  · rename_i hneg
    rw [max_eq_right hneg]
    simp
  rename_i hpos
  rw [max_eq_left (by omega)]
  have hnonneg := Int.mul_nonneg (show 0 ≤ price.raw.toInt by omega) (Int.natCast_nonneg qty.raw.toNat)
  generalize price.raw.toInt * (qty.raw.toNat : Int) = prod at hnonneg ⊢
  split
  · rw [UInt64.toNat_zero]
    omega
  split
  · rw [hmax]
    omega
  · rw [UInt64.toNat_ofNat_of_lt' (show (prod / 100000000).toNat < 2 ^ 64 by omega)]
    omega

theorem Passed.within_notional (h : Passed order limits state referencePrice)
    (hlimit : limits.maxOrderNotional.toNat < 2 ^ 64 - 1) :
    max order.price.raw.toInt 0 * order.qty.raw.toNat / 100000000 ≤ limits.maxOrderNotional.toNat := by
  have hle := UInt64.le_iff_toNat_le.mp (UInt64.not_lt.mp h.notional)
  have hval := toNat_notionalOf order.price order.qty
  omega

/-! ## The position -/

/-- A small quantity is added as it is, up to saturation. -/
theorem toInt_projectedPosition (current : Int64) (side : Side) {qty : Qty} (hqty : qty.raw.toNat < 2 ^ 63) :
    (projectedPosition current side qty).toInt = Int64.clamp (exactPosition current side qty) := by
  have hdelta := UInt64.toInt_toInt64 qty.raw
  rw [if_pos hqty] at hdelta
  cases side with
  | buy =>
    show (current.saturatingAdd qty.raw.toInt64).toInt = _
    rw [Int64.toInt_saturatingAdd, hdelta]
    rfl
  | sell =>
    show (current.saturatingSub qty.raw.toInt64).toInt = _
    rw [Int64.toInt_saturatingSub, hdelta]
    rfl

theorem Passed.within_position_iff (h : Passed order limits state referencePrice) :
    (exactPosition state.position order.side order.qty).natAbs ≤ limits.maxPositionAbs.toInt ↔
      PositionShown limits state.position order.side order.qty := by
  have hmax := limits.maxPositionAbs.toInt_lt
  refine ⟨fun hle => ⟨fun _ => by omega, fun _ => hle⟩, fun hshown => ?_⟩
  by_cases hqty : order.qty.raw.toNat < 2 ^ 63
  · have hlt := hshown.small hqty
    have hval := toInt_projectedPosition state.position order.side hqty
    rw [Int64.clamp_of_range (by omega) (by omega)] at hval
    have hle := Int64.le_iff_toInt_le.mp (Int64.not_lt.mp h.position)
    rw [hval, Int64.toInt_ofNat_of_lt hlt] at hle
    exact hle
  · exact hshown.large (Nat.le_of_not_lt hqty)

/-! ## The price band -/

/-- A rounded quotient that is not too large stands for one that is not,
unless it is as large as it may be and was rounded. -/
theorem le_mul_iff_of_div_le {d r n : Nat} (hr : 0 < r) (h : d / r ≤ n) : d ≤ n * r ↔ (d / r = n → r ∣ d) := by
  constructor
  · rintro hle rfl
    exact ⟨d / r, by rw [Nat.mul_comm]; exact Nat.le_antisymm hle (Nat.div_mul_le_self d r)⟩
  · intro hdvd
    rcases Nat.lt_or_eq_of_le h with hlt | heq
    · exact Nat.le_of_lt ((Nat.div_lt_iff_lt_mul hr).mp hlt)
    · rw [← heq, Nat.div_mul_cancel (hdvd heq)]

theorem distance_div_le {price r : Price} {bps : UInt32} (hr : 0 < r.raw.toInt)
    (h : priceOutOfBand price r bps = false) : distance price r / r.raw.toInt.natAbs ≤ bps.toNat := by
  have hne : r.raw.toInt ≠ 0 := by omega
  have habs : ((r.raw.toInt.natAbs : Nat) : Int) = r.raw.toInt := by omega
  unfold priceOutOfBand at h
  dsimp only at h
  rw [if_neg hne, decide_eq_false_iff_not, Int.not_lt, Int.tdiv_eq_ediv_of_nonneg (by omega)] at h
  refine Int.ofNat_le.mp ?_
  rw [Int.natCast_ediv, distance, Int.natCast_mul, habs]
  exact h

theorem Passed.within_band_iff (h : Passed order limits state referencePrice) (hon : 0 < limits.priceBandBps)
    {r : Price} (hr : r ∈ referencePrice) :
    (r.raw.toInt ≠ 0 → distance order.price r ≤ limits.priceBandBps.toNat * r.raw.toInt.natAbs) ↔
      BandShown limits order.price r := by
  constructor
  · intro hle
    refine ⟨fun hpos => ?_, fun hneg => hle (by omega)⟩
    exact (le_mul_iff_of_div_le (by omega) (distance_div_le hpos (h.band hon r hr))).mp (hle (by omega))
  · intro hshown hne
    rcases Int.lt_or_gt_of_ne hne with hneg | hpos
    · exact hshown.negative hneg
    · exact (le_mul_iff_of_div_le (by omega) (distance_div_le hpos (h.band hon r hr))).mpr (hshown.positive hpos)

/-! ## The check -/

/-- What passes the check is within the limits if and only if the numbers that
are compared hide neither its position nor its price. -/
theorem check_exact_iff (order : NewOrder) (limits : Tier0Limits) (state : AccountRiskState)
    (referencePrice : Option Price) (hnotional : limits.maxOrderNotional.toNat < 2 ^ 64 - 1)
    (hok : checkNewOrder order limits state referencePrice = .ok ()) :
    WithinLimits order limits state referencePrice ↔
      PositionShown limits state.position order.side order.qty ∧
        (0 < limits.priceBandBps → ∀ r ∈ referencePrice, BandShown limits order.price r) := by
  have h := passed_of_check hok
  constructor
  · rintro ⟨-, hposition, hband⟩
    exact ⟨h.within_position_iff.mp hposition, fun hon r hr => (h.within_band_iff hon hr).mp (hband hon r hr)⟩
  · rintro ⟨hposition, hband⟩
    exact ⟨h.within_notional hnotional, h.within_position_iff.mpr hposition,
      fun hon r hr => (h.within_band_iff hon hr).mpr (hband hon r hr)⟩

/-- A limit order of an instrument. -/
def limitOrder (side : Side) (price : Int64) (qty : UInt64) : NewOrder :=
  { accountId := ⟨1⟩, instrumentId := ⟨1⟩, clientOrderId := ⟨1⟩, side, price := ⟨price⟩, orderType := .limit
    qty := ⟨qty⟩, timeInForce := .gtc }

/-- A position of at most 1000, and a band of one hundredth of a percent. -/
def tightLimits : Tier0Limits :=
  { Tier0Limits.default with maxOrderNotional := 1000000, maxPositionAbs := 1000, priceBandBps := 1 }

/-- A price at the edge of the band. -/
theorem check_exact_iff_demo :
    checkNewOrder (limitOrder .buy 20002 10) tightLimits .default (some ⟨20000⟩) = .ok () ∧
      WithinLimits (limitOrder .buy 20002 10) tightLimits .default (some ⟨20000⟩) := by
  refine ⟨rfl, (check_exact_iff _ tightLimits .default (some ⟨20000⟩) (by decide) rfl).mpr ⟨⟨?_, ?_⟩, fun _ r hr => ?_⟩⟩
  · exact fun _ => by decide
  · exact fun h => absurd h (by decide)
  · cases hr
    exact ⟨fun _ _ => by decide, fun h => absurd h (by decide)⟩

set_option maxRecDepth 2000

/-- Three orders that pass although they are out of bounds: a quantity that
counts as minus one, a price far from a negative reference, and a price just
outside the band. -/
theorem limits_exceeded :
    (checkNewOrder (limitOrder .buy 0 18446744073709551615) tightLimits .default none = .ok () ∧
      ¬ WithinLimits (limitOrder .buy 0 18446744073709551615) tightLimits .default none) ∧
    (checkNewOrder (limitOrder .buy 50 10) tightLimits .default (some ⟨-100⟩) = .ok () ∧
      ¬ WithinLimits (limitOrder .buy 50 10) tightLimits .default (some ⟨-100⟩)) ∧
    checkNewOrder (limitOrder .buy 10003 10) tightLimits .default (some ⟨10001⟩) = .ok () ∧
      ¬ WithinLimits (limitOrder .buy 10003 10) tightLimits .default (some ⟨10001⟩) := by
  refine ⟨⟨by decide, fun h => ?_⟩, ⟨by decide, fun h => ?_⟩, rfl, fun h => ?_⟩
  · exact absurd h.position (by decide)
  · exact absurd (h.band (by decide) ⟨-100⟩ rfl (by decide)) (by decide)
  · exact absurd (h.band (by decide) ⟨10001⟩ rfl (by decide)) (by decide)

end MRE.Proof.Engine
