import MatchRiskEngine.Impl.RiskEngine

/-!
# Admission at the gateway, exactly

What an order is to meet before it is sequenced, over the integers
(`Tier0.Admissible`), and when 64 bits are enough to see that it does not
(`Tier0.LimitsShown`).
-/

namespace MRE

structure RiskLimits.Nonneg (limits : RiskLimits) : Prop where
  maxOrderNotional : 0 ≤ limits.maxOrderNotional.toInt
  maxPositionQty : 0 ≤ limits.maxPositionQty.toInt
  maxUnrealisedLoss : 0 ≤ limits.maxUnrealisedLoss.toInt
  initialMarginFraction : 0 ≤ limits.initialMarginFraction.toInt
  maintenanceMarginFraction : 0 ≤ limits.maintenanceMarginFraction.toInt

def AccountRiskState.available (s : AccountRiskState) : Int := s.balance.toInt - s.usedMargin.toInt

namespace Tier0

def exactNotional (price : Price) (qty : Qty) : Int := price.raw.toInt * qty.raw.toNat / 100000000

def exactMargin (limits : RiskLimits) (price : Price) (qty : Qty) : Int :=
  exactNotional price qty * limits.initialMarginFraction.toInt / 1000000

/-- The account is not frozen and the order is not void. -/
structure Live (snapshot : AccountRiskState) (price : Price) (qty : Qty) : Prop where
  frozen : snapshot.frozen = false
  qty_pos : 0 < qty.raw.toNat
  price_pos : 0 < price.raw.toInt

structure Admissible (snapshot : AccountRiskState) (limits : RiskLimits) (price : Price) (qty : Qty) : Prop
    extends Live snapshot price qty where
  notional : exactNotional price qty ≤ limits.maxOrderNotional.toInt
  margin : exactMargin limits price qty ≤ snapshot.available

/-- Both amounts are within their limits. -/
def Within (snapshot : AccountRiskState) (limits : RiskLimits) (price : Price) (qty : Qty) : Prop :=
  exactNotional price qty ≤ limits.maxOrderNotional.toInt ∧ exactMargin limits price qty ≤ snapshot.available

/-- `i64::MAX / 100_000_000`: a larger notional is clipped. -/
def maxNotional : Int := 92233720368

/-- `i64::MAX / 1_000_000`: a larger margin is clipped. -/
def maxMargin : Int := 9223372036854

/-- The margin that an order for `2^63` or more is credited with: it counts as
one for a negative quantity, `2^64` below. -/
def credit (limits : RiskLimits) (price : Price) (qty : Qty) : Int :=
  min (min (price.raw.toInt * (2 ^ 64 - qty.raw.toNat)) (2 ^ 63) / 100000000 * limits.initialMarginFraction.toInt)
    (2 ^ 63) / 1000000

/-- An order that is over a limit is seen to be. A margin over `maxMargin` shows
if less than that is available; a notional over `maxNotional` shows if the limit
is less than that, or less than its margin is available; and a quantity from
`2^63` on if the account lacks more than it is credited with. -/
structure LimitsShown (snapshot : AccountRiskState) (limits : RiskLimits) (price : Price) (qty : Qty) : Prop where
  small : qty.raw.toNat < 2 ^ 63 → exactNotional price qty ≤ maxNotional →
    limits.maxOrderNotional.toInt < exactNotional price qty ∨ snapshot.available < maxMargin ∨
      exactMargin limits price qty ≤ snapshot.available
  large : qty.raw.toNat < 2 ^ 63 → maxNotional < exactNotional price qty →
    limits.maxOrderNotional.toInt < maxNotional ∨
      snapshot.available < min (maxNotional * limits.initialMarginFraction.toInt / 1000000) maxMargin ∨
      Within snapshot limits price qty
  negative : 2 ^ 63 ≤ qty.raw.toNat → snapshot.available < -credit limits price qty ∨ Within snapshot limits price qty

end Tier0

end MRE
