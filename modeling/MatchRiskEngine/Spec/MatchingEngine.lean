import MatchRiskEngine.Framework.Attempts
import MatchRiskEngine.Impl.MatchingEngine
import MatchRiskEngine.Spec.OrderBook
import MatchRiskEngine.Spec.RefBook

/-!
# What an engine publishes, and what it lets in

Which events an engine has produced is what it logs if no append fails
(`Env.lossless`). An engine that stops at a failed append publishes a beginning of
what it produced before (`MatchingEngine.StopsAtFailure`).

The inline check stands for limits over unbounded integers
(`RiskCheck.WithinLimits`). A liquidation takes the orders of one account out of a
book, and nothing else (`OrderBook.Clears`).
-/

namespace MRE

/-- The same environment, but every append succeeds. -/
def Env.lossless (env : Env) : Env := { env with walOk := fun _ => true }

/-- What was published, of all events produced, is a prefix of those before the
first failed append. -/
def MatchingEngine.StopsAtFailure {M K : Type} (env : Env) (e : MatchingEngine M K) (produced : List Event) : Prop :=
  e.outbound <+: produced.take (untilFailure env.walOk e.walCalls)

end MRE

namespace MRE.RiskCheck

/-- The position when the order is filled. -/
def exactPosition (current : Int64) (side : Side) (qty : Qty) : Int :=
  match side with
  | .buy => current.toInt + qty.raw.toNat
  | .sell => current.toInt - qty.raw.toNat

/-- Ten thousand times the distance of a price from the reference. -/
def distance (price reference : Price) : Nat := (price.raw.toInt - reference.raw.toInt).natAbs * 10000

structure WithinLimits (order : NewOrder) (limits : Tier0Limits) (state : AccountRiskState)
    (referencePrice : Option Price) : Prop where
  notional : max order.price.raw.toInt 0 * order.qty.raw.toNat / 100000000 ≤ limits.maxOrderNotional.toNat
  position : (exactPosition state.position order.side order.qty).natAbs ≤ limits.maxPositionAbs.toInt
  band : 0 < limits.priceBandBps → ∀ r ∈ referencePrice, r.raw.toInt ≠ 0 →
    distance order.price r ≤ limits.priceBandBps.toNat * r.raw.toInt.natAbs

/-- A quantity below `2^63` does not take the position out of the range in which
its absolute value is a signed number; a larger one counts as negative, and
the limit must hold by itself. -/
structure PositionShown (limits : Tier0Limits) (current : Int64) (side : Side) (qty : Qty) : Prop where
  small : qty.raw.toNat < 2 ^ 63 → (exactPosition current side qty).natAbs < 2 ^ 63
  large : 2 ^ 63 ≤ qty.raw.toNat → (exactPosition current side qty).natAbs ≤ limits.maxPositionAbs.toInt

/-- Rounding down does not hide that a price is just outside the band; a
negative reference lets every price pass, and the limit must hold by itself. -/
structure BandShown (limits : Tier0Limits) (price reference : Price) : Prop where
  positive : 0 < reference.raw.toInt → distance price reference / reference.raw.toInt.natAbs = limits.priceBandBps.toNat →
    reference.raw.toInt.natAbs ∣ distance price reference
  negative : reference.raw.toInt < 0 →
    distance price reference ≤ limits.priceBandBps.toNat * reference.raw.toInt.natAbs

end MRE.RiskCheck

namespace MRE

open SlotMap

/-- `xs'` is `xs` and then some more, all with `p`. -/
def GrowsBy {α : Type} (p : α → Prop) (xs xs' : List α) : Prop := ∃ ys, xs' = xs ++ ys ∧ ∀ y ∈ ys, p y

/-- The best of some prices, if there is one. -/
def Side.IsBestPrice (s : Side) (prices : Price → Prop) : Option Price → Prop
  | none => ∀ p, ¬ prices p
  | some p => prices p ∧ ∀ q, prices q →
    match s with
    | .buy => q.raw ≤ p.raw
    | .sell => p.raw ≤ q.raw

variable {M K : Type} [DecidableEq K] [Arena M K]

/-- The prices at which others than `account` have orders on a side. -/
def OrderBook.OthersAt (b : OrderBook M K) (account : AccountId) (side : Side) (price : Price) : Prop :=
  ∃ k o, get? b.arena k = some o ∧ o.account ≠ account ∧ o.side = side ∧ o.price = price

/-- `b'` is `b` without the orders of `account`. -/
structure OrderBook.Clears (account : AccountId) (b b' : OrderBook M K) : Prop where
  gone (k : K) (o : RestingOrder K) : get? b'.arena k = some o → o.account ≠ account
  /-- The orders of the others rest where they were, with other links. -/
  kept (k : K) (o : RestingOrder K) : get? b.arena k = some o → o.account ≠ account →
    ∃ next prev, get? b'.arena k = some { o with next, prev }
  only (k : K) : (get? b'.arena k).isSome → (get? b.arena k).isSome
  queues (side : Side) (idx : Nat) : ∃ q, b.queue side idx = some q ∧
    b'.queue side idx = some (q.filter fun x => x.1 ∉ b.openOrderIdsForAccount account)
  best (side : Side) : ∃ p, b'.bestPrice side = some p ∧ side.IsBestPrice (b.OthersAt account side) p

namespace MatchingEngine

/-- Commands lead from an engine with an empty book to this one. They come from
a sequencer: no two new orders have the same number. -/
def Reachable (env : Env) (e : MatchingEngine M K) : Prop :=
  ∃ (limits : Tier0Limits) (cfg : BookConfig) (b₀ : OrderBook M K) (risk : AccountRiskTable) (is : List Input),
    OrderBook.new cfg = some b₀ ∧ ((is.map Input.cmd).filterMap SequencedCommand.newOrderSeq).Nodup ∧
      (new limits b₀ risk).run env is = some e

/-- What was handed on between `e` and `e'` is no trade. -/
structure NoTrade (e e' : MatchingEngine M K) : Prop where
  riskOut : GrowsBy (fun ev => ∀ t, ev ≠ EngineEvent.trade t) e.riskOut e'.riskOut
  wal : GrowsBy (fun ev => ∀ seq fill, ev ≠ Event.filled seq fill) e.wal e'.wal
  outbound : GrowsBy (fun ev => ∀ seq fill, ev ≠ Event.filled seq fill) e.outbound e'.outbound

end MatchingEngine

end MRE
