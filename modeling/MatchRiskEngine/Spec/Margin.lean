import MatchRiskEngine.Framework.Clipping
import MatchRiskEngine.Impl.RiskEngine

/-!
# Equity and margin, exactly

What a risk shard is to publish about an account once a trade is filled
(`RiskShard.fillTrade`), over the integers. The 64-bit arithmetic is exact if each
position's margin is small (`RiskShard.SmallMargins`) and no sum on the way to the
balance saturates (`RiskShard.SumsExact`). The order of the positions does not show
in it (`RiskShard.SameInEveryOrder`) if they are order-free.

The inline risk check is to see the net quantity that an account has filled
(`RiskShard.netFilled`) and its `openOrders`. The engines' trades reach a shard as
one sequence that keeps the order of each symbol (`Interleaves`).
-/

namespace MRE

namespace Position

/-- The value of the position above its entry price. -/
def exactPnl (p : Position) (mark : Int) : Int :=
  p.netQty.toInt.sign * ((mark - p.avgEntryPrice.toInt) * p.netQty.toInt.natAbs).tdiv 100000000

/-- The value of the position, regardless of its direction. -/
def exactNotional (p : Position) (mark : Int) : Int := p.netQty.toInt.natAbs * mark / 100000000

/-- The margin the position needs, at a fraction in millionths. -/
def exactMargin (p : Position) (mark fraction : Int) : Int := p.exactNotional mark * fraction / 1000000

/-- The largest margin that the saturating product lets through:
`i64::MAX / 1_000_000`. -/
def maxMarginTerm : Int := 9223372036854

/-- The notional fits in 64 bits (or does not matter), and the margin is at
most `maxMarginTerm`. -/
def SmallMargin (p : Position) (mark fraction : Int) : Prop :=
  (fraction = 0 ∨ p.exactNotional mark < 2 ^ 63) ∧ p.exactMargin mark fraction ≤ maxMarginTerm

instance (p : Position) (mark fraction : Int) : Decidable (p.SmallMargin mark fraction) :=
  inferInstanceAs (Decidable ((_ ∨ _) ∧ _))

end Position

namespace Positions.Entry

/-- The price at which a position is valued. -/
def markPrice (markPrices : MarkPrices) (e : Positions.Entry) : Price := (markPrices e.1.2).getD ⟨e.2.avgEntryPrice⟩

def mark (markPrices : MarkPrices) (e : Positions.Entry) : Int := (e.markPrice markPrices).raw.toInt

def pnl (markPrices : MarkPrices) (e : Positions.Entry) : Int :=
  e.2.realisedPnl.toInt + e.2.exactPnl (e.mark markPrices)

/-- What a position adds to its account's maintenance margin. -/
def margin (markPrices : MarkPrices) (fraction : Int) (e : Positions.Entry) : Int :=
  e.2.exactMargin (e.mark markPrices) fraction

/-- What a position adds to the balance, one after the other. -/
def amounts (markPrices : MarkPrices) (e : Positions.Entry) : List Int64 :=
  [e.2.realisedPnl, e.2.unrealisedPnl (e.markPrice markPrices)]

def pair (markPrices : MarkPrices) (e : Positions.Entry) : Clip.Amounts :=
  ⟨e.2.realisedPnl.toInt, (e.2.unrealisedPnl (e.markPrice markPrices)).toInt⟩

/-- A position whose PnL the shard can compute: it fits, and if the position is
open, it is not valued at a negative price, nor too far above its entry price,
and its quantity is not the one that has no absolute value. -/
structure Tame (markPrices : MarkPrices) (e : Positions.Entry) : Prop where
  mark : e.2.netQty ≠ 0 → 0 ≤ e.mark markPrices
  diff : e.2.netQty ≠ 0 → e.mark markPrices - e.2.avgEntryPrice.toInt < 2 ^ 63
  qty : e.2.netQty ≠ Int64.minValue
  pnl : Int64.Fits (e.2.exactPnl (e.mark markPrices))

instance (markPrices : MarkPrices) (e : Positions.Entry) : Decidable (e.Tame markPrices) :=
  decidable_of_iff ((e.2.netQty ≠ 0 → 0 ≤ e.mark markPrices) ∧
      (e.2.netQty ≠ 0 → e.mark markPrices - e.2.avgEntryPrice.toInt < 2 ^ 63) ∧ e.2.netQty ≠ Int64.minValue ∧
      Int64.Fits (e.2.exactPnl (e.mark markPrices)))
    ⟨fun h => ⟨h.1, h.2.1, h.2.2.1, h.2.2.2⟩, fun h => ⟨h.mark, h.diff, h.qty, h.pnl⟩⟩

end Positions.Entry

namespace RiskShard

def entriesOf (shard : RiskShard) (account : AccountId) : List Positions.Entry :=
  shard.positions.entries.filter fun e => e.1.1 = account

def depositOf (shard : RiskShard) (account : AccountId) : Int :=
  (shard.initialDeposits.getD (shard.localIdx account) 0).toInt

def equity (shard : RiskShard) (account : AccountId) (markPrices : MarkPrices) : Int :=
  shard.depositOf account + ((shard.entriesOf account).map fun e => e.pnl markPrices).sum

def maintenanceMargin (shard : RiskShard) (account : AccountId) (markPrices : MarkPrices) : Int :=
  ((shard.entriesOf account).map fun e => e.margin markPrices shard.limits.maintenanceMarginFraction.toInt).sum

/-- The shard after one side of a trade is filled, with nothing published
yet. -/
def fill (shard : RiskShard) (t : EngineEvent.Trade) (acct : AccountId) (side : Side) : Option RiskShard :=
  if shard.owns acct = false then some shard
  else (((shard.positions.lookup (acct, t.symbol)).getD .default).applyFill side t.price t.qty).map fun pos =>
    { shard with positions := shard.positions.insert (acct, t.symbol) pos }

/-- The shard after both sides of a trade are filled. -/
def fillTrade (shard : RiskShard) (t : EngineEvent.Trade) : Option RiskShard := do
  let shard ← shard.fill t t.makerAcct t.makerSide
  shard.fill t t.takerAcct t.makerSide.opposite

/-- The shard when the account's side of a trade is filled and its margin is
computed: the maker's side is settled before the taker's is filled. -/
def settling (shard : RiskShard) (t : EngineEvent.Trade) (account : AccountId) : Option RiskShard :=
  if account = t.makerAcct then shard.fill t t.makerAcct t.makerSide else shard.fillTrade t

/-- What the account's positions add to its balance. -/
def amountsOf (shard : RiskShard) (account : AccountId) (markPrices : MarkPrices) : List Int64 :=
  (shard.entriesOf account).flatMap fun e => e.amounts markPrices

/-- The account's positions, in the order of the iteration. -/
def orderedEntries (shard : RiskShard) (iter : IterOrder) (account : AccountId) : List Positions.Entry :=
  (iter.order shard.positions.entries).filter fun e => e.1.1 = account

/-- The account's deposit and these amounts add up to the same in every
order. -/
def BalanceOrderFree (shard : RiskShard) (account : AccountId) (markPrices : MarkPrices) : Prop :=
  Int64.OrderFree (shard.initialDeposits.getD (shard.localIdx account) 0) (shard.amountsOf account markPrices)

instance (shard : RiskShard) (account : AccountId) (markPrices : MarkPrices) :
    Decidable (shard.BalanceOrderFree account markPrices) :=
  inferInstanceAs (Decidable (Int64.OrderFree _ _))

/-- The account's balance does not saturate, in this order of the positions. -/
def SumsExact (shard : RiskShard) (iter : IterOrder) (account : AccountId) (markPrices : MarkPrices) : Prop :=
  Int64.SumsFit (shard.initialDeposits.getD (shard.localIdx account) 0)
    ((shard.orderedEntries iter account).flatMap fun e => e.amounts markPrices)

instance (shard : RiskShard) (iter : IterOrder) (account : AccountId) (markPrices : MarkPrices) :
    Decidable (shard.SumsExact iter account markPrices) :=
  inferInstanceAs (Decidable (Int64.SumsFit _ _))

/-- The account's gains do not reach `2^64`, nor do its losses: the balance cannot
go from one end of its range to the other. -/
def Narrow (shard : RiskShard) (account : AccountId) (markPrices : MarkPrices) : Prop :=
  Int64.Narrow (shard.amountsOf account markPrices)

/-- The margin of each position of the account is small. -/
def SmallMargins (shard : RiskShard) (account : AccountId) (markPrices : MarkPrices) : Prop :=
  ∀ e ∈ shard.entriesOf account, e.2.SmallMargin (e.mark markPrices) shard.limits.maintenanceMarginFraction.toInt

instance (shard : RiskShard) (account : AccountId) (markPrices : MarkPrices) :
    Decidable (shard.SmallMargins account markPrices) :=
  List.decidableBAll _ _

/-- The account's deposit and the amounts of its positions, taken position by
position, come to the same in every order. -/
def PairsOrderFree (shard : RiskShard) (account : AccountId) (markPrices : MarkPrices) : Prop :=
  Clip.OrderFree (-2 ^ 63) (2 ^ 63 - 1) (shard.depositOf account) ((shard.entriesOf account).map (·.pair markPrices))

/-- Not both ends of the range can be reached. -/
def OneEnded (shard : RiskShard) (account : AccountId) (markPrices : MarkPrices) : Prop :=
  -2 ^ 63 ≤ shard.depositOf account + Clip.losses ((shard.entriesOf account).map (·.pair markPrices)) ∨
    shard.depositOf account + Clip.gains ((shard.entriesOf account).map (·.pair markPrices)) ≤ 2 ^ 63 - 1

/-- The account has the same balance and used margin in every order of the
positions. -/
def SameInEveryOrder (shard : RiskShard) (account : AccountId) (markPrices : MarkPrices) : Prop :=
  ∃ sums, ∀ iter, shard.recomputeMargin iter account markPrices = some sums

/-- The table has a state for each owned account of the trade. -/
def Covers (shard : RiskShard) (t : EngineEvent.Trade) : Prop :=
  ∀ acct, acct = t.makerAcct ∨ acct = t.takerAcct → shard.owns acct = true → (shard.states.get acct).isSome = true

/-- The account's published state holds its equity and margin, it is frozen
and liquidated if the margin exceeds the equity, and not liquidated
otherwise. -/
def PublishesExactly (filled : RiskShard) (states : AccountRiskTable) (cmds : List InboundCommand) (symbol : Symbol)
    (account : AccountId) (markPrices : MarkPrices) : Prop :=
  ∃ s, states.get account = some s ∧ s.balance.toInt = filled.equity account markPrices ∧
    s.usedMargin.toInt = filled.maintenanceMargin account markPrices ∧
    (filled.equity account markPrices < filled.maintenanceMargin account markPrices →
      s.frozen = true ∧ .liquidate symbol account ∈ cmds) ∧
    (filled.maintenanceMargin account markPrices ≤ filled.equity account markPrices →
      ∀ symbol, .liquidate symbol account ∉ cmds)

end RiskShard

/-! ## Exposure -/

def RiskShard.netFilled (shard : RiskShard) (account : AccountId) : Int :=
  ((shard.entriesOf account).map fun e => e.2.netQty.toInt).sum

/-- The event ends an order: it fills the rest of it, or cancels it. -/
def EngineEvent.closes (id : OrderId) : EngineEvent → Bool
  | .trade t =>
    decide (t.makerOrder = id ∧ t.makerRemainingQty.raw = 0 ∨ t.takerOrder = id ∧ t.takerRemainingQty.raw = 0)
  | .cancelled _ orderId => decide (orderId = id)
  | .orderCancelled orderId _ _ _ => decide (orderId = id)
  | _ => false

def openOrdersAfter (account : AccountId) (orders : List OrderId) : EngineEvent → List OrderId
  | .accepted e => if e.accountId = account then orders.insert e.orderId else orders
  | ev => orders.filter fun id => !ev.closes id

def openOrders (account : AccountId) (evs : List EngineEvent) : List OrderId := evs.foldl (openOrdersAfter account) []

/-- The account's published state has the account's position and number of open
orders, after these events. -/
def RiskShard.ShowsExposure (shard : RiskShard) (account : AccountId) (evs : List EngineEvent) : Prop :=
  ∃ s, shard.states.get account = some s ∧ s.position.toInt = shard.netFilled account ∧
    s.openOrderCount.toNat = (openOrders account evs).length

/-- The event changes the account's position or opens an order of it: not if the
account trades with itself. -/
def EngineEvent.Exposes (account : AccountId) : EngineEvent → Prop
  | .trade t => t.qty.raw ≠ 0 ∧ ¬ (t.makerAcct = account ↔ t.takerAcct = account)
  | .accepted e => e.accountId = account
  | _ => False

instance (account : AccountId) (ev : EngineEvent) : Decidable (ev.Exposes account) :=
  match ev with
  | .trade t => inferInstanceAs (Decidable (t.qty.raw ≠ 0 ∧ ¬ (t.makerAcct = account ↔ t.takerAcct = account)))
  | .accepted e => inferInstanceAs (Decidable (e.accountId = account))
  | .rejected _ | .cancelled _ _ | .bookTop _ | .orderAcknowledged _ _ _ | .orderCancelled _ _ _ _
  | .orderRejected _ _ _ _ _ | .snapshotMarker _ => inferInstanceAs (Decidable False)

/-! ## Interleavings of trades -/

/-- The trades are those of the streams, one for each symbol, in an order that
keeps the order of each stream. -/
def Interleaves (streams : Symbol → List EngineEvent.Trade) (ts : List EngineEvent.Trade) : Prop :=
  ∀ symbol, (ts.filter fun t => t.symbol = symbol) = streams symbol

/-- One side of a trade, with the order of the positions when it is settled. -/
structure Leg where
  trade : EngineEvent.Trade
  account : AccountId
  side : Side
  iter : IterOrder

/-- The maker's side, then the taker's. -/
def legsOf (s : EngineEvent.Trade × IterOrder) : List Leg :=
  [⟨s.1, s.1.makerAcct, s.1.makerSide, s.2⟩, ⟨s.1, s.1.takerAcct, s.1.makerSide.opposite, s.2⟩]

namespace RiskShard

/-- The trades as events, with fixed marks. -/
def tradeInputs (markPrices : MarkPrices) (steps : List (EngineEvent.Trade × IterOrder)) : List Input :=
  steps.map fun s => { event := .trade s.1, markPrices, iter := s.2 }

/-- No balance that is published on the way has saturated. -/
def Unsaturated (markPrices : MarkPrices) : RiskShard → List Leg → Prop
  | _, [] => True
  | shard, l :: ls => ∀ r ∈ shard.settle l.iter l.trade markPrices l.account l.side,
      (shard.owns l.account = true → r.1.SumsExact l.iter l.account markPrices) ∧ Unsaturated markPrices r.1 ls

instance decidableUnsaturated (markPrices : MarkPrices) :
    ∀ (shard : RiskShard) (ls : List Leg), Decidable (shard.Unsaturated markPrices ls)
  | _, [] => .isTrue trivial
  | shard, l :: ls =>
    have : ∀ shard', Decidable (Unsaturated markPrices shard' ls) := fun shard' => decidableUnsaturated markPrices shard' ls
    inferInstanceAs (Decidable (∀ r ∈ shard.settle l.iter l.trade markPrices l.account l.side,
      (shard.owns l.account = true → r.1.SumsExact l.iter l.account markPrices) ∧ Unsaturated markPrices r.1 ls))

def publishedOf (shard : RiskShard) (account : AccountId) : Option (Int64 × Int64) :=
  (shard.states.get account).map fun s => (s.balance, s.usedMargin)

/-- Both shards have the same positions, and have published the same about each
account that is owned. -/
structure SameRisk (shard shard' : RiskShard) : Prop where
  positions : ∀ key, shard.positions.lookup key = shard'.positions.lookup key
  published : ∀ account, shard.owns account = true → shard.publishedOf account = shard'.publishedOf account

end RiskShard

end MRE
