import MatchRiskEngine.Impl.SimHarness
import MatchRiskEngine.Spec.Margin
import MatchRiskEngine.Spec.OrderBook

/-!
# Replay

When two harnesses are in the same state (`SimHarness.SameState`), and the runs
that a replay can repeat (`SimHarness.CalmRun`): no trade in them makes a shard
ask for a liquidation, nor gives an account a balance that depends on the order
in which its positions are added up.
-/

namespace MRE

namespace RiskShard

/-- What the account has realised, position by position. -/
def realisedOf (shard : RiskShard) (account : AccountId) : List Int64 :=
  (shard.entriesOf account).map fun e => e.2.realisedPnl

/-- The account's deposit and what it has realised add up to the same in every
order. -/
def OrderFree (shard : RiskShard) (account : AccountId) : Prop :=
  Int64.OrderFree (shard.initialDeposits.getD (shard.localIdx account) 0) (shard.realisedOf account)

instance (shard : RiskShard) (account : AccountId) : Decidable (shard.OrderFree account) :=
  inferInstanceAs (Decidable (Int64.OrderFree _ _))

/-- The account is so after its side of a trade is filled, if it is owned. -/
def FillsOrderFree (shard : RiskShard) (t : EngineEvent.Trade) (acct : AccountId) (side : Side) : Prop :=
  shard.owns acct = true → ∀ filled ∈ shard.fill t acct side, filled.OrderFree acct

instance (shard : RiskShard) (t : EngineEvent.Trade) (acct : AccountId) (side : Side) :
    Decidable (shard.FillsOrderFree t acct side) :=
  inferInstanceAs (Decidable (_ → ∀ filled ∈ shard.fill t acct side, filled.OrderFree acct))

/-- Both sides of a trade are so. -/
def TradeOrderFree (shard : RiskShard) (t : EngineEvent.Trade) : Prop :=
  shard.FillsOrderFree t t.makerAcct t.makerSide ∧
    ∀ filled ∈ shard.fill t t.makerAcct t.makerSide, filled.FillsOrderFree t t.takerAcct t.makerSide.opposite

instance (shard : RiskShard) (t : EngineEvent.Trade) : Decidable (shard.TradeOrderFree t) :=
  inferInstanceAs (Decidable (_ ∧ ∀ filled ∈ shard.fill t t.makerAcct t.makerSide,
    filled.FillsOrderFree t t.takerAcct t.makerSide.opposite))

/-- The event gives no balance that depends on the order of the positions, and
asks for no liquidation. -/
def Calm (shard : RiskShard) (iter : IterOrder) (markPrices : MarkPrices) (ev : EngineEvent) : Prop :=
  (match ev with
    | .trade t => shard.TradeOrderFree t
    | _ => True) ∧
  ∀ r ∈ shard.processEvent iter markPrices ev, r.2 = []

instance (shard : RiskShard) (iter : IterOrder) (markPrices : MarkPrices) (ev : EngineEvent) :
    Decidable (shard.Calm iter markPrices ev) :=
  match ev with
  | .trade t => inferInstanceAs (Decidable (shard.TradeOrderFree t ∧
      ∀ r ∈ shard.processEvent iter markPrices (.trade t), r.2 = []))
  | .accepted _ | .rejected _ | .cancelled _ _ | .bookTop _ | .orderAcknowledged _ _ _ | .orderCancelled _ _ _ _
  | .orderRejected _ _ _ _ _ | .snapshotMarker _ => .isTrue ⟨trivial, fun r hr => by cases hr; rfl⟩

end RiskShard

def OrderBook.openOrders {M K : Type} [DecidableEq K] [Arena M K] (b : OrderBook M K) :
    List (OrderId × OpenOrder) :=
  (SlotMap.values b.arena).map fun o => (o.id, o.openOrder)

namespace SimHarness

variable {M K : Type} [DecidableEq K] [Arena M K]

/-- As `processEvent`, but it stops at an event that is not calm. -/
def calmEvent (iters : Nat → IterOrder) (markPrices : MarkPrices) : ShardStep :=
  fun i shard ev => if shard.Calm (iters i) markPrices ev then shard.processEvent (iters i) markPrices ev else none

/-- Every event of the run is calm. -/
def CalmRun (h : SimHarness M K) (iters : Nat → IterOrder) (nTicks : Nat) : Prop :=
  (runTicks (calmEvent iters h.markPrices) nTicks h .default).isSome = true

instance (h : SimHarness M K) (iters : Nat → IterOrder) (nTicks : Nat) : Decidable (h.CalmRun iters nTicks) :=
  inferInstanceAs (Decidable (_ = true))

/-- There is nothing left to do. -/
def Drained (h : SimHarness M K) : Prop := h.inbound = [] ∧ ∀ queue ∈ h.meQueues, queue = []

instance (h : SimHarness M K) : Decidable h.Drained :=
  inferInstanceAs (Decidable (_ ∧ ∀ queue ∈ h.meQueues, queue = []))

/-- What the risk table says of an account. -/
def accountSnapshot (h : SimHarness M K) (account : AccountId) : Option (Int64 × Int64 × Bool) :=
  (h.accountStates.get account).map fun s => (s.balance, s.usedMargin, s.frozen)

structure SameState (h h' : SimHarness M K) : Prop where
  accounts (account : AccountId) : h'.accountSnapshot account = h.accountSnapshot account
  openOrders : h'.engines.map OrderBook.openOrders = h.engines.map OrderBook.openOrders

end SimHarness

end MRE
