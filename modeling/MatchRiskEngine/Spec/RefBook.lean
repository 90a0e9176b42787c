import Mathlib.Algebra.GroupWithZero.Nat
import Mathlib.Data.List.Sort
import MatchRiskEngine.Impl.OrderBook

/-!
# A naive price-time-priority matcher

What the order book is for, without ladders, links or best pointers: each side is
the list of its resting orders in the order in which they trade (`RefOrder.ahead`),
an incoming order eats the opposite list from the front (`RefBook.sweep`), and what
is left of it is inserted or dropped. `RefBook.apply` knows nothing of the top of
the book.

What priority means for one trade is said of the orders that were resting when the
new order came and of the events before the trade (`EngineEvent.Trade.InTurn`).
-/

namespace MRE

/-- A resting order without its links. -/
structure RefOrder where
  id : OrderId
  account : AccountId
  qty : Qty
  side : Side
  price : Price
  seq : UInt64
  deriving DecidableEq, Repr

/-- `p` is a better price than `q` for an order resting on side `s`. -/
def Price.better (s : Side) (p q : Price) : Prop :=
  match s with
  | .buy => q.raw < p.raw
  | .sell => p.raw < q.raw

instance (s : Side) (p q : Price) : Decidable (p.better s q) :=
  match s with
  | .buy => inferInstanceAs (Decidable (q.raw < p.raw))
  | .sell => inferInstanceAs (Decidable (p.raw < q.raw))

/-- `x` trades before `y`: at a better price, or at the same price and
earlier. -/
def RefOrder.ahead (s : Side) (x y : RefOrder) : Prop :=
  x.price.better s y.price ∨ x.price = y.price ∧ x.seq < y.seq

instance (s : Side) : DecidableRel (RefOrder.ahead s) := fun x y =>
  inferInstanceAs (Decidable (x.price.better s y.price ∨ x.price = y.price ∧ x.seq < y.seq))

/-- The incoming order accepts the price `p` of a resting order. -/
def Aggressor.crosses (a : Aggressor) (p : Price) : Bool :=
  a.orderType = .market || match a.side with
    | .buy => decide (p.raw ≤ a.price.raw)
    | .sell => decide (a.price.raw ≤ p.raw)

/-- A new order as it is matched. -/
def InboundNewOrder.aggressor (o : InboundNewOrder) (seq tsNs : UInt64) : Aggressor :=
  { seq, tsNs, symbol := o.symbol, side := o.side, price := o.price, orderId := ⟨seq⟩
    account := o.account, orderType := o.orderType }

/-- The trade of `a`, with `qty` left, against the resting order `m`. -/
def Aggressor.tradeWith (a : Aggressor) (m : RefOrder) (qty fill : Qty) : EngineEvent :=
  .trade
    { seq := a.seq
      tsNs := a.tsNs
      symbol := a.symbol
      price := m.price
      qty := fill
      makerOrder := m.id
      takerOrder := a.orderId
      makerOrderId := m.id
      takerOrderId := a.orderId
      makerAcct := m.account
      takerAcct := a.account
      makerSide := a.side.opposite
      makerRemainingQty := ⟨m.qty.raw - fill.raw⟩
      takerRemainingQty := ⟨qty.raw - fill.raw⟩ }

/-- The two sides of the book, best order first. -/
structure RefBook where
  bids : List RefOrder
  asks : List RefOrder
  deriving DecidableEq, Repr

/-- The ladder and the room of the book that is referred to. -/
structure RefConfig where
  tickFloor : Price
  numTicks : Nat
  capacity : Nat
  deriving DecidableEq, Repr

def RefConfig.onLadder (c : RefConfig) (p : Price) : Bool :=
  decide (c.tickFloor.raw.toInt ≤ p.raw.toInt ∧ p.raw.toInt < c.tickFloor.raw.toInt + c.numTicks)

/-- The prices of the ladder are 64-bit integers. -/
def BookConfig.LadderFits (cfg : BookConfig) : Prop := cfg.tickFloor.raw.toInt + cfg.numTicks ≤ 2 ^ 63

/-- `BookConfig.LadderFits`, of the reference book's ladder. -/
def RefConfig.LadderFits (c : RefConfig) : Prop := c.tickFloor.raw.toInt + c.numTicks ≤ 2 ^ 63

/-- The ladder and the room of a book. -/
def OrderBook.refConfig {M K : Type} [DecidableEq K] [Arena M K] (b : OrderBook M K) :
    RefConfig :=
  { tickFloor := b.tickFloor, numTicks := b.bids.length, capacity := SlotMap.capacity b.arena }

def SequencedCommand.newOrderSeq (cmd : SequencedCommand) : Option UInt64 :=
  match cmd.cmd with
  | .newOrder _ => some cmd.seq
  | _ => none

def EngineEvent.isBookTop : EngineEvent → Bool
  | .bookTop _ => true
  | _ => false

namespace RefBook

def empty : RefBook := ⟨[], []⟩

def side (r : RefBook) : Side → List RefOrder
  | .buy => r.bids
  | .sell => r.asks

def setSide (r : RefBook) (s : Side) (os : List RefOrder) : RefBook :=
  match s with
  | .buy => { r with bids := os }
  | .sell => { r with asks := os }

def size (r : RefBook) : Nat := r.bids.length + r.asks.length

def find (r : RefBook) (id : OrderId) : Option RefOrder :=
  (r.bids ++ r.asks).find? fun o => o.id = id

/-- Match `a`, with `qty` left, against the front of the opposite side: the
orders left there, the quantity left and the events. -/
def sweep (a : Aggressor) : List RefOrder → Qty → List RefOrder × Qty × List EngineEvent
  | [], qty => ([], qty, [])
  | m :: ms, qty =>
    if qty.raw = 0 ∨ a.crosses m.price = false then (m :: ms, qty, [])
    else if m.account = a.account then
      let r := sweep a ms qty
      (r.1, r.2.1, .cancelled a.seq m.id :: r.2.2)
    else
      let fill : Qty := if qty.raw < m.qty.raw then qty else m.qty
      let left : Qty := ⟨qty.raw - fill.raw⟩
      if m.qty.raw - fill.raw = 0 then
        let r := sweep a ms left
        (r.1, r.2.1, a.tradeWith m qty fill :: r.2.2)
      else ({ m with qty := ⟨m.qty.raw - fill.raw⟩ } :: ms, left, [a.tradeWith m qty fill])

/-- Rest what is left of an order behind those it does not beat, if there is
room. -/
def rest (c : RefConfig) (r : RefBook) (seq tsNs : UInt64) (o : InboundNewOrder) (left : Qty)
    (evs : List EngineEvent) : RefBook × List EngineEvent :=
  let orderId : OrderId := ⟨seq⟩
  if c.capacity ≤ r.size then
    (r, evs ++ [.rejected { seq, orderId, accountId := o.account, clientOrderId := o.clientOrderId
                            reason := .arenaFull }])
  else
    let resting : RefOrder :=
      { id := orderId, account := o.account, qty := left, side := o.side, price := o.price, seq }
    (r.setSide o.side ((r.side o.side).orderedInsert (RefOrder.ahead o.side) resting),
      evs ++ [.accepted { seq, orderId, tsNs, symbol := o.symbol, accountId := o.account
                          clientOrderId := o.clientOrderId, side := o.side, price := o.price
                          qty := left }])

/-- A new order, given whether a fill-or-kill order may proceed. -/
def newOrderIf (c : RefConfig) (r : RefBook) (seq tsNs : UInt64) (o : InboundNewOrder)
    (fillable : Bool) : RefBook × List EngineEvent :=
  let orderId : OrderId := ⟨seq⟩
  let rejected (reason : RejectReason) : EngineEvent :=
    .rejected { seq, orderId, accountId := o.account, clientOrderId := o.clientOrderId, reason }
  if o.qty.raw = 0 then (r, [rejected .invalidQty])
  else if o.orderType = .limit ∧ c.onLadder o.price = false then (r, [rejected .priceOutOfRange])
  else if o.timeInForce = .fok ∧ fillable = false then (r, [rejected .fokNotFullyFillable])
  else
    let swept := sweep (o.aggressor seq tsNs) (r.side o.side.opposite) o.qty
    let left := swept.2.1
    let evs := swept.2.2
    let r := r.setSide o.side.opposite swept.1
    if left.raw = 0 then (r, evs)
    else if o.orderType = .limit ∧ o.timeInForce = .gtc then r.rest c seq tsNs o left evs
    else (r, evs ++ [if left.raw = o.qty.raw then rejected .iocNoMatch else .cancelled seq orderId])

/-- A new order: a fill-or-kill order proceeds if sweeping fills it. -/
def newOrder (c : RefConfig) (r : RefBook) (seq tsNs : UInt64) (o : InboundNewOrder) :
    RefBook × List EngineEvent :=
  newOrderIf c r seq tsNs o
    ((sweep (o.aggressor seq tsNs) (r.side o.side.opposite) o.qty).2.1.raw = 0)

def cancel (r : RefBook) (seq : UInt64) (account : AccountId) (orderId : OrderId) :
    RefBook × List EngineEvent :=
  let rejected (reason : RejectReason) : EngineEvent :=
    .rejected { seq, orderId, accountId := account, clientOrderId := ⟨0⟩, reason }
  match r.find orderId with
  | none => (r, [rejected .orderNotFound])
  | some o =>
    if o.account = account then
      (⟨r.bids.filter fun o => o.id ≠ orderId, r.asks.filter fun o => o.id ≠ orderId⟩,
        [.cancelled seq orderId])
    else (r, [rejected .wrongAccount])

def apply (c : RefConfig) (r : RefBook) (cmd : SequencedCommand) : RefBook × List EngineEvent :=
  match cmd.cmd with
  | .newOrder o => r.newOrder c cmd.seq cmd.tsNs o
  | .cancel account orderId => r.cancel cmd.seq account orderId
  | .liquidate _ _ => (r, [])
  | .freezeAccount _ => (r, [])

/-- Apply the commands in order, collecting the events of each. -/
def run (c : RefConfig) (r : RefBook) : List SequencedCommand → RefBook × List (List EngineEvent)
  | [] => (r, [])
  | cmd :: cmds =>
    let r₁ := r.apply c cmd
    let r₂ := r₁.1.run c cmds
    (r₂.1, r₁.2 :: r₂.2)

end RefBook

/-! ## A new order and the live orders -/

/-- What matching leaves of the order does not come to rest. -/
def InboundNewOrder.NeverRests (o : InboundNewOrder) : Prop :=
  o.timeInForce = .ioc ∨ o.timeInForce = .fok ∨ o.orderType = .market

instance (o : InboundNewOrder) : Decidable o.NeverRests := inferInstanceAs (Decidable (_ ∨ _ ∨ _))

/-- The order is on the other side of the resting order, and accepts its
price. -/
def InboundNewOrder.Meets (o : InboundNewOrder) (x : RefOrder) : Prop :=
  x.side = o.side.opposite ∧ (o.aggressor 0 0).crosses x.price = true

instance (o : InboundNewOrder) (x : RefOrder) : Decidable (o.Meets x) := inferInstanceAs (Decidable (_ ∧ _))

def RestingOrder.data {K : Type} (o : RestingOrder K) : RefOrder :=
  { id := o.id, account := o.account, qty := o.qtyRemaining, side := o.side, price := o.price, seq := o.seq }

namespace OrderBook

variable {M K : Type} [DecidableEq K] [Arena M K]

def live (b : OrderBook M K) : List RefOrder := (SlotMap.values b.arena).map RestingOrder.data

/-- A new order is refused before it is matched. -/
def Refuses (b : OrderBook M K) (o : InboundNewOrder) : Prop :=
  o.qty.raw = 0 ∨ o.orderType = .limit ∧ b.priceToIdx o.price = none ∨
    o.timeInForce = .fok ∧ b.canFullyFill o.side o.price o.qty o.account o.orderType = some false

instance (b : OrderBook M K) (o : InboundNewOrder) : Decidable (b.Refuses o) := inferInstanceAs (Decidable (_ ∨ _ ∨ _))

/-- A new order trades: it is matched, and meets an order of another account. -/
def Fills (b : OrderBook M K) (o : InboundNewOrder) : Prop :=
  ¬ b.Refuses o ∧ ∃ x ∈ b.live, o.Meets x ∧ x.account ≠ o.account

/-- A new order leaves the live orders as they are: it is refused, or it meets
none of them and does not come to rest. -/
def Spares (b : OrderBook M K) (o : InboundNewOrder) : Prop :=
  b.Refuses o ∨ (∀ x ∈ b.live, ¬ o.Meets x) ∧ (o.NeverRests ∨ SlotMap.capacity b.arena ≤ SlotMap.len b.arena)

end OrderBook

/-! ## Quantities in the event stream -/

def EngineEvent.tradedQty : EngineEvent → Nat
  | .trade t => t.qty.raw.toNat
  | _ => 0

def tradedQty (evs : List EngineEvent) : Nat := (evs.map EngineEvent.tradedQty).sum

/-! ## Trade by trade -/

/-- The order rests as one of the commands brought it, up to its quantity. -/
def RefOrder.CameWith (cmds : List SequencedCommand) (x : RefOrder) : Prop :=
  ∃ cmd ∈ cmds, ∃ o, cmd.cmd = .newOrder o ∧ x.id = ⟨cmd.seq⟩ ∧ x.seq = cmd.seq ∧ x.account = o.account ∧
    x.side = o.side ∧ x.price = o.price

/-- The events have done with the resting order `x`: it is cancelled if it is of
the taker's own account, and else traded to the last. -/
def Aggressor.PassedOver (a : Aggressor) (evs : List EngineEvent) (x : RefOrder) : Prop :=
  if x.account = a.account then .cancelled a.seq x.id ∈ evs
  else ∃ t, .trade t ∈ evs ∧ t.makerOrder = x.id ∧ t.qty = x.qty ∧ t.makerRemainingQty.raw = 0

/-- The trade of `a`, after the events `before` of its command, is with the
resting order `x` of another account, at its price, which `a` accepts, and all
orders ahead of `x` have been dealt with. -/
structure EngineEvent.Trade.InTurn (os : List RefOrder) (a : Aggressor) (before : List EngineEvent)
    (t : EngineEvent.Trade) (x : RefOrder) : Prop where
  mem : x ∈ os
  side : x.side = a.side.opposite ∧ t.makerSide = x.side
  maker : t.makerOrder = x.id ∧ t.makerAcct = x.account
  taker : t.takerOrder = a.orderId ∧ t.takerAcct = a.account
  others : x.account ≠ a.account
  price : t.price = x.price ∧ a.crosses x.price = true
  qty : t.qty.raw ≤ x.qty.raw
  ahead : ∀ y ∈ os, y.side = x.side → y.ahead x.side x → a.PassedOver before y

/-- The reasons to reject a new order before it is matched. -/
def RejectReason.beforeMatching : List RejectReason := [.invalidQty, .priceOutOfRange, .fokNotFullyFillable]

/-- A new order is refused before it is matched, it trades all its quantity, or
it leaves no resting order that it would trade with. -/
def Exhausted (o : InboundNewOrder) (a : Aggressor) (evs : List EngineEvent) (os : List RefOrder) : Prop :=
  (∃ rej, .rejected rej ∈ evs ∧ rej.reason ∈ RejectReason.beforeMatching) ∨ tradedQty evs = o.qty.raw.toNat ∨
    ∀ y ∈ os, y.side = a.side.opposite → a.crosses y.price = false

end MRE
