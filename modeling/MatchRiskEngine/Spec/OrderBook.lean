import MatchRiskEngine.Framework.Ledger
import MatchRiskEngine.Framework.Links
import MatchRiskEngine.Impl.QtyOps

/-!
# Order books

`OrderBook.WellFormed b Q` relates the five structures of a book (the arena, the
links through it, the two ladders, the best pointers and the id map) to each
other, where `Q s i` is the list of the keys that the level at index `i` of side
`s` visits.

The books that commands lead to are `OrderBook.Reachable`; no assumption is made
on sequence numbers. A reader of the events takes the best prices
(`OrderBook.ShowsTop`) and the open orders (`OpenOrders`, `OpenQtys`) from them.
The four things that can have become of an order are its `Fate`.
-/

namespace MRE

open SlotMap

/-! ## The invariant -/

namespace OrderBook

variable {M K : Type}

/-- The level at index `i` of side `s` holds an order. -/
def Occupied (b : OrderBook M K) (s : Side) (i : Nat) : Prop :=
  ∃ l, (b.ladder s)[i]? = some (some l) ∧ l.isEmpty = false

variable [DecidableEq K] [Arena M K]

structure WellFormed (b : OrderBook M K) (Q : Side → Nat → List K) : Prop where
  /-- A level's chains visit its queue, forwards from the head and backwards
  from the tail, and no key comes twice. -/
  chains {s i l} : (b.ladder s)[i]? = some (some l) →
    DLinked (fun k => (get? b.arena k).bind RestingOrder.next)
      (fun k => (get? b.arena k).bind RestingOrder.prev) l.head l.tail (Q s i)
  /-- Where there is no level there is no queue. -/
  vacant {s i} : (∀ l, (b.ladder s)[i]? ≠ some (some l)) → Q s i = []
  visited {k} : (get? b.arena k).isSome → ∃ s i, k ∈ Q s i
  once {s s' i i' k} : k ∈ Q s i → k ∈ Q s' i' → s' = s ∧ i' = i
  placed {s i k} : k ∈ Q s i → ∃ o, get? b.arena k = some o ∧ o.side = s ∧
    o.price.raw.toInt = b.tickFloor.raw.toInt + i ∧ 0 < o.qtyRemaining.raw
  fifo (s i) : (Q s i).Pairwise fun j k => ∀ x y, get? b.arena j = some x → get? b.arena k = some y → x.seq < y.seq
  total {s i l} : (b.ladder s)[i]? = some (some l) → l.totalQty.raw.toNat =
    (((Q s i).filterMap (get? b.arena)).map fun o => o.qtyRemaining.raw.toNat).sum % 2 ^ 64
  ids {id k} : b.idToKey id = some k ↔ ∃ o, get? b.arena k = some o ∧ o.id = id
  bestBid {i} : b.bestBidIdx = some i ↔ b.Occupied .buy i ∧ ∀ j, b.Occupied .buy j → j ≤ i
  noBid : b.bestBidIdx = none ↔ ∀ i, ¬ b.Occupied .buy i
  bestAsk {i} : b.bestAskIdx = some i ↔ b.Occupied .sell i ∧ ∀ j, b.Occupied .sell j → i ≤ j
  noAsk : b.bestAskIdx = none ↔ ∀ i, ¬ b.Occupied .sell i

/-! ## Runs -/

/-- Some commands lead from the empty book to this one. -/
def Reachable (cfg : BookConfig) (b : OrderBook M K) : Prop :=
  ∃ (b₀ : OrderBook M K) (cmds : List SequencedCommand) (evss : List (List EngineEvent)),
    new cfg = some b₀ ∧ b₀.run cmds = some (b, evss)

/-- After every command the book and the events so far have a property. -/
def AlwaysAfter (P : OrderBook M K → List EngineEvent → Prop) (b : OrderBook M K) (cmds : List SequencedCommand) : Prop :=
  ∀ done, done <+: cmds → ∃ b' evss, b.run done = some (b', evss) ∧ P b' evss.flatten

/-- Every command meets a condition in the book that finds it. -/
def AllCommands (ok : OrderBook M K → SequencedCommand → Prop) : OrderBook M K → List SequencedCommand → Prop
  | _, [] => True
  | b, cmd :: cmds => ok b cmd ∧ ∀ b' evs, b.apply cmd = some (b', evs) → AllCommands ok b' cmds

/-! ## Queues -/

/-- The ids and quantities of the orders from `cursor` on, following at most so
many links. -/
def levelOrders (arena : M) : Nat → Option K → Option (List (OrderId × Qty))
  | 0, _ => none
  | _ + 1, none => some []
  | n + 1, some key => do
    let order ← SlotMap.get? arena key
    let rest ← levelOrders arena n order.next
    some ((order.id, order.qtyRemaining) :: rest)

def queue (b : OrderBook M K) (side : Side) (idx : Nat) : Option (List (OrderId × Qty)) :=
  match (b.ladder side)[idx]? with
  | some (some level) => levelOrders b.arena (SlotMap.len b.arena + 1) level.peekHead
  | _ => some []

/-- The same orders, with the same quantities, in the same queues. -/
def SameOpenOrders (b b' : OrderBook M K) : Prop := ∀ side idx, b.queue side idx = b'.queue side idx

/-- Cancel orders of an account, one after the other. -/
def cancelOrders (cmd : SequencedCommand) (account : AccountId) (b : OrderBook M K) (ids : List OrderId) :
    Option (OrderBook M K) :=
  ids.foldlM (fun b id => (b.apply { cmd with cmd := .cancel account id }).map Prod.fst) b

end OrderBook

/-! ## Resting quantities -/

/-- The exact result is a 64-bit number. -/
def QtyOp.Exact : QtyOp → Prop
  | .add x y => x.raw.toNat + y.raw.toNat < 2 ^ 64
  | .sub x y => y.raw.toNat ≤ x.raw.toNat

namespace OrderBook

variable {M K : Type} [DecidableEq K] [Arena M K]

/-- What rests on a side at a price. -/
def restingQty (b : OrderBook M K) (side : Side) (price : Price) : Nat :=
  (((values b.arena).filter fun o => o.side = side ∧ o.price = price).map fun o => o.qtyRemaining.raw.toNat).sum

/-- What rests at a price is always a 64-bit number. -/
def QtyFits (b : OrderBook M K) : Prop := ∀ side price, b.restingQty side price < 2 ^ 64

/-- The book reports what rests at every price. -/
def ReportsQty (b : OrderBook M K) : Prop :=
  ∀ price, (∃ q, b.bidQtyAt price = some q ∧ q.raw.toNat = b.restingQty .buy price) ∧
    ∃ q, b.askQtyAt price = some q ∧ q.raw.toNat = b.restingQty .sell price

/-- Every unchecked operation of a command is exact. -/
def OpsExact (b : OrderBook M K) (cmd : SequencedCommand) : Prop := ∀ op ∈ b.applyOps cmd, op.Exact

end OrderBook

/-! ## Best prices -/

/-- The best prices after an event. -/
def topAfter (top : Option Price × Option Price) : EngineEvent → Option Price × Option Price
  | .bookTop e => (e.bid, e.ask)
  | _ => top

/-- The best bid and ask that the last `BookTop` event carries. -/
def lastTop (evs : List EngineEvent) : Option Price × Option Price := evs.foldl topAfter (none, none)

namespace OrderBook

variable {M K : Type}

/-- The last `BookTop` event carries the best prices of the book. -/
def ShowsTop (b : OrderBook M K) (evs : List EngineEvent) : Prop :=
  b.bestBid = some (lastTop evs).1 ∧ b.bestAsk = some (lastTop evs).2

def bestPrice (b : OrderBook M K) : Side → Option (Option Price)
  | .buy => b.bestBid
  | .sell => b.bestAsk

variable [DecidableEq K] [Arena M K]

/-- Cancelling `id` for `account` takes away the only order at the best price of
its side. -/
def EmptiesBest (b : OrderBook M K) (account : AccountId) (id : OrderId) : Prop :=
  ∃ k o, b.idToKey id = some k ∧ get? b.arena k = some o ∧ o.account = account ∧
    b.bestPrice o.side = some (some o.price) ∧
    ∀ j x, get? b.arena j = some x → x.side = o.side → x.price = o.price → j = k

/-- Every resting bid is below every resting ask. -/
def Uncrossed (b : OrderBook M K) : Prop :=
  ∀ j k x y, get? b.arena j = some x → get? b.arena k = some y → x.side = .buy → y.side = .sell →
    x.price.raw < y.price.raw

/-- The command is not a cancel that takes away the only order at a best
price. -/
def KeepsBest (b : OrderBook M K) (cmd : SequencedCommand) : Prop :=
  ∀ account id, cmd.cmd = .cancel account id → ¬ b.EmptiesBest account id

end OrderBook

/-! ## Open orders, from a stream of events -/

/-- What the events tell about an open order. -/
structure OpenOrder where
  account : AccountId
  side : Side
  price : Price
  qty : Qty
  deriving DecidableEq, Repr

/-- What is left of an order after a trade, if anything. -/
def OpenOrder.reduce (o : OpenOrder) (qty : Qty) : Option OpenOrder :=
  if o.qty.raw - qty.raw = 0 then none else some { o with qty := ⟨o.qty.raw - qty.raw⟩ }

def RestingOrder.openOrder {K : Type} (o : RestingOrder K) : OpenOrder :=
  { account := o.account, side := o.side, price := o.price, qty := o.qtyRemaining }

abbrev OpenOrders : Type := Ledger OrderId OpenOrder

namespace OpenOrders

/-- An acceptance puts an order in, a trade reduces the maker's order and
deletes it at zero, a cancellation deletes; everything else is ignored. -/
def apply (m : OpenOrders) : EngineEvent → OpenOrders
  | .accepted e => m.put e.orderId { account := e.accountId, side := e.side, price := e.price, qty := e.qty }
  | .trade t => m.cut t.makerOrderId fun o => o.reduce t.qty
  | .cancelled _ orderId => m.drop orderId
  | _ => m

def replay (m : OpenOrders) (evs : List EngineEvent) : OpenOrders := evs.foldl apply m

def empty : OpenOrders := fun _ => none

/-- Only the quantities. -/
def qtys (m : OpenOrders) : Ledger OrderId Qty := fun id => (m id).map OpenOrder.qty

end OpenOrders

abbrev OpenQtys : Type := Ledger OrderId Qty

namespace OpenQtys

/-- An acceptance puts an order in, a fill reduces the resting order and
deletes it at zero, a cancellation deletes. -/
def apply (m : OpenQtys) : Event → OpenQtys
  | .accepted e => m.put e.orderId e.qty
  | .filled _ fill => m.cut fill.restingOrderId fun q =>
      if q.raw - fill.qty.raw = 0 then none else some ⟨q.raw - fill.qty.raw⟩
  | .canceled e => m.drop e.orderId
  | _ => m

def replay (m : OpenQtys) (evs : List Event) : OpenQtys := evs.foldl apply m

def empty : OpenQtys := fun _ => none

end OpenQtys

/-! ## The life of an order -/

/-- The trade names the order as its maker or its taker. -/
def EngineEvent.Trade.names (t : EngineEvent.Trade) (id : OrderId) : Prop := t.makerOrder = id ∨ t.takerOrder = id

instance (t : EngineEvent.Trade) (id : OrderId) : Decidable (t.names id) :=
  inferInstanceAs (Decidable (_ ∨ _))

def EngineEvent.tradedOf (id : OrderId) : EngineEvent → Nat
  | .trade t => if t.names id then t.qty.raw.toNat else 0
  | _ => 0

def tradedOf (id : OrderId) (evs : List EngineEvent) : Nat := (evs.map (EngineEvent.tradedOf id)).sum

/-- The order is cancelled once, and it does not trade after that. -/
def CancelledOnce (id : OrderId) (evs : List EngineEvent) : Prop :=
  ∃ pre seq post, evs = pre ++ EngineEvent.cancelled seq id :: post ∧
    (∀ seq', EngineEvent.cancelled seq' id ∉ pre ++ post) ∧ ∀ t, EngineEvent.trade t ∈ post → ¬ t.names id

inductive Fate where
  | rejected
  | resting
  | filled
  | cancelled
  deriving DecidableEq, Repr

namespace OrderBook

variable {M K : Type} [DecidableEq K] [Arena M K]

def Rests (b : OrderBook M K) (id : OrderId) (o : RestingOrder K) : Prop := (∃ k, get? b.arena k = some o) ∧ o.id = id

/-- The fate of an order of `qty`, after the events `evs`, of which `own` are
those of its own command. -/
def HasFate (b : OrderBook M K) (own evs : List EngineEvent) (id : OrderId) (qty : Qty) : Fate → Prop
  | .rejected => (∃ rej, EngineEvent.rejected rej ∈ own) ∧ tradedOf id evs = 0 ∧ ∀ o, ¬ b.Rests id o
  | .resting => ∃ o, b.Rests id o ∧ o.qtyRemaining.raw.toNat = qty.raw.toNat - tradedOf id evs ∧
      0 < o.qtyRemaining.raw.toNat
  | .filled => tradedOf id evs = qty.raw.toNat ∧ ∀ o, ¬ b.Rests id o
  | .cancelled => tradedOf id evs < qty.raw.toNat ∧ (∀ o, ¬ b.Rests id o) ∧ CancelledOnce id evs

end OrderBook

/-- One of the commands is a new order of the account with this id and
quantity. -/
def OrderOf (cmds : List SequencedCommand) (id : OrderId) (account : AccountId) (qty : Nat) : Prop :=
  ∃ cmd ∈ cmds, ∃ o, cmd.cmd = .newOrder o ∧ id = ⟨cmd.seq⟩ ∧ o.account = account ∧ o.qty.raw.toNat = qty

/-- The trade is between two accounts, and for each of its orders what it says
is left and what has been traded with it add up to the order's quantity. -/
def TradeAdds (cmds : List SequencedCommand) (before : List EngineEvent) (t : EngineEvent.Trade) : Prop :=
  t.makerAcct ≠ t.takerAcct ∧
    OrderOf cmds t.makerOrder t.makerAcct
      (t.makerRemainingQty.raw.toNat + tradedOf t.makerOrder (before ++ [.trade t])) ∧
    OrderOf cmds t.takerOrder t.takerAcct
      (t.takerRemainingQty.raw.toNat + tradedOf t.takerOrder (before ++ [.trade t]))

end MRE
