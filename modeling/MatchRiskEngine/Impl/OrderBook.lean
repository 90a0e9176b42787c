import Mathlib.Logic.Function.Basic
import MatchRiskEngine.Framework.MachineInt
import MatchRiskEngine.Framework.SlotMap
import MatchRiskEngine.Impl.CoreTypes

/-!
# The order book

The `order-book` crate: resting orders in an arena, threaded into one FIFO queue
per price level by their `next` and `prev` links; two ladders of levels indexed by
`price - tick_floor`; a cached best index per side; and a map from order ids to
arena keys. `OrderBook.apply` is the single entry point.

A function returns `none` where the source panics (an index outside a ladder, a key
that is not in the arena); so do the two loops that follow links (`matchLoop`,
`walkLevel`) at a bound on their iterations. Arithmetic wraps, as in a release
build.
-/

namespace MRE

open SlotMap

/-- An order resting on the book, with the links of its price level's queue. -/
structure RestingOrder (K : Type) where
  id : OrderId
  account : AccountId
  qtyRemaining : Qty
  side : Side
  price : Price
  seq : UInt64
  next : Option K
  prev : Option K
  deriving DecidableEq, Repr

def RestingOrder.new {K : Type} (id : OrderId) (account : AccountId) (qty : Qty) (side : Side)
    (price : Price) (seq : UInt64) : RestingOrder K :=
  { id, account, qtyRemaining := qty, side, price, seq, next := none, prev := none }

def RestingOrder.setNext {K : Type} (o : RestingOrder K) (next : Option K) : RestingOrder K := { o with next }

def RestingOrder.setPrev {K : Type} (o : RestingOrder K) (prev : Option K) : RestingOrder K := { o with prev }

/-! ## Price levels -/

/-- What the resting orders are kept in. -/
abbrev Arena (M K : Type) [DecidableEq K] : Type := SlotMap M K (RestingOrder K)

abbrev SlotArena : Type := SlotVec (RestingOrder SlotKey)

/-- A price level: the ends of its queue and the sum of its quantities. -/
structure PriceLevel (K : Type) where
  price : Price
  head : Option K
  tail : Option K
  totalQty : Qty
  deriving DecidableEq, Repr

namespace PriceLevel

variable {M K : Type} [DecidableEq K] [Arena M K]

def new (price : Price) : PriceLevel K := { price, head := none, tail := none, totalQty := ⟨0⟩ }

def peekHead (l : PriceLevel K) : Option K := l.head

def isEmpty (l : PriceLevel K) : Bool := l.head.isNone

/-- Append `key` to the tail of the queue. -/
def pushBack (l : PriceLevel K) (key : K) (arena : M) : Option (PriceLevel K × M) := do
  let order ← get? arena key
  let totalQty : Qty := ⟨l.totalQty.raw + order.qtyRemaining.raw⟩
  match l.tail with
  | none => some ({ l with head := some key, tail := some key, totalQty }, arena)
  | some prevTail =>
    let arena ← modify arena prevTail fun o => o.setNext (some key)
    let arena ← modify arena key fun o => o.setPrev (some prevTail)
    some ({ l with tail := some key, totalQty }, arena)

/-- Remove an arbitrary order from the queue and the arena. -/
def remove (l : PriceLevel K) (key : K) (arena : M) :
    Option (Option (RestingOrder K) × PriceLevel K × M) :=
  match get? arena key with
  | none => some (none, l, arena)
  | some order => do
    let arena ← modifyOpt arena order.prev fun o => o.setNext order.next
    let head := if order.prev.isNone then order.next else l.head
    let arena ← modifyOpt arena order.next fun o => o.setPrev order.prev
    let tail := if order.next.isNone then order.prev else l.tail
    let (removed, arena) := SlotMap.remove arena key
    some (removed, { l with head, tail, totalQty := ⟨l.totalQty.raw - order.qtyRemaining.raw⟩ }, arena)

/-- Reduce the head order by `fillQty`; `true` if that filled it completely
and removed it. -/
def fillHead (l : PriceLevel K) (fillQty : Qty) (arena : M) : Option (Bool × PriceLevel K × M) :=
  match l.head with
  | none => some (false, l, arena)
  | some headKey => do
    let order ← get? arena headKey
    let order := { order with qtyRemaining := ⟨order.qtyRemaining.raw - fillQty.raw⟩ }
    let arena := SlotMap.set arena headKey order
    let l := { l with totalQty := ⟨l.totalQty.raw - fillQty.raw⟩ }
    if order.qtyRemaining.raw = 0 then
      let arena ← modifyOpt arena order.next fun o => o.setPrev none
      let tail := if order.next.isNone then none else l.tail
      some (true, { l with head := order.next, tail }, (SlotMap.remove arena headKey).2)
    else
      some (false, l, arena)

end PriceLevel

/-! ## The book -/

structure BookConfig where
  symbol : Symbol
  /-- The price at ladder index 0. -/
  tickFloor : Price
  numTicks : Nat
  arenaCapacity : Nat
  deriving DecidableEq, Repr

structure OrderBook (M K : Type) where
  symbol : Symbol
  arena : M
  bids : List (Option (PriceLevel K))
  asks : List (Option (PriceLevel K))
  bestBidIdx : Option Nat
  bestAskIdx : Option Nat
  tickFloor : Price
  idToKey : OrderId → Option K

/-- The incoming order of `match_against_book`. -/
structure Aggressor where
  seq : UInt64
  tsNs : UInt64
  symbol : Symbol
  side : Side
  price : Price
  orderId : OrderId
  account : AccountId
  orderType : OrderType
  deriving DecidableEq, Repr

namespace OrderBook

variable {M K : Type}

/-- The side of the ladder that holds `side`'s orders. -/
def ladder (b : OrderBook M K) : Side → List (Option (PriceLevel K))
  | .buy => b.bids
  | .sell => b.asks

def setLevel (b : OrderBook M K) (side : Side) (idx : Nat) (l : PriceLevel K) : OrderBook M K :=
  match side with
  | .buy => { b with bids := b.bids.set idx (some l) }
  | .sell => { b with asks := b.asks.set idx (some l) }

def priceToIdx (b : OrderBook M K) (price : Price) : Option Nat := do
  let offset ← price.raw.checkedSub b.tickFloor.raw
  if offset < 0 then none
  else if b.bids.length ≤ offset.toNatClampNeg then none
  else some offset.toNatClampNeg

def idxToPrice (b : OrderBook M K) (idx : Nat) : Price := ⟨b.tickFloor.raw + Int64.ofNat idx⟩

/-- `best_bid_idx` after an insert at `hint`. -/
def refreshBestBidUp (b : OrderBook M K) (hint : Nat) : OrderBook M K :=
  match b.bestBidIdx with
  | none => { b with bestBidIdx := some hint }
  | some cur => if cur < hint then { b with bestBidIdx := some hint } else b

/-- `best_ask_idx` after an insert at `hint`. -/
def refreshBestAskDown (b : OrderBook M K) (hint : Nat) : OrderBook M K :=
  match b.bestAskIdx with
  | none => { b with bestAskIdx := some hint }
  | some cur => if hint < cur then { b with bestAskIdx := some hint } else b

/-- The first of the indices whose level holds an order. -/
def scanLadder (ladder : List (Option (PriceLevel K))) : List Nat → Option (Option Nat)
  | [] => some none
  | idx :: rest => do
    match ← ladder[idx]? with
    | some lvl => if lvl.isEmpty then scanLadder ladder rest else some (some idx)
    | none => scanLadder ladder rest

def scanBestBidDown (b : OrderBook M K) : Option (OrderBook M K) :=
  match b.bestBidIdx with
  | none => some b
  | some start =>
    (scanLadder b.bids (List.range (start + 1)).reverse).map fun best => { b with bestBidIdx := best }

def scanBestAskUp (b : OrderBook M K) : Option (OrderBook M K) :=
  match b.bestAskIdx with
  | none => some b
  | some start =>
    (scanLadder b.asks (List.range' start (b.asks.length - start))).map fun best =>
      { b with bestAskIdx := best }

/-- The price of the level at a best index, unless the level is empty. -/
def levelPrice (ladder : List (Option (PriceLevel K))) : Option Nat → Option (Option Price)
  | none => some none
  | some i => (ladder[i]?).map fun slot => (slot.filter fun l => !l.isEmpty).map PriceLevel.price

def bestBid (b : OrderBook M K) : Option (Option Price) := levelPrice b.bids b.bestBidIdx

def bestAsk (b : OrderBook M K) : Option (Option Price) := levelPrice b.asks b.bestAskIdx

/-- The total of the level at an index, or zero without a level. -/
def levelQty (ladder : List (Option (PriceLevel K))) : Option Nat → Option Qty
  | none => some ⟨0⟩
  | some i => (ladder[i]?).map fun slot => (slot.map PriceLevel.totalQty).getD ⟨0⟩

/-- Total resting quantity on the bid side at `price`. -/
def bidQtyAt (b : OrderBook M K) (price : Price) : Option Qty := levelQty b.bids (b.priceToIdx price)

/-- Total resting quantity on the ask side at `price`. -/
def askQtyAt (b : OrderBook M K) (price : Price) : Option Qty := levelQty b.asks (b.priceToIdx price)

def bookTopEvent (b : OrderBook M K) (seq : UInt64) (symbol : Symbol) : Option EngineEvent := do
  let bid ← b.bestBid
  let ask ← b.bestAsk
  some (.bookTop { seq, symbol, bid, ask })

def isLevelEmpty (b : OrderBook M K) (side : Side) (idx : Nat) : Option Bool :=
  ((b.ladder side)[idx]?).map fun slot => (slot.map PriceLevel.isEmpty).getD true

/-- Rescan a best pointer whose level became empty. -/
def clearEmptyBest (b : OrderBook M K) (side : Side) (idx : Nat) : Option (OrderBook M K) :=
  match side with
  | .buy => if b.bestBidIdx = some idx then b.scanBestBidDown else some b
  | .sell => if b.bestAskIdx = some idx then b.scanBestAskUp else some b

variable [DecidableEq K] [Arena M K]

/-- The empty book. The arena is touched once so that it allocates. A ladder
of more than `isize::MAX` slots is a capacity overflow. -/
def new (cfg : BookConfig) : Option (OrderBook M K) :=
  let arena : M := withCapacity cfg.arenaCapacity
  let dummy := SlotMap.insert arena (RestingOrder.new ⟨0⟩ ⟨0⟩ ⟨0⟩ .buy cfg.tickFloor 0)
  if 2 ^ 63 ≤ cfg.numTicks then none
  else some
    { symbol := cfg.symbol
      arena := (SlotMap.remove dummy.2 dummy.1).2
      bids := List.replicate cfg.numTicks none
      asks := List.replicate cfg.numTicks none
      bestBidIdx := none
      bestAskIdx := none
      tickFloor := cfg.tickFloor
      idToKey := fun _ => none }

def openOrderIdsForAccount (b : OrderBook M K) (account : AccountId) : List OrderId :=
  ((values b.arena).filter fun o => o.account = account).map RestingOrder.id

def fillLevelHead (b : OrderBook M K) (side : Side) (idx : Nat) (fillQty : Qty) :
    Option (Bool × OrderBook M K) := do
  match ← (b.ladder side)[idx]? with
  | none => some (false, b)
  | some l =>
    let (full, l, arena) ← l.fillHead fillQty b.arena
    some (full, { b with arena }.setLevel side idx l)

/-- Remove the head order of a level without filling it; its id, if there was
one. -/
def cancelRestingHead (b : OrderBook M K) (side : Side) (idx : Nat) :
    Option (Option OrderId × OrderBook M K) := do
  match ← (b.ladder side)[idx]? with
  | none => some (none, b)
  | some l =>
    match l.peekHead with
    | none => some (none, b)
    | some headKey =>
      let (removed, l, arena) ← l.remove headKey b.arena
      some (removed.map RestingOrder.id, { b with arena }.setLevel side idx l)

/-! ## Matching -/

/-- The best index of the side `a` trades against, and whether `a` crosses
that level's price. -/
def bestOpposite (b : OrderBook M K) (a : Aggressor) : Option (Nat × Bool) :=
  match a.side with
  | .buy => b.bestAskIdx.map fun idx =>
      (idx, a.orderType = .market || decide ((b.idxToPrice idx).raw ≤ a.price.raw))
  | .sell => b.bestBidIdx.map fun idx =>
      (idx, a.orderType = .market || decide (a.price.raw ≤ (b.idxToPrice idx).raw))

/-- Forget an order that left the arena, and move the best pointer if its
level is now empty. -/
def afterRemoval (b : OrderBook M K) (side : Side) (idx : Nat) (id : Option OrderId) :
    Option (OrderBook M K) := do
  let b := match id with
    | some id => { b with idToKey := Function.update b.idToKey id none }
    | none => b
  if ← b.isLevelEmpty side idx then b.clearEmptyBest side idx else some b

/-- The state of the matching loop: the book, the quantity left and the
events so far. -/
abbrev MatchState (M K : Type) : Type := OrderBook M K × Qty × List EngineEvent

/-- One pass through the body of the matching loop; `false` if it breaks. -/
def matchStep (a : Aggressor) : MatchState M K → Option (Bool × MatchState M K)
  | (b, qty, events) =>
    if qty.raw = 0 then some (false, b, qty, events)
    else
      match b.bestOpposite a with
      | none => some (false, b, qty, events)
      | some (_, false) => some (false, b, qty, events)
      | some (bestIdx, true) => do
        let makerSide := a.side.opposite
        match ← (b.ladder makerSide)[bestIdx]? with
        | none => some (false, b, qty, events)
        | some level =>
          match level.peekHead with
          | none => (b.clearEmptyBest makerSide bestIdx).map fun b => (true, b, qty, events)
          | some makerKey =>
            let maker ← get? b.arena makerKey
            if maker.account = a.account then
              let (cancelled, b) ← b.cancelRestingHead makerSide bestIdx
              let events := events ++ cancelled.toList.map (EngineEvent.cancelled a.seq)
              let b ← b.afterRemoval makerSide bestIdx cancelled
              some (true, b, qty, events)
            else
              let makerQty := maker.qtyRemaining
              let fillQty := if qty.raw < makerQty.raw then qty else makerQty
              let (makerFullyFilled, b) ← b.fillLevelHead makerSide bestIdx fillQty
              let qty : Qty := ⟨qty.raw - fillQty.raw⟩
              let trade : EngineEvent.Trade :=
                { seq := a.seq
                  tsNs := a.tsNs
                  symbol := a.symbol
                  price := maker.price
                  qty := fillQty
                  makerOrder := maker.id
                  takerOrder := a.orderId
                  makerOrderId := maker.id
                  takerOrderId := a.orderId
                  makerAcct := maker.account
                  takerAcct := a.account
                  makerSide
                  makerRemainingQty := ⟨makerQty.raw - fillQty.raw⟩
                  takerRemainingQty := qty }
              let b ← if makerFullyFilled then b.afterRemoval makerSide bestIdx (some maker.id) else some b
              some (true, b, qty, events ++ [.trade trade])

def matchLoop (a : Aggressor) : Nat → MatchState M K → Option (MatchState M K)
  | 0, _ => none
  | n + 1, st => do
    match ← matchStep a st with
    | (false, st) => some st
    | (true, st) => matchLoop a n st

/-- Every pass but the last removes an order or uses up the aggressor, so one
more pass than there are orders is enough. -/
def matchAgainstBook (b : OrderBook M K) (a : Aggressor) (qty : Qty) : Option (MatchState M K) :=
  matchLoop a (len b.arena + 1) (b, qty, [])

/-- The quantity left after a level's queue from `cursor` on, not counting the
orders of `account`. -/
def walkLevel (arena : M) (account : AccountId) : Nat → Option K → UInt64 → Option UInt64
  | 0, _, _ => none
  | _ + 1, none, remaining => some remaining
  | n + 1, some key, remaining => do
    let order ← get? arena key
    if order.account ≠ account then
      let remaining := remaining.saturatingSub order.qtyRemaining.raw
      if remaining = 0 then some remaining else walkLevel arena account n order.next remaining
    else walkLevel arena account n order.next remaining

/-- The loop of `can_fully_fill` over the ladder indices still to be scanned. -/
def fillableLoop (b : OrderBook M K) (side : Side) (price : Price) (account : AccountId)
    (orderType : OrderType) : List Nat → UInt64 → Option UInt64
  | [], remaining => some remaining
  | idx :: rest, remaining =>
    if remaining = 0 then some remaining
    else
      let levelPrice := b.idxToPrice idx
      let crosses := orderType = .market || match side with
        | .buy => decide (levelPrice.raw ≤ price.raw)
        | .sell => decide (price.raw ≤ levelPrice.raw)
      if !crosses then some remaining
      else do
        match ← (b.ladder side.opposite)[idx]? with
        | none => fillableLoop b side price account orderType rest remaining
        | some level =>
          let remaining ← walkLevel b.arena account (len b.arena + 1) level.peekHead remaining
          fillableLoop b side price account orderType rest remaining

/-- Could the order be filled completely right now? -/
def canFullyFill (b : OrderBook M K) (side : Side) (price : Price) (qty : Qty) (account : AccountId)
    (orderType : OrderType) : Option Bool :=
  let n := (b.ladder side.opposite).length
  let indices := match side with
    | .buy => List.range n
    | .sell => (List.range n).map fun step => n - 1 - step
  (fillableLoop b side price account orderType indices qty.raw).map fun remaining => remaining = 0

/-! ## Commands -/

/-- Rest the unfilled remainder of an order, or reject it if the arena is
full. -/
def restRemainder (b : OrderBook M K) (seq tsNs : UInt64) (o : InboundNewOrder) (priceIdx : Nat)
    (qtyRemaining : Qty) (events : List EngineEvent) : Option (OrderBook M K × List EngineEvent) :=
  let orderId : OrderId := ⟨seq⟩
  if capacity b.arena ≤ len b.arena then
    some (b, events ++ [.rejected { seq, orderId, accountId := o.account, clientOrderId := o.clientOrderId
                                    reason := .arenaFull }])
  else do
    let (key, arena) :=
      SlotMap.insert b.arena (RestingOrder.new orderId o.account qtyRemaining o.side o.price seq)
    let slot ← (b.ladder o.side)[priceIdx]?
    let (pl, arena) ← (slot.getD (PriceLevel.new o.price)).pushBack key arena
    let b := { b with arena, idToKey := Function.update b.idToKey orderId (some key) }
    let b := b.setLevel o.side priceIdx pl
    let b := match o.side with
      | .buy => b.refreshBestBidUp priceIdx
      | .sell => b.refreshBestAskDown priceIdx
    let top ← b.bookTopEvent seq o.symbol
    some (b, events ++ [.accepted { seq, orderId, tsNs, symbol := o.symbol, accountId := o.account
                                    clientOrderId := o.clientOrderId, side := o.side, price := o.price
                                    qty := qtyRemaining }, top])

def applyNewOrder (b : OrderBook M K) (seq tsNs : UInt64) (o : InboundNewOrder) :
    Option (OrderBook M K × List EngineEvent) :=
  let orderId : OrderId := ⟨seq⟩
  let rejected (reason : RejectReason) : EngineEvent :=
    .rejected { seq, orderId, accountId := o.account, clientOrderId := o.clientOrderId, reason }
  if o.qty.raw ≤ 0 then some (b, [rejected .invalidQty])
  else
    match if o.orderType = .limit then b.priceToIdx o.price else some 0 with
    | none => some (b, [rejected .priceOutOfRange])
    | some priceIdx =>
      match if o.timeInForce = .fok
        then b.canFullyFill o.side o.price o.qty o.account o.orderType else some true with
      | none => none
      | some false => some (b, [rejected .fokNotFullyFillable])
      | some true => do
        let (b, qtyRemaining, events) ← b.matchAgainstBook
          { seq, tsNs, symbol := o.symbol, side := o.side, price := o.price, orderId
            account := o.account, orderType := o.orderType } o.qty
        if qtyRemaining.raw = 0 then
          let top ← b.bookTopEvent seq o.symbol
          some (b, events ++ [top])
        else if o.timeInForce = .ioc ∨ o.timeInForce = .fok ∨ o.orderType = .market then
          let events := if qtyRemaining.raw < o.qty.raw then events else events ++ [rejected .iocNoMatch]
          let events := if qtyRemaining.raw < o.qty.raw then events ++ [.cancelled seq orderId] else events
          let top ← b.bookTopEvent seq o.symbol
          some (b, events ++ [top])
        else b.restRemainder seq tsNs o priceIdx qtyRemaining events

def applyCancel (b : OrderBook M K) (seq : UInt64) (account : AccountId) (orderId : OrderId) :
    Option (OrderBook M K × List EngineEvent) :=
  let rejected (reason : RejectReason) : EngineEvent :=
    .rejected { seq, orderId, accountId := account, clientOrderId := ⟨0⟩, reason }
  match b.idToKey orderId with
  | none => some (b, [rejected .orderNotFound])
  | some key => do
    let removed := Function.update b.idToKey orderId none
    let order ← get? b.arena key
    if order.account ≠ account then
      some ({ b with idToKey := Function.update removed orderId (some key) }, [rejected .wrongAccount])
    else
      let b := { b with idToKey := removed }
      match b.priceToIdx order.price with
      | none => some (b, [])
      | some priceIdx =>
        match ← (b.ladder order.side)[priceIdx]? with
        | none => some (b, [.cancelled seq orderId])
        | some level =>
          let (_, level, arena) ← level.remove key b.arena
          let b := { b with arena }.setLevel order.side priceIdx level
          let b ← if level.isEmpty then b.clearEmptyBest order.side priceIdx else some b
          some (b, [.cancelled seq orderId])

def apply (b : OrderBook M K) (cmd : SequencedCommand) : Option (OrderBook M K × List EngineEvent) :=
  match cmd.cmd with
  | .newOrder o => b.applyNewOrder cmd.seq cmd.tsNs o
  | .cancel account orderId => b.applyCancel cmd.seq account orderId
  | .liquidate _ _ => some (b, [])
  | .freezeAccount _ => some (b, [])

/-- Apply the commands in order, collecting the events of each. -/
def run (b : OrderBook M K) : List SequencedCommand → Option (OrderBook M K × List (List EngineEvent))
  | [] => some (b, [])
  | cmd :: cmds => do
    let (b, evs) ← b.apply cmd
    let (b, rest) ← b.run cmds
    some (b, evs :: rest)

end OrderBook

end MRE
