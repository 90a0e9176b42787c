import Mathlib.Algebra.Group.Nat.Defs

/-!
# Core types

The domain types of the `core-types` crate: identifiers, fixed-point prices
and quantities, the commands the sequencer hands to the engines, and the
events the order book (`EngineEvent`) and the matching engine (`Event`)
produce. A variant with fields carries them as a structure of its own. A risk
state of the `seqlock` crate is what a consistent read of it returns.
-/

namespace MRE

/-! ## Identifiers, prices and quantities -/

structure OrderId where
  raw : UInt64
  deriving DecidableEq, Repr

structure AccountId where
  raw : UInt64
  deriving DecidableEq, Repr

structure InstrumentId where
  raw : UInt64
  deriving DecidableEq, Repr

structure ClientOrderId where
  raw : UInt64
  deriving DecidableEq, Repr

structure Symbol where
  raw : UInt16
  deriving DecidableEq, Repr

/-- A sequence number; zero is reserved for "no sequence number yet". -/
structure SequenceNo where
  raw : UInt64
  ne_zero : raw ≠ 0
  deriving DecidableEq, Repr

namespace SequenceNo

def first : SequenceNo := ⟨1, by decide⟩

def new (v : UInt64) : Option SequenceNo := if h : v = 0 then none else some ⟨v, h⟩

end SequenceNo

/-- A price in ticks. -/
structure Price where
  raw : Int64
  deriving DecidableEq, Repr

/-- A quantity in lots. -/
structure Qty where
  raw : UInt64
  deriving DecidableEq, Repr

inductive Side where
  | buy
  | sell
  deriving DecidableEq, Repr

def Side.opposite : Side → Side
  | .buy => .sell
  | .sell => .buy

theorem Side.opposite_ne (s : Side) : s.opposite ≠ s := by cases s <;> decide

/-! ## Commands -/

inductive TimeInForce where
  | gtc
  | ioc
  | fok
  deriving DecidableEq, Repr

inductive OrderType where
  | limit
  | market
  deriving DecidableEq, Repr

/-- A new order as the wire protocol carries it. -/
structure NewOrder where
  accountId : AccountId
  instrumentId : InstrumentId
  clientOrderId : ClientOrderId
  side : Side
  price : Price
  orderType : OrderType
  qty : Qty
  timeInForce : TimeInForce
  deriving DecidableEq, Repr

structure CancelOrder where
  accountId : AccountId
  instrumentId : InstrumentId
  orderId : OrderId
  deriving DecidableEq, Repr

structure ModifyOrder where
  accountId : AccountId
  instrumentId : InstrumentId
  orderId : OrderId
  newQty : Qty
  newPrice : Option Price
  deriving DecidableEq, Repr

/-- A command as the wire protocol carries it. -/
inductive Command where
  | new (n : NewOrder)
  | cancel (c : CancelOrder)
  | modify (m : ModifyOrder)
  | halt (instrumentId : InstrumentId)
  | resume (instrumentId : InstrumentId)
  deriving DecidableEq, Repr

/-- The fields of `InboundCommand::NewOrder`. -/
structure InboundNewOrder where
  account : AccountId
  clientOrderId : ClientOrderId
  symbol : Symbol
  side : Side
  price : Price
  qty : Qty
  orderType : OrderType
  timeInForce : TimeInForce
  deriving DecidableEq, Repr

inductive InboundCommand where
  | newOrder (o : InboundNewOrder)
  | cancel (account : AccountId) (orderId : OrderId)
  | liquidate (symbol : Symbol) (account : AccountId)
  | freezeAccount (account : AccountId)
  deriving DecidableEq, Repr

structure SymbolRangeError where
  id : InstrumentId
  deriving DecidableEq, Repr

inductive CommandConversionError where
  | modifyNotSupported
  | adminCommandNotQueued
  | symbolOutOfRange (e : SymbolRangeError)
  deriving DecidableEq, Repr

/-- The symbol of an instrument, if its number has 16 bits. -/
def Symbol.tryFrom (id : InstrumentId) : Except SymbolRangeError Symbol :=
  if id.raw.toNat < 2 ^ 16 then .ok ⟨id.raw.toUInt16⟩ else .error ⟨id⟩

def InboundCommand.tryFrom : Command → Except CommandConversionError InboundCommand
  | .new n =>
    match Symbol.tryFrom n.instrumentId with
    | .error e => .error (.symbolOutOfRange e)
    | .ok symbol => .ok (.newOrder
        { account := n.accountId
          clientOrderId := n.clientOrderId
          symbol
          side := n.side
          price := n.price
          qty := n.qty
          orderType := n.orderType
          timeInForce := n.timeInForce })
  | .cancel c => .ok (.cancel c.accountId c.orderId)
  | .modify _ => .error .modifyNotSupported
  | .halt _ => .error .adminCommandNotQueued
  | .resume _ => .error .adminCommandNotQueued

structure SequencedCommand where
  term : UInt64
  seq : UInt64
  tsNs : UInt64
  cmd : InboundCommand
  deriving DecidableEq, Repr

/-! ## Events -/

inductive CancelReason where
  | userRequested
  | timeInForceExpired
  | riskLimitBreach
  | instrumentHalted
  deriving DecidableEq, Repr

inductive RejectReason where
  | riskLimitBreach
  | instrumentHalted
  | invalidPrice
  | invalidQuantity
  | invalidQty
  | unknownInstrument
  | unknownOrder
  | priceOutOfRange
  | iocNoMatch
  | arenaFull
  | orderNotFound
  | wrongAccount
  | fokNotFullyFillable
  | unsupportedOrderType
  deriving DecidableEq, Repr

/-- A trade, as the matching engine publishes it. -/
structure Fill where
  instrumentId : InstrumentId
  aggressorOrderId : OrderId
  aggressorAccountId : AccountId
  aggressorSide : Side
  restingOrderId : OrderId
  restingAccountId : AccountId
  price : Price
  qty : Qty
  restingRemainingQty : Qty
  aggressorRemainingQty : Qty
  deriving DecidableEq, Repr

structure Event.Accepted where
  seq : SequenceNo
  instrumentId : InstrumentId
  orderId : OrderId
  accountId : AccountId
  clientOrderId : ClientOrderId
  side : Side
  price : Price
  qty : Qty
  deriving DecidableEq, Repr

structure Event.Canceled where
  seq : SequenceNo
  instrumentId : InstrumentId
  orderId : OrderId
  accountId : AccountId
  reason : CancelReason
  remainingQty : Qty
  deriving DecidableEq, Repr

structure Event.Rejected where
  seq : SequenceNo
  accountId : AccountId
  clientOrderId : ClientOrderId
  reason : RejectReason
  deriving DecidableEq, Repr

structure Event.Modified where
  seq : SequenceNo
  instrumentId : InstrumentId
  orderId : OrderId
  accountId : AccountId
  newQty : Qty
  newPrice : Option Price
  deriving DecidableEq, Repr

/-- What the matching engine logs and publishes. -/
inductive Event where
  | accepted (e : Event.Accepted)
  | filled (seq : SequenceNo) (fill : Fill)
  | canceled (e : Event.Canceled)
  | rejected (e : Event.Rejected)
  | modified (e : Event.Modified)
  | instrumentHalted (seq : SequenceNo) (instrumentId : InstrumentId)
  | instrumentResumed (seq : SequenceNo) (instrumentId : InstrumentId)
  deriving DecidableEq, Repr

def Event.seq : Event → SequenceNo
  | .accepted e => e.seq
  | .filled seq _ => seq
  | .canceled e => e.seq
  | .rejected e => e.seq
  | .modified e => e.seq
  | .instrumentHalted seq _ => seq
  | .instrumentResumed seq _ => seq

structure EngineEvent.Trade where
  seq : UInt64
  tsNs : UInt64
  symbol : Symbol
  price : Price
  qty : Qty
  makerOrder : OrderId
  takerOrder : OrderId
  makerOrderId : OrderId
  takerOrderId : OrderId
  makerAcct : AccountId
  takerAcct : AccountId
  makerSide : Side
  makerRemainingQty : Qty
  takerRemainingQty : Qty
  deriving DecidableEq, Repr

structure EngineEvent.Accepted where
  seq : UInt64
  orderId : OrderId
  tsNs : UInt64
  symbol : Symbol
  accountId : AccountId
  clientOrderId : ClientOrderId
  side : Side
  price : Price
  qty : Qty
  deriving DecidableEq, Repr

structure EngineEvent.Rejected where
  seq : UInt64
  orderId : OrderId
  accountId : AccountId
  clientOrderId : ClientOrderId
  reason : RejectReason
  deriving DecidableEq, Repr

structure EngineEvent.BookTop where
  seq : UInt64
  symbol : Symbol
  bid : Option Price
  ask : Option Price
  deriving DecidableEq, Repr

/-- What the order book produces for a command. -/
inductive EngineEvent where
  | trade (t : EngineEvent.Trade)
  | accepted (e : EngineEvent.Accepted)
  | rejected (e : EngineEvent.Rejected)
  | cancelled (seq : UInt64) (orderId : OrderId)
  | bookTop (e : EngineEvent.BookTop)
  | orderAcknowledged (orderId : OrderId) (accountId : AccountId) (seq : UInt64)
  | orderCancelled (orderId : OrderId) (accountId : AccountId) (seq : UInt64) (symbol : Symbol)
  | orderRejected (orderId : OrderId) (accountId : AccountId) (reason : RejectReason) (seq : UInt64)
      (symbol : Symbol)
  | snapshotMarker (seq : UInt64)
  deriving DecidableEq, Repr

structure AccountRiskState where
  balance : Int64
  usedMargin : Int64
  frozen : Bool
  halted : Bool
  position : Int64
  openOrderCount : UInt32
  deriving DecidableEq, Repr

def AccountRiskState.default : AccountRiskState :=
  { balance := 0, usedMargin := 0, frozen := false, halted := false, position := 0, openOrderCount := 0 }

/-- One state for each account id below the table's capacity. -/
abbrev AccountRiskTable : Type := List AccountRiskState

namespace AccountRiskTable

def new (capacity : Nat) : AccountRiskTable := List.replicate capacity .default

def get (t : AccountRiskTable) (account : AccountId) : Option AccountRiskState := t[account.raw.toNat]?

/-- `set_frozen` on an account's state. -/
def setFrozen (t : AccountRiskTable) (account : AccountId) (frozen : Bool) : AccountRiskTable :=
  t.modify account.raw.toNat fun s => { s with frozen }

end AccountRiskTable

end MRE
