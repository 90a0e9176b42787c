import MatchRiskEngine.Impl.OrderBook

/-!
# The matching engine

The `matching-engine` crate: `MatchingEngine.handleCommand` fences off stale terms,
runs the inline risk check, applies the command to the book, and publishes the
book's events to the risk shards (`publishToRisk`) and their translation
(`mapEngineEvent`) to the write-ahead log and the outbound ring (`publishAndLog`).

Whether an append succeeds and whether a ring has room is decided by an environment
`Env`, call by call. The log and the rings are the lists of what went into them. As
in the book, `none` is a panic.
-/

namespace MRE

/-! ## The inline risk check -/

inductive RiskRejectReason where
  | maxOrderQtyExceeded
  | maxOrderNotionalExceeded
  | accountHalted
  | accountFrozen
  | positionLimitExceeded
  | openOrderLimitExceeded
  | priceOutOfBand
  | unknownAccount
  deriving DecidableEq, Repr

structure Tier0Limits where
  maxOrderQty : Qty
  maxOrderNotional : UInt64
  maxOpenOrders : UInt32
  maxPositionAbs : Int64
  /-- Zero disables the check. -/
  priceBandBps : UInt32
  deriving DecidableEq, Repr

def Tier0Limits.default : Tier0Limits :=
  { maxOrderQty := ⟨0xFFFFFFFFFFFFFFFF⟩, maxOrderNotional := 0xFFFFFFFFFFFFFFFF, maxOpenOrders := 0xFFFFFFFF
    maxPositionAbs := Int64.maxValue, priceBandBps := 0 }

namespace RiskCheck

/-- The product of a price and a quantity fits in 128 bits. -/
def notionalOf (price : Price) (qty : Qty) : UInt64 :=
  let p := price.raw.toInt
  if p ≤ 0 then 0
  else
    let prod := p * qty.raw.toNat / 100000000
    if prod ≤ 0 then 0
    else if 2 ^ 64 - 1 < prod then 0xFFFFFFFFFFFFFFFF else UInt64.ofNat prod.toNat

def priceOutOfBand (price reference : Price) (bandBps : UInt32) : Bool :=
  let p := price.raw.toInt
  let r := reference.raw.toInt
  if r = 0 then false else decide ((bandBps.toNat : Int) < ((p - r).natAbs * 10000 : Int).tdiv r)

def projectedPosition (current : Int64) (side : Side) (qty : Qty) : Int64 :=
  let delta := qty.raw.toInt64
  match side with
  | .buy => current.saturatingAdd delta
  | .sell => current.saturatingSub delta

def checkNewOrder (order : NewOrder) (limits : Tier0Limits) (state : AccountRiskState)
    (referencePrice : Option Price) : Except RiskRejectReason Unit := do
  if state.halted then throw .accountHalted
  if state.frozen then throw .accountFrozen
  if limits.maxOrderQty.raw < order.qty.raw then throw .maxOrderQtyExceeded
  if limits.maxOrderNotional < notionalOf order.price order.qty then throw .maxOrderNotionalExceeded
  if 0 < limits.priceBandBps then
    if let some reference := referencePrice then
      if priceOutOfBand order.price reference limits.priceBandBps then throw .priceOutOfBand
  if limits.maxOpenOrders ≤ state.openOrderCount then throw .openOrderLimitExceeded
  if limits.maxPositionAbs < Int64.ofNat (projectedPosition state.position order.side order.qty).toInt.natAbs
  then throw .positionLimitExceeded

end RiskCheck

def mapRiskRejectReason : RiskRejectReason → RejectReason
  | .maxOrderQtyExceeded => .invalidQuantity
  | .maxOrderNotionalExceeded => .riskLimitBreach
  | .accountHalted => .riskLimitBreach
  | .accountFrozen => .riskLimitBreach
  | .positionLimitExceeded => .riskLimitBreach
  | .openOrderLimitExceeded => .riskLimitBreach
  | .priceOutOfBand => .priceOutOfRange
  | .unknownAccount => .riskLimitBreach

/-! ## The translation of events -/

def Symbol.instrument (s : Symbol) : InstrumentId := ⟨s.raw.toUInt64⟩

def SequenceNo.orFirst (seq : UInt64) : SequenceNo := (SequenceNo.new seq).getD .first

/-- What is published of an event of the book. -/
def mapEngineEvent : EngineEvent → Option Event
  | .trade t => some (.filled (SequenceNo.orFirst t.seq)
      { instrumentId := t.symbol.instrument
        aggressorOrderId := t.takerOrder
        aggressorAccountId := t.takerAcct
        aggressorSide := t.makerSide.opposite
        restingOrderId := t.makerOrder
        restingAccountId := t.makerAcct
        price := t.price
        qty := t.qty
        restingRemainingQty := t.makerRemainingQty
        aggressorRemainingQty := t.takerRemainingQty })
  | .accepted e => some (.accepted
      { seq := SequenceNo.orFirst e.seq
        instrumentId := e.symbol.instrument
        orderId := e.orderId
        accountId := e.accountId
        clientOrderId := e.clientOrderId
        side := e.side
        price := e.price
        qty := e.qty })
  | .rejected e => some (.rejected
      { seq := SequenceNo.orFirst e.seq
        accountId := e.accountId
        clientOrderId := e.clientOrderId
        reason := e.reason })
  | .orderCancelled orderId accountId seq symbol => some (.canceled
      { seq := SequenceNo.orFirst seq
        instrumentId := symbol.instrument
        orderId
        accountId
        reason := .userRequested
        remainingQty := ⟨0⟩ })
  | _ => none

/-! ## The engine -/

/-- Whether the `n`-th append to the log, and the `n`-th attempt to push onto
the outbound ring or the risk ring, succeeds. -/
structure Env where
  walOk : Nat → Bool
  ringOk : Nat → Bool
  riskOk : Nat → Bool

structure MatchingEngine (M K : Type) where
  limits : Tier0Limits
  book : OrderBook M K
  outbound : List Event
  /-- What was pushed onto the ring to the risk shards. -/
  riskOut : List EngineEvent
  riskStates : AccountRiskTable
  wal : List Event
  referencePrice : Option Price
  running : Bool
  highestTermSeen : UInt64
  walCalls : Nat
  ringCalls : Nat
  riskCalls : Nat

namespace MatchingEngine

variable {M K : Type}

def new (limits : Tier0Limits) (book : OrderBook M K) (riskStates : AccountRiskTable) : MatchingEngine M K :=
  { limits, book, outbound := [], riskOut := [], riskStates, wal := [], referencePrice := none, running := true
    highestTermSeen := 0, walCalls := 0, ringCalls := 0, riskCalls := 0 }

/-- Try to push, at most `retries` times; whether it succeeded, and the number
of calls made so far. -/
def tryPush (ok : Nat → Bool) : Nat → Nat → Bool × Nat
  | 0, calls => (false, calls)
  | retries + 1, calls => if ok calls then (true, calls + 1) else tryPush ok retries (calls + 1)

def publishToRisk (env : Env) (e : MatchingEngine M K) (ev : EngineEvent) : MatchingEngine M K :=
  let (pushed, calls) := tryPush env.riskOk 64 e.riskCalls
  { e with riskCalls := calls, riskOut := if pushed then e.riskOut ++ [ev] else e.riskOut }

def publishAndLog (env : Env) (e : MatchingEngine M K) (ev : Event) : MatchingEngine M K :=
  if env.walOk e.walCalls then
    let (pushed, calls) := tryPush env.ringOk 64 e.ringCalls
    { e with
      walCalls := e.walCalls + 1
      wal := e.wal ++ [ev]
      ringCalls := calls
      outbound := if pushed then e.outbound ++ [ev] else e.outbound }
  else { e with walCalls := e.walCalls + 1, running := false }

/-- Hand an event of the book to the risk shards and publish it. -/
def publishEvent (env : Env) (e : MatchingEngine M K) (ev : EngineEvent) : MatchingEngine M K :=
  let e := e.publishToRisk env ev
  match mapEngineEvent ev with
  | some out => e.publishAndLog env out
  | none => e

/-- A trade moves the reference price. -/
def trackPrice (e : MatchingEngine M K) : EngineEvent → MatchingEngine M K
  | .trade t => { e with referencePrice := some t.price }
  | _ => e

variable [DecidableEq K] [Arena M K]

def riskResult (e : MatchingEngine M K) (o : InboundNewOrder) : Except RiskRejectReason Unit :=
  let newOrder : NewOrder :=
    { accountId := o.account, instrumentId := o.symbol.instrument, clientOrderId := o.clientOrderId
      side := o.side, price := o.price, orderType := o.orderType, qty := o.qty, timeInForce := o.timeInForce }
  match e.riskStates.get o.account with
  | some state => RiskCheck.checkNewOrder newOrder e.limits state e.referencePrice
  | none => .error .unknownAccount

/-- Apply a command to the book and publish its events. -/
def applyAndPublish (env : Env) (e : MatchingEngine M K) (cmd : SequencedCommand) : Option (MatchingEngine M K) := do
  let (book, events) ← e.book.apply cmd
  some (events.foldl (publishEvent env) { e with book })

/-- Cancel the orders with these ids, one after the other. -/
def cancelAll (env : Env) (cmd : SequencedCommand) (account : AccountId) :
    MatchingEngine M K → List OrderId → Option (MatchingEngine M K)
  | e, [] => some e
  | e, orderId :: rest => do
    let e ← e.applyAndPublish env { cmd with cmd := .cancel account orderId }
    cancelAll env cmd account e rest

def handleCommand (env : Env) (e : MatchingEngine M K) (cmd : SequencedCommand) : Option (MatchingEngine M K) :=
  if cmd.term < e.highestTermSeen then
    some { e with highestTermSeen := max e.highestTermSeen cmd.term }
  else
    match cmd.cmd with
    | .newOrder o =>
      match e.riskResult o with
      | .ok () => do
        let (book, events) ← e.book.apply cmd
        some (events.foldl (fun e ev => (e.trackPrice ev).publishEvent env ev) { e with book })
      | .error reason => some (e.publishAndLog env (.rejected
          { seq := SequenceNo.orFirst cmd.seq
            accountId := o.account
            clientOrderId := o.clientOrderId
            reason := mapRiskRejectReason reason }))
    | .cancel _ _ => e.applyAndPublish env cmd
    | .liquidate _ account => cancelAll env cmd account e (e.book.openOrderIdsForAccount account)
    | .freezeAccount account => some { e with riskStates := e.riskStates.setFrozen account true }

/-- A command, and what the risk shards wrote to the shared table since the
previous one. -/
structure Input where
  riskWrites : AccountRiskTable → AccountRiskTable
  cmd : SequencedCommand

def atInput (e : MatchingEngine M K) (i : Input) : MatchingEngine M K :=
  { e with riskStates := i.riskWrites e.riskStates }

def run (env : Env) : MatchingEngine M K → List Input → Option (MatchingEngine M K)
  | e, [] => some e
  | e, i :: is => do
    let e ← (e.atInput i).handleCommand env i.cmd
    run env e is

end MatchingEngine

end MRE
