import Mathlib.Logic.Function.Basic
import MatchRiskEngine.Framework.Tokio
import MatchRiskEngine.Impl.Gateway

/-!
# What the gateway sends

The outbound side of the `gateway` crate: market data, which `MarketDataHub`
distributes by one broadcast channel for each instrument, and execution reports,
which come over one channel for all. Each connection has a task that forwards the
reports of its account, a task for each instrument it has subscribed to, and a
writer task that they all hand their frames to through a bounded queue. A step of
one of the tasks is a step of the system (`Outbound.step`). The senders live as
long as the server, so no receiver finds its channel closed.
-/

namespace MRE.Gateway

def MsgType.execReport : UInt8 := 0x81

def cancelReasonTag : CancelReason → UInt8
  | .userRequested => 0
  | .timeInForceExpired => 1
  | .riskLimitBreach => 2
  | .instrumentHalted => 3

def rejectReasonTag : RejectReason → UInt8
  | .riskLimitBreach => 0
  | .instrumentHalted => 1
  | .invalidPrice => 2
  | .invalidQuantity => 3
  | .unknownInstrument => 4
  | .unknownOrder => 5
  | .invalidQty => 6
  | .priceOutOfRange => 7
  | .iocNoMatch => 8
  | .arenaFull => 9
  | .orderNotFound => 10
  | .wrongAccount => 11
  | .fokNotFullyFillable => 12
  | .unsupportedOrderType => 13

/-- The payload of a report; `none` for the events that have no report. -/
def execReportPayload : Event → Option (List UInt8)
  | .accepted e => some (0 :: (leU64 e.orderId.raw ++ (leU64 e.clientOrderId.raw ++ ((if e.side = .buy then 0 else 1) ::
      (leU64 e.price.raw.toUInt64 ++ leU64 e.qty.raw)))))
  -- the aggressor's leg, whoever the report is for
  | .filled _ fill => some (1 :: (leU64 fill.aggressorOrderId.raw ++ (leU64 fill.price.raw.toUInt64 ++
      (leU64 fill.qty.raw ++ (leU64 fill.aggressorRemainingQty.raw ++ [1])))))
  | .canceled e => some (2 :: (leU64 e.orderId.raw ++ (cancelReasonTag e.reason :: leU64 e.remainingQty.raw)))
  | .rejected e => some (3 :: (leU64 e.clientOrderId.raw ++ [rejectReasonTag e.reason]))
  | .modified e => some (4 :: (leU64 e.orderId.raw ++ (leU64 e.newQty.raw ++
      match e.newPrice with
      | some p => 1 :: leU64 p.raw.toUInt64
      | none => 0 :: leU64 0)))
  | .instrumentHalted _ _ | .instrumentResumed _ _ => none

def encodeExecReport (ev : Event) (out : List UInt8) : Except CodecError (List UInt8) :=
  match execReportPayload ev with
  | some payload => Codec.encode MsgType.execReport payload out
  | none => .ok out

/-- Whether an event is reported to an account. -/
def concerns (accountId : AccountId) : Event → Bool
  | .accepted e => e.accountId = accountId
  | .canceled e => e.accountId = accountId
  | .rejected e => e.accountId = accountId
  | .modified e => e.accountId = accountId
  | .filled _ fill => fill.aggressorAccountId = accountId || fill.restingAccountId = accountId
  | .instrumentHalted _ _ | .instrumentResumed _ _ => false

/-- Whether a frame was written, and the output after it. -/
def Session.encodeEventFor (accountId : AccountId) (ev : Event) (out : List UInt8) :
    Except CodecError (Bool × List UInt8) :=
  if concerns accountId ev then (encodeExecReport ev out).map (true, ·) else .ok (false, out)

/-! ## Market data -/

inductive MarketDataEvent where
  | topOfBook (instrumentId : InstrumentId) (bestBid bestAsk : Option (Price × Qty))
  | trade (instrumentId : InstrumentId) (price : Price) (qty : Qty) (aggressorSide : Side)
  | haltStatus (instrumentId : InstrumentId) (halted : Bool)
  deriving DecidableEq, Repr

def MarketDataEvent.instrumentId : MarketDataEvent → InstrumentId
  | .topOfBook instrumentId _ _ => instrumentId
  | .trade instrumentId _ _ _ => instrumentId
  | .haltStatus instrumentId _ => instrumentId

def MsgType.marketData : UInt8 := 0x83

def quotePayload : Option (Price × Qty) → List UInt8
  | some (p, q) => 1 :: (leU64 p.raw.toUInt64 ++ leU64 q.raw)
  | none => 0 :: (leU64 0 ++ leU64 0)

def marketDataPayload : MarketDataEvent → List UInt8
  | .topOfBook instrumentId bestBid bestAsk =>
    0 :: (leU64 instrumentId.raw ++ (quotePayload bestBid ++ quotePayload bestAsk))
  | .trade instrumentId price qty aggressorSide =>
    1 :: (leU64 instrumentId.raw ++ (leU64 price.raw.toUInt64 ++ (leU64 qty.raw ++
      [if aggressorSide = .buy then 0 else 1])))
  | .haltStatus instrumentId halted => 2 :: (leU64 instrumentId.raw ++ [if halted then 1 else 0])

def encodeMarketData (ev : MarketDataEvent) (out : List UInt8) : Except CodecError (List UInt8) :=
  Codec.encode MsgType.marketData (marketDataPayload ev) out

def channelCapacity : Nat := 1024

variable {T : Tokio} {α : Type}

variable (T) in
/-- The channel of each instrument that has one. -/
structure MarketDataHub where
  channels : InstrumentId → Option (T.Broadcast MarketDataEvent)

namespace MarketDataHub

def new : MarketDataHub T := { channels := fun _ => none }

/-- Without a channel there is no subscriber, and the event is dropped. -/
def publish (hub : MarketDataHub T) (event : MarketDataEvent) : MarketDataHub T :=
  match hub.channels event.instrumentId with
  | some channel => { channels := Function.update hub.channels event.instrumentId (some (T.send channel event)) }
  | none => hub

def subscribe (hub : MarketDataHub T) (instrumentId : InstrumentId) : MarketDataHub T × T.Receiver MarketDataEvent :=
  match hub.channels instrumentId with
  | some channel => (hub, T.subscribe channel)
  | none =>
    let channel := T.broadcast channelCapacity
    ({ channels := Function.update hub.channels instrumentId (some channel) }, T.subscribe channel)

end MarketDataHub

/-! ## The tasks of a connection -/

variable (T α) in
/-- A task that forwards what it receives to the writer. -/
structure Forwarder where
  receiver : T.Receiver α
  /-- A frame that waits for room in the writer's queue. -/
  sending : Option (List UInt8)
  stopped : Bool

def Forwarder.start (receiver : T.Receiver α) : Forwarder T α := { receiver, sending := none, stopped := false }

def writerCapacity : Nat := 256

/-- Hand the frame over, if there is room. Without a writer the task ends. -/
def Forwarder.send (f : Forwarder T α) (queue : T.Queue (List UInt8)) (writerDone : Bool) :
    Forwarder T α × T.Queue (List UInt8) :=
  match f.sending with
  | none => (f, queue)
  | some frame =>
    if writerDone then ({ f with sending := none, stopped := true }, queue)
    else
      match T.trySend queue frame with
      | some queue => ({ f with sending := none }, queue)
      | none => (f, queue)

/-- The forwarder of reports goes on after it has lagged. -/
def Forwarder.recvReport (f : Forwarder T Event) (accountId : AccountId) (channel : T.Broadcast Event) : Forwarder T Event :=
  if f.stopped ∨ f.sending.isSome then f
  else
    match T.recv channel f.receiver with
    | (.ok ev, receiver) =>
      match Session.encodeEventFor accountId ev [] with
      | .ok (true, buf) => { f with receiver, sending := some buf }
      | _ => { f with receiver }
    | (.lagged _, receiver) => { f with receiver }
    | (.pending, _) => f

/-- A forwarder of market data ends when it has lagged. -/
def Forwarder.recvMarketData (f : Forwarder T MarketDataEvent) (channel : T.Broadcast MarketDataEvent) :
    Forwarder T MarketDataEvent :=
  if f.stopped ∨ f.sending.isSome then f
  else
    match T.recv channel f.receiver with
    | (.ok ev, receiver) =>
      match encodeMarketData ev [] with
      | .ok buf => { f with receiver, sending := some buf }
      | .error _ => { f with receiver }
    | (.lagged _, receiver) => { f with receiver, stopped := true }
    | (.pending, _) => f

variable (T) in
structure OutConnection where
  accountId : AccountId
  reports : Forwarder T Event
  /-- The instruments that are forwarded, with their tasks. -/
  forwarded : InstrumentId → Option (Forwarder T MarketDataEvent)
  queue : T.Queue (List UInt8)
  writerDone : Bool
  /-- The frames that the writer has written to the socket. -/
  written : List (List UInt8)
  /-- What it has written of the frame at which writing failed. -/
  torn : List UInt8

namespace OutConnection

def socket (c : OutConnection T) : List UInt8 := c.written.flatten ++ c.torn

def write (c : OutConnection T) : OutConnection T :=
  match T.take c.queue with
  | some (frame, queue) => if c.writerDone then c else { c with queue, written := c.written ++ [frame] }
  | none => c

/-- Writing fails after some bytes of a frame, and the writer ends. -/
def failWrite (c : OutConnection T) (n : Nat) : OutConnection T :=
  match T.take c.queue with
  | some (frame, queue) =>
    if c.writerDone ∨ frame.length ≤ n then c else { c with queue, writerDone := true, torn := frame.take n }
  | none => c

def sendReport (c : OutConnection T) : OutConnection T :=
  let (reports, queue) := c.reports.send c.queue c.writerDone
  { c with reports, queue }

def sendMarketData (c : OutConnection T) (instrumentId : InstrumentId) : OutConnection T :=
  match c.forwarded instrumentId with
  | none => c
  | some f =>
    let (f, queue) := f.send c.queue c.writerDone
    { c with forwarded := Function.update c.forwarded instrumentId (some f), queue }

end OutConnection

/-! ## The system -/

variable (T) in
structure Outbound where
  execReports : T.Broadcast Event
  marketData : MarketDataHub T
  connections : List (OutConnection T)

inductive OutAction where
  | report (ev : Event)
  | publish (event : MarketDataEvent)
  /-- A connection is accepted, which will authenticate as this account. -/
  | accept (accountId : AccountId)
  /-- The loop of a connection comes to an instrument in the subscriptions. -/
  | forward (i : Nat) (instrumentId : InstrumentId)
  | recvReport (i : Nat)
  | sendReport (i : Nat)
  | recvMarketData (i : Nat) (instrumentId : InstrumentId)
  | sendMarketData (i : Nat) (instrumentId : InstrumentId)
  | write (i : Nat)
  | failWrite (i : Nat) (n : Nat)

namespace Outbound

variable (T) in
def new (reportCapacity : Nat) : Outbound T :=
  { execReports := T.broadcast reportCapacity, marketData := .new, connections := [] }

def modify (s : Outbound T) (i : Nat) (f : OutConnection T → OutConnection T) : Outbound T :=
  { s with connections := s.connections.modify i f }

/-- A task for an instrument that has none yet. -/
def forward (s : Outbound T) (i : Nat) (instrumentId : InstrumentId) : Outbound T :=
  match s.connections[i]? with
  | none => s
  | some c =>
    match c.forwarded instrumentId with
    | some _ => s
    | none =>
      let (marketData, receiver) := s.marketData.subscribe instrumentId
      { s with
        marketData
        connections := s.connections.set i
          { c with forwarded := Function.update c.forwarded instrumentId (some (.start receiver)) } }

def recvMarketData (s : Outbound T) (instrumentId : InstrumentId) (c : OutConnection T) : OutConnection T :=
  match c.forwarded instrumentId, s.marketData.channels instrumentId with
  | some f, some channel =>
    { c with forwarded := Function.update c.forwarded instrumentId (some (f.recvMarketData channel)) }
  | _, _ => c

def step (s : Outbound T) : OutAction → Outbound T
  | .report ev => { s with execReports := T.send s.execReports ev }
  | .publish event => { s with marketData := s.marketData.publish event }
  | .accept accountId =>
    { s with connections := s.connections ++
        [{ accountId, reports := .start (T.subscribe s.execReports), forwarded := fun _ => none,
           queue := T.queue writerCapacity, writerDone := false, written := [], torn := [] }] }
  | .forward i instrumentId => s.forward i instrumentId
  | .recvReport i =>
    s.modify i fun c => { c with reports := c.reports.recvReport c.accountId s.execReports }
  | .sendReport i => s.modify i .sendReport
  | .recvMarketData i instrumentId => s.modify i (s.recvMarketData instrumentId)
  | .sendMarketData i instrumentId => s.modify i fun c => c.sendMarketData instrumentId
  | .write i => s.modify i .write
  | .failWrite i n => s.modify i fun c => c.failWrite n

def run (s : Outbound T) (acts : List OutAction) : Outbound T := acts.foldl step s

end Outbound

end MRE.Gateway
