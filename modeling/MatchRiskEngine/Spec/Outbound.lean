import MatchRiskEngine.Impl.Outbound

/-!
# What a client reads

What a client reads in an `EXEC_REPORT` frame by the documented layout
(`ExecReport.ofFrame`), and the report of a fill that an account is to get
(`Fill.reportFor`); the layout of market data (`MarketDataEvent.ofPayload`).

The frames that a client has received are reports (`reportsIn`) and the market
data of an instrument (`marketDataIn`). Both are to be compared with what was
sent while the client was there (`reported`, `published`).
-/

namespace MRE

/-! ## Execution reports -/

namespace Gateway

/-- A report, with its fields as they are on the wire. -/
inductive ExecReport where
  | accepted (orderId clientOrderId : UInt64) (side : UInt8) (price : Int64) (qty : UInt64)
  | filled (orderId : UInt64) (price : Int64) (qty remainingQty : UInt64) (isAggressor : UInt8)
  | canceled (orderId : UInt64) (reason : UInt8) (remainingQty : UInt64)
  | rejected (clientOrderId : UInt64) (reason : UInt8)
  | modified (orderId newQty : UInt64) (hasNewPrice : UInt8) (newPrice : Int64)
  deriving DecidableEq, Repr

namespace ExecReport

/-- The report in a payload: a variant and the variant's fields, little-endian. -/
def decode (payload : List UInt8) : Option ExecReport :=
  let u64 (offset : Nat) : UInt64 := u64OfLe (slice payload offset (offset + 8))
  let i64 (offset : Nat) : Int64 := (u64 offset).toInt64
  let u8 (offset : Nat) : UInt8 := payload.getD offset 0
  match payload.head?, payload.length with
  | some 0, 34 => some (.accepted (u64 1) (u64 9) (u8 17) (i64 18) (u64 26))
  | some 1, 34 => some (.filled (u64 1) (i64 9) (u64 17) (u64 25) (u8 33))
  | some 2, 18 => some (.canceled (u64 1) (u8 9) (u64 10))
  | some 3, 10 => some (.rejected (u64 1) (u8 9))
  | some 4, 26 => some (.modified (u64 1) (u64 9) (u8 17) (i64 18))
  | _, _ => none

/-- The report in a frame that is nothing else. -/
def ofFrame (bytes : List UInt8) : Option ExecReport :=
  match Codec.decode bytes with
  | (.ok (some f), []) => if f.msgType = MsgType.execReport then decode f.payload else none
  | _ => none

end ExecReport

end Gateway

open Gateway

/-- The leg of a fill that is an account's, as the account is to see it. -/
def Fill.reportFor (fill : Fill) (account : AccountId) : ExecReport :=
  if account = fill.aggressorAccountId then
    .filled fill.aggressorOrderId.raw fill.price.raw fill.qty.raw fill.aggressorRemainingQty.raw 1
  else .filled fill.restingOrderId.raw fill.price.raw fill.qty.raw fill.restingRemainingQty.raw 0

namespace Event

/-- If the event is a fill between two accounts, the frame is about the account's
own leg. -/
def NamesOwnOrder (ev : Event) (account : AccountId) (frame : List UInt8) : Prop :=
  ∀ seq fill, ev = .filled seq fill → fill.aggressorAccountId ≠ fill.restingAccountId →
    ExecReport.ofFrame frame = some (fill.reportFor account)

/-- The event is a fill between two accounts, and the account's order was resting. -/
def Makes (ev : Event) (account : AccountId) : Prop :=
  ∃ seq fill, ev = .filled seq fill ∧ fill.aggressorAccountId ≠ fill.restingAccountId ∧ fill.restingAccountId = account

end Event

/-! ## What was sent and received -/

namespace Gateway

def quoteOfPayload (payload : List UInt8) (offset : Nat) : Option (Price × Qty) :=
  if payload.getD offset 0 = 0 then none
  else some (⟨(u64OfLe (slice payload (offset + 1) (offset + 9))).toInt64⟩,
    ⟨u64OfLe (slice payload (offset + 9) (offset + 17))⟩)

/-- The event in a payload: a variant and the variant's fields, little-endian. -/
def MarketDataEvent.ofPayload (payload : List UInt8) : Option MarketDataEvent :=
  let instrumentId : InstrumentId := ⟨u64OfLe (slice payload 1 9)⟩
  match payload.head?, payload.length with
  | some 0, 43 => some (.topOfBook instrumentId (quoteOfPayload payload 9) (quoteOfPayload payload 26))
  | some 1, 26 => some (.trade instrumentId ⟨(u64OfLe (slice payload 9 17)).toInt64⟩ ⟨u64OfLe (slice payload 17 25)⟩
      (if payload.getD 25 0 = 0 then .buy else .sell))
  | some 2, 10 => some (.haltStatus instrumentId (payload.getD 9 0 ≠ 0))
  | _, _ => none

/-- All that was sent on the channel of an instrument. -/
def MarketDataHub.sentOn {T : Tokio} (hub : MarketDataHub T) (x : InstrumentId) : Option (List MarketDataEvent) :=
  (hub.channels x).map T.sent

/-- The frame is a report or market data, and can be read. -/
def Frame.Parses (f : Frame) : Prop :=
  f.msgType = MsgType.execReport ∧ (ExecReport.decode f.payload).isSome ∨
    f.msgType = MsgType.marketData ∧ (MarketDataEvent.ofPayload f.payload).isSome

def reportsIn (frames : List Frame) : List (Option ExecReport) :=
  (frames.filter (·.msgType = MsgType.execReport)).map fun f => ExecReport.decode f.payload

/-- The market data of an instrument among some frames. -/
def marketDataIn (instrumentId : InstrumentId) (frames : List Frame) : List MarketDataEvent :=
  ((frames.filter (·.msgType = MsgType.marketData)).filterMap fun f => MarketDataEvent.ofPayload f.payload).filter
    (·.instrumentId = instrumentId)

def reported (acts : List OutAction) : List Event :=
  acts.filterMap fun
    | .report ev => some ev
    | _ => none

/-- The market data that is published for an instrument. -/
def published (instrumentId : InstrumentId) (acts : List OutAction) : List MarketDataEvent :=
  (acts.filterMap fun
    | .publish event => some event
    | _ => none).filter (·.instrumentId = instrumentId)

end Gateway

end MRE
