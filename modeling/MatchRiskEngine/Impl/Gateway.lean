import MatchRiskEngine.Framework.Bytes
import MatchRiskEngine.Impl.CoreTypes

/-!
# The gateway

The inbound side of the `gateway` crate: the framing of the wire protocol
(`Codec`), the interpretation of frames (`Session`), and the loop that serves
a connection (`handleConnection`).

A connection is given by the chunks that its reads return one after the other,
after which the peer has closed it. The queue to the sequencer is given by the
commands pushed to it so far, and a test `full` of whether it has no room at
that point. Outbound frames are taken by the writer task.
-/

namespace MRE.Gateway

/-! ## Framing -/

inductive CodecError where
  | frameTooLarge (len : UInt32)
  | frameTooShort
  | unknownMessageType (tag : UInt8)
  deriving DecidableEq, Repr

structure Frame where
  msgType : UInt8
  payload : List UInt8
  deriving DecidableEq, Repr

namespace Codec

def headerLen : Nat := 4

def maxFrameLen : UInt32 := 64 * 1024

/-- The frame at the front of the buffer if it is complete, and the buffer
after it. -/
def decode (buf : List UInt8) : Except CodecError (Option Frame) × List UInt8 :=
  if buf.length < headerLen then (.ok none, buf)
  else
    let len := u32OfLe (buf.take headerLen)
    if len = 0 then (.error .frameTooShort, buf)
    else if maxFrameLen < len then (.error (.frameTooLarge len), buf)
    else
      let totalLen := headerLen + len.toNat
      if buf.length < totalLen then (.ok none, buf)
      else
        match (buf.drop headerLen).take len.toNat with
        | [] => (.error .frameTooShort, buf.drop totalLen)
        | msgType :: payload => (.ok (some { msgType, payload }), buf.drop totalLen)

def encode (msgType : UInt8) (payload out : List UInt8) : Except CodecError (List UInt8) :=
  -- the length is cut off at 32 bits
  let payloadLen := UInt32.ofNat payload.length
  if 2 ^ 32 ≤ 1 + payloadLen.toNat then .error (.frameTooLarge 0xFFFFFFFF)
  else
    let len := 1 + payloadLen
    if maxFrameLen < len then .error (.frameTooLarge len)
    else .ok (out ++ leU32 len ++ [msgType] ++ payload)

end Codec

/-! ## Sessions -/

namespace MsgType

def newOrder : UInt8 := 0x01

def cancelOrder : UInt8 := 0x02

def subscribeMd : UInt8 := 0x03

def unsubscribeMd : UInt8 := 0x04

end MsgType

inductive SessionError where
  | codec (e : CodecError)
  | malformedPayload (msgType : UInt8) (reason : String)
  | queueFull
  | unsupportedCommand (e : CommandConversionError)
  deriving DecidableEq, Repr

/-- What a session asks of the loop that serves it. -/
inductive SessionAction where
  | writeFrame (frame : List UInt8)
  | close
  deriving DecidableEq, Repr

structure Session where
  accountId : AccountId
  /-- The commands pushed to the queue, the first one first. -/
  cmdProducer : List InboundCommand
  subscriptions : List InstrumentId
  deriving DecidableEq, Repr

def decodeSide : UInt8 → Option Side
  | 0 => some .buy
  | 1 => some .sell
  | _ => none

def decodeTimeInForce : UInt8 → Option TimeInForce
  | 0 => some .gtc
  | 1 => some .ioc
  | 2 => some .fok
  | _ => none

def decodeOrderType : UInt8 → Option OrderType
  | 0 => some .limit
  | 1 => some .market
  | _ => none

def decodeNewOrder (accountId : AccountId) (payload : List UInt8) : Except SessionError NewOrder :=
  let malformed (reason : String) : Except SessionError NewOrder := .error (.malformedPayload MsgType.newOrder reason)
  if payload.length ≠ 35 then malformed "unexpected payload length"
  else
    let clientOrderId : ClientOrderId := ⟨u64OfLe (slice payload 0 8)⟩
    let instrumentId : InstrumentId := ⟨u64OfLe (slice payload 8 16)⟩
    match decodeSide (payload.getD 16 0) with
    | none => malformed "invalid side"
    | some side =>
      let orderTypeTag := payload.getD 17 0
      let price : Price := ⟨(u64OfLe (slice payload 18 26)).toInt64⟩
      let qty : Qty := ⟨u64OfLe (slice payload 26 34)⟩
      match decodeTimeInForce (payload.getD 34 0) with
      | none => malformed "invalid time_in_force"
      | some timeInForce =>
        match decodeOrderType orderTypeTag with
        | none => malformed "invalid order_type"
        | some orderType =>
          if qty.raw = 0 then malformed "qty must be > 0"
          else .ok { accountId, instrumentId, clientOrderId, side, price, orderType, qty, timeInForce }

def decodeCancelOrder (accountId : AccountId) (payload : List UInt8) : Except SessionError CancelOrder :=
  if payload.length ≠ 16 then .error (.malformedPayload MsgType.cancelOrder "unexpected payload length")
  else .ok
    { accountId, instrumentId := ⟨u64OfLe (slice payload 0 8)⟩, orderId := ⟨u64OfLe (slice payload 8 16)⟩ }

def decodeInstrumentId (payload : List UInt8) : Except SessionError InstrumentId :=
  if payload.length ≠ 8 then .error (.malformedPayload MsgType.subscribeMd "unexpected payload length")
  else .ok ⟨u64OfLe payload⟩

namespace Session

def new (accountId : AccountId) : Session := { accountId, cmdProducer := [], subscriptions := [] }

variable (full : List InboundCommand → Bool)

def enqueue (s : Session) (cmd : Command) : Except SessionError Session :=
  match InboundCommand.tryFrom cmd with
  | .error e => .error (.unsupportedCommand e)
  | .ok inbound =>
    if full s.cmdProducer then .error .queueFull
    else .ok { s with cmdProducer := s.cmdProducer ++ [inbound] }

def dispatchFrame (s : Session) (frame : Frame) : Except SessionError (Session × Option SessionAction) :=
  if frame.msgType = MsgType.newOrder then do
    let cmd ← decodeNewOrder s.accountId frame.payload
    let s ← s.enqueue full (.new cmd)
    return (s, none)
  else if frame.msgType = MsgType.cancelOrder then do
    let cmd ← decodeCancelOrder s.accountId frame.payload
    let s ← s.enqueue full (.cancel cmd)
    return (s, none)
  else if frame.msgType = MsgType.subscribeMd then do
    let instrumentId ← decodeInstrumentId frame.payload
    return ({ s with subscriptions := s.subscriptions.insert instrumentId }, none)
  else if frame.msgType = MsgType.unsubscribeMd then do
    let instrumentId ← decodeInstrumentId frame.payload
    return ({ s with subscriptions := s.subscriptions.erase instrumentId }, none)
  else .error (.malformedPayload frame.msgType "unknown inbound message type")

/-- Dispatch the frame at the front of the buffer, if it is complete. -/
def handleInbound (s : Session) (buf : List UInt8) :
    Except SessionError (Session × List UInt8 × Option SessionAction) :=
  match Codec.decode buf with
  | (.error e, _) => .error (.codec e)
  | (.ok none, buf) => .ok (s, buf, none)
  | (.ok (some frame), buf) => do
    let (s, action) ← s.dispatchFrame full frame
    return (s, buf, action)

end Session

/-! ## Connections -/

inductive IoError where
  | codec (e : CodecError)
  | invalidData (message : String)
  | unexpectedEof (message : String)
  deriving DecidableEq, Repr

/-- The account of the first frame, what the buffer holds after it, and the
chunks not read. -/
def readAuthFrame (buf : List UInt8) (chunks : List (List UInt8)) :
    Except IoError (AccountId × List UInt8 × List (List UInt8)) :=
  match Codec.decode buf with
  | (.error e, _) => .error (.codec e)
  | (.ok (some frame), buf) =>
    if frame.payload.length ≠ 8 then .error (.invalidData "auth payload must be 8 bytes")
    else .ok (⟨u64OfLe frame.payload⟩, buf, chunks)
  | (.ok none, buf) =>
    match chunks with
    | [] => .error (.unexpectedEof "connection closed during auth")
    | chunk :: rest =>
      if chunk = [] then .error (.unexpectedEof "connection closed during auth")
      else readAuthFrame (buf ++ chunk) rest

structure Connection where
  session : Session
  readBuf : List UInt8
  /-- Frames handed to the writer task. -/
  outbox : List (List UInt8)
  /-- History: what the buffer held at each read of the socket by the loop. -/
  reads : List (List UInt8)
  deriving DecidableEq, Repr

namespace Connection

variable (full : List InboundCommand → Bool)

/-- The inner loop, for at most so many iterations; `false` if the connection
is to be closed. -/
def drain : Nat → Connection → Connection × Bool
  | 0, c => (c, true)
  | fuel + 1, c =>
    match c.session.handleInbound full c.readBuf with
    | .ok (session, readBuf, some (.writeFrame frame)) =>
      drain fuel { c with session, readBuf, outbox := c.outbox ++ [frame] }
    | .ok (session, readBuf, some .close) => ({ c with session, readBuf }, false)
    -- no complete frame, or one that has been dispatched
    | .ok (session, readBuf, none) => ({ c with session, readBuf }, true)
    | .error _ => (c, false)

/-- The loop that serves a connection. A frame has five bytes or more, which
bounds the inner loop. -/
def serve (c : Connection) (chunks : List (List UInt8)) : Connection :=
  match drain full (c.readBuf.length + 1) c with
  | (c, false) => c
  | (c, true) =>
    let c := { c with reads := c.reads ++ [c.readBuf] }
    match chunks with
    | [] => c
    | chunk :: rest => if chunk = [] then c else serve { c with readBuf := c.readBuf ++ chunk } rest

end Connection

def handleConnection (full : List InboundCommand → Bool) (chunks : List (List UInt8)) : Except IoError Connection := do
  let (accountId, readBuf, rest) ← readAuthFrame [] chunks
  return Connection.serve full { session := Session.new accountId, readBuf, outbox := [], reads := [] } rest

end MRE.Gateway
