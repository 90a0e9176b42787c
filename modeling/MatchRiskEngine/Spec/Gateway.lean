import MatchRiskEngine.Framework.Incremental
import MatchRiskEngine.Impl.Gateway

/-!
# Streams of frames

What a well-formed inbound stream is: the bytes of a frame (`Frame.bytes`), the
frames that carry a command (`Carries`), and the frame that opens a connection
(`authFrame`). `Codec.encodeAll` writes messages one after the other.

The documented layout of a `NEW_ORDER` payload: its grammar (`IsNewOrder`), and
the bytes of an order (`encodeNewOrder`). All integers are little-endian.
-/

namespace MRE

namespace Gateway

namespace Frame

def bytes (f : Frame) : List UInt8 := leU32 (UInt32.ofNat (1 + f.payload.length)) ++ f.msgType :: f.payload

/-- The length of the frame is within the limit. -/
def Fits (f : Frame) : Prop := 1 + f.payload.length ≤ Codec.maxFrameLen.toNat

instance (f : Frame) : Decidable f.Fits := inferInstanceAs (Decidable (_ ≤ _))

end Frame

/-- A valid `NEW_ORDER` or `CANCEL_ORDER` frame of an account, and its
command. -/
inductive Carries (account : AccountId) (f : Frame) (cmd : InboundCommand) : Prop where
  | newOrder {o : NewOrder} (type : f.msgType = MsgType.newOrder) (decoded : decodeNewOrder account f.payload = .ok o)
      (converted : InboundCommand.tryFrom (.new o) = .ok cmd)
  | cancelOrder {o : CancelOrder} (type : f.msgType = MsgType.cancelOrder)
      (decoded : decodeCancelOrder account f.payload = .ok o)
      (converted : InboundCommand.tryFrom (.cancel o) = .ok cmd)

/-- The instrument in the payload of a `NEW_ORDER` frame. -/
def instrumentOf (payload : List UInt8) : InstrumentId := ⟨u64OfLe (slice payload 8 16)⟩

/-- The frame that opens a connection; its type is not looked at. -/
def authFrame (type : UInt8) (account : AccountId) : Frame := { msgType := type, payload := leU64 account.raw }

/-- The bytes of some messages, each a type and a payload. -/
def Codec.encodeAll (msgs : List (UInt8 × List UInt8)) : Except CodecError (List UInt8) :=
  msgs.foldlM (fun out m => Codec.encode m.1 m.2 out) []

/-- No complete frame is at the front of the buffer. -/
def Incomplete (buf : List UInt8) : Prop := Codec.decode buf = (.ok none, buf)

/-- How many of the frames after the opening one are complete in the first `n`
bytes. -/
def ordersIn (auth : Frame) (frames : List Frame) (n : Nat) : Nat :=
  completeIn (frames.map Frame.bytes) (n - auth.bytes.length)

/-! ## The layout of an order -/

def sideByte : Side → UInt8
  | .buy => 0
  | .sell => 1

def orderTypeByte : OrderType → UInt8
  | .limit => 0
  | .market => 1

def timeInForceByte : TimeInForce → UInt8
  | .gtc => 0
  | .ioc => 1
  | .fok => 2

/-- The payload of an order. The account is not part of it. -/
def encodeNewOrder (o : NewOrder) : List UInt8 :=
  leU64 o.clientOrderId.raw ++ (leU64 o.instrumentId.raw ++ (sideByte o.side :: orderTypeByte o.orderType ::
    (leU64 o.price.raw.toUInt64 ++ (leU64 o.qty.raw ++ [timeInForceByte o.timeInForce]))))

/-- The bytes that are the payload of an order. -/
structure IsNewOrder (payload : List UInt8) : Prop where
  length : payload.length = 35
  side : payload[16]? = some 0 ∨ payload[16]? = some 1
  orderType : payload[17]? = some 0 ∨ payload[17]? = some 1
  timeInForce : payload[34]? = some 0 ∨ payload[34]? = some 1 ∨ payload[34]? = some 2
  /-- The quantity's bytes are not all zero. -/
  qty : ∃ b ∈ slice payload 26 34, b ≠ 0

end Gateway

/-- The command to the engines has every field of the order. -/
structure InboundNewOrder.SameFields (cmd : InboundNewOrder) (o : NewOrder) : Prop where
  account : cmd.account = o.accountId
  clientOrderId : cmd.clientOrderId = o.clientOrderId
  instrument : cmd.symbol.raw.toNat = o.instrumentId.raw.toNat
  side : cmd.side = o.side
  price : cmd.price = o.price
  qty : cmd.qty = o.qty
  orderType : cmd.orderType = o.orderType
  timeInForce : cmd.timeInForce = o.timeInForce

end MRE
