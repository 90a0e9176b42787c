import MatchRiskEngine.Impl.Wal

/-!
# Bincode

The format of `bincode`: integers little-endian at their full width, an enumeration
as the 32-bit index of its variant and then the variant's fields in order. Decoding
ignores what follows. `BincodeCodec` is a serialiser that keeps to it,
`Bincode.codec` a small one.

The record of an event (`FileWalWriter::append_event`) has a term of zero, and the
format of a command's record, with nothing that tells the two apart.
-/

namespace MRE

namespace Bincode

def Side.index : Side → Nat
  | .buy => 0
  | .sell => 1

def OrderType.index : OrderType → Nat
  | .limit => 0
  | .market => 1

def TimeInForce.index : TimeInForce → Nat
  | .gtc => 0
  | .ioc => 1
  | .fok => 2

def serialise : InboundCommand → List UInt8
  | .newOrder o =>
    leBytes 4 0 ++ leBytes 8 o.account.raw.toNat ++ leBytes 8 o.clientOrderId.raw.toNat ++
      leBytes 2 o.symbol.raw.toNat ++ leBytes 4 (Side.index o.side) ++ leBytes 8 o.price.raw.toUInt64.toNat ++
      leBytes 8 o.qty.raw.toNat ++ leBytes 4 (OrderType.index o.orderType) ++
      leBytes 4 (TimeInForce.index o.timeInForce)
  | .cancel account orderId => leBytes 4 1 ++ leBytes 8 account.raw.toNat ++ leBytes 8 orderId.raw.toNat
  | .liquidate symbol account => leBytes 4 2 ++ leBytes 2 symbol.raw.toNat ++ leBytes 8 account.raw.toNat
  | .freezeAccount account => leBytes 4 3 ++ leBytes 8 account.raw.toNat

/-- A reader of a part of the input. -/
abbrev Get (α : Type) : Type := StateT (List UInt8) Option α

def getNat (n : Nat) : Get Nat := fun bs => if bs.length < n then none else some (ofLeBytes (bs.take n), bs.drop n)

def getU64 : Get UInt64 := do return UInt64.ofNat (← getNat 8)

def getU16 : Get UInt16 := do return UInt16.ofNat (← getNat 2)

/-- The variant with the index that follows. -/
def getIndexed {α : Type} (variants : List α) : Get α := do
  let i ← getNat 4
  fun bs => (variants[i]?).map fun v => (v, bs)

def getFields : Nat → Get InboundCommand
  | 0 => do
    let account ← getU64
    let clientOrderId ← getU64
    let symbol ← getU16
    let side ← getIndexed [Side.buy, Side.sell]
    let price ← getU64
    let qty ← getU64
    let orderType ← getIndexed [OrderType.limit, OrderType.market]
    let timeInForce ← getIndexed [TimeInForce.gtc, TimeInForce.ioc, TimeInForce.fok]
    return .newOrder
      { account := ⟨account⟩, clientOrderId := ⟨clientOrderId⟩, symbol := ⟨symbol⟩, side, price := ⟨price.toInt64⟩
        qty := ⟨qty⟩, orderType, timeInForce }
  | 1 => do
    let account ← getU64
    let orderId ← getU64
    return .cancel ⟨account⟩ ⟨orderId⟩
  | 2 => do
    let symbol ← getU16
    let account ← getU64
    return .liquidate ⟨symbol⟩ ⟨account⟩
  | 3 => do
    let account ← getU64
    return .freezeAccount ⟨account⟩
  | _ => fun _ => none

def getCommand : Get InboundCommand := getNat 4 >>= getFields

def deserialise (bs : List UInt8) : Option InboundCommand := (getCommand bs).map Prod.fst

/-! ## Events -/

def CancelReason.index : CancelReason → Nat
  | .userRequested => 0
  | .timeInForceExpired => 1
  | .riskLimitBreach => 2
  | .instrumentHalted => 3

def RejectReason.index : RejectReason → Nat
  | .riskLimitBreach => 0
  | .instrumentHalted => 1
  | .invalidPrice => 2
  | .invalidQuantity => 3
  | .invalidQty => 4
  | .unknownInstrument => 5
  | .unknownOrder => 6
  | .priceOutOfRange => 7
  | .iocNoMatch => 8
  | .arenaFull => 9
  | .orderNotFound => 10
  | .wrongAccount => 11
  | .fokNotFullyFillable => 12
  | .unsupportedOrderType => 13

def serialisePrice (price : Price) : List UInt8 := leBytes 8 price.raw.toUInt64.toNat

/-- An option: a byte that says whether it is there, and then it. -/
def serialiseOption {α : Type} (f : α → List UInt8) : Option α → List UInt8
  | none => leBytes 1 0
  | some a => leBytes 1 1 ++ f a

def serialiseFill (fill : Fill) : List UInt8 :=
  leBytes 8 fill.instrumentId.raw.toNat ++ leBytes 8 fill.aggressorOrderId.raw.toNat ++
    leBytes 8 fill.aggressorAccountId.raw.toNat ++ leBytes 4 (Side.index fill.aggressorSide) ++
    leBytes 8 fill.restingOrderId.raw.toNat ++ leBytes 8 fill.restingAccountId.raw.toNat ++
    serialisePrice fill.price ++ leBytes 8 fill.qty.raw.toNat ++ leBytes 8 fill.restingRemainingQty.raw.toNat ++
    leBytes 8 fill.aggressorRemainingQty.raw.toNat

def serialiseEvent : Event → List UInt8
  | .accepted e =>
    leBytes 4 0 ++ leBytes 8 e.seq.raw.toNat ++ leBytes 8 e.instrumentId.raw.toNat ++ leBytes 8 e.orderId.raw.toNat ++
      leBytes 8 e.accountId.raw.toNat ++ leBytes 8 e.clientOrderId.raw.toNat ++ leBytes 4 (Side.index e.side) ++
      serialisePrice e.price ++ leBytes 8 e.qty.raw.toNat
  | .filled seq fill => leBytes 4 1 ++ leBytes 8 seq.raw.toNat ++ serialiseFill fill
  | .canceled e =>
    leBytes 4 2 ++ leBytes 8 e.seq.raw.toNat ++ leBytes 8 e.instrumentId.raw.toNat ++ leBytes 8 e.orderId.raw.toNat ++
      leBytes 8 e.accountId.raw.toNat ++ leBytes 4 (CancelReason.index e.reason) ++ leBytes 8 e.remainingQty.raw.toNat
  | .rejected e =>
    leBytes 4 3 ++ leBytes 8 e.seq.raw.toNat ++ leBytes 8 e.accountId.raw.toNat ++ leBytes 8 e.clientOrderId.raw.toNat ++
      leBytes 4 (RejectReason.index e.reason)
  | .modified e =>
    leBytes 4 4 ++ leBytes 8 e.seq.raw.toNat ++ leBytes 8 e.instrumentId.raw.toNat ++ leBytes 8 e.orderId.raw.toNat ++
      leBytes 8 e.accountId.raw.toNat ++ leBytes 8 e.newQty.raw.toNat ++ serialiseOption serialisePrice e.newPrice
  | .instrumentHalted seq instrumentId => leBytes 4 5 ++ leBytes 8 seq.raw.toNat ++ leBytes 8 instrumentId.raw.toNat
  | .instrumentResumed seq instrumentId => leBytes 4 6 ++ leBytes 8 seq.raw.toNat ++ leBytes 8 instrumentId.raw.toNat

/-! ## The round trip -/

theorem getNat_leBytes {n x : Nat} (h : x < 256 ^ n) (bs : List UInt8) :
    getNat n (leBytes n x ++ bs) = some (x, bs) := by
  have hlen : ¬ (leBytes n x ++ bs).length < n := by
    rw [List.length_append, length_leBytes]
    omega
  rw [getNat, if_neg hlen, List.take_left' (length_leBytes n x), List.drop_left' (length_leBytes n x), ofLeBytes_leBytes h]

theorem bind_eq {α β : Type} {x : Get α} {bs bs' : List UInt8} {a : α} (h : x bs = some (a, bs')) (f : α → Get β) :
    (x >>= f) bs = f a bs' := by
  show StateT.bind x f bs = f a bs'
  rw [StateT.bind, h]
  rfl

theorem getU64_leBytes (x : UInt64) (bs : List UInt8) : getU64 (leBytes 8 x.toNat ++ bs) = some (x, bs) := by
  rw [getU64, bind_eq (getNat_leBytes x.toNat_lt bs), UInt64.ofNat_toNat]
  rfl

theorem getU16_leBytes (x : UInt16) (bs : List UInt8) : getU16 (leBytes 2 x.toNat ++ bs) = some (x, bs) := by
  rw [getU16, bind_eq (getNat_leBytes x.toNat_lt bs), UInt16.ofNat_toNat]
  rfl

theorem getIndexed_leBytes {α : Type} {variants : List α} {i : Nat} {v : α} (h : variants[i]? = some v)
    (hi : i < 256 ^ 4) (bs : List UInt8) : getIndexed variants (leBytes 4 i ++ bs) = some (v, bs) := by
  rw [getIndexed, bind_eq (getNat_leBytes hi bs), h, Option.map_some]

theorem getSide_leBytes (side : Side) (bs : List UInt8) :
    getIndexed [Side.buy, Side.sell] (leBytes 4 (Side.index side) ++ bs) = some (side, bs) := by
  cases side <;> exact getIndexed_leBytes rfl (by decide) bs

theorem getOrderType_leBytes (orderType : OrderType) (bs : List UInt8) :
    getIndexed [OrderType.limit, OrderType.market] (leBytes 4 (OrderType.index orderType) ++ bs) =
      some (orderType, bs) := by
  cases orderType <;> exact getIndexed_leBytes rfl (by decide) bs

theorem getTimeInForce_leBytes (timeInForce : TimeInForce) (bs : List UInt8) :
    getIndexed [TimeInForce.gtc, TimeInForce.ioc, TimeInForce.fok] (leBytes 4 (TimeInForce.index timeInForce) ++ bs) =
      some (timeInForce, bs) := by
  cases timeInForce <;> exact getIndexed_leBytes rfl (by decide) bs

theorem getCommand_serialise (cmd : InboundCommand) (bs : List UInt8) :
    getCommand (serialise cmd ++ bs) = some (cmd, bs) := by
  cases cmd with
  | newOrder o =>
    simp only [serialise, List.append_assoc]
    rw [getCommand, bind_eq (getNat_leBytes (by decide) _), getFields, bind_eq (getU64_leBytes _ _),
      bind_eq (getU64_leBytes _ _), bind_eq (getU16_leBytes _ _), bind_eq (getSide_leBytes _ _),
      bind_eq (getU64_leBytes _ _), bind_eq (getU64_leBytes _ _),
      bind_eq (getOrderType_leBytes _ _), bind_eq (getTimeInForce_leBytes _ _), Int64.toInt64_toUInt64]
    rfl
  | cancel account orderId =>
    simp only [serialise, List.append_assoc]
    rw [getCommand, bind_eq (getNat_leBytes (by decide) _), getFields, bind_eq (getU64_leBytes _ _),
      bind_eq (getU64_leBytes _ _)]
    rfl
  | liquidate symbol account =>
    simp only [serialise, List.append_assoc]
    rw [getCommand, bind_eq (getNat_leBytes (by decide) _), getFields, bind_eq (getU16_leBytes _ _),
      bind_eq (getU64_leBytes _ _)]
    rfl
  | freezeAccount account =>
    simp only [serialise, List.append_assoc]
    rw [getCommand, bind_eq (getNat_leBytes (by decide) _), getFields, bind_eq (getU64_leBytes _ _)]
    rfl

theorem length_serialise_le (cmd : InboundCommand) : (serialise cmd).length ≤ 50 := by
  cases cmd <;> simp [serialise]

/-- The format, as the serialiser of a log. -/
def codec : Codec where
  serialise cmd := some (serialise cmd)
  deserialise := deserialise
  deserialise_serialise {cmd bs} h := by
    cases h
    have := getCommand_serialise cmd []
    rw [List.append_nil] at this
    rw [deserialise, this, Option.map_some]
  length_lt {cmd bs} h := by
    cases h
    exact Nat.lt_of_le_of_lt (length_serialise_le cmd) (by decide)

end Bincode

/-- What is relied on of `bincode` where the bytes matter. -/
structure BincodeCodec extends Codec where
  serialiseEvent : Event → Option (List UInt8)
  serialise_eq (cmd : InboundCommand) : serialise cmd = some (Bincode.serialise cmd)
  deserialise_eq (bs : List UInt8) : deserialise bs = Bincode.deserialise bs
  serialiseEvent_eq (ev : Event) : serialiseEvent ev = some (Bincode.serialiseEvent ev)

def Bincode.format : BincodeCodec where
  toCodec := codec
  serialiseEvent ev := some (serialiseEvent ev)
  serialise_eq _ := rfl
  deserialise_eq _ := rfl
  serialiseEvent_eq _ := rfl

def Wal.FileWalWriter.appendEvent (bincode : BincodeCodec) (crc32 : Checksum) (w : FileWalWriter) (ev : Event)
    (nowNs : UInt64) : FileWalWriter × Except WalError Unit :=
  match bincode.serialiseEvent ev with
  | none => (w, .error .serialise)
  | some payload =>
    let (w, result) := w.writeRecord crc32 ev.seq.raw 0 nowNs payload
    (w, result.map fun _ => ())

end MRE
