import MatchRiskEngine.Impl.OrderBook

/-!
# The unchecked arithmetic of the order book

The additions and subtractions on quantities that `OrderBook::apply` executes
with `+` and `-`, in their order: of `total_qty` in `push_back`, `remove` and
`fill_head`, and of the quantities left in `fill_head` and
`match_against_book`. Each function here follows the control flow of the one it
is named after; the states it passes through are those of that function.
(`can_fully_fill` subtracts with `saturating_sub` only.)
-/

namespace MRE

open SlotMap

/-- An unchecked operation on two quantities. -/
inductive QtyOp where
  | add (x y : Qty)
  | sub (x y : Qty)
  deriving DecidableEq, Repr

namespace PriceLevel

variable {M K : Type} [DecidableEq K] [Arena M K]

def pushBackOps (l : PriceLevel K) (key : K) (arena : M) : List QtyOp :=
  match get? arena key with
  | none => []
  | some order => [.add l.totalQty order.qtyRemaining]

def removeOps (l : PriceLevel K) (key : K) (arena : M) : List QtyOp :=
  match get? arena key with
  | none => []
  | some order => [.sub l.totalQty order.qtyRemaining]

def fillHeadOps (l : PriceLevel K) (fillQty : Qty) (arena : M) : List QtyOp :=
  match l.head.bind (get? arena) with
  | none => []
  | some order => [.sub order.qtyRemaining fillQty, .sub l.totalQty fillQty]

end PriceLevel

namespace OrderBook

variable {M K : Type} [DecidableEq K] [Arena M K]

/-- The operations of one pass through the body of the matching loop. -/
def matchStepOps (a : Aggressor) : MatchState M K → List QtyOp
  | (b, qty, _) =>
    if qty.raw = 0 then []
    else
      match b.bestOpposite a with
      | none => []
      | some (_, false) => []
      | some (bestIdx, true) =>
        match (b.ladder a.side.opposite)[bestIdx]? with
        | none => []
        | some none => []
        | some (some level) =>
          match level.peekHead with
          | none => []
          | some makerKey =>
            match get? b.arena makerKey with
            | none => []
            | some maker =>
              if maker.account = a.account then level.removeOps makerKey b.arena
              else
                let makerQty := maker.qtyRemaining
                let fillQty := if qty.raw < makerQty.raw then qty else makerQty
                level.fillHeadOps fillQty b.arena ++ [.sub qty fillQty, .sub makerQty fillQty]

def matchLoopOps (a : Aggressor) : Nat → MatchState M K → List QtyOp
  | 0, _ => []
  | n + 1, st => matchStepOps a st ++
      match matchStep a st with
      | some (true, st) => matchLoopOps a n st
      | _ => []

def matchAgainstBookOps (b : OrderBook M K) (a : Aggressor) (qty : Qty) : List QtyOp :=
  matchLoopOps a (len b.arena + 1) (b, qty, [])

def restRemainderOps (b : OrderBook M K) (seq : UInt64) (o : InboundNewOrder) (priceIdx : Nat) (qtyRemaining : Qty) :
    List QtyOp :=
  if capacity b.arena ≤ len b.arena then []
  else
    let (key, arena) := SlotMap.insert b.arena (RestingOrder.new ⟨seq⟩ o.account qtyRemaining o.side o.price seq)
    match (b.ladder o.side)[priceIdx]? with
    | none => []
    | some slot => (slot.getD (PriceLevel.new o.price)).pushBackOps key arena

def applyNewOrderOps (b : OrderBook M K) (seq tsNs : UInt64) (o : InboundNewOrder) : List QtyOp :=
  if o.qty.raw ≤ 0 then []
  else
    match if o.orderType = .limit then b.priceToIdx o.price else some 0 with
    | none => []
    | some priceIdx =>
      match if o.timeInForce = .fok
        then b.canFullyFill o.side o.price o.qty o.account o.orderType else some true with
      | some true =>
        let a : Aggressor :=
          { seq, tsNs, symbol := o.symbol, side := o.side, price := o.price, orderId := ⟨seq⟩
            account := o.account, orderType := o.orderType }
        b.matchAgainstBookOps a o.qty ++
          match b.matchAgainstBook a o.qty with
          | none => []
          | some (b, qtyRemaining, _) =>
            if qtyRemaining.raw = 0 then []
            else if o.timeInForce = .ioc ∨ o.timeInForce = .fok ∨ o.orderType = .market then []
            else b.restRemainderOps seq o priceIdx qtyRemaining
      | _ => []

def applyCancelOps (b : OrderBook M K) (account : AccountId) (orderId : OrderId) : List QtyOp :=
  match b.idToKey orderId with
  | none => []
  | some key =>
    match get? b.arena key with
    | none => []
    | some order =>
      if order.account ≠ account then []
      else
        match b.priceToIdx order.price with
        | none => []
        | some priceIdx =>
          match (b.ladder order.side)[priceIdx]? with
          | some (some level) => level.removeOps key b.arena
          | _ => []

def applyOps (b : OrderBook M K) (cmd : SequencedCommand) : List QtyOp :=
  match cmd.cmd with
  | .newOrder o => b.applyNewOrderOps cmd.seq cmd.tsNs o
  | .cancel account orderId => b.applyCancelOps account orderId
  | .liquidate _ _ => []
  | .freezeAccount _ => []

end OrderBook

end MRE
