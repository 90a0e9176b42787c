import Mathlib.Data.List.AList
import MatchRiskEngine.Framework.MachineInt
import MatchRiskEngine.Impl.CoreTypes

/-!
# The risk engine

The `risk-engine` crate: positions (`Position.applyFill`), the risk shard that
follows the trades of its accounts, recomputes their margin and asks for
liquidations (`RiskShard.processEvent`), and the check of the gateway
(`Tier0.check`).

As in a release build `+`, `-`, `*` and `abs` wrap. A product of two 64-bit values
fits in 128 bits and is an `Int`; where a 128-bit sum can overflow it wraps
(`Int.bmod`). `none` is a panic. The map of positions is iterated in any order
(`IterOrder`).
-/

namespace MRE

/-! ## Positions -/

structure Position where
  netQty : Int64
  avgEntryPrice : Int64
  realisedPnl : Int64
  deriving DecidableEq, Repr

namespace Position

def default : Position := { netQty := 0, avgEntryPrice := 0, realisedPnl := 0 }

def applyFill (p : Position) (side : Side) (price : Price) (qty : Qty) : Option Position :=
  let signedQty : Int64 := match side with
    | .buy => qty.raw.toInt64
    | .sell => -qty.raw.toInt64
  let prevQty := p.netQty
  let newQty := prevQty + signedQty
  if prevQty = 0 then some { p with avgEntryPrice := price.raw, netQty := newQty }
  else if decide (0 < prevQty) = decide (0 < signedQty) then
    let numerator := (p.avgEntryPrice.toInt * prevQty.abs.toInt + price.raw.toInt * qty.raw.toNat).bmod (2 ^ 128)
    -- division by zero
    if newQty.abs = 0 then none
    else some { p with avgEntryPrice := Int64.ofInt (numerator.tdiv newQty.abs.toInt), netQty := newQty }
  else
    let closeQty := min signedQty.abs prevQty.abs
    let direction : Int64 := if 0 < prevQty then 1 else -1
    let pnlPerUnit := (price.raw - p.avgEntryPrice) * direction
    let pnlDelta := Int64.ofInt ((pnlPerUnit.toInt * closeQty.toInt).tdiv 100000000)
    some
      { netQty := newQty
        avgEntryPrice :=
          if newQty = 0 then 0
          else if decide (0 < newQty) ≠ decide (0 < prevQty) then price.raw
          else p.avgEntryPrice
        realisedPnl := p.realisedPnl.saturatingAdd pnlDelta }

def unrealisedPnl (p : Position) (markPrice : Price) : Int64 :=
  if p.netQty = 0 then 0
  else
    let direction : Int64 := if 0 < p.netQty then 1 else -1
    let diff := (markPrice.raw - p.avgEntryPrice).toInt
    let qty := p.netQty.abs.toInt
    Int64.ofInt ((diff * qty).tdiv 100000000) * direction

def notional (p : Position) (markPrice : Price) : Int64 :=
  Int64.ofInt ((markPrice.raw.toInt * p.netQty.abs.toInt).tdiv 100000000)

end Position

/-! ## Limits -/

/-- The limits of `config.rs`; fractions are in millionths. -/
structure RiskLimits where
  maxOrderNotional : Int64
  maxPositionQty : Int64
  maxUnrealisedLoss : Int64
  initialMarginFraction : Int64
  maintenanceMarginFraction : Int64
  deriving DecidableEq, Repr

def RiskLimits.default : RiskLimits :=
  { maxOrderNotional := 10000000000
    maxPositionQty := 10000000000
    maxUnrealisedLoss := 1000000000
    initialMarginFraction := 100000
    maintenanceMarginFraction := 50000 }

inductive RejectionReason where
  | notionalTooLarge
  | invalidQty
  | invalidPrice
  | positionLimitExceeded
  | insufficientMargin
  | accountFrozen
  deriving DecidableEq, Repr

/-! ## The gateway's check -/

namespace Tier0

def orderCheck (price : Price) (qty : Qty) (limits : RiskLimits) : Except RejectionReason Unit :=
  let qtyI := qty.raw.toInt64
  let notional := price.raw.saturatingMul qtyI / 100000000
  if limits.maxOrderNotional < notional then .error .notionalTooLarge
  else if qty.raw = 0 then .error .invalidQty
  else if price.raw ≤ 0 then .error .invalidPrice
  else .ok ()

def check (snapshot : AccountRiskState) (limits : RiskLimits) (price : Price) (qty : Qty) :
    Except RejectionReason Unit := do
  if snapshot.frozen then throw .accountFrozen
  orderCheck price qty limits
  let qtyI := qty.raw.toInt64
  let orderNotional := price.raw.saturatingMul qtyI / 100000000
  let requiredMargin := orderNotional.saturatingMul limits.initialMarginFraction / 1000000
  let availableMargin := snapshot.balance.saturatingSub snapshot.usedMargin
  if availableMargin < requiredMargin then throw .insufficientMargin

end Tier0

/-! ## The risk shard -/

/-- A position of an account in a symbol. -/
abbrev Positions : Type := AList fun _ : AccountId × Symbol => Position

abbrev Positions.Entry : Type := Sigma fun _ : AccountId × Symbol => Position

/-- The order in which a map's entries are iterated. -/
structure IterOrder where
  order : List Positions.Entry → List Positions.Entry
  perm (es : List Positions.Entry) : (order es).Perm es

/-- The accounts `ownedStart .. ownedEnd` and their positions. -/
structure RiskShard where
  ownedStart : UInt64
  ownedEnd : UInt64
  positions : Positions
  states : AccountRiskTable
  initialDeposits : List Int64
  limits : RiskLimits
  length_deposits : initialDeposits.length = ownedEnd.toNat - ownedStart.toNat

abbrev MarkPrices : Type := Symbol → Option Price

namespace RiskShard

def new (ownedStart ownedEnd : UInt64) (limits : RiskLimits) (states : AccountRiskTable) : RiskShard where
  ownedStart := ownedStart
  ownedEnd := ownedEnd
  positions := ∅
  states := states
  initialDeposits := List.replicate (ownedEnd.toNat - ownedStart.toNat) 0
  limits := limits
  length_deposits := List.length_replicate

def owns (shard : RiskShard) (account : AccountId) : Bool :=
  decide (shard.ownedStart ≤ account.raw ∧ account.raw < shard.ownedEnd)

def localIdx (shard : RiskShard) (account : AccountId) : Nat := (account.raw - shard.ownedStart).toNat

theorem length_set_deposits (shard : RiskShard) (i : Nat) (amount : Int64) :
    (shard.initialDeposits.set i amount).length = shard.ownedEnd.toNat - shard.ownedStart.toNat := by
  rw [List.length_set]
  exact shard.length_deposits

def seedDeposit (shard : RiskShard) (account : AccountId) (amount : Int64) : Option RiskShard := do
  let local_ := shard.localIdx account
  if shard.initialDeposits.length ≤ local_ then none
  else
    let s ← shard.states.get account
    some
      { shard with
        initialDeposits := shard.initialDeposits.set local_ amount
        states := shard.states.set account.raw.toNat { s with balance := amount, usedMargin := 0 }
        length_deposits := shard.length_set_deposits local_ amount }

/-- One position's part in `recomputeMargin`. -/
def addPosition (shard : RiskShard) (markPrices : MarkPrices) (sums : Int64 × Int64) (e : Positions.Entry) :
    Int64 × Int64 :=
  let pos := e.2
  let balance := sums.1.saturatingAdd pos.realisedPnl
  if pos.netQty = 0 then (balance, sums.2)
  else
    let mark := (markPrices e.1.2).getD ⟨pos.avgEntryPrice⟩
    let balance := balance.saturatingAdd (pos.unrealisedPnl mark)
    let marginRequired := (pos.notional mark).saturatingMul shard.limits.maintenanceMarginFraction / 1000000
    (balance, sums.2.saturatingAdd marginRequired)

def recomputeMargin (shard : RiskShard) (iter : IterOrder) (account : AccountId) (markPrices : MarkPrices) :
    Option (Int64 × Int64) := do
  let deposit ← shard.initialDeposits[shard.localIdx account]?
  some ((iter.order shard.positions.entries).foldl
    (fun sums e => if e.1.1 = account then shard.addPosition markPrices sums e else sums) (deposit, 0))

/-- The part of `processEvent` for one side of a trade. -/
def settle (shard : RiskShard) (iter : IterOrder) (t : EngineEvent.Trade) (markPrices : MarkPrices) (acct : AccountId)
    (side : Side) : Option (RiskShard × List InboundCommand) :=
  if shard.owns acct = false then some (shard, [])
  else do
    let pos ← ((shard.positions.lookup (acct, t.symbol)).getD .default).applyFill side t.price t.qty
    let shard := { shard with positions := shard.positions.insert (acct, t.symbol) pos }
    let (balance, usedMargin) ← shard.recomputeMargin iter acct markPrices
    let s ← shard.states.get acct
    let breach := decide (balance < usedMargin)
    some
      ({ shard with
          states := shard.states.set acct.raw.toNat { s with balance, usedMargin, frozen := s.frozen || breach } },
        if breach then [.liquidate t.symbol acct] else [])

/-- What an event makes of the shard, and the liquidations it asks for. -/
def processEvent (shard : RiskShard) (iter : IterOrder) (markPrices : MarkPrices) :
    EngineEvent → Option (RiskShard × List InboundCommand)
  | .trade t => do
    let (shard, cmds) ← shard.settle iter t markPrices t.makerAcct t.makerSide
    let (shard, cmds') ← shard.settle iter t markPrices t.takerAcct t.makerSide.opposite
    some (shard, cmds ++ cmds')
  | _ => some (shard, [])

/-! ## The shard loop -/

/-- An event of `run_risk_shard`, with the marks and the order of the positions
at the time. -/
structure Input where
  event : EngineEvent
  markPrices : MarkPrices
  iter : IterOrder

def seedDeposits (shard : RiskShard) (deposits : List (AccountId × Int64)) : Option RiskShard :=
  deposits.foldlM (fun shard d => shard.seedDeposit d.1 d.2) shard

def run : RiskShard → List Input → Option (RiskShard × List InboundCommand)
  | shard, [] => some (shard, [])
  | shard, i :: inputs => do
    let (shard, cmds) ← shard.processEvent i.iter i.markPrices i.event
    let (shard, cmds') ← run shard inputs
    some (shard, cmds ++ cmds')

end RiskShard

end MRE
