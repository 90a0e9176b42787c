import Mathlib.Tactic.MkIffOfInductiveProp
import MatchRiskEngine.Framework.CostBasis
import MatchRiskEngine.Framework.Ledger
import MatchRiskEngine.Spec.Margin

/-!
# Fills and cash

The positions that fills lead to (`Position.trail`), what is received and paid for
them (`Position.cashFlow`), and fills for which every signed 64-bit number that is
computed is the exact one (`Position.FillsExact`). A fill is to store
`Position.filled`, if its numbers are `Position.Representable`. A profit that is
computed from a number that wrapped (`Position.WrapsPnl`) may be wrong nevertheless.

A trade moves its quantity from one account to the other (`EngineEvent.moves`), and
several shards process the same trades (`RiskShard.Processes`).
-/

namespace MRE.Position

structure Fill where
  side : Side
  price : Price
  qty : Qty
  deriving DecidableEq, Repr

/-- Positive for a buy, negative for a sell. -/
def Fill.signedQty (f : Fill) : Int :=
  match f.side with
  | .buy => f.qty.raw.toNat
  | .sell => -f.qty.raw.toNat

def trail : Position → List Fill → Option (List Position)
  | _, [] => some []
  | p, f :: fs => do
    let p ← p.applyFill f.side f.price f.qty
    let rest ← trail p fs
    some (p :: rest)

def cashFlow (fs : List Fill) : Int := (fs.map fun f => -f.signedQty * f.price.raw.toInt).sum

/-- The position over unbounded integers. -/
def exact (p : Position) : CostBasis :=
  { net := p.netQty.toInt, avg := p.avgEntryPrice.toInt, pnl := p.realisedPnl.toInt }

/-- The numbers of a fill that increases the position. -/
@[mk_iff]
structure IncreaseExact (p : Position) (f : Fill) : Prop where
  prevQtyAbs : Int64.Fits p.netQty.toInt.natAbs
  newQtyAbs : Int64.Fits (p.netQty.toInt + f.signedQty).natAbs
  avgEntryPrice : Int64.Fits ((p.avgEntryPrice.toInt * p.netQty.toInt.natAbs +
    f.price.raw.toInt * f.signedQty.natAbs).tdiv (p.netQty.toInt + f.signedQty).natAbs)

/-- The profit per unit that a fill closes. -/
def pnlPerUnit (p : Position) (f : Fill) : Int := (f.price.raw.toInt - p.avgEntryPrice.toInt) * p.netQty.toInt.sign

def pnlDelta (p : Position) (f : Fill) : Int :=
  (p.pnlPerUnit f * (min f.signedQty.natAbs p.netQty.toInt.natAbs : Nat)).tdiv 100000000

/-- The numbers of a fill that reduces, closes or flips the position. -/
@[mk_iff]
structure ReduceExact (p : Position) (f : Fill) : Prop where
  signedQtyAbs : Int64.Fits f.signedQty.natAbs
  prevQtyAbs : Int64.Fits p.netQty.toInt.natAbs
  difference : Int64.Fits (f.price.raw.toInt - p.avgEntryPrice.toInt)
  pnlPerUnit : Int64.Fits (p.pnlPerUnit f)
  pnlDelta : Int64.Fits (p.pnlDelta f)
  realisedPnl : Int64.Fits (p.realisedPnl.toInt + p.pnlDelta f)

/-- No signed 64-bit number overflows, wraps or saturates. -/
@[mk_iff]
structure FillExact (p : Position) (f : Fill) : Prop where
  qty : Int64.Fits f.qty.raw.toNat
  signedQty : Int64.Fits f.signedQty
  newQty : Int64.Fits (p.netQty.toInt + f.signedQty)
  increase : p.netQty.toInt ≠ 0 → (0 < p.netQty.toInt ↔ 0 < f.signedQty) → p.IncreaseExact f
  reduce : p.netQty.toInt ≠ 0 → ¬ (0 < p.netQty.toInt ↔ 0 < f.signedQty) → p.ReduceExact f

instance (p : Position) (f : Fill) : Decidable (p.IncreaseExact f) := decidable_of_iff' _ (increaseExact_iff p f)

instance (p : Position) (f : Fill) : Decidable (p.ReduceExact f) := decidable_of_iff' _ (reduceExact_iff p f)

instance (p : Position) (f : Fill) : Decidable (p.FillExact f) := decidable_of_iff' _ (fillExact_iff p f)

/-- Every fill is exact in the position that it finds. -/
def FillsExact : Position → List Fill → Prop
  | _, [] => True
  | p, f :: fs => p.FillExact f ∧ ∀ p' ∈ p.applyFill f.side f.price f.qty, FillsExact p' fs

instance decidableFillsExact : ∀ (p : Position) (fs : List Fill), Decidable (p.FillsExact fs)
  | _, [] => .isTrue trivial
  | p, f :: fs =>
    have : ∀ p', Decidable (FillsExact p' fs) := fun p' => decidableFillsExact p' fs
    inferInstanceAs (Decidable (_ ∧ ∀ p' ∈ p.applyFill f.side f.price f.qty, FillsExact p' fs))

/-! ## The arithmetic of fills -/

/-- The position after a fill, over unbounded integers. -/
def filled (p : Position) (f : Fill) : CostBasis := p.exact.fill 100000000 f.signedQty f.price.raw.toInt

/-- Its net quantity, average price and profit are signed 64-bit integers. -/
structure Representable (p : Position) (f : Fill) : Prop where
  netQty : Int64.Fits (p.filled f).net
  avgEntryPrice : Int64.Fits (p.filled f).avg
  realisedPnl : Int64.Fits (p.filled f).pnl

/-- These are what the fill stores. -/
def StoresExactly (p : Position) (f : Fill) : Prop :=
  ∃ p', p.applyFill f.side f.price f.qty = some p' ∧ p'.exact = p.filled f

/-- The fill is in the direction of the position. -/
def Increases (p : Position) (f : Fill) : Prop := p.netQty.toInt ≠ 0 ∧ (0 < p.netQty.toInt ↔ 0 < f.signedQty)

/-- The fill reduces, closes or flips the position. -/
def Reduces (p : Position) (f : Fill) : Prop := p.netQty.toInt ≠ 0 ∧ ¬ (0 < p.netQty.toInt ↔ 0 < f.signedQty)

/-- The profit is computed from a quantity that has changed its sign, from the
absolute value of the least number, or from a profit per unit that has
wrapped. -/
def WrapsPnl (p : Position) (f : Fill) : Prop :=
  p.Reduces f ∧ (2 ^ 63 ≤ f.qty.raw.toNat ∨ p.netQty.toInt = -2 ^ 63 ∨ ¬ Int64.Fits (p.pnlPerUnit f))

instance (p : Position) (f : Fill) : Decidable (p.Increases f) := inferInstanceAs (Decidable (_ ∧ _))

instance (p : Position) (f : Fill) : Decidable (p.Reduces f) := inferInstanceAs (Decidable (_ ∧ _))

instance (p : Position) (f : Fill) : Decidable (p.WrapsPnl f) := inferInstanceAs (Decidable (_ ∧ _))

/-! ## Many fills -/

def netAfter (fs : List Fill) : Int := (fs.map Fill.signedQty).sum

/-- Every quantity, and the net quantity at any time, is below `2^63`. -/
structure Moderate (fs : List Fill) : Prop where
  qty : ∀ f ∈ fs, f.qty.raw.toNat < 2 ^ 63
  netQty : ∀ n, (netAfter (fs.take n)).natAbs < 2 ^ 63

/-- The prices of the fills that opened or increased the current position since
it was last flat or flipped. -/
def entryPrices (fs : List Fill) : List Int :=
  CostBasis.entryPricesAfter 0 [] (fs.map fun f => (f.signedQty, f.price.raw.toInt))

end MRE.Position

namespace MRE

/-- The quantities that an event moves: those of the maker's and of the taker's
side of a trade. -/
def EngineEvent.moves : EngineEvent → List ((AccountId × Symbol) × Int)
  | .trade t =>
    [((t.makerAcct, t.symbol), Position.Fill.signedQty ⟨t.makerSide, t.price, t.qty⟩),
      ((t.takerAcct, t.symbol), Position.Fill.signedQty ⟨t.makerSide.opposite, t.price, t.qty⟩)]
  | _ => []

/-- The account's net quantity after these events, over unbounded integers. -/
def netTraded (evs : List EngineEvent) (account : AccountId) (symbol : Symbol) : Int :=
  Postings.net (account, symbol) (evs.flatMap EngineEvent.moves)

namespace RiskShard

def netQty (shard : RiskShard) (account : AccountId) (symbol : Symbol) : Int :=
  ((shard.positions.lookup (account, symbol)).getD .default).netQty.toInt

/-- The net quantity of all positions in a symbol. -/
def netQtyIn (symbol : Symbol) (shard : RiskShard) : Int :=
  ((shard.positions.entries.filter fun e => e.1.2 = symbol).map fun e => e.2.netQty.toInt).sum

/-- Each account that trades belongs to exactly one of the shards. -/
def Partition (shards : List RiskShard) (evs : List EngineEvent) : Prop :=
  ∀ x ∈ evs.flatMap EngineEvent.moves, shards.countP (·.owns x.1.1) = 1

instance (shards : List RiskShard) (evs : List EngineEvent) : Decidable (Partition shards evs) :=
  inferInstanceAs (Decidable (∀ x ∈ evs.flatMap EngineEvent.moves, shards.countP (·.owns x.1.1) = 1))

/-- The shard processes these events, and ends as `shard'`. -/
def Processes (evs : List EngineEvent) (shard shard' : RiskShard) : Prop :=
  ∃ inputs cmds, inputs.map (·.event) = evs ∧ shard.run inputs = some (shard', cmds)

end RiskShard

end MRE
