import MatchRiskEngine.Impl.DualEngine
import MatchRiskEngine.Spec.OrderBook
import MatchRiskEngine.Spec.RefBook

/-!
# The second engine

An entry acts on each of a worker's books on its own: what it does to the book
of one symbol is `SecondEngine.applyToBook`. That the number of workers does not
show in the fills that the entries record is `SecondEngine.PoolUnobservable`.
-/

namespace MRE

/-! ## One book -/

def LogEntry.command (entry : LogEntry) : SequencedCommand :=
  { term := entry.term, seq := entry.seq, tsNs := entry.timestampIn, cmd := entry.cmd }

/-- The command goes to the book of this symbol, or to all books. -/
def InboundCommand.RoutedTo (symbol : Symbol) : InboundCommand → Prop
  | .newOrder o => o.symbol = symbol
  | .liquidate s _ => s = symbol
  | .cancel _ _ => True
  | .freezeAccount _ => True

instance (symbol : Symbol) (cmd : InboundCommand) : Decidable (cmd.RoutedTo symbol) :=
  match cmd with
  | .newOrder o => inferInstanceAs (Decidable (o.symbol = symbol))
  | .liquidate s _ => inferInstanceAs (Decidable (s = symbol))
  | .cancel _ _ => .isTrue trivial
  | .freezeAccount _ => .isTrue trivial

variable {M K : Type} {X : Crossbeam EntryRef} [DecidableEq K] [Arena M K]

/-- What an entry's command does to the book of a symbol. -/
def SecondEngine.applyToBook (cmd : SequencedCommand) (symbol : Symbol) (b : OrderBook M K) : Option (OrderBook M K) :=
  match cmd.cmd with
  | .newOrder o => if o.symbol = symbol then (b.apply cmd).map Prod.fst else some b
  | .liquidate s account =>
    if s = symbol then b.cancelOrders cmd account (b.openOrderIdsForAccount account) else some b
  | .cancel _ _ => (b.apply cmd).map Prod.fst
  | .freezeAccount _ => some b

/-! ## The size of the pool -/

/-- The quantity and price recorded in each entry. -/
def Pipeline.recorded (p : Pipeline M K X) : List (UInt64 × UInt64) := p.entries.map fun e => (e.filledQty, e.fillPrice)

namespace SecondEngine

/-- The turns give each entry to one of so many workers. -/
structure Assigns (workerCount : Nat) (entries : List LogEntry) (turns : List (Nat × UInt64)) : Prop where
  length : turns.length = entries.length
  worker : ∀ t ∈ turns, t.1 < workerCount

/-- Whatever worker gets an entry, the entries record the same fills as with a
single worker. -/
def PoolUnobservable (books : Books M K) (entries : List LogEntry) (ring : PendingRing X) : Prop :=
  ∀ (workerCount : Nat) (turns single : List (Nat × UInt64)), 1 ≤ workerCount → Assigns workerCount entries turns →
    Assigns 1 entries single →
      ((start workerCount books entries ring).runTurns turns).recorded =
        ((start 1 books entries ring).runTurns single).recorded

def applyAll (books : Books M K) (entries : List LogEntry) : Option (Books M K) :=
  entries.foldlM (fun books entry => (applyEscalated entry books).map Prod.fst) books

/-- The quantity and price of an entry, after these. -/
def fillAfter (books : Books M K) (selection : List LogEntry) (entry : LogEntry) : UInt64 × UInt64 :=
  match (applyAll books selection).bind (applyEscalated entry) with
  | some (_, fillPrice, filledQty, _) => (filledQty, fillPrice)
  | none => (0, 0)

/-- The entry is a new order that trades in the book of its symbol. -/
def FillsIn (books : Books M K) (entry : LogEntry) : Prop :=
  ∃ o b, entry.cmd = .newOrder o ∧ books.lookup o.symbol = some b ∧ b.Fills o

/-- No entry trades in the books of a worker that has applied any of the entries
before it. -/
def NeverFills (books : Books M K) (entries : List LogEntry) : Prop :=
  ∀ selection entry books', List.Sublist (selection ++ [entry]) entries → applyAll books selection = some books' →
    ¬ FillsIn books' entry

end SecondEngine

end MRE
