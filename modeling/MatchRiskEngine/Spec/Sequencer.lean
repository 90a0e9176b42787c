import MatchRiskEngine.Impl.Gateway
import MatchRiskEngine.Impl.Sequencer
import MatchRiskEngine.Spec.OrderBook
import MatchRiskEngine.Spec.RefBook

/-!
# The sequencer and its clients

The sequencer is to make one sequence with consecutive numbers of the commands
that come in, in which the commands of each gateway keep their order and of which
each engine gets its part (`TotalOrder`). The broadcast of cancels is compared with
an exchange in which a cancel reaches only the book that holds the order
(`Exchange.runRouted`). A `Poll` is a call of `poll_inbound`, with what comes in
during it.

Of all engines together: what they publish for a sequence number
(`Venue.publishedFor`), the cancels that succeed (`Handled.Cancels`), and what a
command can do to a resting order of somebody else (`RefOrder.OnlyTraded`).
-/

namespace MRE

/-! ## The total order -/

/-- Whether the engine of a symbol is to get a command: cancels go to all of
them. -/
def InboundCommand.routedTo (i : Nat) : InboundCommand → Bool
  | .newOrder o => decide (o.symbol.raw.toNat = i)
  | .cancel _ _ => true
  | .liquidate symbol _ => decide (symbol.raw.toNat = i)
  | .freezeAccount _ => false

/-- The command's symbol, if it has one, is below `n`. -/
def InboundCommand.SymbolBelow (n : Nat) (cmd : InboundCommand) : Prop := ∀ symbol ∈ cmdSymbol cmd, symbol.raw.toNat < n

instance (n : Nat) (cmd : InboundCommand) : Decidable (cmd.SymbolBelow n) :=
  inferInstanceAs (Decidable (∀ symbol ∈ cmdSymbol cmd, symbol.raw.toNat < n))

namespace Sequencer

/-- Commands come in with symbols below `n`, and the system is not halted. -/
def Action.Orderly (n : Nat) : Action → Prop
  | .arrive _ cmd => cmd.SymbolBelow n
  | .iterate t => t.halted = false

instance Action.decidableOrderly (n : Nat) : ∀ a : Action, Decidable (a.Orderly n)
  | .arrive _ cmd => inferInstanceAs (Decidable (cmd.SymbolBelow n))
  | .iterate t => inferInstanceAs (Decidable (t.halted = false))

/-- The commands dispatched that were taken from a queue. -/
def takenFrom (s : Sequencer) (queue : Nat) : List InboundCommand :=
  (s.dispatched.filter fun d => d.1 = queue).map fun d => d.2.cmd

/-- The commands dispatched that go to the engine of a symbol. -/
def routed (s : Sequencer) (i : Nat) : List SequencedCommand :=
  (s.dispatched.map Prod.snd).filter fun c => c.cmd.routedTo i

structure TotalOrder (initialSeq : UInt64) (n : Nat) (s : Sequencer) : Prop where
  /-- Sequence numbers are consecutive. -/
  numbered (k : Nat) (d : Nat × SequencedCommand) : s.dispatched[k]? = some d →
    d.2.seq = initialSeq + UInt64.ofNat (k + 1)
  /-- What has come in at a queue is dispatched in its order, as far as it is. -/
  in_order (queue : Nat) : s.arrived[queue]? = (s.gwInbound[queue]?).map (s.takenFrom queue ++ ·)
  /-- Each engine gets the commands for it, as they are offered to the log. -/
  engines : s.meInbound = (List.range n).map s.routed
  offered : s.walOffered = s.dispatched.map Prod.snd

end Sequencer

/-! ## Cancels delivered to one book -/

variable {M K : Type} [DecidableEq K] [Arena M K]

/-- An order with this id is open in the book, or can be found by it. -/
def OrderBook.HasId (b : OrderBook M K) (id : OrderId) : Prop :=
  (b.idToKey id).isSome ∨ ∃ k o, SlotMap.get? b.arena k = some o ∧ o.id = id

/-- A book is to get every command but the cancels of orders that it does not
find. -/
def OrderBook.wants (b : OrderBook M K) : InboundCommand → Bool
  | .cancel _ orderId => (b.idToKey orderId).isSome
  | _ => true

namespace Exchange

/-- `stepBook`, with cancels delivered only where they are wanted. -/
def stepBookRouted (x : Exchange M K) (i : Nat) : Option (Exchange M K) :=
  match x.next i with
  | some (t, cmd) =>
    if t.book.wants cmd.cmd then do
      let (book, _) ← t.book.apply cmd
      some { x with books := x.books.set i { book, applied := t.applied + 1 } }
    else some { x with books := x.books.set i { t with applied := t.applied + 1 } }
  | none => some x

def stepRouted (x : Exchange M K) : Action → Option (Exchange M K)
  | .sequencer a => (x.sequencer.step a).map fun sequencer => { x with sequencer }
  | .book i => x.stepBookRouted i

def runRouted : Exchange M K → List Action → Option (Exchange M K)
  | x, [] => some x
  | x, a :: actions => do
    let x ← x.stepRouted a
    x.runRouted actions

/-- A sequencer that has just been started, and a new book for each symbol. -/
structure Start (config : SequencerConfig) (initialSeq : UInt64) (x : Exchange M K) : Prop where
  sequencer : ∃ gw snapshots, x.sequencer = Sequencer.new gw snapshots config initialSeq
  count : x.books.length = config.nSymbols
  books : ∀ t ∈ x.books, t.applied = 0 ∧ ∃ cfg, OrderBook.new cfg = some t.book

/-- No id is in one book in the one state, and in another book in the other. -/
def IdsApart (x x' : Exchange M K) : Prop :=
  ∀ (i j : Nat) (t t' : BookThread M K), i ≠ j → x.books[i]? = some t → x'.books[j]? = some t' →
    ∀ id, t.book.HasId id → ¬ t'.book.HasId id

def IdsDisjoint (x : Exchange M K) : Prop := x.IdsApart x

end Exchange

/-! ## Calls of `poll_inbound` -/

namespace Sequencer

structure Poll where
  before : Sequencer
  /-- What comes in before each try. -/
  arrivals : Nat → List (Nat × InboundCommand)

namespace Poll

/-- What the call returns, with the queue it is from. -/
def result (p : Poll) : Option (Nat × InboundCommand) := (p.before.pollInboundAmid p.arrivals).1

def after (p : Poll) : Sequencer := (p.before.pollInboundAmid p.arrivals).2

/-- The cursor and the number of queues are as the call left them. -/
structure Next (p q : Poll) : Prop where
  cursor : q.before.gwCursor = p.after.gwCursor
  queues : q.before.gwInbound.length = p.after.gwInbound.length

/-- The queue holds a command before the call, this one first. -/
def Waits (p : Poll) (queue : Nat) (cmd : InboundCommand) : Prop :=
  ∃ rest, p.before.gwInbound[queue]? = some (cmd :: rest)

end Poll

end Sequencer

end MRE

namespace MRE

open SlotMap

/-! ## What is published about a cancel -/

def Event.isRejected : Event → Bool
  | .rejected _ => true
  | _ => false

/-- The next event is appended to the log, and the outbound ring has room for it. -/
def MatchingEngine.canPublish {M K : Type} (env : Env) (e : MatchingEngine M K) : Bool :=
  env.walOk e.walCalls && (tryPush env.ringOk 64 e.ringCalls).1

variable {M K : Type}

/-- What was pushed onto the outbound ring with the command. -/
def Handled.published (h : Handled M K) : List Event := h.after.outbound.drop h.before.outbound.length

def Venue.publishedFor (x : Venue M K) (seq : UInt64) : List Event :=
  x.engines.flatMap fun t => (t.handled.filter fun h => h.cmd.seq = seq).flatMap Handled.published

variable [DecidableEq K] [Arena M K]

/-- An order of the account rests in the book under the id. -/
def OrderBook.owns (b : OrderBook M K) (account : AccountId) (orderId : OrderId) : Bool :=
  match b.idToKey orderId with
  | none => false
  | some key => (get? b.arena key).any fun o => o.account = account

/-- The command is the account's cancel, and takes its order out of the book. -/
structure Handled.Cancels (account : AccountId) (orderId : OrderId) (h : Handled M K) : Prop where
  cancel : h.cmd.cmd = .cancel account orderId
  before : h.before.book.owns account orderId = true
  after : h.after.book.owns account orderId = false

/-- A sequencer that has just been started, and a new engine for each symbol. -/
structure Venue.Start (config : SequencerConfig) (initialSeq : UInt64) (x : Venue M K) : Prop where
  sequencer : ∃ gw snapshots, x.sequencer = Sequencer.new gw snapshots config initialSeq
  count : x.engines.length = config.nSymbols
  engines : ∀ t ∈ x.engines, t.handled = [] ∧
    ∃ limits cfg book risk, OrderBook.new cfg = some book ∧ t.engine = .new limits book risk

/-! ## Keeping the clients apart -/

/-- A connection pushes the command that was opened for the account. Its first
frame names the account. -/
def SentBy (account : AccountId) (cmd : InboundCommand) : Prop :=
  ∃ full chunks c, Gateway.handleConnection full chunks = .ok c ∧ c.session.accountId = account ∧
    cmd ∈ c.session.cmdProducer

/-- A client's command, or a privileged one. -/
def FromOutside (cmd : InboundCommand) : Prop :=
  (∃ account, SentBy account cmd) ∨ (∃ symbol account, cmd = .liquidate symbol account) ∨
    ∃ account, cmd = .freezeAccount account

/-- The events trade with the resting order `x`, and what they leave of it is
among the orders `os`, as it was. -/
def RefOrder.OnlyTraded (evs : List EngineEvent) (os : List RefOrder) (x : RefOrder) : Prop :=
  tradedOf x.id evs = x.qty.raw.toNat ∨
    ∃ y ∈ os, y = { x with qty := y.qty } ∧ y.qty.raw.toNat + tradedOf x.id evs = x.qty.raw.toNat

end MRE
