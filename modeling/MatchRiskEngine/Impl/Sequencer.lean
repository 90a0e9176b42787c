import MatchRiskEngine.Impl.MatchingEngine

/-!
# The sequencer

The `sequencer` crate's main loop (`Sequencer.iterate`): it takes commands from
the gateways' queues in turn (`pollInbound`), numbers and stamps them, and hands
them on to the log and to the matching engines (`dispatch`). `Exchange` is the
sequencer with one order book for each symbol, `Venue` with one matching engine,
which take the commands of their queues one by one, at any speed.

A queue to an engine is given by all that was pushed to it, and a push succeeds in
the end. The clock, the role, the halt flag and whether the log's queue has room
are read as any value in each iteration (`Tick`). `none` is a panic.
-/

namespace MRE

structure SnapshotMarkerSchedule where
  intervalSeq : UInt64
  /-- The assertion of `new`. -/
  interval_pos : 0 < intervalSeq
  deriving DecidableEq, Repr

def SnapshotMarkerSchedule.shouldFire (s : SnapshotMarkerSchedule) (seq : UInt64) : Bool :=
  decide (seq % s.intervalSeq = 0)

def SnapshotMarkerSchedule.default : SnapshotMarkerSchedule := ⟨100000, by decide⟩

structure SequencerConfig where
  nSymbols : Nat
  snapshotSchedule : SnapshotMarkerSchedule
  deriving DecidableEq, Repr

/-- The number of symbols the routing table supports. -/
def maxSymbols : Nat := 1024

/-- `none` is a failed assertion. -/
def SequencerConfig.new (nSymbols : Nat) : Option SequencerConfig :=
  if nSymbols ≤ maxSymbols then some { nSymbols, snapshotSchedule := .default } else none

structure Sequencer where
  seq : UInt64
  gwInbound : List (List InboundCommand)
  meInbound : List (List SequencedCommand)
  walOut : List SequencedCommand
  snapshotOut : List (List EngineEvent)
  snapshotSchedule : SnapshotMarkerSchedule
  gwCursor : Nat
  /-- History: what has come in at each gateway's queue. -/
  arrived : List (List InboundCommand)
  /-- History: the commands dispatched, with the queue each was taken from. -/
  dispatched : List (Nat × SequencedCommand)
  /-- History: the commands offered to the log's queue. -/
  walOffered : List SequencedCommand
  deriving DecidableEq, Repr

/-- What an iteration of the loop reads. -/
structure Tick where
  halted : Bool
  leader : Bool
  term : UInt64
  tsNs : UInt64
  walFull : Bool
  deriving DecidableEq, Repr

def cmdSymbol : InboundCommand → Option Symbol
  | .newOrder o => some o.symbol
  | .cancel _ _ => none
  | .liquidate symbol _ => some symbol
  | .freezeAccount _ => none

namespace Sequencer

/-- A sequencer with one queue to an engine for each symbol. -/
def new (gwInbound : List (List InboundCommand)) (snapshots : Nat) (config : SequencerConfig) (initialSeq : UInt64) :
    Sequencer :=
  { seq := initialSeq
    gwInbound
    meInbound := List.replicate config.nSymbols []
    walOut := []
    snapshotOut := List.replicate snapshots []
    snapshotSchedule := config.snapshotSchedule
    gwCursor := 0
    arrived := gwInbound
    dispatched := []
    walOffered := [] }

/-- The loop of `pollInbound`: the first of the queues at these distances from
the cursor that is not empty, and its first command. -/
def pollLoop (gwInbound : List (List InboundCommand)) (gwCursor : Nat) : List Nat → Option (Nat × InboundCommand)
  | [] => none
  | i :: rest =>
    let idx := (gwCursor + i) % gwInbound.length
    match gwInbound[idx]? with
    | some (cmd :: _) => some (idx, cmd)
    | _ => pollLoop gwInbound gwCursor rest

/-- The next command with the queue it is from, and the sequencer without it. -/
def pollInbound (s : Sequencer) : Option (Nat × InboundCommand × Sequencer) :=
  let n := s.gwInbound.length
  (pollLoop s.gwInbound s.gwCursor (List.range n)).map fun r =>
    (r.1, r.2, { s with gwInbound := s.gwInbound.modify r.1 List.tail, gwCursor := (r.1 + 1) % n })

/-- Push a command to the engine of its symbol, or a cancel to all. -/
def route (meInbound : List (List SequencedCommand)) (sequenced : SequencedCommand) :
    Option (List (List SequencedCommand)) :=
  match cmdSymbol sequenced.cmd with
  | some symbol =>
    let idx := symbol.raw.toNat
    if idx < meInbound.length then some (meInbound.modify idx (· ++ [sequenced])) else none
  | none =>
    match sequenced.cmd with
    | .cancel _ _ => some (meInbound.map (· ++ [sequenced]))
    | _ => some meInbound

def injectSnapshotMarker (s : Sequencer) (seq : UInt64) : Sequencer :=
  { s with snapshotOut := s.snapshotOut.map (· ++ [.snapshotMarker seq]) }

def dispatch (s : Sequencer) (t : Tick) (queue : Nat) (cmd : InboundCommand) : Option Sequencer := do
  let seq := s.seq + 1
  let sequenced : SequencedCommand := { term := t.term, seq, tsNs := t.tsNs, cmd }
  let meInbound ← route s.meInbound sequenced
  let s :=
    { s with
      seq
      meInbound
      walOut := if t.walFull then s.walOut else s.walOut ++ [sequenced]
      walOffered := s.walOffered ++ [sequenced]
      dispatched := s.dispatched ++ [(queue, sequenced)] }
  some (if s.snapshotSchedule.shouldFire seq then s.injectSnapshotMarker seq else s)

def iterate (s : Sequencer) (t : Tick) : Option Sequencer :=
  if t.halted then none
  else if t.leader = false then some s
  else
    match s.pollInbound with
    | some (queue, cmd, s) => s.dispatch t queue cmd
    | none => some s

def arrive (s : Sequencer) (queue : Nat) (cmd : InboundCommand) : Sequencer :=
  { s with
    gwInbound := s.gwInbound.modify queue (· ++ [cmd])
    arrived := s.arrived.modify queue (· ++ [cmd]) }

inductive Action where
  | arrive (queue : Nat) (cmd : InboundCommand)
  | iterate (t : Tick)
  deriving DecidableEq, Repr

def step (s : Sequencer) : Action → Option Sequencer
  | .arrive queue cmd => some (s.arrive queue cmd)
  | .iterate t => s.iterate t

def run : Sequencer → List Action → Option Sequencer
  | s, [] => some s
  | s, a :: actions => do
    let s ← s.step a
    s.run actions

end Sequencer

/-! ## The sequencer and the books -/

/-- An order book, and how many commands of its queue it has applied. -/
structure BookThread (M K : Type) where
  book : OrderBook M K
  applied : Nat

structure Exchange (M K : Type) where
  sequencer : Sequencer
  books : List (BookThread M K)

namespace Exchange

variable {M K : Type} [DecidableEq K] [Arena M K]

inductive Action where
  | sequencer (a : Sequencer.Action)
  /-- A book applies the next command of its queue. -/
  | book (i : Nat)
  deriving DecidableEq, Repr

def next (x : Exchange M K) (i : Nat) : Option (BookThread M K × SequencedCommand) := do
  let t ← x.books[i]?
  let queue ← x.sequencer.meInbound[i]?
  let cmd ← queue[t.applied]?
  some (t, cmd)

def stepBook (x : Exchange M K) (i : Nat) : Option (Exchange M K) :=
  match x.next i with
  | some (t, cmd) => do
    let (book, _) ← t.book.apply cmd
    some { x with books := x.books.set i { book, applied := t.applied + 1 } }
  | none => some x

def step (x : Exchange M K) : Action → Option (Exchange M K)
  | .sequencer a => (x.sequencer.step a).map fun sequencer => { x with sequencer }
  | .book i => x.stepBook i

def run : Exchange M K → List Action → Option (Exchange M K)
  | x, [] => some x
  | x, a :: actions => do
    let x ← x.step a
    x.run actions

end Exchange

end MRE

namespace MRE.Sequencer

def arriveAll (s : Sequencer) (arrivals : List (Nat × InboundCommand)) : Sequencer :=
  arrivals.foldl (fun s a => s.arrive a.1 a.2) s

/-- The loop of `pollInbound` over these distances from the cursor, with what
comes in before the try at each. What is taken and the queue it is from, and the
sequencer afterwards. -/
def pollLoopAmid (arrivals : Nat → List (Nat × InboundCommand)) :
    Sequencer → List Nat → Option (Nat × InboundCommand) × Sequencer
  | s, [] => (none, s)
  | s, i :: rest =>
    let s := s.arriveAll (arrivals i)
    let n := s.gwInbound.length
    let idx := (s.gwCursor + i) % n
    match s.gwInbound[idx]? with
    | some (cmd :: _) =>
      (some (idx, cmd), { s with gwInbound := s.gwInbound.modify idx List.tail, gwCursor := (idx + 1) % n })
    | _ => pollLoopAmid arrivals s rest

def pollInboundAmid (s : Sequencer) (arrivals : Nat → List (Nat × InboundCommand)) :
    Option (Nat × InboundCommand) × Sequencer :=
  pollLoopAmid arrivals s (List.range s.gwInbound.length)

end MRE.Sequencer

namespace MRE

/-- A command, and the engine before and after it. -/
structure Handled (M K : Type) where
  before : MatchingEngine M K
  cmd : SequencedCommand
  after : MatchingEngine M K

structure EngineThread (M K : Type) where
  engine : MatchingEngine M K
  /-- History: what the engine has taken from its queue. -/
  handled : List (Handled M K)

structure Venue (M K : Type) where
  sequencer : Sequencer
  engines : List (EngineThread M K)

namespace Venue

inductive Action where
  | sequencer (a : Sequencer.Action)
  /-- The risk shards write to an engine's table, and it takes the next command. -/
  | engine (i : Nat) (riskWrites : AccountRiskTable → AccountRiskTable)

variable {M K : Type}

def next (x : Venue M K) (i : Nat) : Option (EngineThread M K × SequencedCommand) := do
  let t ← x.engines[i]?
  let queue ← x.sequencer.meInbound[i]?
  let cmd ← queue[t.handled.length]?
  if t.engine.running then some (t, cmd) else none

variable [DecidableEq K] [Arena M K]

def stepEngine (env : Env) (x : Venue M K) (i : Nat) (riskWrites : AccountRiskTable → AccountRiskTable) : Venue M K :=
  match x.next i with
  | some (t, cmd) =>
    let before := t.engine.atInput ⟨riskWrites, cmd⟩
    match before.handleCommand env cmd with
    | some after => { x with engines := x.engines.set i ⟨after, t.handled ++ [⟨before, cmd, after⟩]⟩ }
    | none => x
  | none => x

/-- Each engine has a log and rings of its own. -/
def step (envs : Nat → Env) (x : Venue M K) : Action → Venue M K
  | .sequencer a => { x with sequencer := (x.sequencer.step a).getD x.sequencer }
  | .engine i riskWrites => x.stepEngine (envs i) i riskWrites

def run (envs : Nat → Env) (x : Venue M K) (actions : List Action) : Venue M K := actions.foldl (step envs) x

end Venue

end MRE
