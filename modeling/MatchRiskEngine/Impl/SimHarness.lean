import MatchRiskEngine.Impl.OrderBook
import MatchRiskEngine.Impl.RiskEngine

/-!
# The simulation harness

The `sim` crate's harness, which runs a sequencer, the engines and the risk shards
in turns, one command a tick (`SimHarness.run`), and the replay of the log it keeps
(`Replayer.replay`). `none` is a panic.

The shards share one risk table, which is handed to each in turn. The loop is
written over what a shard does with an event (`ShardStep`), in the harness
`RiskShard.processEvent`, where each shard's map of positions has its own iteration
order. A number of ticks does not overflow, as a log of `2 ^ 63` commands does not
fit in memory.
-/

namespace MRE

structure SimClock where
  raw : UInt64
  deriving DecidableEq, Repr

namespace SimClock

def default : SimClock := ⟨0⟩

def nowNs (clock : SimClock) : UInt64 := clock.raw * 1000

def tick (clock : SimClock) : SimClock := ⟨clock.raw + 1⟩

end SimClock

structure SimConfig where
  nSymbols : Nat
  nAccounts : Nat
  nRiskShards : Nat
  initialBalance : Int64
  snapshotInterval : UInt64
  bookTickFloor : Price
  bookNumTicks : Nat
  deriving DecidableEq, Repr

def SimConfig.default : SimConfig :=
  { nSymbols := 2
    nAccounts := 4
    nRiskShards := 2
    initialBalance := 10000000000000
    snapshotInterval := 1000
    bookTickFloor := ⟨0⟩
    bookNumTicks := 1024 }

structure SimResult where
  events : List EngineEvent
  commandsSequenced : UInt64
  tradesMatched : UInt64
  liquidations : UInt64
  snapshots : UInt64
  deriving DecidableEq, Repr

def SimResult.default : SimResult :=
  { events := [], commandsSequenced := 0, tradesMatched := 0, liquidations := 0, snapshots := 0 }

def EngineEvent.isTrade : EngineEvent → Bool
  | .trade _ => true
  | _ => false

/-- The engine of a symbol is its book. -/
abbrev SimEngine (M K : Type) : Type := OrderBook M K

structure SimHarness (M K : Type) where
  clock : SimClock
  nextSeq : UInt64
  inbound : List InboundCommand
  meQueues : List (List SequencedCommand)
  currentTerm : UInt64
  wal : List SequencedCommand
  engines : List (SimEngine M K)
  eventQueue : List EngineEvent
  shards : List RiskShard
  markPrices : MarkPrices
  accountStates : AccountRiskTable
  snapshotInterval : UInt64

/-- What the shard at an index does with an event. -/
abbrev ShardStep : Type := Nat → RiskShard → EngineEvent → Option (RiskShard × List InboundCommand)

section

variable {M K : Type} [DecidableEq K] [Arena M K]

namespace SimEngine

def new (symbol : Symbol) (tickFloor : Price) (numTicks : Nat) : Option (SimEngine M K) :=
  OrderBook.new { symbol, tickFloor, numTicks, arenaCapacity := 4096 }

def step (engine : SimEngine M K) (cmd : SequencedCommand) : Option (SimEngine M K × List EngineEvent) :=
  OrderBook.apply engine cmd

end SimEngine

namespace SimHarness

/-- The shard of the accounts from `start` on, each with its deposit. -/
def newShard (config : SimConfig) (accountsPerShard start : Nat) (states : AccountRiskTable) : Option RiskShard :=
  (List.range accountsPerShard).foldlM
    (fun shard i => shard.seedDeposit ⟨UInt64.ofNat (start + i)⟩ config.initialBalance)
    (RiskShard.new (UInt64.ofNat start) (UInt64.ofNat start + UInt64.ofNat accountsPerShard) .default states)

/-- One more shard, over the same table. -/
def addShard (config : SimConfig) (accountsPerShard : Nat) (acc : List RiskShard × AccountRiskTable) (i : Nat) :
    Option (List RiskShard × AccountRiskTable) := do
  let shard ← newShard config accountsPerShard (i * accountsPerShard) acc.2
  some (acc.1 ++ [shard], shard.states)

def new (config : SimConfig) : Option (SimHarness M K) :=
  -- the remainder by zero panics, and so does the assertion
  if config.nRiskShards = 0 ∨ config.nAccounts % config.nRiskShards ≠ 0 then none
  else do
    let engines ← (List.range config.nSymbols).mapM fun i =>
      SimEngine.new ⟨UInt16.ofNat i⟩ config.bookTickFloor config.bookNumTicks
    let (shards, accountStates) ← (List.range config.nRiskShards).foldlM
      (addShard config (config.nAccounts / config.nRiskShards)) ([], AccountRiskTable.new config.nAccounts)
    some
      { clock := .default
        nextSeq := 0
        inbound := []
        meQueues := List.replicate config.nSymbols []
        currentTerm := 1
        wal := []
        engines
        eventQueue := []
        shards
        markPrices := fun _ => none
        accountStates
        snapshotInterval := config.snapshotInterval }

def pushCommand (h : SimHarness M K) (cmd : InboundCommand) : SimHarness M K := { h with inbound := h.inbound ++ [cmd] }

/-- To the queue of one engine. -/
def pushTo (meQueues : List (List SequencedCommand)) (symbol : Symbol) (sequenced : SequencedCommand) :
    Option (List (List SequencedCommand)) :=
  if symbol.raw.toNat < meQueues.length then some (meQueues.modify symbol.raw.toNat (· ++ [sequenced])) else none

/-- To the queue of the command's symbol, or to all. -/
def route (meQueues : List (List SequencedCommand)) (sequenced : SequencedCommand) :
    Option (List (List SequencedCommand)) :=
  match sequenced.cmd with
  | .newOrder o => pushTo meQueues o.symbol sequenced
  | .liquidate symbol _ => pushTo meQueues symbol sequenced
  | .cancel _ _ => some (meQueues.map (· ++ [sequenced]))
  | .freezeAccount _ => some (meQueues.map (· ++ [sequenced]))

/-- Step 1 of a tick: the sequencer. -/
def sequence (h : SimHarness M K) (result : SimResult) : Option (SimHarness M K × SimResult) :=
  match h.inbound with
  | [] => some (h, result)
  | cmd :: inbound => do
    let seq := h.nextSeq + 1
    let sequenced : SequencedCommand := { term := h.currentTerm, seq, tsNs := h.clock.nowNs, cmd }
    let meQueues ← route h.meQueues sequenced
    let h := { h with inbound, nextSeq := seq, wal := h.wal ++ [sequenced], meQueues }
    let result := { result with commandsSequenced := result.commandsSequenced + 1 }
    -- the remainder by zero panics
    if h.snapshotInterval = 0 then none
    else if seq % h.snapshotInterval = 0 then
      some ({ h with eventQueue := h.eventQueue ++ [.snapshotMarker seq] },
        { result with snapshots := result.snapshots + 1 })
    else some (h, result)

/-- One engine takes a command, if there is one. -/
def stepEngine (engine : SimEngine M K) :
    List SequencedCommand → Option (SimEngine M K × List SequencedCommand × List EngineEvent)
  | [] => some (engine, [], [])
  | cmd :: queue => do
    let (engine, events) ← engine.step cmd
    some (engine, queue, events)

/-- Step 2 of a tick: the engines, each with its queue. -/
def stepEngines : List (SimEngine M K) → List (List SequencedCommand) →
    Option (List (SimEngine M K) × List (List SequencedCommand) × List EngineEvent)
  | [], meQueues => some ([], meQueues, [])
  | _ :: _, [] => none
  | engine :: engines, queue :: meQueues => do
    let (engine, queue, events) ← stepEngine engine queue
    let (engines, meQueues, rest) ← stepEngines engines meQueues
    some (engine :: engines, queue :: meQueues, events ++ rest)

/-- Every shard from index `i` on processes the event. -/
def processShards (step : ShardStep) (ev : EngineEvent) (i : Nat) :
    List RiskShard → AccountRiskTable → Option (List RiskShard × AccountRiskTable × List InboundCommand)
  | [], states => some ([], states, [])
  | shard :: shards, states => do
    let (shard, cmds) ← step i { shard with states } ev
    let (shards, states, cmds') ← processShards step ev (i + 1) shards shard.states
    some (shard :: shards, states, cmds ++ cmds')

/-- Step 3 of a tick: the shards process the events, and what they ask for goes
to the front of the inbound queue. -/
def processEvents (step : ShardStep) : List EngineEvent → SimHarness M K → SimResult →
    Option (SimHarness M K × SimResult)
  | [], h, result => some (h, result)
  | ev :: evs, h, result => do
    let (shards, accountStates, cmds) ← processShards step ev 0 h.shards h.accountStates
    processEvents step evs
      { h with shards, accountStates, inbound := cmds.reverse ++ h.inbound }
      { result with
        events := result.events ++ [ev]
        liquidations := result.liquidations + UInt64.ofNat cmds.length }

def tick (step : ShardStep) (h : SimHarness M K) (result : SimResult) : Option (SimHarness M K × SimResult) := do
  let (h, result) ← { h with clock := h.clock.tick }.sequence result
  let (engines, meQueues, events) ← stepEngines h.engines h.meQueues
  processEvents step (h.eventQueue ++ events)
    { h with engines, meQueues, eventQueue := [] }
    { result with tradesMatched := result.tradesMatched + UInt64.ofNat (events.countP EngineEvent.isTrade) }

def runTicks (step : ShardStep) : Nat → SimHarness M K → SimResult → Option (SimHarness M K × SimResult)
  | 0, h, result => some (h, result)
  | n + 1, h, result => do
    let (h, result) ← h.tick step result
    runTicks step n h result

/-- The shards' own step, where shard `i` iterates its positions as `iters i`
does. -/
def processEvent (iters : Nat → IterOrder) (markPrices : MarkPrices) : ShardStep :=
  fun i shard ev => shard.processEvent (iters i) markPrices ev

def run (h : SimHarness M K) (iters : Nat → IterOrder) (nTicks : Nat) : Option (SimHarness M K × SimResult) :=
  runTicks (processEvent iters h.markPrices) nTicks h .default

end SimHarness

/-- Inject every command of the log into a fresh harness, which sequences them
anew. -/
def Replayer.replay (config : SimConfig) (iters : Nat → IterOrder) (log : List SequencedCommand) :
    Option (SimHarness M K × SimResult) := do
  let harness ← SimHarness.new config
  (log.foldl (fun harness sc => harness.pushCommand sc.cmd) harness).run iters (log.length * 2 + 10)

end

end MRE
