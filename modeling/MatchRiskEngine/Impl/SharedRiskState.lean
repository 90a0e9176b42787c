import MatchRiskEngine.Framework.Ownership
import MatchRiskEngine.Impl.MatchingEngine
import MatchRiskEngine.Impl.RiskEngine

/-!
# The risk states under concurrent writers

Matching engines and a risk shard on one table of account risk states. A read and
an update of a state are one step each (`SharedRisk.System.step`), so that
`AccountRiskState::set_frozen` and the updates of `RiskShard::process_event` and
`RiskShard::seed_deposit` are two steps, between which other threads may go on. An
action whose thread cannot go on changes nothing. Commands other than an effective
`FreezeAccount` only read the table, which is the one in the shard.

Several shards on one table are each on a thread of its own that seeds accounts
and processes events (`ShardThread`).
-/

namespace MRE

/-- The part of `RiskShard.settle` up to the read of the account's state: the
shard, the state to be published and the liquidations to ask for. -/
def RiskShard.settleRead (shard : RiskShard) (iter : IterOrder) (t : EngineEvent.Trade) (markPrices : MarkPrices)
    (acct : AccountId) (side : Side) : Option (RiskShard × AccountRiskState × List InboundCommand) := do
  let pos ← ((shard.positions.lookup (acct, t.symbol)).getD .default).applyFill side t.price t.qty
  let shard := { shard with positions := shard.positions.insert (acct, t.symbol) pos }
  let (balance, usedMargin) ← shard.recomputeMargin iter acct markPrices
  let s ← shard.states.get acct
  let breach := decide (balance < usedMargin)
  some (shard, { s with balance, usedMargin, frozen := s.frozen || breach },
    if breach then [.liquidate t.symbol acct] else [])

/-- The part of `RiskShard.seedDeposit` up to the read of the account's state. -/
def RiskShard.seedRead (shard : RiskShard) (account : AccountId) (amount : Int64) :
    Option (RiskShard × AccountRiskState) := do
  let local_ := shard.localIdx account
  if shard.initialDeposits.length ≤ local_ then none
  else
    let s ← shard.states.get account
    some
      ({ shard with
          initialDeposits := shard.initialDeposits.set local_ amount
          length_deposits := shard.length_set_deposits local_ amount },
        { s with balance := amount, usedMargin := 0 })

def RiskShard.update (shard : RiskShard) (account : AccountId) (s : AccountRiskState) : RiskShard :=
  { shard with states := shard.states.set account.raw.toNat s }

namespace SharedRisk

inductive EnginePc where
  | idle
  /-- In `set_frozen`, before the read. -/
  | readState (account : AccountId)
  /-- In `set_frozen`, before the update. -/
  | updateState (account : AccountId) (s : AccountRiskState)
  /-- The thread has panicked. -/
  | stopped
  deriving DecidableEq, Repr

structure EngineThread (M K : Type) where
  engine : MatchingEngine M K
  pc : EnginePc

/-- The loop of `process_event` over the two sides of a trade. -/
structure TradeLoop where
  trade : EngineEvent.Trade
  markPrices : MarkPrices
  todo : List (AccountId × Side)
  liquidateCmds : List InboundCommand

inductive ShardPc where
  | idle
  | loop (l : TradeLoop)
  /-- Before an update, after which the loop, if any, goes on. -/
  | updateState (account : AccountId) (s : AccountRiskState) (l : Option TradeLoop)
  /-- The thread has panicked. -/
  | stopped

structure System (M K : Type) where
  engines : List (EngineThread M K)
  shard : RiskShard
  shardPc : ShardPc
  /-- History: the states published. -/
  published : List (AccountId × AccountRiskState)
  /-- History: the liquidations asked for. -/
  liquidations : List InboundCommand

inductive Action where
  | command (engine : Nat) (cmd : SequencedCommand)
  /-- An engine's next step in `set_frozen`. -/
  | engine (engine : Nat)
  /-- The shard takes up an event. -/
  | event (ev : EngineEvent) (markPrices : MarkPrices)
  | seed (account : AccountId) (amount : Int64)
  | shard (iter : IterOrder)

namespace System

variable {M K : Type}

def init (engines : List (MatchingEngine M K)) (shard : RiskShard) : System M K :=
  { engines := engines.map fun e => ⟨e, .idle⟩, shard, shardPc := .idle, published := [], liquidations := [] }

def states (s : System M K) : AccountRiskTable := s.shard.states

def setEngine (s : System M K) (i : Nat) (t : EngineThread M K) : System M K := { s with engines := s.engines.set i t }

def publish (s : System M K) (account : AccountId) (st : AccountRiskState) : System M K :=
  { s with shard := s.shard.update account st, published := s.published ++ [(account, st)] }

/-- The account that a command freezes, unless it is stale. -/
def freezeTarget (e : MatchingEngine M K) (cmd : SequencedCommand) : Option AccountId :=
  match cmd.cmd with
  | .freezeAccount account => if cmd.term < e.highestTermSeen then none else some account
  | _ => none

def command [DecidableEq K] [Arena M K] (env : Env) (s : System M K) (i : Nat)
    (cmd : SequencedCommand) : System M K :=
  match s.engines[i]? with
  | some ⟨engine, .idle⟩ =>
    let engine := { engine with riskStates := s.states }
    match freezeTarget engine cmd with
    | some account =>
      match s.states.get account with
      | some _ => s.setEngine i ⟨engine, .readState account⟩
      | none => s
    | none =>
      match engine.handleCommand env cmd with
      | some engine => s.setEngine i ⟨engine, .idle⟩
      | none => s.setEngine i ⟨engine, .stopped⟩
  | _ => s

def stepEngine (s : System M K) (i : Nat) : System M K :=
  match s.engines[i]? with
  | some ⟨engine, .readState account⟩ =>
    match s.states.get account with
    | some st => s.setEngine i ⟨engine, .updateState account st⟩
    | none => s
  | some ⟨engine, .updateState account st⟩ =>
    (s.publish account { st with frozen := true }).setEngine i ⟨engine, .idle⟩
  | _ => s

def event (s : System M K) (markPrices : MarkPrices) : EngineEvent → System M K
  | .trade t =>
    match s.shardPc with
    | .idle =>
      { s with
        shardPc := .loop
          { trade := t, markPrices, todo := [(t.makerAcct, t.makerSide), (t.takerAcct, t.makerSide.opposite)]
            liquidateCmds := [] } }
    | _ => s
  | _ => s

def seed (s : System M K) (account : AccountId) (amount : Int64) : System M K :=
  match s.shardPc with
  | .idle =>
    match s.shard.seedRead account amount with
    | some (shard, st) => { s with shard, shardPc := .updateState account st none }
    | none => { s with shardPc := .stopped }
  | _ => s

def stepShard (s : System M K) (iter : IterOrder) : System M K :=
  match s.shardPc with
  | .loop l =>
    match l.todo with
    | [] => { s with shardPc := .idle, liquidations := s.liquidations ++ l.liquidateCmds }
    | (acct, side) :: todo =>
      if s.shard.owns acct = false then { s with shardPc := .loop { l with todo } }
      else
        match s.shard.settleRead iter l.trade l.markPrices acct side with
        | some (shard, st, cmds) =>
          { s with
            shard
            shardPc := .updateState acct st (some { l with todo, liquidateCmds := l.liquidateCmds ++ cmds }) }
        | none => { s with shardPc := .stopped }
  | .updateState account st none => { s.publish account st with shardPc := .idle }
  | .updateState account st (some l) => { s.publish account st with shardPc := .loop l }
  | _ => s

variable [DecidableEq K] [Arena M K]

def step (env : Env) (s : System M K) : Action → System M K
  | .command i cmd => s.command env i cmd
  | .engine i => s.stepEngine i
  | .event ev markPrices => s.event markPrices ev
  | .seed account amount => s.seed account amount
  | .shard iter => s.stepShard iter

def run (env : Env) (s : System M K) (actions : List Action) : System M K := actions.foldl (step env) s

end System

end SharedRisk

/-! ## Several shards -/

/-- What a shard is called for. -/
inductive ShardTask where
  | seed (account : AccountId) (amount : Int64)
  | event (ev : EngineEvent) (markPrices : MarkPrices)

/-- The calls that a shard gets: all events, and the deposits of its own
accounts. -/
def ShardTask.concerns (shard : RiskShard) : ShardTask → Bool
  | .seed account _ => shard.owns account
  | .event _ _ => true

/-- The calls that seed accounts and then process events. -/
def shardTasks (deposits : List (AccountId × Int64)) (inputs : List RiskShard.Input) : List ShardTask :=
  (deposits.map fun d => .seed d.1 d.2) ++ inputs.map fun i => .event i.event i.markPrices

structure ShardThread where
  system : SharedRisk.System Empty Empty
  todo : List ShardTask

namespace ShardThread

def new (shard : RiskShard) (tasks : List ShardTask) : ShardThread :=
  { system := .init [] shard, todo := tasks.filter (ShardTask.concerns shard) }

/-- The thread, with its handle on this table. -/
def onTable (t : ShardThread) (states : AccountRiskTable) : ShardThread :=
  { t with system := { t.system with shard := { t.system.shard with states } } }

/-- The next step: the shard is called anew if it is idle. -/
def step (iter : IterOrder) (t : ShardThread) : ShardThread :=
  match t.system.shardPc with
  | .idle =>
    match t.todo with
    | [] => t
    | .seed account amount :: todo => { system := t.system.seed account amount, todo }
    | .event ev markPrices :: todo => { system := t.system.event markPrices ev, todo }
  | _ => { t with system := t.system.stepShard iter }

def next (iter : IterOrder) (t : ShardThread) (states : AccountRiskTable) : ShardThread × AccountRiskTable :=
  let t := (t.onTable states).step iter
  (t, t.system.states)

end ShardThread

abbrev RiskShards : Type := Threads ShardThread AccountRiskTable

/-- New shards with these ranges of accounts, and what they are called for. -/
def RiskShards.new (limits : RiskLimits) (states : AccountRiskTable) (ranges : List (UInt64 × UInt64))
    (tasks : List ShardTask) : RiskShards :=
  { store := states, threads := ranges.map fun r => ShardThread.new (RiskShard.new r.1 r.2 limits states) tasks }

end MRE
