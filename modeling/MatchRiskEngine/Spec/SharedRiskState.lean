import MatchRiskEngine.Impl.SharedRiskState
import MatchRiskEngine.Spec.Margin

/-!
# Frozen accounts and sharding

Freezing an account is meant to be for good (`FrozenForever`). `ClearSteps` is the
discipline on the threads under which it is: no engine freezes an account while the
shard, having read the account's state before, is about to publish an unfrozen one.
No book is to hold an order of the account (`OrderBook.HoldsNone`) then.

Sharding does not show if the shards together have the table, the positions and
each account's liquidations of a single shard that owns all accounts
(`RiskShards.SameAs`).
-/

namespace MRE.SharedRisk

/-- After a frozen state of an account, no state of it is published that is not
frozen. -/
def FrozenForever (published : List (AccountId × AccountRiskState)) : Prop :=
  published.Pairwise fun p q => p.1 = q.1 → p.2.frozen = true → q.2.frozen = true

instance (published : List (AccountId × AccountRiskState)) : Decidable (FrozenForever published) :=
  inferInstanceAs (Decidable (List.Pairwise _ published))

/-- The shard is about to publish an unfrozen state of the account. -/
def ShardPc.Unfreezes : ShardPc → AccountId → Prop
  | .updateState account st _, account' => account = account' ∧ st.frozen = false
  | _, _ => False

instance ShardPc.decidableUnfreezes : ∀ (pc : ShardPc) (account : AccountId), Decidable (pc.Unfreezes account)
  | .updateState account st _, account' => inferInstanceAs (Decidable (account = account' ∧ st.frozen = false))
  | .idle, _ | .loop _, _ | .stopped, _ => inferInstanceAs (Decidable False)

/-- The account that an engine freezes in the step, by its update. -/
def System.freezing {M K : Type} (s : System M K) : Action → Option AccountId
  | .engine i =>
    match s.engines[i]? with
    | some ⟨_, .updateState account _⟩ => some account
    | _ => none
  | _ => none

/-- The step does not freeze an account that the shard is about to publish as
not frozen. -/
def Clear {M K : Type} (s : System M K) (a : Action) : Prop :=
  ∀ account ∈ s.freezing a, ¬ s.shardPc.Unfreezes account

instance {M K : Type} (s : System M K) (a : Action) : Decidable (Clear s a) :=
  inferInstanceAs (Decidable (∀ account ∈ s.freezing a, ¬ s.shardPc.Unfreezes account))

/-- Each step of a run is clear in the state that finds it. -/
def ClearSteps {M K : Type} [DecidableEq K] [Arena M K] (env : Env) :
    System M K → List Action → Prop
  | _, [] => True
  | s, a :: actions => Clear s a ∧ ClearSteps env (s.step env a) actions

end MRE.SharedRisk

/-! ## Locking an account out -/

namespace MRE

def OrderBook.HoldsNone {M K : Type} [DecidableEq K] [Arena M K] (b : OrderBook M K)
    (account : AccountId) : Prop :=
  ∀ k o, SlotMap.get? b.arena k = some o → o.account ≠ account

/-- An engine that has handled nothing yet. -/
def MatchingEngine.IsNew {M K : Type} [DecidableEq K] [Arena M K] (e : MatchingEngine M K) : Prop :=
  ∃ (limits : Tier0Limits) (cfg : BookConfig) (book : OrderBook M K) (risk : AccountRiskTable),
    OrderBook.new cfg = some book ∧ e = new limits book risk

namespace SharedRisk

/-- The command that the action hands to the engine `i`. -/
def Action.commandTo (i : Nat) : Action → Option SequencedCommand
  | .command j cmd => if j = i then some cmd else none
  | _ => none

def commandsTo (i : Nat) (actions : List Action) : List SequencedCommand := actions.filterMap (Action.commandTo i)

/-- The account is frozen in the table, and the shard is not about to publish
otherwise. -/
structure System.Locked {M K : Type} (s : System M K) (account : AccountId) : Prop where
  table (st : AccountRiskState) : s.states.get account = some st → st.frozen = true
  pending (st : AccountRiskState) (l : Option TradeLoop) : s.shardPc = .updateState account st l → st.frozen = true

end SharedRisk

/-- Both orders visit an account's positions in the same order, if the account
has the same positions. -/
def IterOrder.Agree (iter iter' : IterOrder) : Prop :=
  ∀ (es es' : List Positions.Entry) (account : AccountId),
    (es.filter fun e => e.1.1 = account) = (es'.filter fun e => e.1.1 = account) →
      ((iter.order es).filter fun e => e.1.1 = account) = ((iter'.order es').filter fun e => e.1.1 = account)

/-- The ranges follow on each other, from `lo` to `hi`. -/
def Contiguous : UInt64 → List (UInt64 × UInt64) → UInt64 → Prop
  | lo, [], hi => lo = hi
  | lo, r :: ranges, hi => r.1 = lo ∧ r.1 ≤ r.2 ∧ Contiguous r.2 ranges hi

instance : ∀ lo ranges hi, Decidable (Contiguous lo ranges hi)
  | lo, [], hi => inferInstanceAs (Decidable (lo = hi))
  | lo, r :: ranges, hi =>
    have := instDecidableContiguous r.2 ranges hi
    inferInstanceAs (Decidable (r.1 = lo ∧ r.1 ≤ r.2 ∧ Contiguous r.2 ranges hi))

/-- The command asks for a liquidation of the account. -/
def InboundCommand.liquidates (account : AccountId) : InboundCommand → Bool
  | .liquidate _ account' => decide (account' = account)
  | _ => false

namespace ShardThread

/-- The shard is idle and was called for everything, or it has panicked. -/
def Done (t : ShardThread) : Prop :=
  t.system.shardPc = .idle ∧ t.todo = [] ∨ t.system.shardPc = .stopped

end ShardThread

/-- The shards end as this one, which asked for these liquidations. -/
structure RiskShards.SameAs (x : RiskShards) (shard : RiskShard) (cmds : List InboundCommand) : Prop where
  running : ∀ t ∈ x.threads, t.system.shardPc ≠ .stopped
  states : ∀ account, x.store.get account = shard.states.get account
  positions : ∀ key pos, shard.positions.lookup key = some pos ↔
    ∃ t ∈ x.threads, t.system.shard.positions.lookup key = some pos
  liquidations : ∀ account, (x.threads.flatMap fun t => t.system.liquidations.filter (·.liquidates account)) =
    cmds.filter (·.liquidates account)

end MRE
