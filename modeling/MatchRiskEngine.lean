import MatchRiskEngine.Proof.DualEngine.Escalation
import MatchRiskEngine.Proof.DualLog.Counter
import MatchRiskEngine.Proof.Failover.SingleLeader
import MatchRiskEngine.Proof.Gateway.NewOrder
import MatchRiskEngine.Proof.Gateway.Outbound
import MatchRiskEngine.Proof.MatchingEngine.Durability
import MatchRiskEngine.Proof.MatchingEngine.Limits
import MatchRiskEngine.Proof.OrderBook.Quantities
import MatchRiskEngine.Proof.Recovery.Promotion
import MatchRiskEngine.Proof.Recovery.Snapshots
import MatchRiskEngine.Proof.RingBuffer.Runs
import MatchRiskEngine.Proof.RiskEngine.Interleaving
import MatchRiskEngine.Proof.RiskEngine.Lockout
import MatchRiskEngine.Proof.RiskEngine.Sharding
import MatchRiskEngine.Proof.RiskEngine.Tier0
import MatchRiskEngine.Proof.RiskEngine.ZeroSum
import MatchRiskEngine.Proof.SecondEngine.WorkerPool
import MatchRiskEngine.Proof.Seqlock.NoTearing
import MatchRiskEngine.Proof.Sequencer.Isolation
import MatchRiskEngine.Proof.Sequencer.RoundRobin
import MatchRiskEngine.Proof.Sim.Replay
import MatchRiskEngine.Proof.Wal.BitFlips
import MatchRiskEngine.Proof.Wal.CrashPrefix
import MatchRiskEngine.Proof.Wal.Events
import MatchRiskEngine.Proof.Wal.Gaps
import MatchRiskEngine.Proof.Wal.Pmem
import MatchRiskEngine.Proof.Wal.Truncation
