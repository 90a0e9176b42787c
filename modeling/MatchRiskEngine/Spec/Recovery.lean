import MatchRiskEngine.Framework.Actors
import MatchRiskEngine.Framework.LastMax
import MatchRiskEngine.Impl.Failover
import MatchRiskEngine.Impl.Recovery

/-!
# Recovery and failover

Snapshots are written to a directory one after the other, and some files are then
damaged (`Damaged`). The newest that is left of a shard is the last that was written
at the largest sequence number of which the file is intact (`newestIntact`).

A standby is to count on from behind everything that was numbered before:
`LogCovers` says of a log and a snapshot that their recovery lets it. There is to be
one leader at a time (`SingleLeader`), and there is if leaders do not release their
lease (`NoLeaderReleases`).
-/

namespace MRE.Recovery

/-! ## Snapshots -/

structure SnapshotWrite where
  shardId : UInt32
  seq : UInt64
  tsNs : UInt64
  payload : List UInt8
  deriving DecidableEq, Repr

namespace SnapshotWrite

def path (w : SnapshotWrite) : FileName := snapshotPath w.shardId w.seq

def snapshot (crc32 : Checksum) (w : SnapshotWrite) : Snapshot :=
  { header :=
      { shardId := w.shardId, seq := w.seq, tsNs := w.tsNs, payloadLen := UInt32.ofNat w.payload.length
        crc32 := crc32 w.payload }
    payload := w.payload }

end SnapshotWrite

def SnapshotWriter.writeAll (crc32 : Checksum) (writer : SnapshotWriter) (dir : Option Directory)
    (writes : List SnapshotWrite) : Option Directory :=
  writes.foldl (fun dir w => (writer.write crc32 dir w.shardId w.seq w.tsNs w.payload).1) dir

/-- Some files of a directory are replaced by ones that cannot be read, and the
files may be listed in another order. -/
def Damaged (crc32 : Checksum) (dir dir' : Directory) : Prop :=
  ∀ name, dir'.lookup name = dir.lookup name ∨
    (dir.lookup name).isSome ∧ ∃ file e, dir'.lookup name = some file ∧ readSnapshot crc32 file = .error e

/-- The last write of a shard at the largest sequence number of which the file
is intact. -/
def newestIntact (dir dir' : Directory) (writes : List SnapshotWrite) (shardId : UInt32) : Option SnapshotWrite :=
  (writes.filter fun w => w.shardId = shardId ∧ dir'.lookup w.path = dir.lookup w.path).lastMax fun w => w.seq.toNat

/-! ## Promotion -/

/-- The number is not below the snapshot's, nor below that of any command of the
log. -/
def Covers (seq snapshotSeq : UInt64) (scs : List SequencedCommand) : Prop :=
  snapshotSeq ≤ seq ∧ ∀ sc ∈ scs, sc.seq ≤ seq

/-- The log goes on behind the snapshot, if there is one, and no command in it
looks like unwritten space; or there is nothing in it but that. -/
def LogCovers (snapshotSeq : UInt64) (scs : List SequencedCommand) : Prop :=
  (snapshotSeq = 0 ∧ ∀ sc ∈ scs, sc.seq = 0) ∨
    ((∀ sc ∈ scs, sc.seq ≠ 0) ∧ (snapshotSeq = 0 ∨ ∃ sc ∈ scs, snapshotSeq < sc.seq))

end MRE.Recovery

/-! ## Leaders -/

namespace MRE.Failover

/-- At most one live process has a handle that reports a leader. -/
def SingleLeader (s : System) : Prop :=
  ∀ (i j : Nat) (c d : Controller), s.controllers[i]? = some c → s.controllers[j]? = some d →
    c.alive = true → d.alive = true → c.isLeader = true → d.isLeader = true → i = j

/-- The step is not that of an election thread that releases its lease while its
handles report a leader. -/
def KeepsLease (s : System) : System.Action → Prop
  | .thread i => ∀ c ∈ s.controllers[i]?, c.alive = true → c.pc = .releasing → c.isLeader = false
  | _ => True

instance KeepsLease.decidable (s : System) : ∀ a : System.Action, Decidable (KeepsLease s a)
  | .thread i => inferInstanceAs
      (Decidable (∀ c ∈ s.controllers[i]?, c.alive = true → c.pc = .releasing → c.isLeader = false))
  | .drop _ => inferInstanceAs (Decidable True)
  | .crash _ => inferInstanceAs (Decidable True)

/-- Leaders lose the lease by a crash only. -/
def NoLeaderReleases (s : System) (actions : List System.Action) : Prop := AllSteps System.step KeepsLease s actions

instance (s : System) (actions : List System.Action) : Decidable (NoLeaderReleases s actions) :=
  AllSteps.decidable System.step KeepsLease s actions

end MRE.Failover
