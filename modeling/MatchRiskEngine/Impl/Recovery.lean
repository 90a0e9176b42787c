import Mathlib.Data.List.AList
import Mathlib.Data.List.Sort
import MatchRiskEngine.Framework.Decimal
import MatchRiskEngine.Impl.Wal

/-!
# Recovery and the standby

The `wal` crate's `recover`, which loads the latest snapshot of a shard and the
commands of the log after it, and the `sequencer` crate's replicator, which polls
it until its process becomes leader.

`SnapshotWriter` writes the state of a shard to a file named after the shard and
the sequence number, and `latest_snapshot` goes through the files of a shard from
the last name down until it can read one. A directory is the contents of its files
by their names, in the order in which they are listed. File operations are taken
to succeed, and `rename` to be atomic. Serialising the state is left to the caller.
-/

namespace MRE.Recovery

open MRE.Wal

structure SnapshotMeta where
  shardId : UInt32
  seq : UInt64
  tsNs : UInt64
  payloadLen : UInt32
  crc32 : UInt32
  deriving DecidableEq, Repr

structure Snapshot where
  header : SnapshotMeta
  payload : List UInt8
  deriving DecidableEq, Repr

inductive RecoveryError where
  | walNotFound
  deriving DecidableEq, Repr

structure RecoveryOutput where
  snapshot : Option Snapshot
  snapshotSeq : UInt64
  commands : List SequencedCommand
  lastRecoveredSeq : UInt64
  corruptRecords : Nat
  seqGaps : Nat
  highestTerm : UInt64
  deriving DecidableEq, Repr

/-- The sequence number of a snapshot; 0 if there is none. -/
def seqOf (snapshot : Option Snapshot) : UInt64 := (snapshot.map fun s => s.header.seq).getD 0

def recover (codec : Codec) (crc32 : Checksum) (walFile : Option (List UInt8)) (snapshot : Option Snapshot) :
    Option (Except RecoveryError RecoveryOutput) :=
  match walFile with
  | none => some (.error .walNotFound)
  | some walBytes => do
    let snapshotSeq := seqOf snapshot
    let records ← scanWal codec crc32 walBytes snapshotSeq
    let lastRecoveredSeq := (records.commands.getLast?.map SequencedCommand.seq).getD 0
    some (.ok
      { snapshot
        snapshotSeq
        commands := records.commands
        lastRecoveredSeq
        corruptRecords := records.corruptRecords
        seqGaps := records.seqGaps
        highestTerm := records.highestTerm })

/-! ## The standby -/

structure StandbyReplicator where
  lastSeq : UInt64
  highestTerm : UInt64
  deriving DecidableEq, Repr

namespace StandbyReplicator

def new : StandbyReplicator := { lastSeq := 0, highestTerm := 0 }

def pollOnce (codec : Codec) (crc32 : Checksum) (r : StandbyReplicator) (walFile : Option (List UInt8))
    (snapshot : Option Snapshot) : Option (Except RecoveryError UInt64 × StandbyReplicator) := do
  match ← recover codec crc32 walFile snapshot with
  | .error e => some (.error e, r)
  | .ok out =>
    -- a stale term: this pass is ignored
    if out.highestTerm < r.highestTerm then some (.ok r.lastSeq, r)
    else
      let r := { r with highestTerm := out.highestTerm }
      let r := if r.lastSeq < out.lastRecoveredSeq then { r with lastSeq := out.lastRecoveredSeq } else r
      some (.ok r.lastSeq, r)

/-- What one turn of the loop reads. -/
structure Poll where
  leader : Bool
  walFile : Option (List UInt8)
  snapshot : Option Snapshot

/-- The number to count from on promotion; `some none` if there was none in
these turns. The errors of a pass are only reported. -/
def runUntilPromoted (codec : Codec) (crc32 : Checksum) :
    StandbyReplicator → List Poll → Option (Option UInt64)
  | _, [] => some none
  | r, p :: polls => do
    let (_, r) ← r.pollOnce codec crc32 p.walFile p.snapshot
    if p.leader then some (some r.lastSeq) else r.runUntilPromoted codec crc32 polls

end StandbyReplicator

/-! ## Snapshot files -/

/-- `MRESN001`. -/
def snapMagic : List UInt8 := [0x4D, 0x52, 0x45, 0x53, 0x4E, 0x30, 0x30, 0x31]

def snapVersion : UInt32 := 1

def snapHeaderSize : Nat := 48

inductive SnapshotError where
  /-- A file that is not there, or that is too short. -/
  | io
  | invalidMagic
  | unsupportedVersion (version : UInt32)
  | crc32Mismatch (stored computed : UInt32)
  | payloadTooLarge (length : Nat)
  deriving DecidableEq, Repr

/-! ## Names -/

abbrev FileName : Type := List UInt8

abbrev Directory : Type := AList fun _ : FileName => List UInt8

def dot : UInt8 := 0x2E

/-- `snap`. -/
def snapExtension : FileName := [0x73, 0x6E, 0x61, 0x70]

/-- `tmp`. -/
def tmpExtension : FileName := [0x74, 0x6D, 0x70]

/-- A name's stem and its extension: what is before and after the last dot, if
there is one behind the first byte. -/
def splitExtension (name : FileName) : FileName × Option FileName :=
  let ext := (name.reverse.takeWhile (· ≠ dot)).reverse
  let stem := name.take (name.length - ext.length - 1)
  if stem = [] then (name, none) else (stem, some ext)

def extension (name : FileName) : Option FileName := (splitExtension name).2

def withExtension (name ext : FileName) : FileName := (splitExtension name).1 ++ dot :: ext

/-- `shard_` and the shard's number, with four digits or more, and `_`. -/
def shardPrefix (shardId : UInt32) : FileName :=
  [0x73, 0x68, 0x61, 0x72, 0x64, 0x5F] ++ decimal 4 shardId.toNat ++ [0x5F]

def snapshotPath (shardId : UInt32) (seq : UInt64) : FileName :=
  shardPrefix shardId ++ decimal 20 seq.toNat ++ dot :: snapExtension

/-! ## Writing -/

/-- Create a file, or replace what is in it. -/
def writeFile (dir : Directory) (name : FileName) (contents : List UInt8) : Directory := dir.insert name contents

def rename (dir : Directory) (source target : FileName) : Option Directory :=
  (dir.lookup source).map fun contents => writeFile (dir.erase source) target contents

def snapshotHeader (crc32 : Checksum) (shardId : UInt32) (seq tsNs : UInt64) (payload : List UInt8) :
    List UInt8 :=
  snapMagic ++ leU32 snapVersion ++ leU32 shardId ++ leU64 seq ++ leU64 tsNs ++
    leU32 (UInt32.ofNat payload.length) ++ leU32 (crc32 payload) ++ List.replicate 8 0

structure SnapshotWriter where
  maxPayload : Nat
  deriving DecidableEq, Repr

/-- The name of the file, or the error, and the directory. -/
def SnapshotWriter.write (crc32 : Checksum) (writer : SnapshotWriter) (dir : Option Directory)
    (shardId : UInt32) (seq tsNs : UInt64) (payload : List UInt8) :
    Option Directory × Except SnapshotError FileName :=
  if writer.maxPayload < payload.length then (dir, .error (.payloadTooLarge payload.length))
  else
    let finalPath := snapshotPath shardId seq
    let tmpPath := withExtension finalPath tmpExtension
    let file := snapshotHeader crc32 shardId seq tsNs payload ++ payload
    let written := writeFile (dir.getD ∅) tmpPath file
    (rename written tmpPath finalPath).elim (some written, .error .io) fun renamed => (some renamed, .ok finalPath)

/-! ## Reading -/

/-- `read_snapshot`, on the contents of the file. -/
def readSnapshot (crc32 : Checksum) (file : List UInt8) : Except SnapshotError Snapshot :=
  if file.length < snapHeaderSize then .error .io
  else if slice file 0 8 ≠ snapMagic then .error .invalidMagic
  else
    let version := u32OfLe (slice file 8 12)
    if version ≠ snapVersion then .error (.unsupportedVersion version)
    else
      let shardId := u32OfLe (slice file 12 16)
      let seq := u64OfLe (slice file 16 24)
      let tsNs := u64OfLe (slice file 24 32)
      let payloadLen := u32OfLe (slice file 32 36)
      let crcStored := u32OfLe (slice file 36 40)
      if file.length < snapHeaderSize + payloadLen.toNat then .error .io
      else
        let payload := slice file snapHeaderSize (snapHeaderSize + payloadLen.toNat)
        let crcComputed := crc32 payload
        if crcStored ≠ crcComputed then .error (.crc32Mismatch crcStored crcComputed)
        else .ok { header := { shardId, seq, tsNs, payloadLen, crc32 := crcStored }, payload }

def snapshotAt (crc32 : Checksum) (dir : Directory) (path : FileName) : Option Snapshot :=
  (dir.lookup path).bind fun file => (readSnapshot crc32 file).toOption

def candidates (dir : Directory) (shardId : UInt32) : List FileName :=
  dir.keys.filter fun name => extension name = some snapExtension ∧ shardPrefix shardId <+: name

def latestSnapshot (crc32 : Checksum) (dir : Option Directory) (shardId : UInt32) : Option Snapshot :=
  dir.bind fun dir =>
    ((candidates dir shardId).insertionSort (· ≤ ·)).reverse.findSome? (snapshotAt crc32 dir)

end MRE.Recovery
