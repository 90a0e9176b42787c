import MatchRiskEngine.Impl.DualLog

/-!
# The dual log and its ring

What the dual log is for: the commands that were accepted can be recovered from
either of the logs, and nothing else can (`DualLog.InStep`).

When no call to the pending ring is in progress, its counter is the number of
entries in the map, and an entry that has left the map has been reported once
(`RingCalls.Accurate`).
-/

namespace MRE

open Wal

variable {X : Crossbeam EntryRef}

/-! ## Two logs in step -/

/-- The writer has room for the command, and has not seen a newer term. -/
def Wal.FileWalWriter.Takes (codec : Codec) (w : FileWalWriter) (sc : SequencedCommand) : Prop :=
  w.highestTerm ≤ sc.term ∧ ∃ payload, codec.serialise sc.cmd = some payload ∧
    w.cursor + align8 (recordHeaderSize + payload.length) ≤ w.mmap.length

def recovered (codec : Codec) (crc32 : Checksum) (w : FileWalWriter) : Option (List SequencedCommand) :=
  (scanWal codec crc32 w.mmap 0).map ScanResult.commands

namespace DualLog

variable (codec : Codec) (crc32 : Checksum)

def pending (d : DualLog X) : List (Option LogEntry) := d.pendingRing.toList.map fun x => d.entries[x.2]?

/-- Both logs hold just these commands, and so does the ring. -/
structure InStep (d : DualLog X) (cmds : List SequencedCommand) : Prop where
  logA : recovered codec crc32 d.logA = some cmds
  logB : recovered codec crc32 d.logB = some cmds
  ring : d.pending = cmds.map fun sc => some (LogEntry.new sc.seq sc.term sc.tsNs sc.cmd)

/-- Write a command at its own time. -/
def writeCommand (d : DualLog X) (sc : SequencedCommand) : DualLog X × Except DualLogError EntryRef :=
  d.write codec crc32 sc.tsNs sc.term sc.seq sc.cmd

def run (d : DualLog X) (writes : List SequencedCommand) : DualLog X :=
  writes.foldl (fun d sc => (d.writeCommand codec crc32 sc).1) d

def results : DualLog X → List SequencedCommand → List (Except DualLogError EntryRef)
  | _, [] => []
  | d, sc :: writes => (d.writeCommand codec crc32 sc).2 :: results (d.writeCommand codec crc32 sc).1 writes

def accepted : DualLog X → List SequencedCommand → List SequencedCommand
  | _, [] => []
  | d, sc :: writes =>
    (if (d.writeCommand codec crc32 sc).2.isOk then [sc] else []) ++ accepted (d.writeCommand codec crc32 sc).1 writes

/-- Before each write the logs are alike: both have room for the command and
take its term, or neither does. -/
def Alike : DualLog X → List SequencedCommand → Prop
  | _, [] => True
  | d, sc :: writes =>
    (d.logA.Takes codec sc ↔ d.logB.Takes codec sc) ∧ Alike (d.writeCommand codec crc32 sc).1 writes

/-- If the write fails there is the same to recover as before. -/
def FailsCleanly (d : DualLog X) (sc : SequencedCommand) : Prop :=
  ∀ e, (d.writeCommand codec crc32 sc).2 = .error e →
    recovered codec crc32 (d.writeCommand codec crc32 sc).1.logA = recovered codec crc32 d.logA ∧
      recovered codec crc32 (d.writeCommand codec crc32 sc).1.logB = recovered codec crc32 d.logB

end DualLog

/-! ## The counter at rest -/

namespace RingCalls

/-- No call is in progress. -/
def AtRest (x : RingCalls X) : Prop := ∀ pc ∈ x.threads, pc = .idle

/-- The keys that the collections have counted. -/
def collected (x : RingCalls X) : List UInt64 := x.gcResults.flatMap Prod.snd

structure Accurate (x : RingCalls X) : Prop where
  /-- As a `usize`, which holds the number unless all 2^64 keys are in the map. -/
  len : x.len = UInt64.ofNat x.ring.toList.length
  len_toNat : x.ring.toList.length < 2 ^ 64 → x.len.toNat = x.ring.toList.length
  /-- What is in the map has not been reported. -/
  present : ∀ seq ∈ x.pushedSeqs, x.ring.containsKey seq → seq ∉ x.removeResults ∧ seq ∉ x.collected
  /-- What has left the map is reported by one `remove` or counted by one
  collection. -/
  gone : ∀ seq ∈ x.pushedSeqs, x.ring.containsKey seq = false → x.removeResults.count seq + x.collected.count seq = 1
  /-- The result of a collection is the number of the keys it has counted. -/
  counted : ∀ r ∈ x.gcResults, r.1 = UInt64.ofNat r.2.length

end RingCalls

end MRE
