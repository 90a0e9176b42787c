import MatchRiskEngine.Impl.DualEngine
import MatchRiskEngine.Impl.DualLog

/-!
# The dual log in front of the engines

The whole of the dual-engine pipeline: the writer of the dual log
(`DualLog::write`), the primary, the sorters and the workers, and threads that
collect what is handled (`PendingRing::gc_terminal`, `GcPc`). Nobody else sees the
logs, so that a write is one step: the entry appears in the ring.

A send fails once there is no receiver, and what is on the channel when the last
receiver goes is discarded (`Pipeline.discard`).
-/

namespace MRE

/-- Where a collection of the terminal entries is. -/
inductive GcPc where
  | idle
  /-- Iterating, as far as the key `last`. -/
  | collect (last : Option UInt64) (terminalKeys : List UInt64)
  /-- Next is the status of the entry with the key `seq`. -/
  | load (seq : UInt64) (entry : EntryRef) (terminalKeys : List UInt64)
  | remove (terminalKeys : List UInt64)
  deriving DecidableEq, Repr

/-- `accepted` are the entries whose write returned `Ok`. -/
structure DualPipeline (M K : Type) (X : Crossbeam EntryRef) where
  logA : Wal.FileWalWriter
  logB : Wal.FileWalWriter
  lastAssignedSeq : UInt64
  pipeline : Pipeline M K X
  gcs : List GcPc
  accepted : List EntryRef

inductive DualPipeline.Action where
  | write (tsNs term seq : UInt64) (cmd : InboundCommand)
  | primary (entry : EntryRef)
  | startScan (sorter : Nat) (nowNs : UInt64) (load : UInt8)
  | sorter (sorter : Nat)
  | worker (worker : Nat) (nowNs : UInt64)
  | stop (worker : Nat)
  | startGc (gc : Nat)
  | gc (gc : Nat)
  deriving DecidableEq, Repr

variable {M K : Type} {X : Crossbeam EntryRef}

/-- A channel without receivers is disconnected. -/
def Pipeline.discard (p : Pipeline M K X) : Pipeline M K X :=
  if p.connected then p else { p with channel := X.disconnect p.channel }

namespace DualPipeline

/-- Logs that are open, and a ring that is empty. -/
def init (X : Crossbeam EntryRef) (logA logB : Wal.FileWalWriter) (lastAssignedSeq : UInt64) (sorters gcs : Nat)
    (books : List (SecondEngine.Books M K)) : DualPipeline M K X :=
  { logA, logB, lastAssignedSeq, pipeline := .init [] .new sorters books, gcs := List.replicate gcs .idle, accepted := [] }

/-- The dual log, which shares the ring with the engines. -/
def dualLog (x : DualPipeline M K X) : DualLog X :=
  { logA := x.logA, logB := x.logB, lastAssignedSeq := x.lastAssignedSeq, pendingRing := x.pipeline.ring
    entries := x.pipeline.entries }

def write (codec : Codec) (crc32 : Checksum) (x : DualPipeline M K X) (tsNs term seq : UInt64)
    (cmd : InboundCommand) : DualPipeline M K X :=
  let (d, res) := x.dualLog.write codec crc32 tsNs term seq cmd
  { x with
    logA := d.logA, logB := d.logB, lastAssignedSeq := d.lastAssignedSeq
    pipeline := { x.pipeline with entries := d.entries, ring := d.pendingRing }
    accepted := x.accepted ++ res.toOption.toList }

def setGc (x : DualPipeline M K X) (i : Nat) (pc : GcPc) : DualPipeline M K X := { x with gcs := x.gcs.set i pc }

/-- The next step of the collection `i`, which is at `pc`. -/
def stepGc (x : DualPipeline M K X) (i : Nat) : GcPc → DualPipeline M K X
  | .idle => x
  | .collect last terminalKeys =>
    match x.pipeline.ring.next last with
    | some (seq, entry) => x.setGc i (.load seq entry terminalKeys)
    | none => x.setGc i (.remove terminalKeys)
  | .load seq entry terminalKeys =>
    match x.pipeline.entries[entry]? with
    | some e =>
      if e.loadStatus.isTerminal then x.setGc i (.collect (some seq) (terminalKeys ++ [seq]))
      else x.setGc i (.collect (some seq) terminalKeys)
    | none => x
  | .remove [] => x.setGc i .idle
  | .remove (key :: terminalKeys) =>
    { x with pipeline := { x.pipeline with ring := x.pipeline.ring.remove key } }.setGc i (.remove terminalKeys)

variable [DecidableEq K] [Arena M K]

def engines (x : DualPipeline M K X) (a : MRE.Action) : DualPipeline M K X :=
  { x with pipeline := (x.pipeline.step a).discard }

def step (codec : Codec) (crc32 : Checksum) (x : DualPipeline M K X) : Action → DualPipeline M K X
  | .write tsNs term seq cmd => x.write codec crc32 tsNs term seq cmd
  | .primary entry => x.engines (.primary entry)
  | .startScan i nowNs load => x.engines (.startScan i nowNs load)
  | .sorter i => x.engines (.sorter i)
  | .worker i nowNs => x.engines (.worker i nowNs)
  | .stop i => x.engines (.stop i)
  | .startGc i =>
    match x.gcs[i]? with
    | some .idle => x.setGc i (.collect none [])
    | _ => x
  | .gc i =>
    match x.gcs[i]? with
    | some pc => x.stepGc i pc
    | none => x

def run (codec : Codec) (crc32 : Checksum) (x : DualPipeline M K X) (actions : List Action) :
    DualPipeline M K X :=
  actions.foldl (step codec crc32) x

end DualPipeline

/-! ## Clocks -/

/-- `origin.elapsed().as_nanos() as u64`, at the instant `now`. -/
def elapsedNs (origin now : Nat) : UInt64 := UInt64.ofNat (now - origin)

/-- When the dual log and a sorter were created. -/
structure ClockOrigins where
  dualLog : Nat
  sorter : Nat
  deriving DecidableEq, Repr

namespace ClockOrigins

/-- `DualLog::write` at the instant `now`. -/
def write (origins : ClockOrigins) (now : Nat) (term seq : UInt64) (cmd : InboundCommand) : DualPipeline.Action :=
  .write (elapsedNs origins.dualLog now) term seq cmd

/-- The start of `Sorter::scan_once` at the instant `now`. -/
def startScan (origins : ClockOrigins) (i now : Nat) (load : UInt8) : DualPipeline.Action :=
  .startScan i (elapsedNs origins.sorter now) load

end ClockOrigins

end MRE
