import MatchRiskEngine.Impl.LogEntry
import MatchRiskEngine.Impl.Wal

/-!
# The dual log

The `dual-log` crate: each command is appended to two write-ahead logs, and its
entry goes into the pending ring if both appends succeed (`DualLog.write`). The
time since the logs were opened is read as any value. Syncing is not modelled.

In `RingCalls` threads call `push`, `remove` and `gc_terminal` of a `PendingRing`
with its counter `len`: each operation on the map or on the counter is one step of
a thread, and so is each entry an iteration visits and each status it loads. An
action whose thread cannot take it changes nothing. An action `claim` stands for
the engines, which claim entries at any time. `usize` has 64 bits.
-/

namespace MRE

open Wal

inductive DualLogError where
  | logAFailed (e : WalError)
  | logBFailed (e : WalError)
  | bothFailed (a b : WalError)
  deriving DecidableEq, Repr

structure DualLogConfig where
  logACapacity : Nat
  logBCapacity : Nat

structure DualLog (X : Crossbeam EntryRef) where
  logA : FileWalWriter
  logB : FileWalWriter
  lastAssignedSeq : UInt64
  pendingRing : PendingRing X
  /-- The entries that the ring may refer to. -/
  entries : List LogEntry

namespace DualLog

variable {X : Crossbeam EntryRef}

/-- `DualLog::open`, on the bytes of two files. -/
def openLogs (crc32 : Checksum) (fileA fileB : List UInt8) (config : DualLogConfig) (pendingRing : PendingRing X)
    (entries : List LogEntry) : Option (Except DualLogError (DualLog X)) := do
  match ← openFile crc32 fileA config.logACapacity with
  | .error e => some (.error (.logAFailed e))
  | .ok logA =>
    match ← openFile crc32 fileB config.logBCapacity with
    | .error e => some (.error (.logBFailed e))
    | .ok logB => some (.ok { logA, logB, lastAssignedSeq := max logA.lastSeq logB.lastSeq, pendingRing, entries })

/-- Write a command at the time `tsNs`. The entry, or the error; the logs are
changed in both cases. -/
def write (codec : Codec) (crc32 : Checksum) (d : DualLog X) (tsNs term seq : UInt64) (cmd : InboundCommand) :
    DualLog X × Except DualLogError EntryRef :=
  let sc : SequencedCommand := { term, seq, tsNs, cmd }
  let (logA, resA) := d.logA.append codec crc32 sc
  let (logB, resB) := d.logB.append codec crc32 sc
  let d := { d with logA, logB, lastAssignedSeq := seq }
  match resA, resB with
  | .ok _, .ok _ =>
    let entry := d.entries.length
    ({ d with
        entries := d.entries ++ [LogEntry.new seq term tsNs cmd]
        pendingRing := d.pendingRing.push seq entry }, .ok entry)
  | .error a, .error b => (d, .error (.bothFailed a b))
  | .error a, .ok _ => (d, .error (.logAFailed a))
  | .ok _, .error b => (d, .error (.logBFailed b))

end DualLog

/-! ## The pending ring's counter -/

/-- The ring holds an entry under this number. -/
def PendingRing.containsKey {X : Crossbeam EntryRef} (ring : PendingRing X) (seq : UInt64) : Bool :=
  ring.toList.any fun x => x.1 = seq

inductive RingPc where
  | idle
  /-- `push`: the entry is in the map, and is to be counted. -/
  | pushed (seq : UInt64)
  /-- `remove`: the entry is out of the map, and is still counted. -/
  | removed (seq : UInt64)
  /-- `gc_terminal`: iterating, as far as the key `last`. -/
  | collect (last : Option UInt64) (terminalKeys : List UInt64)
  /-- Next is the status of the entry with the key `seq`. -/
  | load (seq : UInt64) (entry : EntryRef) (terminalKeys : List UInt64)
  /-- Removing the keys. `taken` is history: the keys counted by `removed`. -/
  | sweep (terminalKeys : List UInt64) (removed : UInt64) (taken : List UInt64)
  deriving DecidableEq, Repr

structure RingCalls (X : Crossbeam EntryRef) where
  entries : List LogEntry
  ring : PendingRing X
  len : UInt64
  threads : List RingPc
  /-- History: the numbers of the entries pushed. -/
  pushedSeqs : List UInt64
  /-- History: the numbers for which `remove` returned `true`. -/
  removeResults : List UInt64
  /-- History: what each `gc_terminal` returned, and the keys it removed. -/
  gcResults : List (UInt64 × List UInt64)

inductive RingCalls.Action where
  /-- A thread calls `push`, and inserts the entry into the map. -/
  | push (thread : Nat) (e : LogEntry)
  /-- A thread calls `remove`, and removes the key from the map. -/
  | remove (thread : Nat) (seq : UInt64)
  | gcTerminal (thread : Nat)
  | step (thread : Nat)
  | claim (entry : EntryRef) (source target : OrderStatus)
  deriving DecidableEq, Repr

namespace RingCalls

variable {X : Crossbeam EntryRef}

/-- `PendingRing::new`, shared by so many threads. -/
def init (X : Crossbeam EntryRef) (threads : Nat) : RingCalls X :=
  { entries := [], ring := .new, len := 0, threads := List.replicate threads .idle, pushedSeqs := [], removeResults := []
    gcResults := [] }

def setThread (x : RingCalls X) (i : Nat) (pc : RingPc) : RingCalls X := { x with threads := x.threads.set i pc }

def callPush (x : RingCalls X) (i : Nat) (e : LogEntry) : RingCalls X :=
  { x with
    entries := x.entries ++ [e]
    ring := x.ring.push e.seq x.entries.length
    pushedSeqs := x.pushedSeqs ++ [e.seq] }.setThread i (.pushed e.seq)

def callRemove (x : RingCalls X) (i : Nat) (seq : UInt64) : RingCalls X :=
  if x.ring.containsKey seq then { x with ring := x.ring.remove seq }.setThread i (.removed seq) else x

/-- The next step of the thread `i`, which is at `pc`. -/
def stepThread (x : RingCalls X) (i : Nat) : RingPc → RingCalls X
  | .idle => x
  | .pushed _ => { x with len := x.len + 1 }.setThread i .idle
  | .removed seq => { x with len := x.len - 1, removeResults := x.removeResults ++ [seq] }.setThread i .idle
  | .collect last terminalKeys =>
    match x.ring.next last with
    | some (seq, entry) => x.setThread i (.load seq entry terminalKeys)
    | none => x.setThread i (.sweep terminalKeys 0 [])
  | .load seq entry terminalKeys =>
    match x.entries[entry]? with
    | some e =>
      if e.loadStatus.isTerminal then x.setThread i (.collect (some seq) (terminalKeys ++ [seq]))
      else x.setThread i (.collect (some seq) terminalKeys)
    | none => x
  | .sweep (key :: terminalKeys) removed taken =>
    if x.ring.containsKey key then
      { x with ring := x.ring.remove key }.setThread i (.sweep terminalKeys (removed + 1) (taken ++ [key]))
    else x.setThread i (.sweep terminalKeys removed taken)
  | .sweep [] removed taken =>
    { x with
      len := if 0 < removed then x.len - removed else x.len
      gcResults := x.gcResults ++ [(removed, taken)] }.setThread i .idle

/-- Only an idle thread starts a call. -/
def whenIdle (x : RingCalls X) (i : Nat) (x' : RingCalls X) : RingCalls X := if x.threads[i]? = some .idle then x' else x

def claimEntry (x : RingCalls X) (entry : EntryRef) (source target : OrderStatus) : RingCalls X :=
  match x.entries[entry]?.bind (·.tryClaim source target) with
  | some e => { x with entries := x.entries.set entry e }
  | none => x

def step (x : RingCalls X) : Action → RingCalls X
  | .push i e => x.whenIdle i (x.callPush i e)
  | .remove i seq => x.whenIdle i (x.callRemove i seq)
  | .gcTerminal i => x.whenIdle i (x.setThread i (.collect none []))
  | .step i =>
    match x.threads[i]? with
    | some pc => x.stepThread i pc
    | none => x
  | .claim entry source target => x.claimEntry entry source target

def run (x : RingCalls X) (actions : List Action) : RingCalls X := actions.foldl step x

end RingCalls

end MRE
