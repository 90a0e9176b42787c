import MatchRiskEngine.Framework.Actors
import MatchRiskEngine.Impl.DualPipeline
import MatchRiskEngine.Spec.DualLog

/-!
# Entries on their way

A `Ticket` is all that the claim protocol is about, of one entry: its status, how
often it was sent and applied, and who is about to send or to apply it.

No accepted order is lost (`DualPipeline.NoneLost`) if an entry whose write
returned `Ok` is terminal or in the ring, and an `Unaddressed` one is on its way
to a live worker or with it. A step `Orphans` an `Unaddressed` entry if it takes
it from where it was, and `Evicts` an entry that is not terminal if it frees the
entry's key in the ring.

A scan of a `Pending` entry (`AgedScan`) is to escalate it if and only if it is
older than the timeout. The entry's timestamp is on the dual log's clock and the
scan's on the sorter's; `Misjudged` if their `clockError` makes the difference.
-/

namespace MRE

/-- `status` is `none` for an entry that is not there. -/
@[ext]
structure Ticket where
  status : Option OrderStatus
  /-- Sorters that have claimed the entry and are to send it. -/
  escalating : Nat
  sent : Nat
  /-- Workers that have claimed the entry and are to apply it. -/
  claims : Nat
  applied : Nat
  /-- Claims of the primary. -/
  addressed : Nat
  deriving DecidableEq, Repr

namespace Ticket

inductive Step : Ticket → Ticket → Prop where
  | stay (t : Ticket) : Step t t
  | create {t : Ticket} : t.status = none → Step t { t with status := some .pending }
  | address {t : Ticket} : t.status = some .pending →
      Step t { t with status := some .addressed, addressed := t.addressed + 1 }
  | escalate {t : Ticket} : t.status = some .pending →
      Step t { t with status := some .unaddressed, escalating := t.escalating + 1 }
  | send {t : Ticket} {n : Nat} : t.escalating = n + 1 → Step t { t with escalating := n, sent := t.sent + 1 }
  /-- The send fails. -/
  | drop {t : Ticket} {n : Nat} : t.escalating = n + 1 → Step t { t with escalating := n }
  | claim {t : Ticket} : t.status = some .unaddressed →
      Step t { t with status := some .finallyHandled, claims := t.claims + 1 }
  | apply {t : Ticket} {n : Nat} : t.claims = n + 1 → Step t { t with claims := n, applied := t.applied + 1 }
  /-- The worker ends before it applies the entry. -/
  | die {t : Ticket} {n : Nat} : t.claims = n + 1 → Step t { t with claims := n }

end Ticket

def SorterPc.escalates (entry : EntryRef) : SorterPc → Bool
  | .send _ _ e _ => e = entry
  | _ => false

def WorkerPc.claims (entry : EntryRef) : WorkerPc → Bool
  | .claimed e => e = entry
  | _ => false

def Pipeline.status {M K : Type} {X : Crossbeam EntryRef} (p : Pipeline M K X) (entry : EntryRef) : Option OrderStatus :=
  p.entries[entry]?.bind fun e => OrderStatus.fromU8 e.status

def Pipeline.ticket {M K : Type} {X : Crossbeam EntryRef} (p : Pipeline M K X) (entry : EntryRef) : Ticket :=
  { status := p.status entry
    escalating := p.sorters.countP (·.escalates entry)
    sent := p.sent.count entry
    claims := p.workers.countP fun w => w.pc.claims entry
    applied := p.applied.count entry
    addressed := p.addressed.count entry }

/-- An entry that a worker has received and not claimed yet. -/
def WorkerPc.awaits (entry : EntryRef) : WorkerPc → Bool
  | .received e | .loaded e _ => e = entry
  | _ => false

/-- An entry in a worker's hands. -/
def WorkerPc.holds (entry : EntryRef) : WorkerPc → Bool
  | .received e | .loaded e _ | .claimed e | .applied e _ _ _ | .recorded e => e = entry
  | .recv | .stopped => false

variable {M K : Type} {X : Crossbeam EntryRef}

namespace Pipeline

def queued (p : Pipeline M K X) : List EntryRef := X.queued p.channel

def terminal (p : Pipeline M K X) (entry : EntryRef) : Bool := (p.status entry).any OrderStatus.isTerminal

/-- On the channel, in a sorter between its exchange and its send, or in the
hands of a live worker. -/
def onItsWay (p : Pipeline M K X) (entry : EntryRef) : Bool :=
  p.queued.contains entry || p.sorters.any (·.escalates entry) || p.workers.any (·.pc.holds entry)

/-- In how many places an entry is that is not claimed by a worker yet. -/
def places (p : Pipeline M K X) (entry : EntryRef) : Nat :=
  p.sorters.countP (·.escalates entry) + p.queued.count entry + p.workers.countP fun w => w.pc.awaits entry

/-- A sorter has found an entry with this number terminal, or a worker is done
with one. -/
inductive Removes (p : Pipeline M K X) (key : UInt64) : Action → Prop where
  | sorter {i : Nat} {nowNs timeout : UInt64} {entry : EntryRef} {status : OrderStatus} {entries : List EntryRef}
      {e : LogEntry} : p.sorters[i]? = some (.loaded nowNs timeout entry status entries) → status.isTerminal →
      p.entries[entry]? = some e → e.seq = key → Removes p key (.sorter i)
  | worker {i : Nat} {nowNs : UInt64} {w : Worker M K} {entry : EntryRef} {e : LogEntry} : p.workers[i]? = some w →
      w.pc = .recorded entry → p.entries[entry]? = some e → e.seq = key → Removes p key (.worker i nowNs)

end Pipeline

namespace PendingRing

def holds (ring : PendingRing X) (entry : EntryRef) : Bool := ring.toList.any fun x => x.2 = entry

end PendingRing

namespace DualPipeline

structure NoneLost (x : DualPipeline M K X) : Prop where
  accepted : ∀ entry ∈ x.accepted, x.pipeline.terminal entry ∨ x.pipeline.ring.holds entry
  unaddressed : ∀ entry, x.pipeline.status entry = some .unaddressed → x.pipeline.onItsWay entry

/-- The action takes what is under the key from the ring. -/
inductive Frees (codec : Codec) (x : DualPipeline M K X) (key : UInt64) : Action → Prop where
  | sorter {i : Nat} : x.pipeline.Removes key (.sorter i) → Frees codec x key (.sorter i)
  | worker {i : Nat} {nowNs : UInt64} : x.pipeline.Removes key (.worker i nowNs) → Frees codec x key (.worker i nowNs)
  | gc {i : Nat} {keys : List UInt64} : x.gcs[i]? = some (.remove (key :: keys)) → Frees codec x key (.gc i)
  /-- Both logs take a command with this number, and its entry takes the place. -/
  | write {tsNs term : UInt64} {cmd : InboundCommand} : x.logA.Takes codec { term, seq := key, tsNs, cmd } →
      x.logB.Takes codec { term, seq := key, tsNs, cmd } → Frees codec x key (.write tsNs term key cmd)

/-- The entry is under a key that the action frees, though it is not terminal. -/
structure Evicts (codec : Codec) (x : DualPipeline M K X) (entry : EntryRef) (a : Action) : Prop where
  freed : ∃ key, (key, entry) ∈ x.pipeline.ring.toList ∧ x.Frees codec key a
  notTerminal : x.pipeline.terminal entry = false

variable [DecidableEq K] [Arena M K]

/-- The action takes the entry from where it was. -/
inductive Orphans (codec : Codec) (crc32 : Checksum) (x : DualPipeline M K X) (entry : EntryRef) :
    Action → Prop where
  /-- A sorter's send, with no worker left. -/
  | send {i : Nat} {pc : SorterPc} : x.pipeline.sorters[i]? = some pc → pc.escalates entry → x.pipeline.connected = false →
      Orphans codec crc32 x entry (.sorter i)
  /-- A worker ends that has received the entry and not claimed it. -/
  | stop {i : Nat} {w : Worker M K} : x.pipeline.workers[i]? = some w → w.pc.awaits entry →
      Orphans codec crc32 x entry (.stop i)
  /-- The last worker ends, with the entry on the channel. -/
  | discard {a : Action} : entry ∈ x.pipeline.queued → x.pipeline.connected →
      (x.step codec crc32 a).pipeline.connected = false → Orphans codec crc32 x entry a

/-- What `write` asserts of its sequence number in a debug build. -/
def Monotonic (x : DualPipeline M K X) : Action → Prop
  | .write _ _ seq _ => x.lastAssignedSeq < seq
  | _ => True

omit [DecidableEq K] [Arena M K] in
instance Monotonic.decidable (x : DualPipeline M K X) : ∀ a, Decidable (x.Monotonic a)
  | .write _ _ seq _ => inferInstanceAs (Decidable (x.lastAssignedSeq < seq))
  | .primary _ | .startScan .. | .sorter _ | .worker .. | .stop _ | .startGc _ | .gc _ => inferInstanceAs (Decidable True)

end DualPipeline

/-- Of an entry: its status, and in how many places it is. -/
structure Custody where
  status : Option OrderStatus
  places : Nat

/-- What a step can do to an entry that it does not orphan. -/
inductive Custody.Step (c c' : Custody) : Prop where
  | stay : c'.status = c.status → c'.places = c.places → Step c c'
  | create : c.status = none → c'.status = some .pending → c'.places = c.places → Step c c'
  | address : c.status = some .pending → c'.status = some .addressed → c'.places = c.places → Step c c'
  | escalate : c.status = some .pending → c'.status = some .unaddressed → c'.places = c.places + 1 → Step c c'
  | claim : c.status = some .unaddressed → c'.status = some .finallyHandled → c.places = c'.places + 1 → Step c c'

def Pipeline.custody (p : Pipeline M K X) (entry : EntryRef) : Custody := ⟨p.status entry, p.places entry⟩

/-! ## Escalation by age -/

/-- The way of an entry up to a scan and through it. -/
structure AgedScan (M K : Type) (X : Crossbeam EntryRef) where
  codec : Codec
  crc32 : Checksum
  opened : DualPipeline M K X
  origins : ClockOrigins
  earlier : List DualPipeline.Action
  written : Nat
  term : UInt64
  seq : UInt64
  cmd : InboundCommand
  between : List DualPipeline.Action
  sorter : Nat
  scanned : Nat
  load : UInt8
  during : List DualPipeline.Action

/-- The sorter's snapshot comes to the entry. -/
def DualPipeline.Lists (i : Nat) (entry : EntryRef) (x : DualPipeline M K X) (a : Action) : Prop :=
  a = .sorter i ∧ ∃ nowNs timeout last entries key,
    x.pipeline.sorters[i]? = some (.snapshot nowNs timeout last entries) ∧ x.pipeline.ring.next last = some (key, entry)

namespace AgedScan

def write (s : AgedScan M K X) : DualPipeline.Action := s.origins.write s.written s.term s.seq s.cmd

def startScan (s : AgedScan M K X) : DualPipeline.Action := s.origins.startScan s.sorter s.scanned s.load

def actions (s : AgedScan M K X) : List DualPipeline.Action :=
  s.earlier ++ s.write :: s.between ++ s.startScan :: s.during

def timeout (s : AgedScan M K X) : Nat := (adaptiveTimeout s.load).toNat

def age (s : AgedScan M K X) : Nat := s.scanned - s.written

/-- By how much the two clocks' difference is off the age. -/
def clockError (s : AgedScan M K X) : Int :=
  ((elapsedNs s.origins.sorter s.scanned).toNat : Int) - (elapsedNs s.origins.dualLog s.written).toNat - s.age

/-- The age is on one side of the timeout, and with the error on the other. -/
def Misjudged (s : AgedScan M K X) : Prop :=
  (s.age ≤ s.timeout ∧ (s.timeout : Int) < s.age + s.clockError) ∨
    (s.timeout < s.age ∧ s.age + s.clockError ≤ (s.timeout : Int))

end AgedScan

variable [DecidableEq K] [Arena M K]

namespace DualPipeline

variable (codec : Codec) (crc32 : Checksum)

/-- The sorter's step takes the entry from `Pending` to `Unaddressed`. -/
def Escalates (i : Nat) (entry : EntryRef) (x : DualPipeline M K X) (a : Action) : Prop :=
  a = .sorter i ∧ x.pipeline.status entry = some .pending ∧
    (x.step codec crc32 a).pipeline.status entry = some .unaddressed

instance Escalates.decidable (i : Nat) (entry : EntryRef) (x : DualPipeline M K X) (a : Action) :
    Decidable (Escalates codec crc32 i entry x a) :=
  inferInstanceAs (Decidable (a = .sorter i ∧ x.pipeline.status entry = some .pending ∧
    (x.step codec crc32 a).pipeline.status entry = some .unaddressed))

/-- Only the sorter may take the entry from `Pending`, in the scan that it is at. -/
def LeavesPending (i : Nat) (entry : EntryRef) (x : DualPipeline M K X) (a : Action) : Prop :=
  a = .sorter i ∨ (∀ nowNs load, a ≠ .startScan i nowNs load) ∧
    (x.pipeline.status entry = some .pending → (x.step codec crc32 a).pipeline.status entry = some .pending)

end DualPipeline

namespace AgedScan

def atWrite (s : AgedScan M K X) : DualPipeline M K X := s.opened.run s.codec s.crc32 s.earlier

def entry (s : AgedScan M K X) : EntryRef := s.atWrite.pipeline.entries.length

def afterWrite (s : AgedScan M K X) : DualPipeline M K X := s.atWrite.step s.codec s.crc32 s.write

def atScan (s : AgedScan M K X) : DualPipeline M K X := s.afterWrite.run s.codec s.crc32 s.between

/-- The scan has begun. -/
def scanning (s : AgedScan M K X) : DualPipeline M K X := s.atScan.step s.codec s.crc32 s.startScan

def Escalated (s : AgedScan M K X) : Prop :=
  SomeStep (DualPipeline.step s.codec s.crc32) (DualPipeline.Escalates s.codec s.crc32 s.sorter s.entry) s.scanning s.during

def Listed (s : AgedScan M K X) : Prop :=
  SomeStep (DualPipeline.step s.codec s.crc32) (DualPipeline.Lists s.sorter s.entry) s.scanning s.during

/-- The entry is accepted after both were created, and is `Pending` when the scan
starts and but for the scan; and the scan ends. -/
structure Valid (s : AgedScan M K X) : Prop where
  opened : ∃ logA logB lastAssignedSeq sorters gcs books,
    s.opened = .init X logA logB lastAssignedSeq sorters gcs books
  created : s.origins.dualLog ≤ s.written ∧ s.origins.sorter ≤ s.written
  order : s.written ≤ s.scanned
  accepted : s.afterWrite.accepted = s.atWrite.accepted ++ [s.entry]
  pending : s.atScan.pipeline.status s.entry = some .pending
  idle : s.atScan.pipeline.sorters[s.sorter]? = some .idle
  leaves : AllSteps (DualPipeline.step s.codec s.crc32) (DualPipeline.LeavesPending s.codec s.crc32 s.sorter s.entry)
    s.scanning s.during
  ended : (s.scanning.run s.codec s.crc32 s.during).pipeline.sorters[s.sorter]? = some .idle

end AgedScan

end MRE
