import MatchRiskEngine.Framework.Crossbeam
import MatchRiskEngine.Framework.MachineInt
import MatchRiskEngine.Impl.CoreTypes

/-!
# Log entries and the pending ring

`LogEntry` with its atomic status, which engines claim by compare-and-exchange
(`LogEntry.tryClaim`), and the `dual-log` crate's `PendingRing`, a map from
sequence numbers to shared entries. Each operation on an atomic or on the map
is one step; the map is any that keeps the laws (`Crossbeam`). The checksum is not
modelled, nor is the ring's counter.
-/

namespace MRE

inductive OrderStatus where
  | pending
  | addressed
  | unaddressed
  | finallyHandled
  deriving DecidableEq, Repr

namespace OrderStatus

def toU8 : OrderStatus → UInt8
  | pending => 0
  | addressed => 1
  | unaddressed => 2
  | finallyHandled => 3

def fromU8 (v : UInt8) : Option OrderStatus :=
  match v with
  | 0 => some pending
  | 1 => some addressed
  | 2 => some unaddressed
  | 3 => some finallyHandled
  | _ => none

def isTerminal : OrderStatus → Bool
  | addressed | finallyHandled => true
  | pending | unaddressed => false

end OrderStatus

structure LogEntry where
  seq : UInt64
  term : UInt64
  timestampIn : UInt64
  cmd : InboundCommand
  status : UInt8
  handledBy : UInt8
  timestampOut : UInt64
  fillPrice : UInt64
  filledQty : UInt64
  deriving DecidableEq, Repr

namespace LogEntry

def new (seq term timestampIn : UInt64) (cmd : InboundCommand) : LogEntry :=
  { seq, term, timestampIn, cmd, status := OrderStatus.pending.toU8, handledBy := 0, timestampOut := 0
    fillPrice := 0, filledQty := 0 }

/-- The entry once it is claimed; `none` if the exchange fails. -/
def tryClaim (e : LogEntry) (source target : OrderStatus) : Option LogEntry :=
  if e.status = source.toU8 then some { e with status := target.toU8 } else none

def loadStatus (e : LogEntry) : OrderStatus := (OrderStatus.fromU8 e.status).getD .pending

def recordFill (e : LogEntry) (engineId : UInt8) (timestampOut fillPrice filledQty : UInt64) : LogEntry :=
  { e with fillPrice, filledQty, timestampOut, handledBy := engineId }

def ageNs (e : LogEntry) (nowNs : UInt64) : UInt64 := nowNs.saturatingSub e.timestampIn

end LogEntry

/-- A shared entry (`Arc<LogEntry>`): its place among the entries. -/
abbrev EntryRef : Type := Nat

/-- The entries that are not known to be handled, by sequence number. -/
structure PendingRing (X : Crossbeam EntryRef) where
  map : X.Map

namespace PendingRing

variable {X : Crossbeam EntryRef}

def new : PendingRing X := ⟨X.newMap⟩

def toList (ring : PendingRing X) : List (UInt64 × EntryRef) := X.entries ring.map

@[simp] theorem toList_new : (new : PendingRing X).toList = [] := X.entries_new

def push (ring : PendingRing X) (seq : UInt64) (entry : EntryRef) : PendingRing X := ⟨X.insert ring.map seq entry⟩

def remove (ring : PendingRing X) (seq : UInt64) : PendingRing X := ⟨X.remove ring.map seq⟩

/-- The next entry of an iteration that has come as far as `last`. -/
def next (ring : PendingRing X) (last : Option UInt64) : Option (UInt64 × EntryRef) := X.next ring.map last

end PendingRing

end MRE
