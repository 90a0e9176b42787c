import Mathlib.Data.List.AList
import MatchRiskEngine.Impl.LogEntry
import MatchRiskEngine.Impl.OrderBook

/-!
# The dual-engine pipeline

The primary, the sorters (`Sorter::scan_once`) and the second engine's workers
(`SecondEngine::worker_loop`) over shared entries, the pending ring and the
escalation channel. Each of them is a thread at some point of its loop (`SorterPc`,
`WorkerPc`), and a step takes one of them past one access to something shared
(`Pipeline.step`). An action whose thread cannot go on changes nothing.

A scan collects the ring's entries one by one, so that what it works on may be out
of date. Clocks and the primary's load are read as any value. Metrics are not
modelled. `none` is a panic.
-/

namespace MRE

namespace SecondEngine

variable {M K : Type} [DecidableEq K] [Arena M K]

variable (M K) in
abbrev Books : Type := AList fun _ : Symbol => OrderBook M K

/-- The books that each worker starts with; of two configs with the same symbol
the later one counts. -/
def buildBooks (configs : List BookConfig) : Option (Books M K) :=
  configs.foldlM (fun books cfg => (OrderBook.new cfg).map (books.insert cfg.symbol)) ∅

/-- The last price and the total quantity of the order's trades as taker. -/
def accumulateFill (events : List EngineEvent) (thisOrderId : OrderId) : UInt64 × UInt64 :=
  events.foldl (fun (fillPrice, filledQty) ev =>
    match ev with
    | .trade t =>
      if t.takerOrderId = thisOrderId then (t.price.raw.toUInt64, filledQty + t.qty.raw) else (fillPrice, filledQty)
    | _ => (fillPrice, filledQty)) (0, 0)

/-- The books once the entry is applied, its price and quantity, and whether
its symbol is known. -/
def applyEscalated (entry : LogEntry) (books : Books M K) : Option (Books M K × UInt64 × UInt64 × Bool) :=
  let seqCmd : SequencedCommand := { term := entry.term, seq := entry.seq, tsNs := entry.timestampIn, cmd := entry.cmd }
  match entry.cmd with
  | .newOrder o =>
    match books.lookup o.symbol with
    | none => some (books, 0, 0, false)
    | some book => do
      let (book, events) ← book.apply seqCmd
      let (fillPrice, filledQty) := accumulateFill events ⟨entry.seq⟩
      some (books.replace o.symbol book, fillPrice, filledQty, true)
  | .liquidate symbol account =>
    match books.lookup symbol with
    | none => some (books, 0, 0, false)
    | some book => do
      let book ← (book.openOrderIdsForAccount account).foldlM
        (fun book orderId => (book.apply { seqCmd with cmd := .cancel account orderId }).map Prod.fst) book
      some (books.replace symbol book, 0, 0, true)
  | .cancel _ _ => do
    -- every book, whatever its symbol: they are independent of each other
    let books ← books.keys.foldlM (fun books symbol => do
      let book ← books.lookup symbol
      let (book, _) ← book.apply seqCmd
      some (books.replace symbol book)) books
    some (books, 0, 0, true)
  | .freezeAccount _ => some (books, 0, 0, true)

end SecondEngine

/-! ## The pipeline -/

/-- Nanoseconds a sorter gives the primary, by its load in percent. -/
def adaptiveTimeout (load : UInt8) : UInt64 :=
  if load ≤ 50 then 200000
  else if load ≤ 80 then 500000
  else if load ≤ 95 then 1000000
  else 2000000

/-- Where a sorter is. `entries` is what its snapshot still holds. -/
inductive SorterPc where
  | idle
  /-- Taking the snapshot, as far as the key `last`. -/
  | snapshot (nowNs timeout : UInt64) (last : Option UInt64) (entries : List EntryRef)
  | scan (nowNs timeout : UInt64) (entries : List EntryRef)
  | loaded (nowNs timeout : UInt64) (entry : EntryRef) (status : OrderStatus) (entries : List EntryRef)
  /-- An entry is claimed, and is to be sent. -/
  | send (nowNs timeout : UInt64) (entry : EntryRef) (entries : List EntryRef)
  deriving DecidableEq, Repr

inductive WorkerPc where
  | recv
  | received (entry : EntryRef)
  | loaded (entry : EntryRef) (status : OrderStatus)
  /-- The entry is claimed, and is to be applied. -/
  | claimed (entry : EntryRef)
  | applied (entry : EntryRef) (nowNs fillPrice filledQty : UInt64)
  | recorded (entry : EntryRef)
  /-- The thread has ended. -/
  | stopped
  deriving DecidableEq, Repr

structure Worker (M K : Type) where
  pc : WorkerPc
  books : SecondEngine.Books M K

/-- The shared state and the threads, and what happened so far to each entry:
the claims of the primary, the sends and the applications. -/
structure Pipeline (M K : Type) (X : Crossbeam EntryRef) where
  entries : List LogEntry
  ring : PendingRing X
  channel : X.Channel
  sorters : List SorterPc
  workers : List (Worker M K)
  addressed : List EntryRef
  sent : List EntryRef
  applied : List EntryRef

inductive Action where
  /-- An entry is written and put in the ring. -/
  | push (seq term timestampIn : UInt64) (cmd : InboundCommand)
  | primary (entry : EntryRef)
  | startScan (sorter : Nat) (nowNs : UInt64) (load : UInt8)
  | sorter (sorter : Nat)
  | worker (worker : Nat) (nowNs : UInt64)
  | stop (worker : Nat)
  deriving DecidableEq, Repr

namespace Pipeline

variable {M K : Type} {X : Crossbeam EntryRef}

def init (entries : List LogEntry) (ring : PendingRing X) (sorters : Nat) (books : List (SecondEngine.Books M K)) :
    Pipeline M K X :=
  { entries, ring, channel := X.newChannel, sorters := List.replicate sorters .idle
    workers := books.map fun books => ⟨.recv, books⟩, addressed := [], sent := [], applied := [] }

def setSorter (p : Pipeline M K X) (i : Nat) (pc : SorterPc) : Pipeline M K X := { p with sorters := p.sorters.set i pc }

def setWorker (p : Pipeline M K X) (i : Nat) (w : Worker M K) : Pipeline M K X := { p with workers := p.workers.set i w }

/-- Exchange an entry's status; `none` if that fails. -/
def tryClaim (p : Pipeline M K X) (entry : EntryRef) (source target : OrderStatus) : Option (Pipeline M K X) := do
  let e ← p.entries[entry]?
  let e ← e.tryClaim source target
  some { p with entries := p.entries.set entry e }

/-- Some worker still holds the receiving end of the channel. -/
def connected (p : Pipeline M K X) : Bool := p.workers.any fun w => w.pc ≠ .stopped

/-- A send on the channel: it fails if there is no receiver. -/
def sendEntry (p : Pipeline M K X) (entry : EntryRef) : Pipeline M K X :=
  if p.connected then { p with channel := X.send p.channel entry, sent := p.sent ++ [entry] } else p

def removeEntry (p : Pipeline M K X) (e : LogEntry) : Pipeline M K X := { p with ring := p.ring.remove e.seq }

/-- The next step of the sorter `i`, which is at `pc`. -/
def stepSorter (p : Pipeline M K X) (i : Nat) : SorterPc → Pipeline M K X
  | .idle => p
  | .snapshot nowNs timeout last entries =>
    match p.ring.next last with
    | some (seq, entry) => p.setSorter i (.snapshot nowNs timeout (some seq) (entries ++ [entry]))
    | none => p.setSorter i (.scan nowNs timeout entries)
  | .scan _ _ [] => p.setSorter i .idle
  | .scan nowNs timeout (entry :: entries) =>
    match p.entries[entry]? with
    | some e => p.setSorter i (.loaded nowNs timeout entry e.loadStatus entries)
    | none => p
  | .loaded nowNs timeout entry status entries =>
    match p.entries[entry]?, status with
    | some e, .pending =>
      if timeout < e.ageNs nowNs then
        match p.tryClaim entry .pending .unaddressed with
        | some p => p.setSorter i (.send nowNs timeout entry entries)
        | none => p.setSorter i (.scan nowNs timeout entries)
      else p.setSorter i (.scan nowNs timeout entries)
    | some e, .addressed | some e, .finallyHandled => (p.removeEntry e).setSorter i (.scan nowNs timeout entries)
    | some _, .unaddressed => p.setSorter i (.scan nowNs timeout entries)
    | none, _ => p
  | .send nowNs timeout entry entries => (p.sendEntry entry).setSorter i (.scan nowNs timeout entries)

variable [DecidableEq K] [Arena M K]

def stepWorker (p : Pipeline M K X) (i : Nat) (nowNs : UInt64) (w : Worker M K) : Pipeline M K X :=
  match w.pc with
  | .recv =>
    match X.recv p.channel with
    | none => p
    | some (entry, channel) => { p with channel }.setWorker i { w with pc := .received entry }
  | .received entry =>
    match p.entries[entry]? with
    | some e => p.setWorker i { w with pc := .loaded entry e.loadStatus }
    | none => p
  | .loaded entry status =>
    if status ≠ .unaddressed then p.setWorker i { w with pc := .recv }
    else
      match p.tryClaim entry .unaddressed .finallyHandled with
      | some p => p.setWorker i { w with pc := .claimed entry }
      | none => p.setWorker i { w with pc := .recv }
  | .claimed entry =>
    match p.entries[entry]? with
    | some e =>
      let p := { p with applied := p.applied ++ [entry] }
      match SecondEngine.applyEscalated e w.books with
      | some (books, fillPrice, filledQty, _) => p.setWorker i ⟨.applied entry nowNs fillPrice filledQty, books⟩
      | none => p.setWorker i { w with pc := .stopped }
    | none => p
  | .applied entry nowNs fillPrice filledQty =>
    { p with entries := p.entries.modify entry (·.recordFill 2 nowNs fillPrice filledQty) }.setWorker i
      { w with pc := .recorded entry }
  | .recorded entry =>
    match p.entries[entry]? with
    | some e => (p.removeEntry e).setWorker i { w with pc := .recv }
    | none => p
  | .stopped => p

def step (p : Pipeline M K X) : Action → Pipeline M K X
  | .push seq term timestampIn cmd =>
    { p with
      entries := p.entries ++ [LogEntry.new seq term timestampIn cmd]
      ring := p.ring.push seq p.entries.length }
  | .primary entry =>
    match p.tryClaim entry .pending .addressed with
    | some p => { p with addressed := p.addressed ++ [entry] }
    | none => p
  | .startScan i nowNs load =>
    match p.sorters[i]? with
    | some .idle => p.setSorter i (.snapshot nowNs (adaptiveTimeout load) none [])
    | _ => p
  | .sorter i =>
    match p.sorters[i]? with
    | some pc => p.stepSorter i pc
    | none => p
  | .worker i nowNs =>
    match p.workers[i]? with
    | some w => p.stepWorker i nowNs w
    | none => p
  | .stop i =>
    match p.workers[i]? with
    | some w => p.setWorker i { w with pc := .stopped }
    | none => p

def run (p : Pipeline M K X) (actions : List Action) : Pipeline M K X := actions.foldl step p

end Pipeline

/-! ## The pool of workers -/

variable {M K : Type} {X : Crossbeam EntryRef} [DecidableEq K] [Arena M K]

/-- The workers with their books, and a channel on which the entries were
sent. -/
def SecondEngine.start (workerCount : Nat) (books : SecondEngine.Books M K) (entries : List LogEntry)
    (ring : PendingRing X) : Pipeline M K X :=
  { Pipeline.init entries ring 0 (List.replicate workerCount books) with
    channel := (List.range entries.length).foldl X.send X.newChannel }

namespace Pipeline

/-- A worker receives an entry, loads its status, claims it, applies it, records
the fill and removes it from the ring. -/
def turn (worker : Nat) (nowNs : UInt64) : List Action := List.replicate 6 (.worker worker nowNs)

/-- Workers take turns: each time the worker and what its clock shows. -/
def runTurns (p : Pipeline M K X) (turns : List (Nat × UInt64)) : Pipeline M K X :=
  p.run (turns.flatMap fun t => turn t.1 t.2)

end Pipeline

end MRE
