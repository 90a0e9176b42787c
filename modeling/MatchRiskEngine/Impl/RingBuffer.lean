import MatchRiskEngine.Framework.Ring

/-!
# The ring buffers

The queues of the `ring-buffer` crate, with one producer and either one consumer
(`Spsc`) or several that each get every item (`Spmc`). The two differ in what
`try_push` compares its own cursor with; the rest is one machine (`Queue`).

Every access to something shared is a step of its own (`Queue.step`), and an
interleaving is a list of actions. An action whose thread cannot go on changes
nothing. A cursor is given by all values stored in it, the oldest first: a load
returns one of them that is not older than the one its thread saw last. A slot that
was never written is `none`, and reading it is a fault.
-/

namespace MRE

namespace RingBuffer

inductive ConsumerPc (α : Type) where
  | idle
  /-- The queue is not empty, and the slot is to be read. -/
  | read
  /-- The item is read, and the cursor is to be stored. -/
  | store (item : α)
  deriving DecidableEq, Repr

structure Consumer (α : Type) where
  tailStores : List UInt64
  cachedTail : UInt64
  /-- Which store of the producer's cursor the consumer saw last. -/
  headView : Nat
  pc : ConsumerPc α
  /-- History: the items of calls that returned one. -/
  popped : List α
  fault : Bool
  deriving DecidableEq, Repr

inductive ProducerPc (α : Type) where
  | idle
  /-- Loading the consumers' cursors, one after the other. -/
  | loading (item : α) (seen : List UInt64)
  /-- The queue is not full, and the slot is to be written. -/
  | write (item : α)
  /-- The slot is written, and the cursor is to be stored. -/
  | store (item : α)
  deriving DecidableEq, Repr

structure Queue (α : Type) where
  slots : List (Option α)
  headStores : List UInt64
  cachedHead : UInt64
  pc : ProducerPc α
  /-- Which store of each consumer's cursor the producer saw last. -/
  tailViews : List Nat
  consumers : List (Consumer α)
  /-- History: the items pushed. -/
  pushed : List α
  /-- History: the calls of `try_push` that have returned. -/
  results : List (α × Except α Unit)

inductive Action (α : Type) where
  | push (item : α)
  /-- Load the next consumer's cursor, and get this store of it. -/
  | loadTail (view : Nat)
  | check
  | writeSlot
  | storeHead
  /-- A call of `try_pop`: load the producer's cursor, and get this store of
  it. -/
  | loadHead (consumer view : Nat)
  | readSlot (consumer : Nat)
  | storeTail (consumer : Nat)
  deriving DecidableEq, Repr

def mask (cap idx : UInt64) : Nat := (idx &&& (cap - 1)).toNat

def Consumer.new {α : Type} : Consumer α :=
  { tailStores := [0], cachedTail := 0, headView := 0, pc := .idle, popped := [], fault := false }

namespace Queue

variable {α : Type}

/-- A queue with so many consumers; `none` is a failed assertion. -/
def new (cap : UInt64) (consumers : Nat) : Option (Queue α) :=
  if Ring.IsPowerOfTwo cap then some
    { slots := List.replicate cap.toNat none
      headStores := [0]
      cachedHead := 0
      pc := .idle
      tailViews := List.replicate consumers 0
      consumers := List.replicate consumers Consumer.new
      pushed := []
      results := [] }
  else none

/-! ## The producer -/

def loadTail (q : Queue α) (view : Nat) : Queue α :=
  match q.pc with
  | .loading item seen =>
    match q.consumers[seen.length]?, q.tailViews[seen.length]? with
    | some c, some last =>
      match c.tailStores[view]? with
      | some tail =>
        if last ≤ view then
          { q with pc := .loading item (seen ++ [tail]), tailViews := q.tailViews.set seen.length view }
        else q
      | none => q
    | _, _ => q
  | _ => q

/-- With all cursors loaded, go on if the queue is not full. -/
def check (tailOf : List UInt64 → UInt64) (cap : UInt64) (q : Queue α) : Queue α :=
  match q.pc with
  | .loading item seen =>
    if seen.length = q.consumers.length then
      if q.cachedHead - tailOf seen = cap then { q with pc := .idle, results := q.results ++ [(item, .error item)] }
      else { q with pc := .write item }
    else q
  | _ => q

def writeSlot (cap : UInt64) (q : Queue α) : Queue α :=
  match q.pc with
  | .write item => { q with pc := .store item, slots := q.slots.set (mask cap q.cachedHead) (some item) }
  | _ => q

/-- Store the cursor, and return. -/
def storeHead (q : Queue α) : Queue α :=
  match q.pc with
  | .store item =>
    { q with
      pc := .idle
      headStores := q.headStores ++ [q.cachedHead + 1]
      cachedHead := q.cachedHead + 1
      pushed := q.pushed ++ [item]
      results := q.results ++ [(item, .ok ())] }
  | _ => q

end Queue

/-! ## The consumers -/

namespace Consumer

variable {α : Type}

/-- Go on if the queue is not empty. -/
def loadHead (headStores : List UInt64) (view : Nat) (c : Consumer α) : Consumer α :=
  match c.pc, headStores[view]? with
  | .idle, some head =>
    if c.headView ≤ view then
      if head = c.cachedTail then { c with headView := view } else { c with headView := view, pc := .read }
    else c
  | _, _ => c

def readSlot (cap : UInt64) (slots : List (Option α)) (c : Consumer α) : Consumer α :=
  match c.pc with
  | .read =>
    match slots[mask cap c.cachedTail]? with
    | some (some item) => { c with pc := .store item }
    | _ => { c with fault := true }
  | _ => c

/-- Store the cursor, and return the item. -/
def storeTail (c : Consumer α) : Consumer α :=
  match c.pc with
  | .store item =>
    { c with
      pc := .idle
      tailStores := c.tailStores ++ [c.cachedTail + 1]
      cachedTail := c.cachedTail + 1
      popped := c.popped ++ [item] }
  | _ => c

end Consumer

namespace Queue

variable {α : Type}

def step (tailOf : List UInt64 → UInt64) (cap : UInt64) (q : Queue α) : Action α → Queue α
  | .push item =>
    match q.pc with
    | .idle => { q with pc := .loading item [] }
    | _ => q
  | .loadTail view => q.loadTail view
  | .check => q.check tailOf cap
  | .writeSlot => q.writeSlot cap
  | .storeHead => q.storeHead
  | .loadHead i view => { q with consumers := q.consumers.modify i (Consumer.loadHead q.headStores view) }
  | .readSlot i => { q with consumers := q.consumers.modify i (Consumer.readSlot cap q.slots) }
  | .storeTail i => { q with consumers := q.consumers.modify i Consumer.storeTail }

def run (tailOf : List UInt64 → UInt64) (cap : UInt64) (q : Queue α) (actions : List (Action α)) : Queue α :=
  actions.foldl (step tailOf cap) q

end Queue

end RingBuffer

/-! ## The two queues -/

/-- The cursor of the only consumer. -/
def Spsc.tail (seen : List UInt64) : UInt64 := seen.headD 0

def spscQueue {α : Type} (cap : UInt64) : Option (RingBuffer.Queue α) := RingBuffer.Queue.new cap 1

/-- The least of the consumers' cursors. -/
def Spmc.minTail (seen : List UInt64) : UInt64 := seen.min?.getD 0

def spmcQueue {α : Type} (cap : UInt64) (consumers : Nat) : Option (RingBuffer.Queue α) :=
  RingBuffer.Queue.new cap consumers

end MRE
