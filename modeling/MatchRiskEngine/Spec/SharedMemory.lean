import MatchRiskEngine.Impl.RingBuffer
import MatchRiskEngine.Impl.Seqlock

/-!
# Queues and versions in shared memory

What the ring buffers are for. With one consumer the ring is a bounded queue:
its contents (`Spsc.contents`) change as those of a queue do (`Fifo.Step`). With
several, every consumer gets the items that were pushed, in order
(`DeliversInOrder`).

Readers of the sequence lock are to see each state whole, as some update left it
(`Seqlock.version`), and later reads no older version (`Seqlock.InOrder`).
-/

namespace MRE

/-! ## Bounded queues -/

/-- A step of a queue that holds at most `cap` items. -/
inductive Fifo.Step {α : Type} (cap : Nat) : List α → List α → Prop where
  | stay (q : List α) : Step cap q q
  | push {q : List α} (room : q.length < cap) (x : α) : Step cap q (q ++ [x])
  | pop (x : α) (q : List α) : Step cap (x :: q) q

namespace RingBuffer

variable {α : Type}

/-- The items whose push returned `Ok`. -/
def okItems (results : List (α × Except α Unit)) : List α := (results.filter fun r => r.2.isOk).map Prod.fst

/-- A consumer has got the first items pushed. Those it has not got yet are in
their slots, and no slot is written while it is read. -/
structure DeliversInOrder (cap : UInt64) (q : Queue α) (c : Consumer α) : Prop where
  popped : c.popped <+: q.pushed
  in_flight : q.pushed.length ≤ c.popped.length + cap.toNat
  intact (i : Nat) : c.popped.length ≤ i → i < q.pushed.length → q.slots[i % cap.toNat]? = some q.pushed[i]?
  fault : c.fault = false
  no_race (item : α) : q.pc = .write item → c.pc = .read → mask cap q.cachedHead ≠ mask cap c.cachedTail

/-- The results of `try_push`: a failed call returns its item, and the items of
the others are those pushed. -/
structure ReturnsItems (q : Queue α) : Prop where
  pushed : q.pushed = okItems q.results
  error (r : α × Except α Unit) : r ∈ q.results → r.2 = .ok () ∨ r.2 = .error r.1

/-- Nothing that another call can see differs. -/
structure SameContents (q q' : Queue α) : Prop where
  slots : q'.slots = q.slots
  headStores : q'.headStores = q.headStores
  cachedHead : q'.cachedHead = q.cachedHead
  consumers : q'.consumers = q.consumers
  pushed : q'.pushed = q.pushed

end RingBuffer

/-- The items in a queue with one consumer. -/
def Spsc.contents {α : Type} (q : RingBuffer.Queue α) : List α :=
  q.pushed.drop (q.consumers.headD RingBuffer.Consumer.new).popped.length

/-! ## Versions of a shared state -/

namespace Seqlock

/-- The state after the first `k` updates. -/
def version (updates : List AccountRiskState) (k : Nat) : Option AccountRiskState :=
  (AccountRiskState.default :: updates)[k]?

/-- The states are versions, in order, up to the `n`-th. -/
def InOrder (updates states : List AccountRiskState) (n : Nat) : Prop :=
  ∃ ks : List Nat, ks.Pairwise (· ≤ ·) ∧ (∀ k ∈ ks, k ≤ n) ∧ states.map some = ks.map (version updates)

end Seqlock

end MRE
