import MatchRiskEngine.Impl.CoreTypes

/-!
# The sequence lock

`AccountRiskState::update` and `AccountRiskState::read` of the `seqlock` crate,
for one writer and any number of readers of one account's state. Each load and
store of the counter `seq` and of a field is a step of its own (`Lock.step`),
under sequential consistency: an interleaving is a list of actions. An action
whose thread cannot go on changes nothing. Debug assertions are off and the
counter wraps.
-/

namespace MRE.Seqlock

inductive Field where
  | balance
  | usedMargin
  | frozen
  | halted
  | position
  | openOrderCount
  deriving DecidableEq, Repr

namespace Field

/-- The order in which `update` stores and `read` loads them. -/
def all : List Field := [balance, usedMargin, frozen, halted, position, openOrderCount]

/-- `dst`, with this field of `src`. -/
def copy (f : Field) (src dst : AccountRiskState) : AccountRiskState :=
  match f with
  | balance => { dst with balance := src.balance }
  | usedMargin => { dst with usedMargin := src.usedMargin }
  | frozen => { dst with frozen := src.frozen }
  | halted => { dst with halted := src.halted }
  | position => { dst with position := src.position }
  | openOrderCount => { dst with openOrderCount := src.openOrderCount }

end Field

inductive WriterPc where
  | idle
  /-- The counter is loaded. -/
  | loaded (seq : UInt64) (args : AccountRiskState)
  /-- The odd counter is stored, and so are the fields before `todo`. -/
  | storing (seq : UInt64) (args : AccountRiskState) (todo : List Field)
  deriving DecidableEq, Repr

inductive ReaderPc where
  /-- At the head of the loop. -/
  | start
  /-- The counter is loaded, and so are the fields before `todo`. -/
  | loading (seq1 : UInt64) (loaded : AccountRiskState) (todo : List Field)
  deriving DecidableEq, Repr

structure Reader where
  pc : ReaderPc
  /-- History: what the calls of `read` have returned. -/
  returned : List AccountRiskState
  deriving DecidableEq, Repr

structure Lock where
  seq : UInt64
  state : AccountRiskState
  writer : WriterPc
  readers : List Reader
  /-- History: the arguments of the completed updates. -/
  updates : List AccountRiskState
  deriving DecidableEq, Repr

inductive Action where
  /-- A call of `update`, up to its load of the counter. -/
  | update (args : AccountRiskState)
  | writer
  | reader (reader : Nat)
  deriving DecidableEq, Repr

namespace Lock

def new (readers : Nat) : Lock :=
  { seq := 0, state := .default, writer := .idle, readers := List.replicate readers ⟨.start, []⟩, updates := [] }

def update (l : Lock) (args : AccountRiskState) : Lock :=
  match l.writer with
  | .idle => { l with writer := .loaded l.seq args }
  | _ => l

def stepWriter (l : Lock) : Lock :=
  match l.writer with
  | .idle => l
  | .loaded seq args => { l with seq := seq + 1, writer := .storing seq args Field.all }
  | .storing seq args (f :: todo) => { l with state := f.copy args l.state, writer := .storing seq args todo }
  | .storing seq args [] => { l with seq := seq + 2, writer := .idle, updates := l.updates ++ [args] }

def stepReader (l : Lock) (r : Reader) : Reader :=
  match r.pc with
  | .start => if l.seq % 2 ≠ 0 then r else { r with pc := .loading l.seq .default Field.all }
  | .loading seq1 loaded (f :: todo) => { r with pc := .loading seq1 (f.copy l.state loaded) todo }
  | .loading seq1 loaded [] =>
    if seq1 = l.seq then { pc := .start, returned := r.returned ++ [loaded] } else { r with pc := .start }

def step (l : Lock) : Action → Lock
  | .update args => l.update args
  | .writer => l.stepWriter
  | .reader i =>
    match l.readers[i]? with
    | some r => { l with readers := l.readers.set i (l.stepReader r) }
    | none => l

def run (l : Lock) (actions : List Action) : Lock := actions.foldl step l

end Lock

end MRE.Seqlock
