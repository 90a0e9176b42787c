/-!
# Leader election

The `sequencer` crate's failover: controllers that contend for one lease file. Each
has an election thread, which is given by where it stands (`ElectionPc`), and a
handle with a role and a term that the sequencer reads at any time. A step of a
thread is one access to what it shares with others: the lock and the term of the
lease file, the shutdown flag, or the handle. A lock on the file ends with the
process that holds it. Reading and writing the term do not fail.
-/

namespace MRE.Failover

inductive Role where
  | standby
  | leader
  deriving DecidableEq, Repr

inductive ElectionPc where
  /-- At the top of the loop of `acquire`, about to look at the shutdown flag. -/
  | polling
  | opened
  | locked
  | termRead (term : UInt64)
  | acquired (term : UInt64)
  | termStored
  /-- In the loop that waits for the shutdown flag. -/
  | parked
  | releasing
  | done
  deriving DecidableEq, Repr

/-- A controller, and the role and the term of its handles. -/
structure Controller where
  role : Role
  term : UInt64
  shutdown : Bool
  file : Bool
  pc : ElectionPc
  /-- The process has not crashed. -/
  alive : Bool
  deriving DecidableEq, Repr

def Controller.spawn : Controller :=
  { role := .standby, term := 0, shutdown := false, file := false, pc := .polling, alive := true }

def Controller.isLeader (c : Controller) : Bool := decide (c.role = .leader)

structure System where
  controllers : List Controller
  /-- The controller that has the lock on the file. -/
  lock : Option Nat
  /-- The term in the file; 0 if it has none. -/
  fileTerm : UInt64
  /-- History: the terms acquired, the first one first. -/
  acquired : List UInt64
  deriving DecidableEq, Repr

namespace System

def init (n : Nat) (fileTerm : UInt64) : System :=
  { controllers := List.replicate n .spawn, lock := none, fileTerm, acquired := [] }

def put (s : System) (i : Nat) (c : Controller) : System := { s with controllers := s.controllers.set i c }

inductive Action where
  | thread (i : Nat)
  /-- A controller is dropped: its thread is told to shut down. -/
  | drop (i : Nat)
  | crash (i : Nat)
  deriving DecidableEq, Repr

def electionStep (s : System) (i : Nat) (c : Controller) : System :=
  match c.pc with
  | .polling => s.put i { c with pc := if c.shutdown then .parked else .opened }
  | .opened =>
    match s.lock with
    | none => { s.put i { c with pc := .locked } with lock := some i }
    | some _ => s.put i { c with pc := .polling }
  | .locked => s.put i { c with pc := .termRead s.fileTerm }
  | .termRead term =>
    { s.put i { c with file := true, pc := .acquired (term + 1) } with
      fileTerm := term + 1
      acquired := s.acquired ++ [term + 1] }
  | .acquired term => s.put i { c with term, pc := .termStored }
  | .termStored => s.put i { c with role := .leader, pc := .parked }
  | .parked => if c.shutdown then s.put i { c with pc := .releasing } else s
  | .releasing =>
    -- the role is not changed
    { s.put i { c with file := false, pc := .done } with lock := if c.file then none else s.lock }
  | .done => s

/-- One step; the threads of a process that has crashed take none. -/
def step (s : System) : Action → System
  | .thread i =>
    match s.controllers[i]? with
    | some c => if c.alive then s.electionStep i c else s
    | none => s
  | .drop i =>
    match s.controllers[i]? with
    | some c => if c.alive then s.put i { c with shutdown := true } else s
    | none => s
  | .crash i =>
    match s.controllers[i]? with
    | some c => { s.put i { c with alive := false } with lock := if s.lock = some i then none else s.lock }
    | none => s

def run (s : System) (actions : List Action) : System := actions.foldl step s

end System

end MRE.Failover
