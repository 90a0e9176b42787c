import MatchRiskEngine.Framework.Counter
import MatchRiskEngine.Spec.Recovery

/-!
# One leader at a time

What a step can do is said once (`Effect`). From it follow that the lock is held
by the controller whose thread is between taking and releasing it, and that the
terms acquired are consecutive (`Inv`), in every run; and that the handles which
report a leader are those of a controller with the lease (`LeaderInv`), in every
run in which no leader releases its lease. `failover_run` puts these together.
-/

namespace MRE.Proof.Failover

open MRE.Failover MRE.Failover.System

variable {s s' : System}

/-- The thread is between taking the lock and releasing it. -/
def holds (c : Controller) : Bool :=
  match c.pc with
  | .locked | .termRead _ => true
  | _ => c.file

/-- A thread that has a term keeps the file. -/
def Filed (c : Controller) : Prop :=
  match c.pc with
  | .acquired _ | .termStored => c.file = true
  | _ => True

/-! ## Steps -/

/-- What a step can do. -/
inductive Effect (s : System) (a : System.Action) : System → Prop
  | idle : Effect s a s
  /-- A step within one part of the election, or a drop. -/
  | move {i : Nat} {c c' : Controller} (get : s.controllers[i]? = some c) (alive : c'.alive = c.alive)
      (role : c'.role = c.role) (file : c'.file = c.file) (holds : holds c' = holds c) (filed : Filed c → Filed c')
      (read : ∀ term, c'.pc = .termRead term → c.pc = .termRead term) : Effect s a (s.put i c')
  | lock {i : Nat} {c : Controller} (get : s.controllers[i]? = some c) (alive : c.alive = true) (pc : c.pc = .opened)
      (free : s.lock = none) : Effect s a { s.put i { c with pc := .locked } with lock := some i }
  | read {i : Nat} {c : Controller} (get : s.controllers[i]? = some c) (alive : c.alive = true) (pc : c.pc = .locked) :
      Effect s a (s.put i { c with pc := .termRead s.fileTerm })
  | write {i : Nat} {c : Controller} {term : UInt64} (get : s.controllers[i]? = some c) (alive : c.alive = true)
      (pc : c.pc = .termRead term) :
      Effect s a { s.put i { c with file := true, pc := .acquired (term + 1) } with
        fileTerm := term + 1, acquired := s.acquired ++ [term + 1] }
  | lead {i : Nat} {c : Controller} (get : s.controllers[i]? = some c) (alive : c.alive = true) (pc : c.pc = .termStored) :
      Effect s a (s.put i { c with role := .leader, pc := .parked })
  | release {i : Nat} {c : Controller} (thread : a = .thread i) (get : s.controllers[i]? = some c)
      (alive : c.alive = true) (pc : c.pc = .releasing) :
      Effect s a { s.put i { c with file := false, pc := .done } with lock := if c.file then none else s.lock }
  | crash {i : Nat} {c : Controller} (get : s.controllers[i]? = some c) :
      Effect s a { s.put i { c with alive := false } with lock := if s.lock = some i then none else s.lock }

variable {c : Controller}

theorem electionStep_effect {i : Nat} (get : s.controllers[i]? = some c) (alive : c.alive = true) :
    Effect s (.thread i) (s.electionStep i c) := by
  rw [electionStep]
  split
  · rename_i hpc
    refine .move get rfl rfl rfl ?_ (fun _ => ?_) fun term h => ?_
    · cases c.shutdown <;> simp [holds, hpc]
    · cases c.shutdown <;> exact trivial
    · replace h : (if c.shutdown then ElectionPc.parked else .opened) = .termRead term := h
      split at h <;> cases h
  · rename_i hpc
    split
    · rename_i hfree
      exact .lock get alive hpc hfree
    · exact .move get rfl rfl rfl (by simp [holds, hpc]) (fun _ => trivial) (fun term h => (by cases h))
  · rename_i hpc
    exact .read get alive hpc
  · rename_i hpc
    exact .write get alive hpc
  · rename_i hpc
    refine .move get rfl rfl rfl (by simp [holds, hpc]) (fun h => ?_) (fun term h => (by cases h))
    rw [Filed, hpc] at h
    exact h
  · rename_i hpc
    exact .lead get alive hpc
  · rename_i hpc
    split
    · exact .move get rfl rfl rfl (by simp [holds, hpc]) (fun _ => trivial) (fun term h => (by cases h))
    · exact .idle
  · rename_i hpc
    exact .release rfl get alive hpc
  · exact .idle

theorem step_effect (s : System) (a : System.Action) : Effect s a (s.step a) := by
  cases a with
  | thread i =>
    simp only [System.step]
    split
    · rename_i c get
      split
      · rename_i alive
        exact electionStep_effect get alive
      · exact .idle
    · exact .idle
  | drop i =>
    simp only [System.step]
    split
    · rename_i c get
      split
      · exact .move get rfl rfl rfl rfl (fun h => h) fun term h => h
      · exact .idle
    · exact .idle
  | crash i =>
    simp only [System.step]
    split
    · rename_i c get
      exact .crash get
    · exact .idle

/-! ## The lock and the terms -/

structure Inv (start : UInt64) (s : System) : Prop where
  /-- The lock is held by the thread between taking and releasing it. -/
  holder : ∀ i c, s.controllers[i]? = some c → (s.lock = some i ↔ c.alive = true ∧ holds c = true)
  filed : ∀ (i : Nat) (c : Controller), s.controllers[i]? = some c → Filed c
  /-- A term that was read is still in the file. -/
  read : ∀ (i : Nat) (c : Controller), s.controllers[i]? = some c → c.alive = true →
    ∀ term, c.pc = .termRead term → term = s.fileTerm
  term : s.fileTerm = start + UInt64.ofNat s.acquired.length
  numbered : Numbered start s.acquired

variable {start : UInt64}

theorem Inv.unique (h : Inv start s) {i j : Nat} {c d : Controller} (hc : s.controllers[i]? = some c)
    (hd : s.controllers[j]? = some d) (hcl : c.alive = true ∧ holds c = true) (hdl : d.alive = true ∧ holds d = true) :
    i = j := by
  have hi := (h.holder i c hc).mpr hcl
  rw [(h.holder j d hd).mpr hdl] at hi
  exact (Option.some.inj hi).symm

/-- The other threads, after the lock was taken or given back by thread `i`. -/
theorem Inv.others (h : Inv start s) {i j : Nat} {d : Controller} (hij : j ≠ i)
    (hd : s.controllers[j]? = some d) {lock : Option Nat} (hold : s.lock = none ∨ s.lock = some i)
    (hnew : lock = none ∨ lock = some i) : lock = some j ↔ d.alive = true ∧ holds d = true := by
  have hne : ∀ {l : Option Nat}, l = none ∨ l = some i → l ≠ some j := by
    intro l hl heq
    obtain hl | hl := hl
    · rw [hl] at heq
      cases heq
    · rw [hl] at heq
      exact hij (Option.some.inj heq).symm
  rw [← h.holder j d hd]
  exact iff_of_false (hne hnew) (hne hold)

/-- A step of thread `i` that does not change the term in the file. -/
theorem Inv.put (h : Inv start s) {i : Nat} {lock : Option Nat} (hi : lock = some i ↔ c.alive = true ∧ holds c = true)
    (hothers : ∀ j d, j ≠ i → s.controllers[j]? = some d → (lock = some j ↔ d.alive = true ∧ holds d = true))
    (hfiled : Filed c) (hread : c.alive = true → ∀ term, c.pc = .termRead term → term = s.fileTerm) :
    Inv start { s.put i c with lock := lock } :=
  ⟨List.forall_getElem?_set hi hothers, List.forall_getElem?_set hfiled fun j d _ hd => h.filed j d hd,
    List.forall_getElem?_set hread fun j d _ hd => h.read j d hd, h.term, h.numbered⟩

theorem write_inv (h : Inv start s) {i : Nat} {term : UInt64}
    (get : s.controllers[i]? = some c) (alive : c.alive = true) (pc : c.pc = .termRead term) :
    Inv start { s.put i { c with file := true, pc := .acquired (term + 1) } with
      fileTerm := term + 1, acquired := s.acquired ++ [term + 1] } := by
  have hholds : holds c = true := by rw [holds, pc]
  have hheld := (h.holder i c get).mpr ⟨alive, hholds⟩
  have hnext : term + 1 = start + UInt64.ofNat (s.acquired.length + 1) := by
    rw [h.read i c get alive term pc, h.term, Numbered.next_eq]
  refine ⟨List.forall_getElem?_set (iff_of_true hheld ⟨alive, rfl⟩) fun j d _ hd => h.holder j d hd,
    List.forall_getElem?_set rfl fun j d _ hd => h.filed j d hd,
    List.forall_getElem?_set (fun _ term' hpc => (by cases hpc)) fun j d hij hd hal term' hpc => ?_, ?_,
    h.numbered.concat hnext⟩
  · -- no other thread has read a term, since it would hold the lock
    have hdholds : holds d = true := by rw [holds, hpc]
    exact absurd (h.unique hd get ⟨hal, hdholds⟩ ⟨alive, hholds⟩) hij
  · rw [List.length_append, List.length_singleton]
    exact hnext

theorem step_inv (s : System) (a : System.Action) (h : Inv start s) : Inv start (s.step a) := by
  have heffect := step_effect s a
  generalize s.step a = s' at heffect
  cases heffect with
  | idle => exact h
  | @move i c c' get alive role file hholds filed read =>
    show Inv start { s.put i c' with lock := s.lock }
    refine h.put ?_ (fun j d _ hd => h.holder j d hd) (filed (h.filed i c get)) fun hal term hpc => ?_
    · rw [alive, hholds]
      exact h.holder i c get
    · rw [alive] at hal
      exact h.read i c get hal term (read term hpc)
  | @lock i c get alive pc free =>
    refine h.put (iff_of_true rfl ⟨alive, rfl⟩) (fun j d hij hd => ?_) trivial (fun _ term hpc => (by cases hpc))
    exact h.others hij hd (Or.inl free) (Or.inr rfl)
  | @read i c get alive pc =>
    have hheld := (h.holder i c get).mpr ⟨alive, by rw [holds, pc]⟩
    refine h.put (iff_of_true hheld ⟨alive, rfl⟩) (fun j d _ hd => h.holder j d hd) trivial fun _ term hpc => ?_
    cases hpc
    rfl
  | write get alive pc => exact write_inv h get alive pc
  | @lead i c get alive pc =>
    have hfile : c.file = true := by
      have hfiled := h.filed i c get
      rw [Filed, pc] at hfiled
      exact hfiled
    have hheld := (h.holder i c get).mpr ⟨alive, by rw [holds, pc]; exact hfile⟩
    exact h.put (iff_of_true hheld ⟨alive, hfile⟩) (fun j d _ hd => h.holder j d hd) trivial
      (fun _ term hpc => (by cases hpc))
  | @release i c thread get alive pc =>
    have hiff := h.holder i c get
    rw [holds, pc] at hiff
    cases hfile : c.file with
    | false =>
      rw [hfile] at hiff
      exact h.put hiff (fun j d _ hd => h.holder j d hd) trivial (fun _ term hpc => (by cases hpc))
    | true =>
      have hheld := hiff.mpr ⟨alive, hfile⟩
      refine h.put (iff_of_false (Option.some_ne_none i).symm fun hcl => ?_) (fun j d hij hd => ?_) trivial
        (fun _ term hpc => (by cases hpc))
      · cases hcl.2
      · exact h.others hij hd (Or.inr hheld) (Or.inl rfl)
  | @crash i c get =>
    refine h.put (iff_of_false ?_ fun hcl => ?_) (fun j d hij hd => ?_) (h.filed i c get) (fun hal => (by cases hal))
    · split
      · exact (Option.some_ne_none i).symm
      · assumption
    · cases hcl.1
    · split
      · rename_i hheld
        exact h.others hij hd (Or.inr hheld) (Or.inl rfl)
      · exact h.holder j d hd

/-! ## Leaders -/

/-- A live controller whose handles report a leader keeps the file. -/
def LeaderInv (s : System) : Prop :=
  ∀ (i : Nat) (c : Controller), s.controllers[i]? = some c → c.alive = true → c.isLeader = true → c.file = true

theorem LeaderInv.put (h : LeaderInv s) {i : Nat} (hi : c.alive = true → c.isLeader = true → c.file = true) :
    ∀ (j : Nat) (d : Controller), (s.controllers.set i c)[j]? = some d → d.alive = true → d.isLeader = true → d.file = true :=
  List.forall_getElem?_set hi fun j d _ hd => h j d hd

theorem step_leaderInv {a : System.Action} (h : Inv start s) (hl : LeaderInv s) (hkeeps : KeepsLease s a) :
    LeaderInv (s.step a) := by
  have heffect := step_effect s a
  generalize s.step a = s' at heffect
  cases heffect with
  | idle => exact hl
  | @move i c c' get alive role file _ _ _ =>
    refine hl.put fun hal hlead => ?_
    rw [alive] at hal
    rw [Controller.isLeader, role] at hlead
    rw [file]
    exact hl i c get hal hlead
  | @lock i c get alive _ _ => exact hl.put fun _ hlead => hl i c get alive hlead
  | @read i c get alive _ => exact hl.put fun _ hlead => hl i c get alive hlead
  | write => exact hl.put fun _ _ => rfl
  | @lead i c get _ pc =>
    have hfiled := h.filed i c get
    rw [Filed, pc] at hfiled
    exact hl.put fun _ _ => hfiled
  | @release i c thread get alive pc =>
    subst thread
    have hstandby := hkeeps c get alive pc
    refine hl.put fun _ hlead => ?_
    rw [show c.isLeader = true from hlead] at hstandby
    cases hstandby
  | crash => exact hl.put fun hal => (by cases hal)

theorem singleLeader_of_leaderInv (h : Inv start s) (hl : LeaderInv s) : SingleLeader s := by
  have hholds : ∀ (i : Nat) (c : Controller), s.controllers[i]? = some c → c.alive = true → c.isLeader = true →
      holds c = true := by
    intro i c hc hal hlead
    rw [holds]
    split
    · rfl
    · rfl
    · exact hl i c hc hal hlead
  intro i j c d hc hd hcal hdal hclead hdlead
  exact h.unique hc hd ⟨hcal, hholds i c hc hcal hclead⟩ ⟨hdal, hholds j d hd hdal hdlead⟩

/-! ## Runs -/

theorem init_inv (n : Nat) (start : UInt64) : Inv start (init n start) := by
  have hspawn : ∀ (i : Nat) (c : Controller), (init n start).controllers[i]? = some c → c = .spawn := by
    intro i c hc
    exact List.eq_of_mem_replicate (List.mem_of_getElem? hc)
  refine ⟨fun i c hc => ?_, fun i c hc => ?_, fun i c hc _ term hpc => ?_, ?_, Numbered.nil start⟩
  · rw [hspawn i c hc]
    exact iff_of_false (Option.some_ne_none i).symm (by decide)
  · rw [hspawn i c hc]
    exact trivial
  · rw [hspawn i c hc] at hpc
    cases hpc
  · exact (UInt64.add_zero start).symm

theorem init_leaderInv (n : Nat) (start : UInt64) : LeaderInv (init n start) := by
  intro i c hc _ hlead
  rw [List.eq_of_mem_replicate (List.mem_of_getElem? hc)] at hlead
  cases hlead

/-- In every run of any number of controllers, each term acquired is greater
than those before, and than the one in the file at first. If no leader releases
its lease in the run, there is at most one leader after it. -/
theorem failover_run (n : Nat) (start : UInt64) (actions : List System.Action) :
    (start.toNat + ((init n start).run actions).acquired.length < 2 ^ 64 →
      ((init n start).run actions).acquired.Pairwise (· < ·) ∧
        ∀ term ∈ ((init n start).run actions).acquired, start < term) ∧
      (NoLeaderReleases (init n start) actions → SingleLeader ((init n start).run actions)) := by
  refine ⟨fun hlt => ?_, fun hkeeps => ?_⟩
  · have h : Inv start ((init n start).run actions) := foldl_inv step_inv (init_inv n start) actions
    exact ⟨h.numbered.pairwise_lt hlt, h.numbered.start_lt hlt⟩
  · have h : Inv start ((init n start).run actions) ∧ LeaderInv ((init n start).run actions) :=
      AllSteps.foldl_inv (I := fun s => Inv start s ∧ LeaderInv s)
        (fun s a hs ha => ⟨step_inv s a hs.1, step_leaderInv hs.1 hs.2 ha⟩) hkeeps
        ⟨init_inv n start, init_leaderInv n start⟩
    exact singleLeader_of_leaderInv h.1 h.2

/-- Thread `i` takes so many steps. -/
def threadSteps (i : Nat) (n : Nat) : List System.Action := List.replicate n (.thread i)

/-- A leader crashes, and another controller takes over. -/
theorem failover_run_demo :
    NoLeaderReleases (init 2 0) (threadSteps 0 6 ++ [.crash 0] ++ threadSteps 1 6) ∧
      SingleLeader ((init 2 0).run (threadSteps 0 6 ++ [.crash 0] ++ threadSteps 1 6)) := by
  have hkeeps : NoLeaderReleases (init 2 0) (threadSteps 0 6 ++ [.crash 0] ++ threadSteps 1 6) := by decide
  exact ⟨hkeeps, (failover_run 2 0 _).2 hkeeps⟩

/-- A leader is dropped. It releases its lease and keeps its role, and another
controller becomes leader as well. -/
theorem dropped_leader_leads :
    ¬ SingleLeader ((init 2 0).run (threadSteps 0 6 ++ [.drop 0] ++ threadSteps 0 2 ++ threadSteps 1 6)) := by
  intro hsingle
  have heq := hsingle 0 1 { role := .leader, term := 1, shutdown := true, file := false, pc := .done, alive := true }
    { role := .leader, term := 2, shutdown := false, file := true, pc := .parked, alive := true }
    rfl rfl rfl rfl rfl rfl
  cases heq

end MRE.Proof.Failover
