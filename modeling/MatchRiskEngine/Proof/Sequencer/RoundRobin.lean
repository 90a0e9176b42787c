import MatchRiskEngine.Framework.RoundRobin
import MatchRiskEngine.Spec.Sequencer

/-!
# Bounded bypass

A call of `poll_inbound` takes a command from a queue that is no further ahead of
the cursor than one that is waiting (`poll_waiting`), and leaves the cursor behind
it. So with `n` queues, a queue that is not empty is served in one of `n` calls
(`polls_serve`).
-/

namespace MRE.Proof.Sequencing

open MRE.Sequencer

variable {s : Sequencer} {p q : Poll} {polls : List Poll} {queue i n : Nat} {cmd : InboundCommand}

/-! ## What comes in -/

@[simp] theorem arriveAll_gwCursor (s : Sequencer) (arrivals : List (Nat × InboundCommand)) :
    (s.arriveAll arrivals).gwCursor = s.gwCursor := by
  induction arrivals generalizing s with
  | nil => rfl
  | cons a arrivals ih => exact ih (s.arrive a.1 a.2)

@[simp] theorem length_arriveAll (s : Sequencer) (arrivals : List (Nat × InboundCommand)) :
    (s.arriveAll arrivals).gwInbound.length = s.gwInbound.length := by
  induction arrivals generalizing s with
  | nil => rfl
  | cons a arrivals ih =>
    rw [arriveAll, List.foldl_cons]
    exact (ih (s.arrive a.1 a.2)).trans (List.length_modify _ _ _)

theorem arriveAll_head (arrivals : List (Nat × InboundCommand)) {rest : List InboundCommand}
    (h : s.gwInbound[queue]? = some (cmd :: rest)) :
    ∃ rest', (s.arriveAll arrivals).gwInbound[queue]? = some (cmd :: rest') := by
  induction arrivals generalizing s rest with
  | nil => exact ⟨rest, h⟩
  | cons a arrivals ih =>
    have hstep : ∃ rest', (s.arrive a.1 a.2).gwInbound[queue]? = some (cmd :: rest') := by
      simp only [arrive, List.getElem?_modify, h, Option.map_eq_map, Option.map_some]
      by_cases ha : a.1 = queue
      · exact ⟨rest ++ [a.2], by rw [if_pos ha, List.cons_append]⟩
      · exact ⟨rest, by rw [if_neg ha]⟩
    obtain ⟨rest', hstep⟩ := hstep
    exact ih hstep

/-! ## One call -/

theorem pollLoopAmid_waiting (arrivals : Nat → List (Nat × InboundCommand)) {rest : List InboundCommand}
    (h : s.gwInbound[queue]? = some (cmd :: rest)) {is : List Nat} {d : Nat} (hd : d ∈ is)
    (hqueue : (s.gwCursor + d) % s.gwInbound.length = queue) (hsorted : is.Pairwise (· < ·)) :
    ∃ e cmd', e ≤ d ∧ (pollLoopAmid arrivals s is).1 = some ((s.gwCursor + e) % s.gwInbound.length, cmd') ∧
      (pollLoopAmid arrivals s is).2.gwCursor = ((s.gwCursor + e) % s.gwInbound.length + 1) % s.gwInbound.length ∧
      (pollLoopAmid arrivals s is).2.gwInbound.length = s.gwInbound.length ∧ (e = d → cmd' = cmd) := by
  induction is generalizing s rest with
  | nil => cases hd
  | cons i is ih =>
    obtain ⟨hfirst, hsorted⟩ := List.pairwise_cons.mp hsorted
    obtain ⟨rest', hhead⟩ := arriveAll_head (arrivals i) h
    rw [pollLoopAmid]
    simp only [arriveAll_gwCursor, length_arriveAll]
    split
    · rename_i cmd' rest'' hfound
      refine ⟨i, cmd', ?_, rfl, rfl, ?_, fun hi => ?_⟩
      · rcases List.mem_cons.mp hd with rfl | hd
        · exact Nat.le_refl _
        · exact Nat.le_of_lt (hfirst d hd)
      · rw [List.length_modify, length_arriveAll]
      · subst hi
        rw [hqueue, hhead] at hfound
        cases hfound
        rfl
    · rename_i hnone
      rcases List.mem_cons.mp hd with rfl | hd
      · rw [hqueue] at hnone
        exact absurd hhead (hnone cmd rest')
      · have hloop := ih hhead hd (by rw [arriveAll_gwCursor, length_arriveAll]; exact hqueue) hsorted
        rw [arriveAll_gwCursor, length_arriveAll] at hloop
        exact hloop

/-- A call while a queue is waiting takes the queue's first command, or one from a
queue that is less far ahead. -/
theorem poll_waiting (h : p.Waits queue cmd) :
    p.after.gwInbound.length = p.before.gwInbound.length ∧
      (p.result = some (queue, cmd) ∨ p.result.isSome ∧
        ahead p.before.gwInbound.length p.after.gwCursor queue < ahead p.before.gwInbound.length p.before.gwCursor queue) := by
  obtain ⟨rest, hrest⟩ := h
  have hlt : queue < p.before.gwInbound.length := (List.getElem?_eq_some_iff.mp hrest).1
  obtain ⟨e, cmd', hle, hresult, hcursor, hlen, hhead⟩ := pollLoopAmid_waiting p.arrivals hrest
    (List.mem_range.mpr (ahead_lt _ hlt)) (add_ahead hlt) List.pairwise_lt_range
  replace hresult : p.result = some ((p.before.gwCursor + e) % p.before.gwInbound.length, cmd') := hresult
  replace hcursor : p.after.gwCursor = _ := hcursor
  refine ⟨hlen, ?_⟩
  rcases Nat.lt_or_eq_of_le hle with he | he
  · have hpast := ahead_past hlt he
    rw [hresult, hcursor]
    exact .inr ⟨rfl, by omega⟩
  · rw [hresult, hhead he, he, add_ahead hlt]
    exact .inl rfl

theorem pollInboundAmid_nil (s : Sequencer) :
    s.pollInboundAmid (fun _ => []) = (s.pollInbound.map fun r => (some (r.1, r.2.1), r.2.2)).getD (none, s) := by
  rw [pollInboundAmid, pollInbound]
  generalize List.range s.gwInbound.length = is
  induction is with
  | nil => rfl
  | cons i is ih =>
    rw [pollLoopAmid, pollLoop]
    dsimp only [arriveAll, List.foldl_nil]
    cases s.gwInbound[(s.gwCursor + i) % s.gwInbound.length]? with
    | none => exact ih
    | some queue =>
      cases queue with
      | nil => exact ih
      | cons cmd rest => rfl

/-! ## Calls one after the other -/

/-- A waiting queue is served in more calls than it is ahead of the cursor. -/
theorem served_of_ahead_lt (hnext : (p :: polls).IsChain Poll.Next)
    (hwaits : ∀ q ∈ p :: polls, ∃ cmd, q.Waits queue cmd)
    (hahead : ahead p.before.gwInbound.length p.before.gwCursor queue < (p :: polls).length) :
    ∃ q ∈ p :: polls, ∃ cmd, q.Waits queue cmd ∧ q.result = some (queue, cmd) := by
  induction polls generalizing p with
  | nil =>
    obtain ⟨cmd, hcmd⟩ := hwaits p List.mem_cons_self
    obtain ⟨-, htaken | ⟨-, hnearer⟩⟩ := poll_waiting hcmd
    · exact ⟨p, List.mem_cons_self, cmd, hcmd, htaken⟩
    · rw [List.length_singleton] at hahead
      omega
  | cons q polls ih =>
    obtain ⟨hpq, hnext⟩ := List.isChain_cons_cons.mp hnext
    obtain ⟨cmd, hcmd⟩ := hwaits p List.mem_cons_self
    obtain ⟨hlen, htaken | ⟨-, hnearer⟩⟩ := poll_waiting hcmd
    · exact ⟨p, List.mem_cons_self, cmd, hcmd, htaken⟩
    · rw [List.length_cons] at hahead
      obtain ⟨r, hr, hserved⟩ := ih hnext (fun r hr => hwaits r (List.mem_cons_of_mem p hr)) (by
        rw [hpq.cursor, hpq.queues, hlen]
        omega)
      exact ⟨r, List.mem_cons_of_mem p hr, hserved⟩

/-- With `n` queues, if a queue holds a command before each of `n` calls, all of
them return a command, and one of them the first command of that queue. What the
queues hold may change in any way from call to call, and commands come in during
the calls. -/
theorem polls_serve (n : Nat) (hn : 1 ≤ n) (polls : List Poll) (hcount : polls.length = n) (hnext : polls.IsChain Poll.Next)
    (hqueues : ∀ p ∈ polls, p.before.gwInbound.length = n) (queue : Nat)
    (hwaits : ∀ p ∈ polls, ∃ cmd, p.Waits queue cmd) :
    (∀ p ∈ polls, p.result.isSome) ∧ ∃ p ∈ polls, ∃ cmd, p.Waits queue cmd ∧ p.result = some (queue, cmd) := by
  constructor
  · intro p hp
    obtain ⟨cmd, hcmd⟩ := hwaits p hp
    obtain ⟨-, htaken | ⟨hsome, -⟩⟩ := poll_waiting hcmd
    · rw [htaken]
      rfl
    · exact hsome
  · cases polls with
    | nil =>
      rw [List.length_nil] at hcount
      omega
    | cons p polls =>
      obtain ⟨cmd, rest, hrest⟩ := hwaits p List.mem_cons_self
      have hlt : queue < p.before.gwInbound.length := (List.getElem?_eq_some_iff.mp hrest).1
      refine served_of_ahead_lt hnext hwaits ?_
      rw [hcount, ← hqueues p List.mem_cons_self]
      exact ahead_lt _ hlt

/-- A command waits at the first of two queues, and the cursor is at the second. -/
def twoQueues : Sequencer :=
  { Sequencer.new [[.freezeAccount ⟨1⟩], []] 0 { nSymbols := 1, snapshotSchedule := .default } 0 with gwCursor := 1 }

/-- A command comes in at the second queue just before it is tried. -/
def overtaken : Poll := { before := twoQueues, arrivals := fun _ => [(1, .freezeAccount ⟨2⟩)] }

def secondPoll : Poll := { before := overtaken.after, arrivals := fun _ => [] }

/-- The first call takes the command that has just come in, the second the one
that waits. -/
theorem polls_serve_overtaken :
    overtaken.result = some (1, .freezeAccount ⟨2⟩) ∧
      ∃ p ∈ [overtaken, secondPoll], ∃ cmd, p.Waits 0 cmd ∧ p.result = some (0, cmd) := by
  refine ⟨rfl, (polls_serve 2 (by decide) [overtaken, secondPoll] rfl ?_ ?_ 0 ?_).2⟩
  · exact List.isChain_cons_cons.mpr ⟨⟨rfl, rfl⟩, List.IsChain.singleton _⟩
  · simp only [List.mem_cons, List.not_mem_nil, or_false, forall_eq_or_imp, forall_eq]
    exact ⟨rfl, rfl⟩
  · simp only [List.mem_cons, List.not_mem_nil, or_false, forall_eq_or_imp, forall_eq]
    exact ⟨⟨_, [], rfl⟩, ⟨.freezeAccount ⟨1⟩, [], rfl⟩⟩

end MRE.Proof.Sequencing
