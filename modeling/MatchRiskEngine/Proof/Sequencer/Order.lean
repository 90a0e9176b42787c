import MatchRiskEngine.Framework.Counter
import MatchRiskEngine.Spec.Sequencer

/-!
# The sequencer's total order

Every iteration of the sequencer keeps the total order of commands (`step_ok`),
and so does every run (`sequencer_run`).
-/

namespace MRE.Proof.Sequencing

open MRE.Sequencer

variable {s s' : Sequencer} {initialSeq : UInt64} {n : Nat}

/-! ## Taking a command -/

variable {cmd : InboundCommand}

theorem pollLoop_some {gw : List (List InboundCommand)} {cursor idx : Nat} {is : List Nat}
    (h : pollLoop gw cursor is = some (idx, cmd)) : ∃ rest, gw[idx]? = some (cmd :: rest) := by
  induction is with
  | nil => cases h
  | cons i is ih =>
    rw [pollLoop] at h
    split at h
    · rename_i cmd' rest hq
      cases h
      exact ⟨rest, hq⟩
    · exact ih h

theorem pollInbound_some {queue : Nat} (h : s.pollInbound = some (queue, cmd, s')) :
    (∃ rest, s.gwInbound[queue]? = some (cmd :: rest)) ∧
      s' = { s with
        gwInbound := s.gwInbound.modify queue List.tail, gwCursor := (queue + 1) % s.gwInbound.length } := by
  obtain ⟨⟨queue', cmd'⟩, hloop, heq⟩ := Option.map_eq_some_iff.mp h
  cases heq
  exact ⟨pollLoop_some hloop, rfl⟩

/-! ## Handing it on -/

/-- Every engine's queue gets the command if it is for that engine. -/
theorem route_ok (f : Nat → List SequencedCommand) {c : SequencedCommand} (h : c.cmd.SymbolBelow n) :
    route ((List.range n).map f) c =
      some ((List.range n).map fun i => f i ++ if c.cmd.routedTo i then [c] else []) := by
  have hone : ∀ symbol : Symbol, cmdSymbol c.cmd = some symbol →
      (∀ i, c.cmd.routedTo i = decide (symbol.raw.toNat = i)) → route ((List.range n).map f) c =
        some ((List.range n).map fun i => f i ++ if c.cmd.routedTo i then [c] else []) := by
    intro symbol hsymbol hrouted
    have hlt : symbol.raw.toNat < n := h symbol hsymbol
    simp only [route, hsymbol, List.length_map, List.length_range, hlt, if_true, hrouted, Option.some.injEq]
    apply List.ext_getElem?
    intro i
    rw [List.getElem?_modify, List.getElem?_map, List.getElem?_map]
    obtain hi | hi := Nat.lt_or_ge i n
    · rw [List.getElem?_range hi]
      by_cases heq : symbol.raw.toNat = i
      · simp [heq]
      · simp [heq]
    · rw [List.getElem?_eq_none (by rw [List.length_range]; exact hi)]
      rfl
  obtain ⟨term, seq, tsNs, cmd⟩ := c
  cases cmd with
  | newOrder o => exact hone o.symbol rfl fun i => rfl
  | liquidate symbol account => exact hone symbol rfl fun i => rfl
  | cancel account orderId =>
    show some (((List.range n).map f).map _) = _
    rw [List.map_map]
    rfl
  | freezeAccount account =>
    show some ((List.range n).map f) = some ((List.range n).map fun i => f i ++ [])
    simp only [List.append_nil]

theorem dispatch_ok (t : Tick) (queue : Nat) (f : Nat → List SequencedCommand)
    (hme : s.meInbound = (List.range n).map f) (h : cmd.SymbolBelow n) :
    ∃ s', s.dispatch t queue cmd = some s' ∧ s'.seq = s.seq + 1 ∧ s'.gwInbound = s.gwInbound ∧ s'.arrived = s.arrived ∧
      s'.dispatched = s.dispatched ++ [(queue, { term := t.term, seq := s.seq + 1, tsNs := t.tsNs, cmd })] ∧
      s'.walOffered = s.walOffered ++ [{ term := t.term, seq := s.seq + 1, tsNs := t.tsNs, cmd }] ∧
      s'.meInbound = (List.range n).map fun i =>
        f i ++ if cmd.routedTo i then [{ term := t.term, seq := s.seq + 1, tsNs := t.tsNs, cmd }] else [] := by
  have hroute := route_ok f (c := { term := t.term, seq := s.seq + 1, tsNs := t.tsNs, cmd }) h
  simp only [dispatch, hme, hroute, Option.bind_eq_bind, Option.bind_some]
  refine ⟨_, rfl, ?_⟩
  split <;> exact ⟨rfl, rfl, rfl, rfl, rfl, rfl⟩

/-! ## The invariant -/

/-- What every iteration keeps that does not panic. -/
structure Counted (initialSeq : UInt64) (n : Nat) (s : Sequencer) : Prop extends TotalOrder initialSeq n s where
  seq : s.seq = initialSeq + UInt64.ofNat s.dispatched.length

structure Inv (initialSeq : UInt64) (n : Nat) (s : Sequencer) : Prop extends Counted initialSeq n s where
  small : ∀ cmds ∈ s.gwInbound, ∀ cmd ∈ cmds, cmd.SymbolBelow n

/-- The numbers of the commands are handed out by a counter. -/
theorem numbered_iff : (∀ k d, s.dispatched[k]? = some d → d.2.seq = initialSeq + UInt64.ofNat (k + 1)) ↔
    Numbered initialSeq (s.dispatched.map fun d => d.2.seq) := by
  constructor
  · intro h k x hx
    rw [List.getElem?_map] at hx
    obtain ⟨d, hd, rfl⟩ := Option.map_eq_some_iff.mp hx
    exact h k d hd
  · intro h k d hd
    exact h k d.2.seq (by rw [List.getElem?_map, hd]; rfl)

theorem numbered_seqs (h : TotalOrder initialSeq n s) : Numbered initialSeq (s.dispatched.map fun d => d.2.seq) :=
  numbered_iff.mp h.numbered

theorem meInbound_eq {i : Nat} {queue : List SequencedCommand} (h : TotalOrder initialSeq n s)
    (hqueue : s.meInbound[i]? = some queue) : queue = s.routed i := by
  rw [h.engines, List.getElem?_map] at hqueue
  obtain ⟨j, hj, rfl⟩ := Option.map_eq_some_iff.mp hqueue
  rw [← (List.getElem?_eq_some_iff.mp hj).2, List.getElem_range]

theorem takenFrom_concat {d : Nat × SequencedCommand} (h : s'.dispatched = s.dispatched ++ [d]) (queue : Nat) :
    s'.takenFrom queue = s.takenFrom queue ++ if d.1 = queue then [d.2.cmd] else [] := by
  rw [takenFrom, h, List.filter_append, List.map_append, takenFrom]
  by_cases hd : d.1 = queue <;> simp [hd]

theorem routed_concat {d : Nat × SequencedCommand} (h : s'.dispatched = s.dispatched ++ [d]) (i : Nat) :
    s'.routed i = s.routed i ++ if d.2.cmd.routedTo i then [d.2] else [] := by
  rw [routed, h, List.map_append, List.filter_append, routed]
  by_cases hd : d.2.cmd.routedTo i = true <;> simp [hd]

theorem arrive_counted (h : Counted initialSeq n s) (queue : Nat) (cmd : InboundCommand) :
    Counted initialSeq n (s.arrive queue cmd) := by
  refine ⟨⟨h.numbered, fun q => ?_, h.engines, h.offered⟩, h.seq⟩
  show (s.arrived.modify queue (· ++ [cmd]))[q]? =
    ((s.gwInbound.modify queue (· ++ [cmd]))[q]?).map (s.takenFrom q ++ ·)
  rw [List.getElem?_modify, List.getElem?_modify, h.in_order q, Option.map_eq_map, Option.map_map, Option.map_map]
  congr 1
  funext cmds
  by_cases hq : queue = q <;> simp [hq, List.append_assoc]

theorem dispatch_counted (h : Counted initialSeq n s) {queue : Nat} {rest : List InboundCommand}
    (hqueue : s.gwInbound[queue]? = some (cmd :: rest)) (cursor : Nat) (t : Tick) (hcmd : cmd.SymbolBelow n) :
    ∃ s', dispatch { s with gwInbound := s.gwInbound.modify queue List.tail, gwCursor := cursor } t queue cmd = some s' ∧
      s'.gwInbound = s.gwInbound.modify queue List.tail ∧ Counted initialSeq n s' := by
  obtain ⟨s', hs', hseq, hgw, harr, hdisp, hwal, hme⟩ := dispatch_ok t queue
    (s := { s with gwInbound := s.gwInbound.modify queue List.tail, gwCursor := cursor }) s.routed h.engines hcmd
  simp only at hseq hgw harr hdisp hwal hme
  have hlen : s'.dispatched.length = s.dispatched.length + 1 := by
    rw [hdisp, List.length_append, List.length_singleton]
  have hnum : s.seq + 1 = initialSeq + UInt64.ofNat (s.dispatched.length + 1) := by
    rw [h.seq, Numbered.next_eq]
  refine ⟨s', hs', hgw, ⟨numbered_iff.mpr ?_, fun q => ?_, ?_, ?_⟩, by rw [hseq, hlen, hnum]⟩
  · rw [hdisp, List.map_append]
    exact (numbered_seqs h.toTotalOrder).concat (by rw [List.length_map]; exact hnum)
  · rw [harr, hgw, List.getElem?_modify, h.in_order q, takenFrom_concat hdisp, Option.map_eq_map, Option.map_map]
    by_cases hq : queue = q
    · subst hq
      simp only [hqueue, Option.map_some, Function.comp_apply, if_true, List.tail_cons, List.append_assoc,
        List.singleton_append]
    · simp only [hq, if_false, List.append_nil]
      congr 1
  · rw [hme]
    exact List.map_congr_left fun i _ => (routed_concat hdisp i).symm
  · rw [hwal, h.offered, hdisp, List.map_append]
    rfl

/-- An update of one queue keeps what holds of all commands. -/
theorem forall_modify {P : InboundCommand → Prop} {gw : List (List InboundCommand)} (h : ∀ cmds ∈ gw, ∀ cmd ∈ cmds, P cmd)
    (queue : Nat) {f : List InboundCommand → List InboundCommand}
    (hf : ∀ cmds, (∀ cmd ∈ cmds, P cmd) → ∀ cmd ∈ f cmds, P cmd) : ∀ cmds ∈ gw.modify queue f, ∀ cmd ∈ cmds, P cmd := by
  intro cmds hcmds
  obtain ⟨q, hq⟩ := List.mem_iff_getElem?.mp hcmds
  rw [List.getElem?_modify] at hq
  obtain ⟨cmds₀, hcmds₀, rfl⟩ := Option.map_eq_some_iff.mp hq
  have hall := h cmds₀ (List.mem_of_getElem? hcmds₀)
  split
  · exact hf cmds₀ hall
  · exact hall

theorem arrive_inv (h : Inv initialSeq n s) (queue : Nat) (hcmd : cmd.SymbolBelow n) :
    Inv initialSeq n (s.arrive queue cmd) := by
  refine ⟨arrive_counted h.toCounted queue cmd, forall_modify h.small queue fun cmds hcmds cmd' hcmd' => ?_⟩
  obtain hcmd' | hcmd' := List.mem_append.mp hcmd'
  · exact hcmds cmd' hcmd'
  · rw [List.mem_singleton.mp hcmd']
    exact hcmd

theorem dispatch_inv (h : Inv initialSeq n s) {queue : Nat} {rest : List InboundCommand}
    (hqueue : s.gwInbound[queue]? = some (cmd :: rest)) (cursor : Nat) (t : Tick) :
    ∃ s', dispatch { s with gwInbound := s.gwInbound.modify queue List.tail, gwCursor := cursor } t queue cmd = some s' ∧
      Inv initialSeq n s' := by
  have hcmd : cmd.SymbolBelow n := h.small _ (List.mem_of_getElem? hqueue) cmd List.mem_cons_self
  obtain ⟨s', hs', hgw, hcounted⟩ := dispatch_counted h.toCounted hqueue cursor t hcmd
  refine ⟨s', hs', hcounted, ?_⟩
  rw [hgw]
  exact forall_modify h.small queue fun cmds hcmds cmd' hcmd' => hcmds cmd' (List.mem_of_mem_tail hcmd')

theorem step_ok (h : Inv initialSeq n s) {a : Sequencer.Action} (ha : a.Orderly n) :
    ∃ s', s.step a = some s' ∧ Inv initialSeq n s' := by
  cases a with
  | arrive queue cmd => exact ⟨_, rfl, arrive_inv h queue ha⟩
  | iterate t =>
    rw [Sequencer.step, iterate, if_neg (by rw [show t.halted = false from ha]; exact Bool.false_ne_true)]
    split
    · exact ⟨s, rfl, h⟩
    · split
      · rename_i queue cmd s₁ hpoll
        obtain ⟨⟨rest, hqueue⟩, rfl⟩ := pollInbound_some hpoll
        exact dispatch_inv h hqueue _ t
      · exact ⟨s, rfl, h⟩

theorem new_counted (gw : List (List InboundCommand)) (snapshots : Nat) (config : SequencerConfig)
    (initialSeq : UInt64) : Counted initialSeq config.nSymbols (Sequencer.new gw snapshots config initialSeq) := by
  refine ⟨⟨fun k d hk => (by cases hk), fun q => ?_, ?_, rfl⟩, ?_⟩
  · show gw[q]? = (gw[q]?).map fun cmds => cmds
    rw [Option.map_id']
  · show List.replicate config.nSymbols [] = (List.range config.nSymbols).map fun _ => []
    rw [List.map_const', List.length_range]
  · exact (UInt64.add_zero initialSeq).symm

/-! ## Runs -/

theorem run_inv (h : Inv initialSeq n s) {actions : List Sequencer.Action} (ha : ∀ a ∈ actions, a.Orderly n) :
    ∃ s', s.run actions = some s' ∧ Inv initialSeq n s' := by
  induction actions generalizing s with
  | nil => exact ⟨s, rfl, h⟩
  | cons a actions ih =>
    obtain ⟨s₁, hs₁, h₁⟩ := step_ok h (ha a List.mem_cons_self)
    obtain ⟨s', hs', h'⟩ := ih h₁ fun b hb => ha b (List.mem_cons_of_mem a hb)
    refine ⟨s', ?_, h'⟩
    rw [Sequencer.run, hs₁]
    exact hs'

/-! ## Increasing numbers -/

theorem routed_sublist (s : Sequencer) (i : Nat) : (s.routed i).Sublist (s.dispatched.map Prod.snd) :=
  List.filter_sublist

/-- What holds between the numbers of earlier and later commands does for each
engine. -/
theorem routed_pairwise {R : UInt64 → UInt64 → Prop} (h : (s.dispatched.map fun d => d.2.seq).Pairwise R) (i : Nat) :
    (s.routed i).Pairwise fun a b => R a.seq b.seq := by
  have hcmds : (s.dispatched.map Prod.snd).Pairwise fun a b => R a.seq b.seq := by
    rw [List.pairwise_map] at h ⊢
    exact h
  exact hcmds.sublist (routed_sublist s i)

/-- The numbers of the commands for an engine increase, unless the counter
wraps. -/
theorem routed_increasing (h : TotalOrder initialSeq n s) (hlt : initialSeq.toNat + s.dispatched.length < 2 ^ 64)
    (i : Nat) : (s.routed i).Pairwise fun a b => a.seq < b.seq :=
  routed_pairwise ((numbered_seqs h).pairwise_lt (by rw [List.length_map]; exact hlt)) i

/-- Fewer than 2^64 commands have different numbers, in each queue. -/
theorem routed_nodup (h : TotalOrder initialSeq n s) (hlt : s.dispatched.length < 2 ^ 64) (i : Nat) :
    ((s.routed i).map SequencedCommand.seq).Nodup := by
  have hseqs : (s.dispatched.map fun d => d.2.seq).length < 2 ^ 64 := by rw [List.length_map]; exact hlt
  rw [List.Nodup, List.pairwise_map]
  refine (routed_pairwise ((numbered_seqs h).pairwise_sub_lt hseqs) i).imp fun hab heq => ?_
  rw [heq] at hab
  exact Nat.lt_irrefl _ hab

/-- In every run of the sequencer on commands with symbols below their number,
the commands form a total order. Each engine gets the commands for it with
increasing numbers: counted from the first one, and also as such unless the
counter wraps. -/
theorem sequencer_run (gw : List (List InboundCommand)) (snapshots : Nat) (config : SequencerConfig)
    (initialSeq : UInt64) (hgw : ∀ cmds ∈ gw, ∀ cmd ∈ cmds, cmd.SymbolBelow config.nSymbols) (actions : List Sequencer.Action)
    (hactions : ∀ a ∈ actions, a.Orderly config.nSymbols) :
    ∃ s, (Sequencer.new gw snapshots config initialSeq).run actions = some s ∧
      TotalOrder initialSeq config.nSymbols s ∧
      (s.dispatched.length < 2 ^ 64 → ∀ queue ∈ s.meInbound,
        queue.Pairwise fun a b => (a.seq - initialSeq).toNat < (b.seq - initialSeq).toNat) ∧
      (initialSeq.toNat + s.dispatched.length < 2 ^ 64 → ∀ queue ∈ s.meInbound,
        queue.Pairwise fun a b => a.seq < b.seq) := by
  have hnew : Inv initialSeq config.nSymbols (Sequencer.new gw snapshots config initialSeq) :=
    ⟨new_counted gw snapshots config initialSeq, hgw⟩
  obtain ⟨s, hs, hinv⟩ := run_inv hnew hactions
  have horder := hinv.toTotalOrder
  refine ⟨s, hs, horder, fun hlt queue hqueue => ?_, fun hlt queue hqueue => ?_⟩
  · rw [horder.engines] at hqueue
    obtain ⟨i, -, rfl⟩ := List.mem_map.mp hqueue
    exact routed_pairwise ((numbered_seqs horder).pairwise_sub_lt (by rw [List.length_map]; exact hlt)) i
  · rw [horder.engines] at hqueue
    obtain ⟨i, -, rfl⟩ := List.mem_map.mp hqueue
    exact routed_increasing horder hlt i

def demoTick : Tick := { halted := false, leader := true, term := 1, tsNs := 0, walFull := false }

/-- Two gateways and two symbols. -/
def demoSequencer : Sequencer :=
  Sequencer.new [[.liquidate ⟨0⟩ ⟨7⟩, .cancel ⟨7⟩ ⟨1⟩], [.liquidate ⟨1⟩ ⟨7⟩]] 1
    { nSymbols := 2, snapshotSchedule := .default } 0

theorem sequencer_run_demo :
    ∃ s, demoSequencer.run [.iterate demoTick, .iterate demoTick, .iterate demoTick] = some s ∧
      s.meInbound.map (fun queue => queue.map SequencedCommand.seq) = [[1, 3], [2, 3]] ∧ TotalOrder 0 2 s := by
  obtain ⟨s, hs, horder, -, -⟩ := sequencer_run [[.liquidate ⟨0⟩ ⟨7⟩, .cancel ⟨7⟩ ⟨1⟩], [.liquidate ⟨1⟩ ⟨7⟩]] 1
    { nSymbols := 2, snapshotSchedule := .default } 0 (by decide)
    [.iterate demoTick, .iterate demoTick, .iterate demoTick] (by decide)
  refine ⟨s, hs, ?_, horder⟩
  have hme : (demoSequencer.run [.iterate demoTick, .iterate demoTick, .iterate demoTick]).map
      (fun s => s.meInbound.map fun queue => queue.map SequencedCommand.seq) = some [[1, 3], [2, 3]] := by
    rfl
  rw [show demoSequencer.run _ = some s from hs] at hme
  exact Option.some.inj hme

end MRE.Proof.Sequencing
