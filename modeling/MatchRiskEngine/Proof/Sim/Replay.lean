import MatchRiskEngine.Proof.RiskEngine.MarginOrder

/-!
# Replaying the log of the harness

If the shards ask for nothing (`Quiet`), a tick takes the next command through the
whole system (`tick_sequence`), and the number of ticks does not matter once all
commands are through (`runTicks_enough`).

A calm run logs the commands it was given, in their order, so that its replay ends
in the same state (`replay_sameState`). The log of a run with a liquidation has the
liquidation in it; the replay takes it from the log and asks for it once more, and
the orders behind it get other numbers (`liquidation_replayed_twice`).
-/

namespace MRE.Proof.Sim

open SimHarness

variable {M K : Type}
variable {step step' : ShardStep} {h h' : SimHarness M K} {result result' : SimResult}

/-! ## The shards -/

/-- A step that does all that another does. -/
def Extends (step step' : ShardStep) : Prop := ∀ {i shard ev r}, step i shard ev = some r → step' i shard ev = some r

theorem processShards_mono (hle : Extends step step') {ev : EngineEvent} {i : Nat} {shards : List RiskShard}
    {states : AccountRiskTable} {r : List RiskShard × AccountRiskTable × List InboundCommand}
    (h : processShards step ev i shards states = some r) : processShards step' ev i shards states = some r := by
  induction shards generalizing i states r with
  | nil => exact h
  | cons shard shards ih =>
    obtain ⟨⟨shard', cmds⟩, hstep, h⟩ := Option.bind_eq_some_iff.mp h
    obtain ⟨rest, hrest, h⟩ := Option.bind_eq_some_iff.mp h
    exact Option.bind_eq_some_iff.mpr ⟨_, hle hstep, Option.bind_eq_some_iff.mpr ⟨_, ih hrest, h⟩⟩

variable {evs : List EngineEvent} {r : SimHarness M K × SimResult}

theorem processEvents_mono (hle : Extends step step')
    (e : processEvents step evs h result = some r) : processEvents step' evs h result = some r := by
  induction evs generalizing h result with
  | nil => exact e
  | cons ev evs ih =>
    obtain ⟨processed, hprocessed, e⟩ := Option.bind_eq_some_iff.mp e
    exact Option.bind_eq_some_iff.mpr ⟨_, processShards_mono hle hprocessed, ih e⟩

/-- The shards ask for nothing. -/
def Quiet (step : ShardStep) : Prop := ∀ {i shard ev r}, step i shard ev = some r → r.2 = []

theorem processShards_quiet (hquiet : Quiet step) {ev : EngineEvent} {i : Nat} {shards : List RiskShard}
    {states : AccountRiskTable} {r : List RiskShard × AccountRiskTable × List InboundCommand}
    (h : processShards step ev i shards states = some r) : r.2.2 = [] := by
  induction shards generalizing i states r with
  | nil =>
    cases h
    rfl
  | cons shard shards ih =>
    obtain ⟨⟨shard', cmds⟩, hstep, h⟩ := Option.bind_eq_some_iff.mp h
    obtain ⟨rest, hrest, h⟩ := Option.bind_eq_some_iff.mp h
    cases h
    show cmds ++ rest.2.2 = []
    rw [show cmds = [] from hquiet hstep, ih hrest]
    rfl

theorem processEvents_quiet (hquiet : Quiet step) (e : processEvents step evs h result = some (h', result')) :
    h' = { h with shards := h'.shards, accountStates := h'.accountStates } := by
  induction evs generalizing h result with
  | nil =>
    cases e
    rfl
  | cons ev evs ih =>
    obtain ⟨⟨shards, states, cmds⟩, hprocessed, e⟩ := Option.bind_eq_some_iff.mp e
    have hcmds : cmds = [] := processShards_quiet hquiet hprocessed
    subst hcmds
    exact ih (h := { h with shards, accountStates := states }) e

/-! ## The sequencer -/

variable {meQueues meQueues' : List (List SequencedCommand)}

theorem pushTo_short {symbol : Symbol} {sc : SequencedCommand}
    (hempty : ∀ queue ∈ meQueues, queue = []) (e : pushTo meQueues symbol sc = some meQueues') :
    meQueues'.length = meQueues.length ∧ ∀ queue ∈ meQueues', queue.length ≤ 1 := by
  unfold pushTo at e
  split at e
  · cases e
    refine ⟨List.length_modify _ _ _, fun queue hqueue => ?_⟩
    obtain ⟨i, hi⟩ := List.mem_iff_getElem?.mp hqueue
    rw [List.getElem?_modify] at hi
    obtain ⟨queue', hqueue', rfl⟩ := Option.map_eq_some_iff.mp hi
    rw [hempty queue' (List.mem_of_getElem? hqueue')]
    split
    · exact Nat.le_refl 1
    · exact Nat.zero_le 1
  · cases e

theorem route_short {sc : SequencedCommand}
    (hempty : ∀ queue ∈ meQueues, queue = []) (e : route meQueues sc = some meQueues') :
    meQueues'.length = meQueues.length ∧ ∀ queue ∈ meQueues', queue.length ≤ 1 := by
  have hall : some (meQueues.map (· ++ [sc])) = some meQueues' →
      meQueues'.length = meQueues.length ∧ ∀ queue ∈ meQueues', queue.length ≤ 1 := by
    intro e
    cases e
    refine ⟨List.length_map _, fun queue hqueue => ?_⟩
    obtain ⟨queue', hqueue', rfl⟩ := List.mem_map.mp hqueue
    rw [hempty queue' hqueue']
    exact Nat.le_refl 1
  unfold route at e
  split at e
  · exact pushTo_short hempty e
  · exact pushTo_short hempty e
  · exact hall e
  · exact hall e

theorem sequence_cons {cmd : InboundCommand} {rest : List InboundCommand} (hinbound : h.inbound = cmd :: rest)
    (e : h.sequence result = some (h', result')) :
    ∃ sc, sc.cmd = cmd ∧ route h.meQueues sc = some h'.meQueues ∧
      h' = { h with inbound := rest, nextSeq := h'.nextSeq, wal := h.wal ++ [sc], meQueues := h'.meQueues
                    eventQueue := h'.eventQueue } := by
  unfold SimHarness.sequence at e
  rw [hinbound] at e
  obtain ⟨meQueues, hroute, e⟩ := Option.bind_eq_some_iff.mp e
  dsimp only at e
  split at e
  · cases e
  · split at e
    · cases e
      exact ⟨_, rfl, hroute, rfl⟩
    · cases e
      exact ⟨_, rfl, hroute, rfl⟩

/-! ## The engines -/

variable [DecidableEq K] [Arena M K]

theorem stepEngines_empty {engines : List (SimEngine M K)} {meQueues : List (List SequencedCommand)}
    (hlen : engines.length = meQueues.length) (hempty : ∀ queue ∈ meQueues, queue = []) :
    stepEngines engines meQueues = some (engines, meQueues, []) := by
  induction engines generalizing meQueues with
  | nil => rfl
  | cons engine engines ih =>
    cases meQueues with
    | nil => cases hlen
    | cons queue meQueues =>
      rw [List.forall_mem_cons] at hempty
      obtain ⟨rfl, hempty⟩ := hempty
      rw [stepEngines, ih (Nat.succ.inj hlen) hempty]
      rfl

theorem stepEngine_short {engine engine' : SimEngine M K} {queue queue' : List SequencedCommand}
    (hshort : queue.length ≤ 1) (e : stepEngine engine queue = some (engine', queue', evs)) : queue' = [] := by
  cases queue with
  | nil =>
    cases e
    rfl
  | cons cmd queue =>
    obtain ⟨_, _, e⟩ := Option.bind_eq_some_iff.mp e
    cases e
    exact List.length_eq_zero_iff.mp (by rw [List.length_cons] at hshort; omega)

theorem stepEngines_short {engines engines' : List (SimEngine M K)}
    (hlen : engines.length = meQueues.length) (hshort : ∀ queue ∈ meQueues, queue.length ≤ 1)
    (e : stepEngines engines meQueues = some (engines', meQueues', evs)) :
    engines'.length = meQueues'.length ∧ ∀ queue ∈ meQueues', queue = [] := by
  induction engines generalizing meQueues engines' meQueues' evs with
  | nil =>
    cases meQueues with
    | nil =>
      cases e
      exact ⟨rfl, fun _ h => absurd h List.not_mem_nil⟩
    | cons _ _ => cases hlen
  | cons engine engines ih =>
    cases meQueues with
    | nil => cases hlen
    | cons queue meQueues =>
      rw [List.forall_mem_cons] at hshort
      obtain ⟨⟨engine', queue', evs'⟩, hstep, e⟩ := Option.bind_eq_some_iff.mp e
      obtain ⟨⟨engines', meQueues', rest⟩, hrest, e⟩ := Option.bind_eq_some_iff.mp e
      cases e
      obtain ⟨hlen', hempty⟩ := ih (Nat.succ.inj hlen) hshort.2 hrest
      exact ⟨congrArg Nat.succ hlen', List.forall_mem_cons.mpr ⟨stepEngine_short hshort.1 hstep, hempty⟩⟩

/-! ## A tick -/

/-- Every queue is empty, and every engine has one. -/
structure Idle (h : SimHarness M K) : Prop where
  queues : ∀ queue ∈ h.meQueues, queue = []
  events : h.eventQueue = []
  engines : h.engines.length = h.meQueues.length

theorem tick_mono (hle : Extends step step') (e : h.tick step result = some r) :
    h.tick step' result = some r := by
  obtain ⟨sequenced, hsequenced, e⟩ := Option.bind_eq_some_iff.mp e
  obtain ⟨stepped, hstepped, e⟩ := Option.bind_eq_some_iff.mp e
  exact Option.bind_eq_some_iff.mpr ⟨_, hsequenced, Option.bind_eq_some_iff.mpr ⟨_, hstepped, processEvents_mono hle e⟩⟩

theorem tick_sequence (hquiet : Quiet step) (hidle : Idle h) {cmd : InboundCommand} {rest : List InboundCommand}
    (hinbound : h.inbound = cmd :: rest) (e : h.tick step result = some (h', result')) :
    Idle h' ∧ h'.inbound = rest ∧ h'.wal.map SequencedCommand.cmd = h.wal.map SequencedCommand.cmd ++ [cmd] := by
  obtain ⟨⟨h₁, result₁⟩, hsequence, e⟩ := Option.bind_eq_some_iff.mp e
  obtain ⟨⟨engines, meQueues, evs⟩, hengines, e⟩ := Option.bind_eq_some_iff.mp e
  obtain ⟨sc, hcmd, hroute, hh₁⟩ := sequence_cons (h := { h with clock := h.clock.tick }) hinbound hsequence
  obtain ⟨hlen, hshort⟩ := route_short hidle.queues hroute
  obtain ⟨hlen', hempty⟩ := stepEngines_short (by rw [hlen, hh₁]; exact hidle.engines) hshort hengines
  have hh' := processEvents_quiet hquiet e
  rw [hh']
  refine ⟨⟨hempty, rfl, hlen'⟩, ?_, ?_⟩
  · show h₁.inbound = rest
    rw [hh₁]
  · show h₁.wal.map SequencedCommand.cmd = _
    rw [hh₁, List.map_append, List.map_singleton, hcmd]

theorem tick_idle (step : ShardStep) (hidle : Idle h) (hinbound : h.inbound = []) (result : SimResult) :
    h.tick step result = some ({ h with clock := h.clock.tick }, result) := by
  have hsequence : { h with clock := h.clock.tick }.sequence result =
      some ({ h with clock := h.clock.tick }, result) := by
    unfold SimHarness.sequence
    rw [hinbound]
  unfold SimHarness.tick
  rw [hsequence]
  simp only [Option.bind_eq_bind, Option.bind_some, stepEngines_empty hidle.engines hidle.queues, hidle.events,
    List.append_nil, processEvents, List.countP_nil]
  rw [show UInt64.ofNat 0 = 0 from rfl, UInt64.add_zero, ← hidle.events]

/-! ## A run -/

theorem runTicks_mono (hle : Extends step step') {n : Nat} (e : runTicks step n h result = some r) :
    runTicks step' n h result = some r := by
  induction n generalizing h result with
  | zero => exact e
  | succ n ih =>
    obtain ⟨ticked, hticked, e⟩ := Option.bind_eq_some_iff.mp e
    exact Option.bind_eq_some_iff.mpr ⟨_, tick_mono hle hticked, ih e⟩

theorem runTicks_add (step : ShardStep) (m n : Nat) (h : SimHarness M K) (result : SimResult) :
    runTicks step (m + n) h result = (runTicks step m h result).bind fun x => runTicks step n x.1 x.2 := by
  induction m generalizing h result with
  | zero =>
    rw [Nat.zero_add]
    rfl
  | succ m ih =>
    rw [Nat.succ_add]
    show (h.tick step result).bind (fun x => runTicks step (m + n) x.1 x.2) =
      ((h.tick step result).bind fun x => runTicks step m x.1 x.2).bind fun x => runTicks step n x.1 x.2
    rw [Option.bind_assoc]
    exact Option.bind_congr fun x _ => ih x.1 x.2

theorem runTicks_idle (step : ShardStep) (hidle : Idle h) (hinbound : h.inbound = []) (n : Nat) (result : SimResult) :
    ∃ clock, runTicks step n h result = some ({ h with clock }, result) := by
  induction n generalizing h with
  | zero => exact ⟨h.clock, rfl⟩
  | succ n ih =>
    obtain ⟨clock, hrun⟩ := ih (h := { h with clock := h.clock.tick }) ⟨hidle.queues, hidle.events, hidle.engines⟩ hinbound
    refine ⟨clock, ?_⟩
    rw [runTicks, tick_idle step hidle hinbound]
    exact hrun

/-- The commands go through one after the other, and into the log. -/
theorem runTicks_quiet (hquiet : Quiet step) (hidle : Idle h) {n : Nat}
    (e : runTicks step n h result = some (h', result')) :
    Idle h' ∧ h'.inbound = h.inbound.drop n ∧
      h'.wal.map SequencedCommand.cmd = h.wal.map SequencedCommand.cmd ++ h.inbound.take n := by
  induction n generalizing h result with
  | zero =>
    cases e
    exact ⟨hidle, rfl, (List.append_nil _).symm⟩
  | succ n ih =>
    obtain ⟨⟨h₁, result₁⟩, htick, e⟩ := Option.bind_eq_some_iff.mp e
    cases hinbound : h.inbound with
    | nil =>
      rw [tick_idle step hidle hinbound] at htick
      cases htick
      obtain ⟨hidle', hdrop, hwal⟩ := ih (h := { h with clock := h.clock.tick })
        ⟨hidle.queues, hidle.events, hidle.engines⟩ e
      simp only [hinbound, List.drop_nil, List.take_nil] at hdrop hwal
      exact ⟨hidle', hdrop, hwal⟩
    | cons cmd rest =>
      obtain ⟨hidle₁, hrest, hwal₁⟩ := tick_sequence hquiet hidle hinbound htick
      obtain ⟨hidle', hdrop, hwal⟩ := ih hidle₁ e
      rw [hrest] at hdrop hwal
      rw [hwal₁, List.append_assoc] at hwal
      exact ⟨hidle', hdrop, hwal⟩

/-- Once all commands are through, a run of any other length that takes them
ends in the same state, at another time. -/
theorem runTicks_enough (hquiet : Quiet step) (hidle : Idle h) {m n : Nat}
    (e : runTicks step n h result = some (h', result')) (hinbound : h'.inbound = []) (hm : h.inbound.length ≤ m) :
    ∃ clock, runTicks step m h result = some ({ h' with clock }, result') := by
  have hn : h.inbound.length ≤ n := by
    rw [(runTicks_quiet hquiet hidle e).2.1] at hinbound
    exact List.drop_eq_nil_iff.mp hinbound
  obtain ⟨i, rfl⟩ := Nat.exists_eq_add_of_le hn
  obtain ⟨j, rfl⟩ := Nat.exists_eq_add_of_le hm
  -- both runs are alike until the last command is taken
  rw [runTicks_add] at e
  obtain ⟨⟨h₁, result₁⟩, hrun, e⟩ := Option.bind_eq_some_iff.mp e
  obtain ⟨hidle₁, hdrop, -⟩ := runTicks_quiet hquiet hidle hrun
  rw [List.drop_length] at hdrop
  obtain ⟨clock₁, hrest₁⟩ := runTicks_idle step hidle₁ hdrop i result₁
  obtain ⟨clock₂, hrest₂⟩ := runTicks_idle step hidle₁ hdrop j result₁
  rw [hrest₁] at e
  cases e
  exact ⟨clock₂, by rw [runTicks_add, hrun]; exact hrest₂⟩

end MRE.Proof.Sim

namespace MRE.Proof.Sim

open SimHarness

variable {M K : Type} {iters : Nat → IterOrder} {markPrices : MarkPrices}

/-! ## Calm steps -/

theorem calmEvent_quiet (iters : Nat → IterOrder) (markPrices : MarkPrices) : Quiet (calmEvent iters markPrices) := by
  intro i shard ev r e
  unfold calmEvent at e
  split at e
  · rename_i hcalm
    exact hcalm.2 r e
  · cases e

/-- A calm event is processed alike in every order of the positions. -/
theorem calmEvent_extends (hmarks : ∀ symbol, markPrices symbol = none) (iters' : Nat → IterOrder) :
    Extends (calmEvent iters markPrices) (processEvent iters' markPrices) := by
  intro i shard ev r e
  unfold calmEvent at e
  split at e
  · rename_i hcalm
    exact (Risk.processEvent_calm hmarks hcalm (iters' i)).trans e
  · cases e

/-! ## A fresh harness -/

theorem foldl_pushCommand (cmds : List InboundCommand) (h : SimHarness M K) :
    cmds.foldl pushCommand h = { h with inbound := h.inbound ++ cmds } := by
  induction cmds generalizing h with
  | nil => rw [List.foldl_nil, List.append_nil]
  | cons cmd cmds ih =>
    rw [List.foldl_cons, ih]
    simp only [pushCommand, List.append_assoc, List.singleton_append]

theorem length_of_mapM {α β : Type} {f : α → Option β} {xs : List α} {ys : List β} (h : xs.mapM f = some ys) :
    ys.length = xs.length := by
  induction xs generalizing ys with
  | nil =>
    cases h
    rfl
  | cons x xs ih =>
    rw [List.mapM_cons] at h
    obtain ⟨y, -, h⟩ := Option.bind_eq_some_iff.mp h
    obtain ⟨ys, hys, h⟩ := Option.bind_eq_some_iff.mp h
    cases h
    exact congrArg Nat.succ (ih hys)

variable [DecidableEq K] [Arena M K]

structure Fresh (h : SimHarness M K) : Prop where
  idle : Idle h
  inbound : h.inbound = []
  wal : h.wal = []
  marks : ∀ symbol, h.markPrices symbol = none

theorem new_fresh {config : SimConfig} {h : SimHarness M K} (e : SimHarness.new config = some h) : Fresh h := by
  unfold SimHarness.new at e
  split at e
  · cases e
  · obtain ⟨engines, hengines, e⟩ := Option.bind_eq_some_iff.mp e
    obtain ⟨⟨shards, accountStates⟩, -, e⟩ := Option.bind_eq_some_iff.mp e
    cases e
    refine ⟨⟨fun queue hqueue => List.eq_of_mem_replicate hqueue, rfl, ?_⟩, rfl, rfl, fun _ => rfl⟩
    show engines.length = (List.replicate config.nSymbols []).length
    rw [length_of_mapM hengines, List.length_range, List.length_replicate]

/-! ## The replay -/

/-- The replay of a calm run that took all of its commands ends in the same
state, with as many trades. -/
theorem replay_sameState (config : SimConfig) (cmds : List InboundCommand) (iters iters' : Nat → IterOrder) {nTicks : Nat}
    {h₀ h : SimHarness M K} {result : SimResult} (hnew : SimHarness.new config = some h₀)
    (hrun : (cmds.foldl pushCommand h₀).run iters nTicks = some (h, result)) (hdrained : h.Drained)
    (hcalm : (cmds.foldl pushCommand h₀).CalmRun iters nTicks) :
    ∃ h' result', Replayer.replay config iters' h.wal = some (h', result') ∧ h.SameState h' ∧
      result'.tradesMatched = result.tradesMatched := by
  obtain ⟨hidle, hinbound, hwal, hmarks⟩ := new_fresh hnew
  have hstart : cmds.foldl pushCommand h₀ = { h₀ with inbound := cmds } := by
    rw [foldl_pushCommand, hinbound, List.nil_append]
  have hidle' : Idle { h₀ with inbound := cmds } := ⟨hidle.queues, hidle.events, hidle.engines⟩
  rw [hstart] at hrun hcalm
  -- the calm run is the run
  obtain ⟨⟨calm, calmResult⟩, hcrun⟩ := Option.isSome_iff_exists.mp hcalm
  have hsame := runTicks_mono (calmEvent_extends hmarks iters) hcrun
  rw [SimHarness.run, hsame] at hrun
  cases hrun
  -- its log has its commands
  obtain ⟨-, hdrop, hlog⟩ := runTicks_quiet (calmEvent_quiet _ _) hidle' hcrun
  have hcmds : h.wal.map SequencedCommand.cmd = cmds := by
    rw [hdrained.1] at hdrop
    rw [hlog, hwal, List.take_of_length_le (List.drop_eq_nil_iff.mp hdrop.symm)]
    rfl
  have hlen : h.wal.length = cmds.length := by rw [← hcmds, List.length_map]
  obtain ⟨clock, henough⟩ := runTicks_enough (calmEvent_quiet _ _) hidle' hcrun hdrained.1
    (m := h.wal.length * 2 + 10) (show cmds.length ≤ _ by omega)
  refine ⟨{ h with clock }, result, ?_, ⟨fun _ => rfl, rfl⟩, rfl⟩
  rw [Replayer.replay, hnew]
  show SimHarness.run (h.wal.foldl (fun harness sc => harness.pushCommand sc.cmd) h₀) iters' _ = _
  rw [← List.foldl_map, hcmds, hstart]
  exact runTicks_mono (calmEvent_extends hmarks iters') henough

abbrev DemoHarness : Type := SimHarness SlotArena SlotKey

/-- A limit order of one unit in symbol 1. -/
def demoOrder (account : UInt64) (side : Side) (price : Int64) : InboundCommand :=
  .newOrder
    { account := ⟨account⟩, clientOrderId := ⟨0⟩, symbol := ⟨1⟩, side, price := ⟨price⟩, qty := ⟨100000000⟩
      orderType := .limit, timeInForce := .gtc }

/-- Account 1 buys from account 0 at 100. A further offer is cancelled by its
number, 5, and then bid for. -/
def demoCmds : List InboundCommand :=
  [demoOrder 0 .sell 100, demoOrder 1 .buy 100, demoOrder 0 .sell 101, .cancel ⟨0⟩ ⟨5⟩, demoOrder 1 .buy 101]

/-- Two prices are enough. -/
def demoConfig (initialBalance : Int64) : SimConfig :=
  { SimConfig.default with initialBalance, bookTickFloor := ⟨100⟩, bookNumTicks := 2 }

def demoReverse : IterOrder := ⟨List.reverse, List.reverse_perm⟩

set_option maxRecDepth 2000

def demoRich : DemoHarness := (SimHarness.new (demoConfig 1000)).get (by decide)

def demoRichEnd : DemoHarness × SimResult :=
  ((demoCmds.foldl pushCommand demoRich).run (fun _ => Risk.inOrder) 5).get (by decide)

theorem replay_sameState_demo : ∃ h' result',
    Replayer.replay (demoConfig 1000) (fun _ => demoReverse) demoRichEnd.1.wal = some (h', result') ∧
      demoRichEnd.1.SameState h' ∧ result'.tradesMatched = demoRichEnd.2.tradesMatched := by
  have hnew : SimHarness.new (demoConfig 1000) = some demoRich := (Option.some_get _).symm
  have hrun : (demoCmds.foldl pushCommand demoRich).run (fun _ => Risk.inOrder) 5 = some demoRichEnd :=
    (Option.some_get _).symm
  exact replay_sameState (demoConfig 1000) demoCmds _ (fun _ => demoReverse) hnew hrun (by decide)
    (by decide)

def demoPoor : DemoHarness := (SimHarness.new (demoConfig 0)).get (by decide)

def demoPoorEnd : DemoHarness × SimResult :=
  ((demoCmds.foldl pushCommand demoPoor).run (fun _ => Risk.inOrder) 7).get (by decide)

def demoPoorReplay : DemoHarness × SimResult :=
  (Replayer.replay (demoConfig 0) (fun _ => Risk.inOrder) demoPoorEnd.1.wal).get (by decide)

/-- Without deposits both accounts are liquidated, and the further offer is order
5. In the replay each liquidation comes twice, the offer is order 7, its
cancellation finds nothing, and it is traded. -/
theorem liquidation_replayed_twice : ∃ h₀ h h' : DemoHarness, ∃ result result',
    SimHarness.new (demoConfig 0) = some h₀ ∧
      (demoCmds.foldl pushCommand h₀).run (fun _ => Risk.inOrder) 7 = some (h, result) ∧ h.Drained ∧
      Replayer.replay (demoConfig 0) (fun _ => Risk.inOrder) h.wal = some (h', result') ∧
      ¬ h.SameState h' ∧ result.tradesMatched = 1 ∧ result'.tradesMatched = 2 := by
  have hrun : (demoCmds.foldl pushCommand demoPoor).run (fun _ => Risk.inOrder) 7 = some demoPoorEnd :=
    (Option.some_get _).symm
  have hreplay : Replayer.replay (demoConfig 0) (fun _ => Risk.inOrder) demoPoorEnd.1.wal = some demoPoorReplay :=
    (Option.some_get _).symm
  refine ⟨demoPoor, demoPoorEnd.1, demoPoorReplay.1, demoPoorEnd.2, demoPoorReplay.2, (Option.some_get _).symm, hrun,
    by decide, hreplay, fun h => ?_, by decide, by decide⟩
  exact absurd h.openOrders (by decide)

end MRE.Proof.Sim
