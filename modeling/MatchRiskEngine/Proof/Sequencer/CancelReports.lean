import MatchRiskEngine.Proof.MatchingEngine.Liquidate
import MatchRiskEngine.Proof.Sequencer.Broadcast

/-!
# Cancels that succeed and are reported as rejected

An engine publishes nothing for a cancel that removes an order: the book's event
is one that `mapEngineEvent` drops. An engine without the order publishes a
rejection (`cancel_published`). Every engine gets the cancel, and an order is in
one book only (`Fed`), so that a cancel that succeeds is reported as rejected by
each of the other engines (`cancel_not_rejected_iff`).
-/

namespace MRE.Proof.Sequencing

open MRE.Sequencer MRE.Proof.Book MRE.Proof.Engine SlotMap

variable {M K : Type} [DecidableEq K] [Arena M K]

/-! ## One engine -/

section

variable {env : Env} {e e' : MatchingEngine M K} {cmd : SequencedCommand} {account : AccountId} {id : OrderId}

omit [DecidableEq K] [Arena M K] in
theorem publishAndLog_outbound (env : Env) (e : MatchingEngine M K) (ev : Event) :
    (e.publishAndLog env ev).outbound = e.outbound ++ if e.canPublish env then [ev] else [] := by
  unfold MatchingEngine.publishAndLog MatchingEngine.canPublish
  cases env.walOk e.walCalls with
  | false => exact (List.append_nil _).symm
  | true =>
    cases hpush : (MatchingEngine.tryPush env.ringOk 64 e.ringCalls).1 with
    | false => simp [hpush]
    | true => simp [hpush]

theorem applyCancel_events {b b' : OrderBook M K} {seq : UInt64} {evs : List EngineEvent}
    (h : b.applyCancel seq account id = some (b', evs)) :
    (b.owns account id = false ∧ ∃ r, evs = [.rejected r]) ∨
      (b.owns account id = true ∧ (evs = [] ∨ evs = [.cancelled seq id])) := by
  unfold OrderBook.applyCancel at h
  unfold OrderBook.owns
  dsimp only at h
  cases hkey : b.idToKey id with
  | none =>
    rw [hkey] at h
    cases h
    exact .inl ⟨rfl, _, rfl⟩
  | some key =>
    rw [hkey] at h
    obtain ⟨order, horder, h⟩ := Option.bind_eq_some_iff.mp h
    dsimp only
    rw [horder, Option.any_some]
    split at h
    · rename_i hother
      cases h
      exact .inl ⟨decide_eq_false hother, _, rfl⟩
    · rename_i hown
      refine .inr ⟨decide_eq_true (Decidable.not_not.mp hown), ?_⟩
      split at h
      · cases h
        exact .inl rfl
      · obtain ⟨slot, -, h⟩ := Option.bind_eq_some_iff.mp h
        split at h
        · cases h
          exact .inr rfl
        · obtain ⟨r, -, h⟩ := Option.bind_eq_some_iff.mp h
          split at h
          · obtain ⟨b₁, -, h⟩ := Option.bind_eq_some_iff.mp h
            cases h
            exact .inr rfl
          · cases h
            exact .inr rfl

/-- An engine publishes nothing about a cancel of an order that it has, and a
rejection of any other. -/
theorem cancel_outbound (hfresh : e.highestTermSeen = 0) (hcmd : cmd.cmd = .cancel account id)
    (h : e.handleCommand env cmd = some e') :
    (e.book.owns account id = true ∧ e'.outbound = e.outbound) ∨
      (e.book.owns account id = false ∧
        ∃ r, e'.outbound = e.outbound ++ if e.canPublish env then [.rejected r] else []) := by
  have hterm : ¬ cmd.term < e.highestTermSeen := by
    rw [hfresh]
    exact UInt64.not_lt_zero
  rw [MatchingEngine.handleCommand, if_neg hterm] at h
  simp only [hcmd] at h
  obtain ⟨⟨book, evs⟩, happly, h⟩ := Option.bind_eq_some_iff.mp h
  cases h
  rw [OrderBook.apply, hcmd] at happly
  rcases applyCancel_events happly with ⟨howns, r, rfl⟩ | ⟨howns, rfl | rfl⟩
  · have hout := publishAndLog_outbound env ({ e with book }.publishToRisk env (.rejected r))
      (.rejected { seq := SequenceNo.orFirst r.seq, accountId := r.accountId, clientOrderId := r.clientOrderId
                   reason := r.reason })
    exact .inr ⟨howns, _, hout⟩
  · exact .inl ⟨howns, rfl⟩
  · exact .inl ⟨howns, rfl⟩

/-- A cancel is reported as rejected if and only if the engine has not the order
and gets to publish. -/
theorem cancel_published {h : Handled M K} (hfresh : h.before.highestTermSeen = 0) (hcmd : h.cmd.cmd = .cancel account id)
    (hstep : h.before.handleCommand env h.cmd = some h.after) :
    (∃ ev ∈ h.published, ev.isRejected = true) ↔
      h.before.book.owns account id = false ∧ h.before.canPublish env = true := by
  rw [Handled.published]
  rcases cancel_outbound hfresh hcmd hstep with ⟨howns, hout⟩ | ⟨howns, r, hout⟩
  · rw [hout, howns, List.drop_length]
    simp
  · rw [hout, howns, List.drop_left]
    cases h.before.canPublish env with
    | false => simp
    | true => simp [Event.isRejected]

end

/-! ## Engines behind a sequencer -/

variable {x x' x₀ : Venue M K} {envs : Nat → Env} {initialSeq : UInt64} {n : Nat} {s s' : Sequencer}

/-- The ids in a book are those of the new orders of a queue. -/
def IdsFrom (queue : List SequencedCommand) (b : OrderBook M K) : Prop :=
  OnlyIds (fun id => ∃ c ∈ queue, c.newOrderSeq = some id.raw) b

theorem IdsFrom.mono {queue queue' : List SequencedCommand} {b : OrderBook M K} (h : IdsFrom queue b)
    (hsub : queue ⊆ queue') : IdsFrom queue' b := by
  refine ⟨fun id hid => ?_, fun k o ho => ?_⟩
  · obtain ⟨c, hc, hseq⟩ := h.map id hid
    exact ⟨c, hsub hc, hseq⟩
  · obtain ⟨c, hc, hseq⟩ := h.arena k o ho
    exact ⟨c, hsub hc, hseq⟩

theorem IdsFrom.handle {queue : List SequencedCommand} {env : Env} {e e' : MatchingEngine M K} {cmd : SequencedCommand}
    (h : IdsFrom queue e.book) (hcmd : cmd ∈ queue) (hstep : e.handleCommand env cmd = some e') : IdsFrom queue e'.book := by
  obtain ⟨cmds, evss, hrun, hsub⟩ := leads_handleCommand hstep
  refine run_ids h (fun seq hseq => ⟨cmd, hcmd, ?_⟩) hrun
  exact Option.mem_toList.mp (hsub.subset hseq)

/-- What an engine has handled, of its queue. -/
structure Follows (env : Env) (queue : List SequencedCommand) (t : EngineThread M K) : Prop where
  taken : t.handled.map Handled.cmd <+: queue
  fresh : t.engine.highestTermSeen = 0
  ids : IdsFrom queue t.engine.book
  handled : ∀ h ∈ t.handled, h.before.highestTermSeen = 0 ∧ IdsFrom queue h.before.book ∧
    h.before.handleCommand env h.cmd = some h.after

theorem Follows.mono {env : Env} {queue queue' : List SequencedCommand} {t : EngineThread M K} (h : Follows env queue t)
    (hgrow : queue <+: queue') : Follows env queue' t := by
  refine ⟨h.taken.trans hgrow, h.fresh, h.ids.mono hgrow.subset, fun y hy => ?_⟩
  obtain ⟨hfresh, hids, hstep⟩ := h.handled y hy
  exact ⟨hfresh, hids.mono hgrow.subset, hstep⟩

theorem Follows.handle {env : Env} {queue : List SequencedCommand} {t : EngineThread M K} (h : Follows env queue t)
    {cmd : SequencedCommand} (hcmd : queue[t.handled.length]? = some cmd) {riskWrites : AccountRiskTable → AccountRiskTable}
    {after : MatchingEngine M K} (hstep : (t.engine.atInput ⟨riskWrites, cmd⟩).handleCommand env cmd = some after) :
    Follows env queue ⟨after, t.handled ++ [⟨t.engine.atInput ⟨riskWrites, cmd⟩, cmd, after⟩]⟩ := by
  refine ⟨?_, (handleCommand_highestTermSeen hstep).trans h.fresh, ?_, fun y hy => ?_⟩
  · have htake : queue.take t.handled.length = t.handled.map Handled.cmd := by
      have hprefix := List.prefix_iff_eq_take.mp h.taken
      rw [List.length_map] at hprefix
      exact hprefix.symm
    have hnext : (t.handled ++ [(⟨t.engine.atInput ⟨riskWrites, cmd⟩, cmd, after⟩ : Handled M K)]).map Handled.cmd =
        queue.take (t.handled.length + 1) := by
      rw [List.map_append, List.take_add_one, hcmd, htake]
      rfl
    exact hnext ▸ List.take_prefix _ _
  · exact IdsFrom.handle (e := t.engine.atInput ⟨riskWrites, cmd⟩) h.ids (List.mem_of_getElem? hcmd) hstep
  · rcases List.mem_append.mp hy with hy | hy
    · exact h.handled y hy
    · cases List.mem_singleton.mp hy
      exact ⟨h.fresh, h.ids, hstep⟩

structure Fed (envs : Nat → Env) (initialSeq : UInt64) (n : Nat) (x : Venue M K) : Prop where
  counted : Counted initialSeq n x.sequencer
  engines : ∀ (i : Nat) (t : EngineThread M K), x.engines[i]? = some t → Follows (envs i) (x.sequencer.routed i) t

variable {config : SequencerConfig}

theorem start_fed (h : x₀.Start config initialSeq) : Fed envs initialSeq config.nSymbols x₀ := by
  obtain ⟨gw, snapshots, hseq⟩ := h.sequencer
  refine ⟨hseq ▸ new_counted gw snapshots config initialSeq, fun i t ht => ?_⟩
  obtain ⟨hhandled, limits, cfg, book, risk, hnew, hengine⟩ := h.engines t (List.mem_of_getElem? ht)
  refine ⟨?_, hengine ▸ rfl, hengine ▸ new_ids hnew, fun y hy => ?_⟩
  · rw [hhandled]
    exact List.nil_prefix
  · rw [hhandled] at hy
    cases hy

omit [DecidableEq K] [Arena M K] in
theorem venue_next_some {i : Nat} {t : EngineThread M K} {cmd : SequencedCommand} (h : Counted initialSeq n x.sequencer)
    (e : x.next i = some (t, cmd)) :
    x.engines[i]? = some t ∧ (x.sequencer.routed i)[t.handled.length]? = some cmd := by
  obtain ⟨t', ht', e⟩ := Option.bind_eq_some_iff.mp e
  obtain ⟨queue, hqueue, e⟩ := Option.bind_eq_some_iff.mp e
  obtain ⟨cmd', hcmd', e⟩ := Option.bind_eq_some_iff.mp e
  split at e
  · rw [meInbound_eq h.toTotalOrder hqueue] at hcmd'
    cases e
    exact ⟨ht', hcmd'⟩
  · cases e

theorem step_fed (a : Venue.Action) (h : Fed envs initialSeq n x) : Fed envs initialSeq n (x.step envs a) := by
  cases a with
  | sequencer a =>
    simp only [Venue.step]
    cases e : x.sequencer.step a with
    | none => exact h
    | some s' =>
      obtain ⟨hcounted, hgrow⟩ := step_counted h.counted e
      exact ⟨hcounted, fun i t ht => (h.engines i t ht).mono (hgrow i)⟩
  | engine i riskWrites =>
    simp only [Venue.step, Venue.stepEngine]
    split
    · rename_i t cmd hnext
      obtain ⟨ht, hcmd⟩ := venue_next_some h.counted hnext
      split
      · rename_i after hstep
        refine ⟨h.counted, ?_⟩
        exact List.forall_getElem?_set (P := fun i t => Follows (envs i) (x.sequencer.routed i) t)
          ((h.engines i t ht).handle hcmd hstep) fun j t' _ ht' => h.engines j t' ht'
      · exact h
    · exact h

theorem run_fed (h₀ : x₀.Start config initialSeq) (actions : List Venue.Action) :
    Fed envs initialSeq config.nSymbols (x₀.run envs actions) :=
  foldl_inv (I := Fed envs initialSeq config.nSymbols) (fun _ a hx => step_fed a hx) (start_fed h₀) actions

/-! ## Broadcast cancels -/

omit [DecidableEq K] [Arena M K] in
theorem mem_publishedFor {seq : UInt64} {ev : Event} : ev ∈ x.publishedFor seq ↔
    ∃ (j : Nat) (t : EngineThread M K), x.engines[j]? = some t ∧ ∃ h ∈ t.handled, h.cmd.seq = seq ∧ ev ∈ h.published := by
  simp only [Venue.publishedFor, List.mem_flatMap, List.mem_filter, decide_eq_true_eq, and_assoc]
  constructor
  · rintro ⟨t, ht, h, hh, hseq, hev⟩
    obtain ⟨j, hj⟩ := List.mem_iff_getElem?.mp ht
    exact ⟨j, t, hj, h, hh, hseq, hev⟩
  · rintro ⟨j, t, ht, h, hh, hseq, hev⟩
    exact ⟨t, List.mem_of_getElem? ht, h, hh, hseq, hev⟩

section

variable {i j : Nat} {t t' : EngineThread M K} {h h' : Handled M K} {account : AccountId} {id : OrderId}

theorem Fed.mem_routed (hx : Fed envs initialSeq n x) (ht : x.engines[i]? = some t) (hh : h ∈ t.handled) :
    h.cmd ∈ x.sequencer.routed i :=
  (hx.engines i t ht).taken.subset (List.mem_map.mpr ⟨h, hh, rfl⟩)

theorem Fed.handled_once (hx : Fed envs initialSeq n x) (hlt : x.sequencer.dispatched.length < 2 ^ 64)
    (ht : x.engines[i]? = some t) (hh : h ∈ t.handled) (hh' : h' ∈ t.handled) (hseq : h'.cmd.seq = h.cmd.seq) : h' = h := by
  have htaken := ((hx.engines i t ht).taken.sublist.map SequencedCommand.seq)
  rw [List.map_map] at htaken
  exact List.inj_on_of_nodup_map ((routed_nodup hx.counted.toTotalOrder hlt i).sublist htaken) hh' hh hseq

theorem isSome_of_owns {b : OrderBook M K} (h : b.owns account id = true) : (b.idToKey id).isSome = true := by
  unfold OrderBook.owns at h
  cases hkey : b.idToKey id with
  | none =>
    rw [hkey] at h
    cases h
  | some key => rfl

/-- The ids of different books come from different commands. -/
theorem Fed.apart (hx : Fed envs initialSeq n x) (hlt : x.sequencer.dispatched.length < 2 ^ 64)
    (ht : x.engines[i]? = some t) (hh : h ∈ t.handled) (ht' : x.engines[j]? = some t') (hh' : h' ∈ t'.handled)
    (hid : (h.before.book.idToKey id).isSome) (hid' : (h'.before.book.idToKey id).isSome) : j = i := by
  obtain ⟨c, hc, hseq⟩ := ((hx.engines i t ht).handled h hh).2.1.map id hid
  obtain ⟨c', hc', hseq'⟩ := ((hx.engines j t' ht').handled h' hh').2.1.map id hid'
  have hrouted := (List.mem_filter.mp hc).2
  have hrouted' := (List.mem_filter.mp hc').2
  have heq : c'.seq = c.seq := by
    rw [(routedTo_unique hseq hrouted hrouted).2, (routedTo_unique hseq' hrouted' hrouted').2]
  obtain rfl := dispatched_seq_inj hx.counted.toTotalOrder hlt ((routed_sublist _ j).subset hc')
    ((routed_sublist _ i).subset hc) heq
  exact (routedTo_unique hseq' hrouted' hrouted).1

/-- All engines get the same cancel, and all but one do not have the order. -/
theorem Fed.others (hx : Fed envs initialSeq n x) (hlt : x.sequencer.dispatched.length < 2 ^ 64)
    (ht : x.engines[i]? = some t) (hh : h ∈ t.handled) (hcancels : h.Cancels account id)
    (ht' : x.engines[j]? = some t') (hh' : h' ∈ t'.handled) (hseq : h'.cmd.seq = h.cmd.seq) :
    h'.cmd = h.cmd ∧ (h'.before.book.owns account id = false ↔ j ≠ i) := by
  refine ⟨?_, fun howns hij => ?_, fun hij => ?_⟩
  · exact dispatched_seq_inj hx.counted.toTotalOrder hlt ((routed_sublist _ j).subset (hx.mem_routed ht' hh'))
      ((routed_sublist _ i).subset (hx.mem_routed ht hh)) hseq
  · subst hij
    cases ht.symm.trans ht'
    rw [hx.handled_once hlt ht hh hh' hseq, hcancels.before] at howns
    cases howns
  · by_contra hno
    have howns := Bool.eq_true_of_not_eq_false hno
    exact hij (hx.apart hlt ht hh ht' hh' (isSome_of_owns hcancels.before) (isSome_of_owns howns))

end

/-- A cancel that succeeds is not reported as rejected if and only if no engine
that handles it without having the order gets to publish that, nor is another
command with its number rejected. As long as the numbers have not come round there
is no such other command, and those are all the other engines. -/
theorem cancel_not_rejected_iff (h₀ : x₀.Start config initialSeq) (actions : List Venue.Action)
    (hx : x₀.run envs actions = x) {i : Nat} {t : EngineThread M K} (ht : x.engines[i]? = some t) {h : Handled M K}
    (hh : h ∈ t.handled) {account : AccountId} {id : OrderId} (hcancels : h.Cancels account id) :
    ((∀ ev ∈ x.publishedFor h.cmd.seq, ev.isRejected = false) ↔
      ∀ (j : Nat) (t' : EngineThread M K), x.engines[j]? = some t' → ∀ h' ∈ t'.handled, h'.cmd.seq = h.cmd.seq →
        (h'.cmd = h.cmd → h'.before.book.owns account id = false → h'.before.canPublish (envs j) = false) ∧
        (h'.cmd ≠ h.cmd → ∀ ev ∈ h'.published, ev.isRejected = false)) ∧
    (x.sequencer.dispatched.length < 2 ^ 64 →
      ∀ (j : Nat) (t' : EngineThread M K), x.engines[j]? = some t' → ∀ h' ∈ t'.handled, h'.cmd.seq = h.cmd.seq →
        h'.cmd = h.cmd ∧ (h'.before.book.owns account id = false ↔ j ≠ i)) := by
  have hfed : Fed envs initialSeq config.nSymbols x := hx ▸ run_fed h₀ actions
  refine ⟨?_, fun hlt j t' ht' h' hh' hseq => hfed.others hlt ht hh hcancels ht' hh' hseq⟩
  -- what one engine publishes about the cancel
  have hcancel : ∀ (j : Nat) (t' : EngineThread M K), x.engines[j]? = some t' → ∀ h' ∈ t'.handled, h'.cmd = h.cmd →
      ((∀ ev ∈ h'.published, ev.isRejected = false) ↔
        (h'.before.book.owns account id = false → h'.before.canPublish (envs j) = false)) := by
    intro j t' ht' h' hh' heq
    obtain ⟨hfresh, -, hstep⟩ := (hfed.engines j t' ht').handled h' hh'
    have hiff := not_congr (cancel_published hfresh (heq ▸ hcancels.cancel) hstep)
    simpa only [not_exists, not_and, Bool.not_eq_true] using hiff
  constructor
  · intro hnone j t' ht' h' hh' hseq
    have hpublished : ∀ ev ∈ h'.published, ev.isRejected = false :=
      fun ev hev => hnone ev (mem_publishedFor.mpr ⟨j, t', ht', h', hh', hseq, hev⟩)
    exact ⟨fun heq => (hcancel j t' ht' h' hh' heq).mp hpublished, fun _ => hpublished⟩
  · intro hall ev hev
    obtain ⟨j, t', ht', h', hh', hseq, hev⟩ := mem_publishedFor.mp hev
    obtain ⟨hsame, hother⟩ := hall j t' ht' h' hh' hseq
    by_cases heq : h'.cmd = h.cmd
    · exact (hcancel j t' ht' h' hh' heq).mpr (hsame heq) ev hev
    · exact hother heq ev hev

/-- Two engines behind a sequencer to which account 42 has sent an order for the
second, and a cancel of it. -/
def demoVenue : Venue SlotArena SlotKey :=
  { sequencer := Sequencer.new [[demoInbound ⟨1⟩, .cancel ⟨42⟩ ⟨1⟩]] 1 { nSymbols := 2, snapshotSchedule := .default } 0
    engines := List.replicate 2 ⟨.new .default demoBook (AccountRiskTable.new 64), []⟩ }

/-- Both are dispatched, and the engines handle what they have got. -/
def venueActions : List Venue.Action :=
  [.sequencer (.iterate demoTick), .sequencer (.iterate demoTick), .engine 1 id, .engine 1 id, .engine 0 id]

def demoHandling : Venue SlotArena SlotKey := demoVenue.run (fun _ => idealEnv) venueActions

/-- Only the log of the second engine takes events. -/
def failingEnvs (i : Nat) : Env := { idealEnv with walOk := fun _ => i == 1 }

def demoFailing : Venue SlotArena SlotKey := demoVenue.run failingEnvs venueActions

theorem demoVenue_start : demoVenue.Start { nSymbols := 2, snapshotSchedule := .default } 0 := by
  refine ⟨⟨_, _, rfl⟩, rfl, fun t ht => ?_⟩
  rw [List.eq_of_mem_replicate ht]
  exact ⟨rfl, _, _, _, _, new_demoBook, rfl⟩

/-- What the second engine does last. -/
def lastHandled (x : Venue SlotArena SlotKey) : Option (UInt64 × InboundCommand × Bool × Bool) :=
  x.engines[1]?.bind fun t => (t.handled[1]?).map fun h =>
    (h.cmd.seq, h.cmd.cmd, h.before.book.owns ⟨42⟩ ⟨1⟩, h.after.book.owns ⟨42⟩ ⟨1⟩)

set_option maxRecDepth 2000

theorem demoHandling_run :
    lastHandled demoHandling = some (2, .cancel ⟨42⟩ ⟨1⟩, true, false) ∧
    demoHandling.publishedFor 2 =
      [.rejected { seq := SequenceNo.orFirst 2, accountId := ⟨42⟩, clientOrderId := ⟨0⟩, reason := .orderNotFound }] ∧
    lastHandled demoFailing = some (2, .cancel ⟨42⟩ ⟨1⟩, true, false) ∧
    demoFailing.sequencer.dispatched.length < 2 ^ 64 := by
  decide

theorem cancels_of_lastHandled {x : Venue SlotArena SlotKey}
    (h : lastHandled x = some (2, .cancel ⟨42⟩ ⟨1⟩, true, false)) :
    ∃ t h, x.engines[1]? = some t ∧ h ∈ t.handled ∧ h.cmd.seq = 2 ∧ h.Cancels ⟨42⟩ ⟨1⟩ := by
  obtain ⟨t, ht, hdemo⟩ := Option.bind_eq_some_iff.mp h
  obtain ⟨h, hh, hdemo⟩ := Option.map_eq_some_iff.mp hdemo
  simp only [Prod.mk.injEq] at hdemo
  obtain ⟨hseq, hcmd, hbefore, hafter⟩ := hdemo
  exact ⟨t, h, ht, List.mem_of_getElem? hh, hseq, hcmd, hbefore, hafter⟩

/-- Nothing is rejected where the log of the engine without the order fails. -/
theorem cancel_not_rejected_demo : ∃ t h, demoFailing.engines[1]? = some t ∧ h ∈ t.handled ∧ h.Cancels ⟨42⟩ ⟨1⟩ ∧
    ∀ ev ∈ demoFailing.publishedFor h.cmd.seq, ev.isRejected = false := by
  obtain ⟨-, -, hlast, hlt⟩ := demoHandling_run
  obtain ⟨t, h, ht, hh, -, hcancels⟩ := cancels_of_lastHandled hlast
  obtain ⟨hiff, hothers⟩ := cancel_not_rejected_iff demoVenue_start venueActions rfl ht hh hcancels
  refine ⟨t, h, ht, hh, hcancels, hiff.mpr fun j t' ht' h' hh' hseq => ?_⟩
  obtain ⟨hcmd, howns⟩ := hothers hlt j t' ht' h' hh' hseq
  exact ⟨fun _ hnot => by simp [MatchingEngine.canPublish, failingEnvs, howns.mp hnot], fun hne => absurd hcmd hne⟩

/-- The second engine cancels the order, and the first one reports that there is
none. -/
theorem cancelled_and_rejected : demoVenue.Start { nSymbols := 2, snapshotSchedule := .default } 0 ∧
    (∃ t h, demoHandling.engines[1]? = some t ∧ h ∈ t.handled ∧ h.cmd.seq = 2 ∧ h.Cancels ⟨42⟩ ⟨1⟩) ∧
    demoHandling.publishedFor 2 =
      [.rejected { seq := SequenceNo.orFirst 2, accountId := ⟨42⟩, clientOrderId := ⟨0⟩, reason := .orderNotFound }] :=
  ⟨demoVenue_start, cancels_of_lastHandled demoHandling_run.1, demoHandling_run.2.1⟩

end MRE.Proof.Sequencing
