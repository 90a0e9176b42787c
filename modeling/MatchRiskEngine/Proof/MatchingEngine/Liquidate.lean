import MatchRiskEngine.Proof.MatchingEngine.Fencing
import MatchRiskEngine.Proof.OrderBook.Clearing
import MatchRiskEngine.Proof.Sequencer.Order

/-!
# Liquidating an account

The engine collects the ids of an account's orders and cancels them one after
the other. Its book is what commands made of an empty one (`run_leads`), so
if no two new orders had the same number every id is found, and what is left
is the book without the orders of the account (`liquidate_clears`). An engine
that gets its commands from a sequencer is of this kind
(`reachable_of_sequencer`).
-/

namespace MRE

/-! ## Streams -/

namespace GrowsBy

variable {α : Type} {p : α → Prop} {xs xs₁ xs₂ : List α}

theorem refl (xs : List α) : GrowsBy p xs xs := ⟨[], (List.append_nil xs).symm, fun _ h => (nomatch h)⟩

theorem concat (xs : List α) {x : α} (hx : p x) : GrowsBy p xs (xs ++ [x]) := ⟨[x], rfl, List.forall_mem_singleton.mpr hx⟩

theorem trans (h₁ : GrowsBy p xs xs₁) (h₂ : GrowsBy p xs₁ xs₂) : GrowsBy p xs xs₂ := by
  obtain ⟨ys, rfl, hys⟩ := h₁
  obtain ⟨zs, rfl, hzs⟩ := h₂
  exact ⟨ys ++ zs, List.append_assoc _ _ _, List.forall_mem_append.mpr ⟨hys, hzs⟩⟩

end GrowsBy

variable {M K : Type} {env : Env} {e e₁ e₂ : MatchingEngine M K}

theorem MatchingEngine.NoTrade.refl (e : MatchingEngine M K) : e.NoTrade e := ⟨.refl _, .refl _, .refl _⟩

theorem MatchingEngine.NoTrade.trans (h₁ : e.NoTrade e₁) (h₂ : e₁.NoTrade e₂) : e.NoTrade e₂ :=
  ⟨h₁.riskOut.trans h₂.riskOut, h₁.wal.trans h₂.wal, h₁.outbound.trans h₂.outbound⟩

namespace Proof.Engine

open Proof.Book

theorem publishToRisk_noTrade (env : Env) (e : MatchingEngine M K) {ev : EngineEvent} (h : ∀ t, ev ≠ .trade t) :
    e.NoTrade (e.publishToRisk env ev) := by
  refine ⟨?_, .refl _, .refl _⟩
  rw [MatchingEngine.publishToRisk]
  dsimp only
  split
  · exact .concat _ h
  · exact .refl _

theorem publishAndLog_noTrade (env : Env) (e : MatchingEngine M K) {ev : Event} (h : ∀ seq fill, ev ≠ .filled seq fill) :
    e.NoTrade (e.publishAndLog env ev) := by
  unfold MatchingEngine.publishAndLog
  split
  · refine ⟨.refl _, .concat _ h, ?_⟩
    dsimp only
    split
    · exact .concat _ h
    · exact .refl _
  · exact ⟨.refl _, .refl _, .refl _⟩

theorem mapEngineEvent_noTrade {ev : EngineEvent} (h : ∀ t, ev ≠ .trade t) {out : Event}
    (hout : mapEngineEvent ev = some out) (seq : SequenceNo) (fill : Fill) : out ≠ .filled seq fill := by
  cases ev with
  | trade t => exact absurd rfl (h t)
  | accepted | rejected | orderCancelled =>
    cases hout
    exact fun h => (nomatch h)
  | _ => cases hout

theorem publishEvent_noTrade (env : Env) (e : MatchingEngine M K) {ev : EngineEvent} (h : ∀ t, ev ≠ .trade t) :
    e.NoTrade (e.publishEvent env ev) := by
  unfold MatchingEngine.publishEvent
  split
  · rename_i out hout
    exact (publishToRisk_noTrade env e h).trans (publishAndLog_noTrade env _ (mapEngineEvent_noTrade h hout))
  · exact publishToRisk_noTrade env e h

variable {evs : List EngineEvent}

theorem foldl_noTrade (env : Env) (e : MatchingEngine M K)
    (h : ∀ ev ∈ evs, ∀ t, ev ≠ EngineEvent.trade t) : e.NoTrade (evs.foldl (MatchingEngine.publishEvent env) e) := by
  induction evs generalizing e with
  | nil => exact .refl e
  | cons ev evs ih =>
    obtain ⟨hev, hevs⟩ := List.forall_mem_cons.mp h
    exact (publishEvent_noTrade env e hev).trans (ih (e.publishEvent env ev) hevs)

variable [DecidableEq K] [Arena M K]

variable {b b' : OrderBook M K} {cmd : SequencedCommand} {account : AccountId}

theorem applyCancel_noTrade {seq : UInt64} {id : OrderId}
    (h : b.applyCancel seq account id = some (b', evs)) : ∀ ev ∈ evs, ∀ t, ev ≠ EngineEvent.trade t := by
  have hrejected : ∀ rej, ∀ ev ∈ [EngineEvent.rejected rej], ∀ t, ev ≠ EngineEvent.trade t := fun rej =>
    List.forall_mem_singleton.mpr fun t h => by cases h
  have hcancelled : ∀ ev ∈ [EngineEvent.cancelled seq id], ∀ t, ev ≠ EngineEvent.trade t :=
    List.forall_mem_singleton.mpr fun t h => by cases h
  rw [OrderBook.applyCancel] at h
  split at h
  · cases h
    exact hrejected _
  obtain ⟨order, -, h⟩ := Option.bind_eq_some_iff.mp h
  split at h
  · cases h
    exact hrejected _
  dsimp only at h
  split at h
  · cases h
    exact fun ev hev => absurd hev List.not_mem_nil
  obtain ⟨slot, -, h⟩ := Option.bind_eq_some_iff.mp h
  split at h
  · cases h
    exact hcancelled
  obtain ⟨r, -, h⟩ := Option.bind_eq_some_iff.mp h
  split at h
  all_goals
    obtain ⟨b₁, -, h⟩ := Option.bind_eq_some_iff.mp h
    cases h
    exact hcancelled

theorem cancelAll_noTrade {ids : List OrderId} (h : MatchingEngine.cancelAll env cmd account e ids = some e₁) :
    e.NoTrade e₁ := by
  induction ids generalizing e with
  | nil =>
    cases h
    exact .refl _
  | cons id ids ih =>
    obtain ⟨e₂, h₂, h⟩ := Option.bind_eq_some_iff.mp h
    obtain ⟨⟨book, evs⟩, hbook, h₂⟩ := Option.bind_eq_some_iff.mp h₂
    cases h₂
    have hstep := foldl_noTrade env { e with book } (applyCancel_noTrade hbook)
    exact MatchingEngine.NoTrade.trans ⟨hstep.riskOut, hstep.wal, hstep.outbound⟩ (ih h)

/-! ## The book of an engine -/

/-- Commands lead from `b` to `b'`, with new orders of these numbers at most. -/
def Leads (seqs : List UInt64) (b b' : OrderBook M K) : Prop :=
  ∃ cmds evss, b.run cmds = some (b', evss) ∧ (cmds.filterMap SequencedCommand.newOrderSeq).Sublist seqs

theorem Leads.refl (seqs : List UInt64) (b : OrderBook M K) : Leads seqs b b := ⟨[], [], rfl, List.nil_sublist _⟩

theorem Leads.trans {seqs seqs' : List UInt64} {b₁ : OrderBook M K} (h : Leads seqs b b₁) (h' : Leads seqs' b₁ b') :
    Leads (seqs ++ seqs') b b' := by
  obtain ⟨cmds, evss, hrun, hsub⟩ := h
  obtain ⟨cmds', evss', hrun', hsub'⟩ := h'
  refine ⟨cmds ++ cmds', evss ++ evss', ?_, ?_⟩
  · rw [run_append, hrun, Option.bind_some, hrun']
    rfl
  · rw [List.filterMap_append]
    exact hsub.append hsub'

theorem leads_apply (h : b.apply cmd = some (b', evs)) : Leads cmd.newOrderSeq.toList b b' := by
  refine ⟨[cmd], [evs], by rw [run_singleton, h]; rfl, ?_⟩
  rw [List.filterMap_cons, List.filterMap_nil]
  cases cmd.newOrderSeq with
  | none => exact List.nil_sublist _
  | some seq => exact List.Sublist.refl _

theorem leads_applyAndPublish (h : e.applyAndPublish env cmd = some e₁) : Leads cmd.newOrderSeq.toList e.book e₁.book := by
  have hbook := applyAndPublish_book env e cmd
  rw [h, Option.map_some] at hbook
  obtain ⟨⟨b', evs⟩, happly, hb'⟩ := Option.map_eq_some_iff.mp hbook.symm
  rw [← hb']
  exact leads_apply happly

theorem leads_cancelAll {ids : List OrderId} (h : MatchingEngine.cancelAll env cmd account e ids = some e₁) :
    Leads [] e.book e₁.book := by
  induction ids generalizing e with
  | nil =>
    cases h
    exact .refl [] _
  | cons id ids ih =>
    obtain ⟨e₂, h₂, h⟩ := Option.bind_eq_some_iff.mp h
    have hstep : Leads [] e.book e₂.book := leads_applyAndPublish h₂
    exact hstep.trans (ih h)

/-- What a command does to the book: nothing, what the book makes of it, or the
cancels of a liquidation. A new order has been admitted. -/
theorem handleCommand_book (h : e.handleCommand env cmd = some e₁) :
    e₁.book = e.book ∨
      (∃ evs, e.book.apply cmd = some (e₁.book, evs) ∧ ∀ o, cmd.cmd = .newOrder o → e.riskResult o = .ok ()) ∨
      ∃ symbol account, cmd.cmd = .liquidate symbol account ∧
        MatchingEngine.cancelAll env cmd account e (e.book.openOrderIdsForAccount account) = some e₁ := by
  unfold MatchingEngine.handleCommand at h
  split at h
  · cases h
    exact .inl rfl
  split at h
  · rename_i o hc
    split at h
    · rename_i hok
      obtain ⟨⟨book, evs⟩, happly, h⟩ := Option.bind_eq_some_iff.mp h
      cases h
      rw [(Quiet.foldl (quiet_trackPrice_publishEvent env) { e with book } evs).book]
      refine .inr (.inl ⟨evs, happly, fun o' hc' => ?_⟩)
      cases hc.symm.trans hc'
      exact hok
    · cases h
      exact .inl (quiet_publishAndLog env e _).book
  · rename_i account id hc
    have hbook := applyAndPublish_book env e cmd
    rw [h, Option.map_some] at hbook
    obtain ⟨⟨b', evs⟩, happly, rfl⟩ := Option.map_eq_some_iff.mp hbook.symm
    exact .inr (.inl ⟨evs, happly, fun o hc' => by cases hc.symm.trans hc'⟩)
  · rename_i symbol account hc
    exact .inr (.inr ⟨symbol, account, hc, h⟩)
  · cases h
    exact .inl rfl

theorem leads_handleCommand (h : e.handleCommand env cmd = some e₁) : Leads cmd.newOrderSeq.toList e.book e₁.book := by
  rcases handleCommand_book h with hbook | ⟨evs, happly, -⟩ | ⟨symbol, account, hc, hcancel⟩
  · rw [hbook]
    exact .refl _ _
  · exact leads_apply happly
  · rw [SequencedCommand.newOrderSeq, hc]
    exact leads_cancelAll hcancel

theorem run_leads {is : List MatchingEngine.Input} (h : e.run env is = some e₁) :
    Leads ((is.map MatchingEngine.Input.cmd).filterMap SequencedCommand.newOrderSeq) e.book e₁.book := by
  induction is generalizing e with
  | nil =>
    cases h
    exact .refl _ _
  | cons i is ih =>
    obtain ⟨e₂, h₂, h⟩ := Option.bind_eq_some_iff.mp h
    have hstep : Leads i.cmd.newOrderSeq.toList e.book e₂.book := leads_handleCommand (e := e.atInput i) h₂
    rw [List.map_cons, show ∀ cmds, (i.cmd :: cmds).filterMap SequencedCommand.newOrderSeq =
      i.cmd.newOrderSeq.toList ++ cmds.filterMap SequencedCommand.newOrderSeq from fun cmds => by
        rw [List.filterMap_cons]; cases i.cmd.newOrderSeq <;> rfl]
    exact hstep.trans (ih h)

/-! ## Liquidation -/

/-- The book of an engine that numbered commands lead to. -/
theorem Reachable.book (h : e.Reachable env) :
    ∃ c Q, Valid c e.book Q ∧ IdsOk e.book.idToKey (dataOf e.book.arena) := by
  obtain ⟨limits, cfg, b₀, risk, is, hnew, hnodup, hrun⟩ := h
  obtain ⟨cmds, evss, hbook, hsub⟩ := run_leads hrun
  obtain ⟨Q, hb, hids⟩ := run_idsOk hnew (hnodup.sublist hsub) hbook
  exact ⟨b₀.refConfig, Q, hb, hids⟩

theorem Reachable.not_stale (h : e.Reachable env) (cmd : SequencedCommand) : ¬ cmd.term < e.highestTermSeen := by
  obtain ⟨limits, cfg, b₀, risk, is, -, -, hrun⟩ := h
  rw [run_highestTermSeen hrun]
  exact UInt64.not_lt_zero

/-- Liquidating an account takes its orders out of the book, and nothing else;
nothing is traded. -/
theorem liquidate_clears (he : e.Reachable env) {symbol : Symbol} (hcmd : cmd.cmd = .liquidate symbol account) :
    ∃ e', e.handleCommand env cmd = some e' ∧ e.book.Clears account e'.book ∧ e.NoTrade e' := by
  obtain ⟨c, Q, hb, hids⟩ := Reachable.book he
  obtain ⟨b', hcancel, hclears⟩ := hb.clears hids cmd account
  rw [← cancelAll_book env cmd account e] at hcancel
  obtain ⟨e', hall, rfl⟩ := Option.map_eq_some_iff.mp hcancel
  refine ⟨e', ?_, hclears, cancelAll_noTrade hall⟩
  rw [MatchingEngine.handleCommand, if_neg (Reachable.not_stale he cmd)]
  simp only [hcmd]
  exact hall

theorem run_restingEngine : (demoEngine.run idealEnv (undisturbed (demoCommands.take 2))).isSome = true := by
  rfl

/-- Accounts 10 and 11 offer five at 105 and three at 106. -/
def restingEngine : MatchingEngine SlotArena SlotKey := Option.get _ run_restingEngine

theorem reachable_restingEngine : restingEngine.Reachable idealEnv :=
  ⟨.default, demoConfig, demoBook, AccountRiskTable.new 16, undisturbed (demoCommands.take 2), new_demoBook, by decide,
    (Option.some_get _).symm⟩

theorem liquidate_clears_demo : restingEngine.book.openOrderIdsForAccount ⟨10⟩ = [⟨1⟩] ∧
    ∃ e', restingEngine.handleCommand idealEnv { term := 1, seq := 3, tsNs := 0, cmd := .liquidate ⟨1⟩ ⟨10⟩ } = some e' ∧
      restingEngine.book.Clears ⟨10⟩ e'.book ∧ restingEngine.NoTrade e' :=
  ⟨rfl, liquidate_clears reachable_restingEngine rfl⟩

/-! ## Engines behind a sequencer -/

theorem nodup_newOrderSeqs {s : Sequencer} {initialSeq : UInt64} {n i : Nat} (h : Sequencer.TotalOrder initialSeq n s)
    (hlt : s.dispatched.length < 2 ^ 64) {cmds : List SequencedCommand} (hqueue : cmds <+: s.routed i) :
    (cmds.filterMap SequencedCommand.newOrderSeq).Nodup := by
  have hpairs := List.pairwise_map.mp (Sequencing.routed_nodup h hlt i)
  rw [List.Nodup, List.pairwise_filterMap]
  refine (hpairs.sublist hqueue.sublist).imp fun {a b} hab seq hseq seq' hseq' heq => ?_
  rw [newOrderSeq_eq hseq, newOrderSeq_eq hseq'] at heq
  exact hab heq

/-- An engine that has handled commands from its queue of a sequencer. -/
theorem reachable_of_sequencer {s : Sequencer} {initialSeq : UInt64} {n i : Nat} (h : Sequencer.TotalOrder initialSeq n s)
    (hlt : s.dispatched.length < 2 ^ 64) {limits : Tier0Limits} {cfg : BookConfig} {b₀ : OrderBook M K}
    {risk : AccountRiskTable} (hnew : OrderBook.new cfg = some b₀) {is : List MatchingEngine.Input}
    (hqueue : is.map MatchingEngine.Input.cmd <+: s.routed i)
    (hrun : (MatchingEngine.new limits b₀ risk).run env is = some e) : e.Reachable env :=
  ⟨limits, cfg, b₀, risk, is, hnew, nodup_newOrderSeqs h hlt hqueue, hrun⟩

end Proof.Engine

end MRE
