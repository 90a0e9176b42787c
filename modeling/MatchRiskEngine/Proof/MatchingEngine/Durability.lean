import MatchRiskEngine.Proof.MatchingEngine.EventSourcing
import MatchRiskEngine.Spec.MatchingEngine

/-!
# When an append fails

An engine goes through a run as its twin does whose appends all succeed
(`Twin`), and its log and its outbound stream are those events of the twin's
log whose own appends succeeded (`run_twin`). A failed append stops the loop
of commands, not the loop over the events of a command. So the outbound stream
stops at the failure exactly if no later append of the run succeeds
(`stopsAtFailure_iff`, `published_after_failure`).
-/

namespace MRE.Proof.Engine

variable {M K : Type} {env : Env}

/-- The twin `e₁` of `e`, whose appends have all succeeded. -/
structure Twin (env : Env) (e e₁ : MatchingEngine M K) : Prop where
  limits : e₁.limits = e.limits
  book : e₁.book = e.book
  riskStates : e₁.riskStates = e.riskStates
  referencePrice : e₁.referencePrice = e.referencePrice
  highestTermSeen : e₁.highestTermSeen = e.highestTermSeen
  walCalls : e.walCalls = e₁.wal.length
  wal : e.wal = succeeded env.walOk e₁.wal
  outbound : e.outbound = e.wal

variable {e e₁ : MatchingEngine M K}

/-! ## Publishing -/

theorem twin_publishAndLog (hring : ∀ n, env.ringOk n = true) (h : Twin env e e₁) (ev : Event) :
    Twin env (e.publishAndLog env ev) (e₁.publishAndLog env.lossless ev) := by
  obtain ⟨hlimits, hbook, hrisk, hprice, hterm, hcalls, hwal, hout⟩ := h
  have hlog : succeeded env.walOk (e₁.wal ++ [ev]) = e.wal ++ if env.walOk e.walCalls then [ev] else [] := by
    rw [succeeded_concat, ← hwal, ← hcalls]
  have hlen : e.walCalls + 1 = (e₁.wal ++ [ev]).length := by
    rw [List.length_append, hcalls]
    rfl
  have hpushed : ∀ calls, MatchingEngine.tryPush env.lossless.ringOk 64 calls = (true, calls + 1) :=
    tryPush_true (show ∀ n, env.lossless.ringOk n = true from hring) 63
  unfold MatchingEngine.publishAndLog
  rw [if_pos (show env.lossless.walOk e₁.walCalls = true from rfl), hpushed]
  split
  · rename_i hok
    rw [if_pos hok] at hlog
    rw [tryPush_true hring]
    exact ⟨hlimits, hbook, hrisk, hprice, hterm, hlen, hlog.symm, by rw [hout]; rfl⟩
  · rename_i hok
    rw [if_neg hok, List.append_nil] at hlog
    exact ⟨hlimits, hbook, hrisk, hprice, hterm, hlen, hlog.symm, hout⟩

theorem twin_publishToRisk (h : Twin env e e₁) (ev : EngineEvent) :
    Twin env (e.publishToRisk env ev) (e₁.publishToRisk env.lossless ev) := by
  obtain ⟨hlimits, hbook, hrisk, hprice, hterm, hcalls, hwal, hout⟩ := h
  exact ⟨hlimits, hbook, hrisk, hprice, hterm, hcalls, hwal, hout⟩

theorem twin_publishEvent (hring : ∀ n, env.ringOk n = true) (h : Twin env e e₁) (ev : EngineEvent) :
    Twin env (e.publishEvent env ev) (e₁.publishEvent env.lossless ev) := by
  have hrisk := twin_publishToRisk h ev
  unfold MatchingEngine.publishEvent
  split
  · exact twin_publishAndLog hring hrisk _
  · exact hrisk

theorem twin_trackPrice (h : Twin env e e₁) (ev : EngineEvent) : Twin env (e.trackPrice ev) (e₁.trackPrice ev) := by
  obtain ⟨hlimits, hbook, hrisk, hprice, hterm, hcalls, hwal, hout⟩ := h
  cases ev with
  | trade t => exact ⟨hlimits, hbook, hrisk, rfl, hterm, hcalls, hwal, hout⟩
  | _ => exact ⟨hlimits, hbook, hrisk, hprice, hterm, hcalls, hwal, hout⟩

theorem twin_foldl {g g₁ : MatchingEngine M K → EngineEvent → MatchingEngine M K}
    (hg : ∀ e e₁ ev, Twin env e e₁ → Twin env (g e ev) (g₁ e₁ ev)) (h : Twin env e e₁) (evs : List EngineEvent) :
    Twin env (evs.foldl g e) (evs.foldl g₁ e₁) := by
  induction evs generalizing e e₁ with
  | nil => exact h
  | cons ev evs ih => exact ih (hg e e₁ ev h)

theorem twin_book (h : Twin env e e₁) (book : OrderBook M K) : Twin env { e with book } { e₁ with book } := by
  obtain ⟨hlimits, -, hrisk, hprice, hterm, hcalls, hwal, hout⟩ := h
  exact ⟨hlimits, rfl, hrisk, hprice, hterm, hcalls, hwal, hout⟩

/-! ## Commands -/

theorem twin_riskResult (h : Twin env e e₁) (o : InboundNewOrder) : e₁.riskResult o = e.riskResult o := by
  rw [MatchingEngine.riskResult, MatchingEngine.riskResult, h.limits, h.riskStates, h.referencePrice]

variable [DecidableEq K] [Arena M K]

theorem twin_applyAndPublish (hring : ∀ n, env.ringOk n = true) (h : Twin env e e₁) (cmd : SequencedCommand) :
    Option.Rel (Twin env) (e.applyAndPublish env cmd) (e₁.applyAndPublish env.lossless cmd) := by
  unfold MatchingEngine.applyAndPublish
  rw [h.book]
  cases e.book.apply cmd with
  | none => exact .none
  | some r => exact .some (twin_foldl (fun _ _ ev h => twin_publishEvent hring h ev) (twin_book h r.1) r.2)

theorem twin_cancelAll (hring : ∀ n, env.ringOk n = true) (h : Twin env e e₁) (cmd : SequencedCommand)
    (account : AccountId) (ids : List OrderId) :
    Option.Rel (Twin env) (MatchingEngine.cancelAll env cmd account e ids)
      (MatchingEngine.cancelAll env.lossless cmd account e₁ ids) := by
  induction ids generalizing e e₁ with
  | nil => exact .some h
  | cons id ids ih =>
    have hstep := twin_applyAndPublish hring h { cmd with cmd := .cancel account id }
    rw [MatchingEngine.cancelAll, MatchingEngine.cancelAll]
    revert hstep
    generalize e.applyAndPublish env _ = r, e₁.applyAndPublish env.lossless _ = r₁
    intro hstep
    cases hstep with
    | none => exact .none
    | some h' => exact ih h'

theorem twin_handleCommand (hring : ∀ n, env.ringOk n = true) (h : Twin env e e₁) (cmd : SequencedCommand) :
    Option.Rel (Twin env) (e.handleCommand env cmd) (e₁.handleCommand env.lossless cmd) := by
  have hstale : cmd.term < e₁.highestTermSeen ↔ cmd.term < e.highestTermSeen := by rw [h.highestTermSeen]
  unfold MatchingEngine.handleCommand
  by_cases hlt : cmd.term < e.highestTermSeen
  · rw [if_pos hlt, if_pos (hstale.mpr hlt)]
    obtain ⟨hlimits, hbook, hrisk, hprice, hterm, hcalls, hwal, hout⟩ := h
    exact .some ⟨hlimits, hbook, hrisk, hprice, congrArg (max · cmd.term) hterm, hcalls, hwal, hout⟩
  rw [if_neg hlt, if_neg (mt hstale.mp hlt)]
  split
  · rename_i o _
    rw [twin_riskResult h]
    split
    · rw [h.book]
      cases e.book.apply cmd with
      | none => exact .none
      | some r =>
        exact .some (twin_foldl (fun _ _ ev h => twin_publishEvent hring (twin_trackPrice h ev) ev) (twin_book h r.1) r.2)
    · exact .some (twin_publishAndLog hring h _)
  · exact twin_applyAndPublish hring h cmd
  · rw [h.book]
    exact twin_cancelAll hring h cmd _ _
  · obtain ⟨hlimits, hbook, hrisk, hprice, hterm, hcalls, hwal, hout⟩ := h
    exact .some ⟨hlimits, hbook, by rw [hrisk], hprice, hterm, hcalls, hwal, hout⟩

/-! ## Runs -/

theorem run_twin (hring : ∀ n, env.ringOk n = true) (h : Twin env e e₁) {is : List MatchingEngine.Input}
    {e' : MatchingEngine M K} (hrun : e.run env is = some e') :
    ∃ e₁', e₁.run env.lossless is = some e₁' ∧ Twin env e' e₁' := by
  induction is generalizing e e₁ with
  | nil =>
    cases hrun
    exact ⟨e₁, rfl, h⟩
  | cons i is ih =>
    obtain ⟨e₂, hstep, hrun⟩ := Option.bind_eq_some_iff.mp hrun
    have hinput : Twin env (e.atInput i) (e₁.atInput i) := by
      obtain ⟨hlimits, hbook, hrisk, hprice, hterm, hcalls, hwal, hout⟩ := h
      exact ⟨hlimits, hbook, congrArg i.riskWrites hrisk, hprice, hterm, hcalls, hwal, hout⟩
    have hrel := twin_handleCommand hring hinput i.cmd
    rw [hstep] at hrel
    generalize hstep₁ : (e₁.atInput i).handleCommand env.lossless i.cmd = r₁ at hrel
    cases hrel with
    | some h₂ =>
      obtain ⟨e₁', hrun₁, h'⟩ := ih h₂ hrun
      exact ⟨e₁', by rw [MatchingEngine.run, hstep₁]; exact hrun₁, h'⟩

/-- In every run of a new engine whose outbound ring is never full, whatever
was published was logged. It stops at the first failed append exactly if no
later append of the run succeeds. -/
theorem stopsAtFailure_iff (limits : Tier0Limits) (book : OrderBook M K) (risk : AccountRiskTable)
    (hring : ∀ n, env.ringOk n = true) {is : List MatchingEngine.Input} {e : MatchingEngine M K}
    (hrun : (MatchingEngine.new limits book risk).run env is = some e) :
    e.outbound = e.wal ∧ ∃ e₁, (MatchingEngine.new limits book risk).run env.lossless is = some e₁ ∧
      e.walCalls = e₁.wal.length ∧ (e.StopsAtFailure env e₁.wal ↔ FailsForGood env.walOk e.walCalls) := by
  have h₀ : Twin env (MatchingEngine.new limits book risk) (MatchingEngine.new limits book risk) :=
    ⟨rfl, rfl, rfl, rfl, rfl, rfl, rfl, rfl⟩
  obtain ⟨e₁, hrun₁, h⟩ := run_twin hring h₀ hrun
  refine ⟨h.outbound, e₁, hrun₁, h.walCalls, ?_⟩
  rw [MatchingEngine.StopsAtFailure, h.outbound, h.wal, h.walCalls]
  exact succeeded_prefix_iff

/-- An order that rests, and one that takes it and rests with what is left. -/
def partialFill : List SequencedCommand :=
  [{ term := 1, seq := 1, tsNs := 0
     cmd := .newOrder { account := ⟨10⟩, clientOrderId := ⟨1⟩, symbol := ⟨1⟩, side := .sell, price := ⟨105⟩, qty := ⟨5⟩
                        orderType := .limit, timeInForce := .gtc } },
   { term := 1, seq := 2, tsNs := 0
     cmd := .newOrder { account := ⟨11⟩, clientOrderId := ⟨1⟩, symbol := ⟨1⟩, side := .buy, price := ⟨105⟩, qty := ⟨8⟩
                        orderType := .limit, timeInForce := .gtc } }]

/-- The second append fails, and the later ones do or do not. -/
def failingEnv (later : Bool) : Env :=
  ⟨fun n => n == 0 || (later && 2 ≤ n), fun _ => true, fun _ => true⟩

theorem run_partialFill (later : Bool) :
    (demoEngine.run (failingEnv later) (undisturbed partialFill)).isSome = true := by
  cases later <;> rfl

theorem stopsAtFailure_iff_demo : ∃ e, demoEngine.run (failingEnv false) (undisturbed partialFill) = some e ∧
    e.outbound = e.wal ∧ ∃ e₁, demoEngine.run (failingEnv false).lossless (undisturbed partialFill) = some e₁ ∧
      e.walCalls = e₁.wal.length ∧
      (e.StopsAtFailure (failingEnv false) e₁.wal ↔ FailsForGood (failingEnv false).walOk e.walCalls) :=
  ⟨_, (Option.some_get (run_partialFill false)).symm,
    stopsAtFailure_iff .default demoBook (AccountRiskTable.new 16) (fun _ => rfl)
      (Option.some_get (run_partialFill false)).symm⟩

theorem run_partialFill_lossless :
    (demoEngine.run (failingEnv true).lossless (undisturbed partialFill)).isSome = true := by
  rfl

/-- The append of the trade fails and the one of the remainder's acceptance
succeeds: the acceptance is published, without the trade. -/
theorem published_after_failure : ∃ e e₁, demoEngine.run (failingEnv true) (undisturbed partialFill) = some e ∧
    demoEngine.run (failingEnv true).lossless (undisturbed partialFill) = some e₁ ∧ e.running = false ∧
    e₁.wal.length = 3 ∧ e.outbound = e₁.wal.eraseIdx 1 ∧ ¬ e.StopsAtFailure (failingEnv true) e₁.wal := by
  refine ⟨_, _, (Option.some_get (run_partialFill true)).symm, (Option.some_get run_partialFill_lossless).symm, ?_, ?_, ?_, ?_⟩
  · rfl
  · rfl
  · rfl
  · unfold MatchingEngine.StopsAtFailure
    decide

end MRE.Proof.Engine
