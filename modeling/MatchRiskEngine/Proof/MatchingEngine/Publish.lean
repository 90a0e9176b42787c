import MatchRiskEngine.Impl.MatchingEngine
import MatchRiskEngine.Spec.OrderBook

/-!
# Publishing

What publishing does to the engine. Whatever the log and the rings do, it
touches neither the book, the risk states nor the fencing watermark (`Quiet`);
when appends succeed and the outbound ring has room (`Env.Healthy`) it adds
the events, in order, to the log and to the outbound stream (`Publishes`).
-/

namespace MRE

/-- Appends to the log succeed and the outbound ring is never full. -/
def Env.Healthy (env : Env) : Prop := (∀ n, env.walOk n = true) ∧ ∀ n, env.ringOk n = true

namespace Proof.Engine

variable {M K : Type} {env : Env} {e e₁ e₂ : MatchingEngine M K}

/-- The parts of the engine that publishing leaves alone. -/
structure Quiet (e e' : MatchingEngine M K) : Prop where
  book : e'.book = e.book
  riskStates : e'.riskStates = e.riskStates
  highestTermSeen : e'.highestTermSeen = e.highestTermSeen

theorem Quiet.trans (h₁ : Quiet e e₁) (h₂ : Quiet e₁ e₂) : Quiet e e₂ :=
  ⟨h₂.book.trans h₁.book, h₂.riskStates.trans h₁.riskStates, h₂.highestTermSeen.trans h₁.highestTermSeen⟩

theorem quiet_publishAndLog (env : Env) (e : MatchingEngine M K) (ev : Event) : Quiet e (e.publishAndLog env ev) := by
  unfold MatchingEngine.publishAndLog
  split <;> exact ⟨rfl, rfl, rfl⟩

theorem quiet_publishEvent (env : Env) (e : MatchingEngine M K) (ev : EngineEvent) :
    Quiet e (e.publishEvent env ev) := by
  unfold MatchingEngine.publishEvent
  split
  · exact (show Quiet e (e.publishToRisk env ev) from ⟨rfl, rfl, rfl⟩).trans (quiet_publishAndLog env _ _)
  · exact ⟨rfl, rfl, rfl⟩

theorem quiet_trackPrice (e : MatchingEngine M K) (ev : EngineEvent) : Quiet e (e.trackPrice ev) := by
  cases ev <;> exact ⟨rfl, rfl, rfl⟩

theorem quiet_trackPrice_publishEvent (env : Env) (e : MatchingEngine M K) (ev : EngineEvent) :
    Quiet e ((e.trackPrice ev).publishEvent env ev) :=
  (quiet_trackPrice e ev).trans (quiet_publishEvent env _ ev)

theorem Quiet.foldl {g : MatchingEngine M K → EngineEvent → MatchingEngine M K} (hg : ∀ e ev, Quiet e (g e ev))
    (e : MatchingEngine M K) (evs : List EngineEvent) : Quiet e (evs.foldl g e) := by
  induction evs generalizing e with
  | nil => exact ⟨rfl, rfl, rfl⟩
  | cons ev evs ih => exact (hg e ev).trans (ih (g e ev))

/-- The events `out` were appended to the log and pushed onto the outbound
ring. -/
structure Publishes (e e' : MatchingEngine M K) (out : List Event) : Prop where
  wal : e'.wal = e.wal ++ out
  outbound : e'.outbound = e.outbound ++ out

theorem Publishes.trans {out out' : List Event} (h₁ : Publishes e e₁ out) (h₂ : Publishes e₁ e₂ out') :
    Publishes e e₂ (out ++ out') :=
  ⟨by rw [h₂.wal, h₁.wal, List.append_assoc], by rw [h₂.outbound, h₁.outbound, List.append_assoc]⟩

theorem Publishes.nil (hwal : e₁.wal = e.wal) (hout : e₁.outbound = e.outbound) : Publishes e e₁ [] :=
  ⟨by rw [hwal, List.append_nil], by rw [hout, List.append_nil]⟩

theorem tryPush_true {ok : Nat → Bool} (h : ∀ n, ok n = true) (retries calls : Nat) :
    MatchingEngine.tryPush ok (retries + 1) calls = (true, calls + 1) := by
  rw [MatchingEngine.tryPush, if_pos (h calls)]

theorem publishAndLog_ok (h : env.Healthy) (e : MatchingEngine M K) (ev : Event) :
    Publishes e (e.publishAndLog env ev) [ev] := by
  unfold MatchingEngine.publishAndLog
  rw [if_pos (h.1 _), tryPush_true h.2]
  exact ⟨rfl, rfl⟩

theorem publishEvent_ok (h : env.Healthy) (e : MatchingEngine M K) (ev : EngineEvent) :
    Publishes e (e.publishEvent env ev) (mapEngineEvent ev).toList := by
  unfold MatchingEngine.publishEvent
  split
  · rename_i out hout
    rw [hout]
    have hrisk : Publishes e (e.publishToRisk env ev) [] := .nil rfl rfl
    exact hrisk.trans (publishAndLog_ok h _ out)
  · rename_i hout
    rw [hout]
    exact .nil rfl rfl

theorem Publishes.foldl {g : MatchingEngine M K → EngineEvent → MatchingEngine M K}
    (hg : ∀ e ev, Publishes e (g e ev) (mapEngineEvent ev).toList) (e : MatchingEngine M K) (evs : List EngineEvent) :
    Publishes e (evs.foldl g e) (evs.filterMap mapEngineEvent) := by
  induction evs generalizing e with
  | nil => exact .nil rfl rfl
  | cons ev evs ih =>
    rw [show (ev :: evs).filterMap mapEngineEvent = (mapEngineEvent ev).toList ++ evs.filterMap mapEngineEvent by
      cases h : mapEngineEvent ev <;> simp [h]]
    exact (hg e ev).trans (ih (g e ev))

theorem trackPrice_publishEvent_ok (h : env.Healthy) (e : MatchingEngine M K) (ev : EngineEvent) :
    Publishes e ((e.trackPrice ev).publishEvent env ev) (mapEngineEvent ev).toList := by
  have htrack : Publishes e (e.trackPrice ev) [] := by
    cases ev <;> exact .nil rfl rfl
  exact htrack.trans (publishEvent_ok h _ ev)

/-! ## Handling a command -/

/-- The parts of the engine that only a freeze changes. -/
structure Keeps (e e' : MatchingEngine M K) : Prop where
  riskStates : e'.riskStates = e.riskStates
  highestTermSeen : e'.highestTermSeen = e.highestTermSeen

theorem Keeps.trans (h₁ : Keeps e e₁) (h₂ : Keeps e₁ e₂) : Keeps e e₂ :=
  ⟨h₂.riskStates.trans h₁.riskStates, h₂.highestTermSeen.trans h₁.highestTermSeen⟩

theorem Quiet.keeps {book : OrderBook M K} (h : Quiet { e with book } e₁) : Keeps e e₁ := ⟨h.riskStates, h.highestTermSeen⟩

variable [DecidableEq K] [Arena M K] {cmd : SequencedCommand}

theorem applyAndPublish_keeps (h : e.applyAndPublish env cmd = some e₁) : Keeps e e₁ := by
  unfold MatchingEngine.applyAndPublish at h
  obtain ⟨⟨book, evs⟩, -, h⟩ := Option.bind_eq_some_iff.mp h
  rw [← Option.some.inj h]
  exact (Quiet.foldl (quiet_publishEvent env) { e with book } evs).keeps

theorem cancelAll_keeps {account : AccountId} {ids : List OrderId}
    (h : MatchingEngine.cancelAll env cmd account e ids = some e₁) : Keeps e e₁ := by
  induction ids generalizing e with
  | nil =>
    rw [← Option.some.inj h]
    exact ⟨rfl, rfl⟩
  | cons id ids ih =>
    obtain ⟨e₂, h₂, h⟩ := Option.bind_eq_some_iff.mp h
    exact (applyAndPublish_keeps h₂).trans (ih h)

theorem applyAndPublish_book (env : Env) (e : MatchingEngine M K) (cmd : SequencedCommand) :
    (e.applyAndPublish env cmd).map MatchingEngine.book = (e.book.apply cmd).map Prod.fst := by
  rw [MatchingEngine.applyAndPublish]
  cases e.book.apply cmd with
  | none => rfl
  | some r => exact congrArg some (Quiet.foldl (quiet_publishEvent env) { e with book := r.1 } r.2).book

theorem cancelAll_book (env : Env) (cmd : SequencedCommand) (account : AccountId) (e : MatchingEngine M K)
    (ids : List OrderId) : (MatchingEngine.cancelAll env cmd account e ids).map MatchingEngine.book =
      e.book.cancelOrders cmd account ids := by
  induction ids generalizing e with
  | nil => rfl
  | cons id ids ih =>
    have hstep := applyAndPublish_book env e { cmd with cmd := .cancel account id }
    rw [MatchingEngine.cancelAll, OrderBook.cancelOrders, List.foldlM_cons, ← hstep]
    cases e.applyAndPublish env { cmd with cmd := .cancel account id } with
    | none => rfl
    | some e' => exact ih e'

/-- A command keeps the risk states and the watermark, or it freezes an
account. -/
theorem handleCommand_keeps (h : e.handleCommand env cmd = some e₁) :
    Keeps e e₁ ∨ ∃ account, cmd.cmd = .freezeAccount account ∧ ¬ cmd.term < e.highestTermSeen ∧
      e₁ = { e with riskStates := e.riskStates.setFrozen account true } := by
  unfold MatchingEngine.handleCommand at h
  split at h
  · rename_i hlt
    rw [← Option.some.inj h]
    exact .inl ⟨rfl, if_neg (UInt64.not_le.mpr hlt)⟩
  rename_i hterm
  split at h
  · left
    split at h
    · obtain ⟨⟨book, evs⟩, -, h⟩ := Option.bind_eq_some_iff.mp h
      rw [← Option.some.inj h]
      exact (Quiet.foldl (quiet_trackPrice_publishEvent env) { e with book } evs).keeps
    · rw [← Option.some.inj h]
      exact (quiet_publishAndLog env e _).keeps
  · exact .inl (applyAndPublish_keeps h)
  · exact .inl (cancelAll_keeps h)
  · rename_i account hcmd
    exact .inr ⟨account, hcmd, hterm, (Option.some.inj h).symm⟩

end Proof.Engine

end MRE
