import MatchRiskEngine.Proof.MatchingEngine.EventSourcing

/-!
# Fencing off a deposed leader

`handleCommand` drops a command whose term is below `highestTermSeen`, but no
command ever advances it (`run_highestTermSeen`): from a new engine it stays
at zero and nothing is dropped. So a command of an older term leaves the
engine as it was exactly when it has nothing to do (`Inert`), which no new
order and no cancel has (`staleSteps_unchanged`, `stale_order_applied`).
-/

namespace MRE

open SlotMap

/-- A command that has nothing to do: liquidating an account without resting
orders, or freezing one that is unknown or already frozen. -/
def MatchingEngine.Inert {M K : Type} [DecidableEq K] [Arena M K] (e : MatchingEngine M K)
    (cmd : SequencedCommand) : Prop :=
  match cmd.cmd with
  | .newOrder _ => False
  | .cancel _ _ => False
  | .liquidate _ account => ∀ x ∈ e.book.live, x.account ≠ account
  | .freezeAccount account => ∀ s ∈ e.riskStates.get account, s.frozen = true

/-- Each command of a run that comes after one of a higher term meets `P` in
the state that finds it. -/
def MatchingEngine.StaleSteps {M K : Type} [DecidableEq K] [Arena M K] (env : Env)
    (P : MatchingEngine M K → SequencedCommand → Prop) (e₀ : MatchingEngine M K) (is : List MatchingEngine.Input) :
    Prop :=
  ∀ pre j post e, is = pre ++ j :: post → (∃ i ∈ pre, j.cmd.term < i.cmd.term) → e₀.run env pre = some e →
    P (e.atInput j) j.cmd

/-- The book, the risk states and what was published are as before. -/
structure MatchingEngine.Unchanged {M K : Type} (e e' : MatchingEngine M K) : Prop where
  book : e'.book = e.book
  riskStates : e'.riskStates = e.riskStates
  wal : e'.wal = e.wal
  outbound : e'.outbound = e.outbound
  riskOut : e'.riskOut = e.riskOut

namespace Proof.Engine

open Proof.Book

variable {M K : Type} [DecidableEq K] [Arena M K]

variable {env : Env} {e e' : MatchingEngine M K}

/-! ## The watermark -/

theorem handleCommand_highestTermSeen {cmd : SequencedCommand} (h : e.handleCommand env cmd = some e') :
    e'.highestTermSeen = e.highestTermSeen := by
  obtain hkeeps | ⟨account, -, -, rfl⟩ := handleCommand_keeps h
  · exact hkeeps.highestTermSeen
  · rfl

theorem run_highestTermSeen {is : List MatchingEngine.Input} (h : e.run env is = some e') :
    e'.highestTermSeen = e.highestTermSeen := by
  induction is generalizing e with
  | nil => rw [← Option.some.inj h]
  | cons i is ih =>
    obtain ⟨e₁, h₁, h⟩ := Option.bind_eq_some_iff.mp h
    rw [ih h, handleCommand_highestTermSeen h₁]
    rfl

/-! ## Stale commands -/

theorem setFrozen_eq_self {t : AccountRiskTable} {account : AccountId}
    (h : ∀ s ∈ t.get account, s.frozen = true) : t.setFrozen account true = t := by
  refine List.ext_getElem? fun i => ?_
  rw [AccountRiskTable.setFrozen, List.getElem?_modify]
  cases hi : t[i]? with
  | none => rfl
  | some s =>
    rw [Option.map_eq_map, Option.map_some, Option.some.injEq]
    split
    · rename_i hacct
      have hs := h s (by rw [AccountRiskTable.get, hacct]; exact hi)
      rw [← hs]
    · rfl

theorem handleCommand_inert {cmd : SequencedCommand} (h : e.Inert cmd) :
    ∃ e', e.handleCommand env cmd = some e' ∧ e.Unchanged e' := by
  unfold MatchingEngine.Inert at h
  unfold MatchingEngine.handleCommand
  split
  · exact ⟨_, rfl, rfl, rfl, rfl, rfl, rfl⟩
  cases hc : cmd.cmd with
  | newOrder o =>
    rw [hc] at h
    exact h.elim
  | cancel account orderId =>
    rw [hc] at h
    exact h.elim
  | liquidate symbol account =>
    rw [hc] at h
    dsimp only
    rw [openOrderIds_nil h]
    exact ⟨e, rfl, rfl, rfl, rfl, rfl, rfl⟩
  | freezeAccount account =>
    rw [hc] at h
    dsimp only
    rw [setFrozen_eq_self h]
    exact ⟨_, rfl, rfl, rfl, rfl, rfl, rfl⟩

/-- In a run whose stale commands all have nothing to do, no stale command
changes the book, the risk states or what is published. -/
theorem staleSteps_unchanged {is : List MatchingEngine.Input} (h : MatchingEngine.StaleSteps env MatchingEngine.Inert e is) :
    MatchingEngine.StaleSteps env (fun e cmd => ∃ e', e.handleCommand env cmd = some e' ∧ e.Unchanged e') e is :=
  fun pre j post e₁ his hstale hrun => handleCommand_inert (h pre j post e₁ his hstale hrun)

/-- An order of a new leader's. -/
def leaderOrder : SequencedCommand :=
  { term := 2, seq := 1, tsNs := 0
    cmd := .newOrder { account := ⟨10⟩, clientOrderId := ⟨1⟩, symbol := ⟨1⟩, side := .sell, price := ⟨105⟩, qty := ⟨5⟩
                       orderType := .limit, timeInForce := .gtc } }

theorem staleSteps_unchanged_demo : MatchingEngine.StaleSteps idealEnv
    (fun e cmd => ∃ e', e.handleCommand idealEnv cmd = some e' ∧ e.Unchanged e') demoEngine
    (undisturbed [leaderOrder, { term := 1, seq := 2, tsNs := 0, cmd := .liquidate ⟨1⟩ ⟨11⟩ }]) := by
  refine staleSteps_unchanged fun pre j post e his hstale hrun => ?_
  rcases pre with _ | ⟨i, _ | ⟨i', pre⟩⟩
  · obtain ⟨i, hi, -⟩ := hstale
    cases hi
  · have hj : j = ⟨id, { term := 1, seq := 2, tsNs := 0, cmd := .liquidate ⟨1⟩ ⟨11⟩ }⟩ := by
      simp only [undisturbed, List.map_cons, List.cons_append, List.nil_append, List.cons.injEq] at his
      exact his.2.1.symm
    have hi : i = ⟨id, leaderOrder⟩ := (List.cons.inj his).1.symm
    have hlive : ((demoEngine.run idealEnv (undisturbed [leaderOrder])).map fun e =>
        decide (∀ x ∈ e.book.live, x.account ≠ ⟨11⟩)) = some true := rfl
    rw [hi] at hrun
    rw [show demoEngine.run idealEnv (undisturbed [leaderOrder]) = some e from hrun] at hlive
    rw [hj]
    exact show ∀ x ∈ e.book.live, x.account ≠ ⟨11⟩ from of_decide_eq_true (Option.some.inj hlive)
  · have := congrArg List.length his
    simp [undisturbed] at this

/-- The same order again, from a leader of an older term. -/
def staleOrder : SequencedCommand := { leaderOrder with term := 1, seq := 2 }

/-- An order of an older term is applied to the book and published. -/
theorem stale_order_applied : staleOrder.term < leaderOrder.term ∧
    ∃ e e', demoEngine.run idealEnv (undisturbed [leaderOrder]) = some e ∧
      e.handleCommand idealEnv staleOrder = some e' ∧ e'.outbound ≠ e.outbound ∧ e'.book ≠ e.book := by
  have h : ((demoEngine.run idealEnv (undisturbed [leaderOrder])).bind fun e =>
      (e.handleCommand idealEnv staleOrder).map fun e' =>
        decide (e'.outbound ≠ e.outbound ∧ e'.book.live ≠ e.book.live)) = some true := rfl
  obtain ⟨e, he, h⟩ := Option.bind_eq_some_iff.mp h
  obtain ⟨e', he', h⟩ := Option.map_eq_some_iff.mp h
  obtain ⟨hout, hlive⟩ := of_decide_eq_true h
  exact ⟨by decide, e, e', he, he', hout, fun hbook => hlive (by rw [hbook])⟩

end Proof.Engine

end MRE
