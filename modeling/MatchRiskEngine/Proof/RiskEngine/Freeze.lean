import MatchRiskEngine.Proof.MatchingEngine.EventSourcing
import MatchRiskEngine.Proof.RiskEngine.Liquidation
import MatchRiskEngine.Spec.SharedRiskState

/-!
# Freezing under concurrent writers

A shard publishes an account's state with the `frozen` flag it read before, so
that a freeze by an engine in between is undone (`freeze_lost`). It is the only
way: while no freeze falls there, an account once published as frozen stays
frozen (`frozenForever_run`).

`settle_eq`, `seedDeposit_eq`, `setFrozen_eq` and `handleCommand_riskStates`
connect the steps to the sequential model: made one after the other they are
`RiskShard.settle`, `RiskShard.seedDeposit` and `MatchingEngine.handleCommand`.
-/

namespace MRE.Proof.Freeze

open MRE.SharedRisk MRE.Proof.Engine

/-! ## The steps and the sequential model -/

theorem settle_eq (shard : RiskShard) (iter : IterOrder) (t : EngineEvent.Trade) (markPrices : MarkPrices)
    {acct : AccountId} (howns : shard.owns acct = true) (side : Side) :
    shard.settle iter t markPrices acct side =
      (shard.settleRead iter t markPrices acct side).map fun r => (r.1.update acct r.2.1, r.2.2) := by
  rw [RiskShard.settle, if_neg (by rw [howns]; decide), RiskShard.settleRead]
  simp only [Option.map_bind, Option.bind_eq_bind, Function.comp_def]
  rfl

theorem seedDeposit_eq (shard : RiskShard) (account : AccountId) (amount : Int64) :
    shard.seedDeposit account amount = (shard.seedRead account amount).map fun r => r.1.update account r.2 := by
  rw [RiskShard.seedDeposit, RiskShard.seedRead]
  split
  · rfl
  · rw [Option.bind_eq_bind, Option.bind_eq_bind, Option.map_bind]
    rfl

variable {account : AccountId} {st : AccountRiskState}

theorem setFrozen_eq {t : AccountRiskTable} (h : t.get account = some st) (frozen : Bool) :
    t.setFrozen account frozen = t.set account.raw.toNat { st with frozen } := by
  obtain ⟨hlt, hst⟩ := List.getElem?_eq_some_iff.mp h
  rw [AccountRiskTable.setFrozen, List.modify_eq_set_getElem?, show t[account.raw.toNat]? = some st from h]
  rfl

variable {M K : Type}

section

variable [DecidableEq K] [Arena M K] {env : Env} {e e' : MatchingEngine M K}

theorem handleCommand_riskStates {cmd : SequencedCommand} (htarget : System.freezeTarget e cmd = none)
    (h : e.handleCommand env cmd = some e') : e'.riskStates = e.riskStates := by
  obtain hkeeps | ⟨account, hcmd, hterm, -⟩ := handleCommand_keeps h
  · exact hkeeps.riskStates
  · simp [System.freezeTarget, hcmd, hterm] at htarget

/-- A command that freezes an account does so by the read and the update of its
state. -/
theorem handleCommand_freeze {cmd : SequencedCommand}
    (htarget : System.freezeTarget e cmd = some account) (hst : e.riskStates.get account = some st) :
    e.handleCommand env cmd =
      some { e with riskStates := e.riskStates.set account.raw.toNat { st with frozen := true } } := by
  rw [System.freezeTarget] at htarget
  split at htarget
  · rename_i account' hcmd
    split at htarget
    · cases htarget
    · rename_i hstale
      cases htarget
      rw [MatchingEngine.handleCommand, if_neg hstale, hcmd, ← setFrozen_eq hst]
  · cases htarget

end

/-! ## What a step does to the published states -/

/-- What a step does to the table, the published states and the shard's pending
update. -/
inductive Effect (s s' : System M K) (a : SharedRisk.Action) : Prop where
  /-- No update, and none that becomes pending. -/
  | quiet (states : s'.states = s.states) (published : s'.published = s.published)
      (pending : ∀ account st l, s'.shardPc = .updateState account st l → s.shardPc = .updateState account st l)
  /-- The shard reads a state, which if frozen will be published so. -/
  | reads {account : AccountId} {old st : AccountRiskState} {l : Option TradeLoop} (states : s'.states = s.states)
      (published : s'.published = s.published) (pending : s'.shardPc = .updateState account st l)
      (read : s.states.get account = some old) (frozen : old.frozen = true → st.frozen = true)
  /-- An engine freezes an account. -/
  | freezes {i : Nat} {engine : MatchingEngine M K} {account : AccountId} {st : AccountRiskState}
      (action : a = .engine i) (pc : s.engines[i]? = some ⟨engine, .updateState account st⟩)
      (states : s'.states = s.states.set account.raw.toNat { st with frozen := true })
      (published : s'.published = s.published ++ [(account, { st with frozen := true })])
      (pending : s'.shardPc = s.shardPc)
  /-- The shard makes its update. -/
  | writes {account : AccountId} {st : AccountRiskState} {l : Option TradeLoop}
      (pc : s.shardPc = .updateState account st l) (states : s'.states = s.states.set account.raw.toNat st)
      (published : s'.published = s.published ++ [(account, st)])
      (pending : ∀ account st l, s'.shardPc ≠ .updateState account st l)

section

variable {s s' : System M K} {a : SharedRisk.Action}

/-- A step that leaves the shard and the published states alone. -/
theorem Effect.of_eq (hshard : s'.shard = s.shard) (hpc : s'.shardPc = s.shardPc)
    (hpublished : s'.published = s.published) : Effect s s' a :=
  .quiet (by rw [System.states, System.states, hshard]) hpublished fun account st l h => hpc ▸ h

theorem command_effect [DecidableEq K] [Arena M K] (env : Env) (i : Nat) (cmd : SequencedCommand) :
    Effect s (s.command env i cmd) a := by
  simp only [System.command]
  repeat' split
  all_goals exact .of_eq rfl rfl rfl

theorem stepEngine_effect (i : Nat) : Effect s (s.stepEngine i) (.engine i) := by
  rw [System.stepEngine]
  split
  · split <;> exact .of_eq rfl rfl rfl
  · rename_i engine account st hpc
    exact .freezes rfl hpc rfl rfl rfl
  · exact .of_eq rfl rfl rfl

theorem event_effect (markPrices : MarkPrices) (ev : EngineEvent) : Effect s (s.event markPrices ev) a := by
  unfold System.event
  split
  · split
    · exact .quiet rfl rfl fun account st l h => by cases h
    · exact .of_eq rfl rfl rfl
  · exact .of_eq rfl rfl rfl

/-- The flag of the state that a seed will publish is the one read. -/
theorem seedRead_read {shard shard' : RiskShard} {amount : Int64}
    (h : shard.seedRead account amount = some (shard', st)) :
    shard'.states = shard.states ∧ ∃ old, shard.states.get account = some old ∧ st.frozen = old.frozen := by
  rw [RiskShard.seedRead] at h
  split at h
  · cases h
  · obtain ⟨old, hold, h⟩ := Option.bind_eq_some_iff.mp h
    cases h
    exact ⟨rfl, old, hold, rfl⟩

theorem seed_effect (account : AccountId) (amount : Int64) : Effect s (s.seed account amount) a := by
  rw [System.seed]
  split
  · split
    · rename_i shard st hread
      obtain ⟨hstates, old, hold, hfrozen⟩ := seedRead_read hread
      exact .reads hstates rfl rfl hold fun h => hfrozen.trans h
    · exact .quiet rfl rfl fun account st l h => by cases h
  · exact .of_eq rfl rfl rfl

/-- The flag of the state that the settlement of a fill will publish is set if
the one read is. -/
theorem settleRead_read {shard shard' : RiskShard} {iter : IterOrder} {t : EngineEvent.Trade} {markPrices : MarkPrices}
    {acct : AccountId} {side : Side} {cmds : List InboundCommand}
    (h : shard.settleRead iter t markPrices acct side = some (shard', st, cmds)) :
    shard'.states = shard.states ∧
      ∃ old, shard.states.get acct = some old ∧ (old.frozen = true → st.frozen = true) := by
  rw [RiskShard.settleRead] at h
  obtain ⟨pos, -, h⟩ := Option.bind_eq_some_iff.mp h
  obtain ⟨⟨balance, usedMargin⟩, -, h⟩ := Option.bind_eq_some_iff.mp h
  obtain ⟨old, hold, h⟩ := Option.bind_eq_some_iff.mp h
  cases h
  refine ⟨rfl, old, hold, fun hfrozen => ?_⟩
  show (old.frozen || _) = true
  rw [hfrozen, Bool.true_or]

theorem stepShard_effect (iter : IterOrder) : Effect s (s.stepShard iter) a := by
  rw [System.stepShard]
  split
  · split
    · exact .quiet rfl rfl fun account st l h => by cases h
    · split
      · exact .quiet rfl rfl fun account st l h => by cases h
      · split
        · rename_i shard st cmds hread
          obtain ⟨hstates, old, hold, hfrozen⟩ := settleRead_read hread
          exact .reads hstates rfl rfl hold hfrozen
        · exact .quiet rfl rfl fun account st l h => by cases h
  · rename_i account st hpc
    exact .writes hpc rfl rfl fun account st l h => by cases h
  · rename_i account st l hpc
    exact .writes hpc rfl rfl fun account st l h => by cases h
  · exact .of_eq rfl rfl rfl

theorem step_effect [DecidableEq K] [Arena M K] (env : Env) (s : System M K) (a : SharedRisk.Action) :
    Effect s (s.step env a) a := by
  cases a with
  | command i cmd => exact command_effect env i cmd
  | engine i => exact stepEngine_effect i
  | event ev markPrices => exact event_effect markPrices ev
  | seed account amount => exact seed_effect account amount
  | shard iter => exact stepShard_effect iter

end

/-! ## The invariant -/

/-- An account published as frozen is frozen in the table, and is not one that
the shard is about to publish as not frozen. -/
structure Inv (s : System M K) : Prop where
  forever : FrozenForever s.published
  table (p : AccountId × AccountRiskState) : p ∈ s.published → p.2.frozen = true →
    ∀ st, s.states.get p.1 = some st → st.frozen = true
  pending (p : AccountId × AccountRiskState) : p ∈ s.published → p.2.frozen = true → ¬ s.shardPc.Unfreezes p.1

theorem unfreezes_iff {pc : ShardPc} :
    pc.Unfreezes account ↔ ∃ st l, pc = .updateState account st l ∧ st.frozen = false := by
  constructor
  · intro h
    cases pc with
    | updateState account' st l => exact ⟨st, l, by rw [h.1], h.2⟩
    | idle | loop _ | stopped => exact absurd h not_false
  · rintro ⟨st, l, rfl, h⟩
    exact ⟨rfl, h⟩

theorem get_set_inv {t : AccountRiskTable} {st st' : AccountRiskState}
    (h : AccountRiskTable.get (t.set account.raw.toNat st) account = some st') : st' = st := by
  rw [AccountRiskTable.get, List.getElem?_set_self'] at h
  obtain ⟨_, -, h⟩ := Option.map_eq_some_iff.mp h
  exact h.symm

/-- Publishing a state keeps the first two parts, if it is frozen or no frozen
one was published before. -/
theorem publish_inv {s s' : System M K} (h : Inv s)
    (hst : ∀ p ∈ s.published, p.1 = account → p.2.frozen = true → st.frozen = true)
    (hstates : s'.states = s.states.set account.raw.toNat st) (hpublished : s'.published = s.published ++ [(account, st)])
    (hpending : ∀ p ∈ s'.published, p.2.frozen = true → ¬ s'.shardPc.Unfreezes p.1) : Inv s' := by
  refine ⟨?_, fun p hp hfrozen st' hst' => ?_, hpending⟩
  · rw [hpublished, FrozenForever, List.pairwise_append]
    refine ⟨h.forever, List.pairwise_singleton _ _, fun p hp q hq hpq hfrozen => ?_⟩
    rw [List.mem_singleton.mp hq] at hpq ⊢
    exact hst p hp hpq hfrozen
  · rw [hstates] at hst'
    rw [hpublished, List.mem_append, List.mem_singleton] at hp
    by_cases hacc : account = p.1
    · rw [← hacc] at hst'
      rw [get_set_inv hst']
      obtain hp | hp := hp
      · exact hst p hp hacc.symm hfrozen
      · rwa [hp] at hfrozen
    · rw [Risk.get_set_ne _ _ (Ne.symm hacc)] at hst'
      obtain hp | hp := hp
      · exact h.table p hp hfrozen st' hst'
      · exact absurd (by rw [hp]) hacc

theorem init_inv (engines : List (MatchingEngine M K)) (shard : RiskShard) : Inv (System.init engines shard) :=
  ⟨List.Pairwise.nil, fun _ hp => absurd hp List.not_mem_nil, fun _ hp => absurd hp List.not_mem_nil⟩

variable [DecidableEq K] [Arena M K] {env : Env}

theorem step_inv {s : System M K} (h : Inv s) {a : SharedRisk.Action} (hclear : Clear s a) : Inv (s.step env a) := by
  cases step_effect env s a with
  | quiet states published pending =>
    refine ⟨published ▸ h.forever, ?_, ?_⟩
    · rw [published, states]
      exact h.table
    · rw [published]
      intro p hp hfrozen hunf
      obtain ⟨st, l, hpc, hst⟩ := unfreezes_iff.mp hunf
      exact h.pending p hp hfrozen (unfreezes_iff.mpr ⟨st, l, pending _ _ _ hpc, hst⟩)
  | @reads account old st l states published pending read frozen =>
    refine ⟨published ▸ h.forever, ?_, ?_⟩
    · rw [published, states]
      exact h.table
    · -- a frozen state would have been read as such
      rw [published, pending]
      rintro p hp hfrozen ⟨rfl, hst⟩
      have hold := h.table p hp hfrozen old read
      exact absurd (frozen hold) (by rw [hst]; decide)
  | @freezes i engine account st action pc states published pending =>
    refine publish_inv h (fun _ _ _ _ => rfl) states published fun p hp hfrozen => ?_
    rw [pending]
    rw [published, List.mem_append, List.mem_singleton] at hp
    obtain hp | rfl := hp
    · exact h.pending p hp hfrozen
    · refine hclear account ?_
      rw [action, System.freezing, pc]
      rfl
  | @writes account st l pc states published pending =>
    refine publish_inv h (fun p hp hacc hfrozen => ?_) states published fun p _ _ => ?_
    · have hnot := h.pending p hp hfrozen
      rw [hacc] at hnot
      exact Bool.eq_true_of_not_eq_false fun hst => hnot (unfreezes_iff.mpr ⟨st, l, pc, hst⟩)
    · intro hunf
      obtain ⟨st', l', hpc, -⟩ := unfreezes_iff.mp hunf
      exact pending _ _ _ hpc

/-! ## Runs -/

theorem run_inv {s : System M K} (h : Inv s) {actions : List SharedRisk.Action} (hclear : ClearSteps env s actions) :
    Inv (s.run env actions) := by
  induction actions generalizing s with
  | nil => exact h
  | cons a actions ih => exact ih (step_inv h hclear.1) hclear.2

/-- If no engine freezes an account while the shard is about to publish an
unfrozen state of it, an account stays frozen. -/
theorem frozenForever_run (env : Env) (engines : List (MatchingEngine M K)) (shard : RiskShard)
    {actions : List SharedRisk.Action} (hclear : ClearSteps env (System.init engines shard) actions) :
    FrozenForever ((System.init engines shard).run env actions).published :=
  (run_inv (init_inv engines shard) hclear).forever

/-- An engine and a shard that settles a trade. -/
def demoSystem : System SlotArena SlotKey := System.init [demoEngine] Risk.demoShard

def demoFreeze : SequencedCommand := { term := 1, seq := 2, tsNs := 0, cmd := .freezeAccount ⟨1⟩ }

/-- The shard settles the first side of the trade, and then the engine freezes
the account. -/
theorem frozenForever_run_demo :
    FrozenForever (demoSystem.run idealEnv
      [.event (.trade (Risk.demoTrade ⟨100000000⟩)) Risk.demoMarks, .shard Risk.inOrder, .shard Risk.inOrder,
        .command 0 demoFreeze, .engine 0, .engine 0]).published :=
  frozenForever_run idealEnv [demoEngine] Risk.demoShard
    ⟨by decide, by decide, by decide, by decide, by decide, by decide,
      trivial⟩

/-- The engine freezes the account between the shard's read of its state and the
update. -/
theorem freeze_lost :
    ¬ FrozenForever (demoSystem.run idealEnv
      [.event (.trade (Risk.demoTrade ⟨100000000⟩)) Risk.demoMarks, .shard Risk.inOrder, .command 0 demoFreeze,
        .engine 0, .engine 0, .shard Risk.inOrder]).published := by
  decide

end MRE.Proof.Freeze
