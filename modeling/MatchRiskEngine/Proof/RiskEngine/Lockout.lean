import MatchRiskEngine.Proof.MatchingEngine.Liquidate
import MatchRiskEngine.Proof.OrderBook.OrderLife
import MatchRiskEngine.Proof.RiskEngine.Freeze

/-!
# Locking an account out

A freeze that the shard publishes is for good in every interleaving
(`Locked.run`), unlike one by an engine. From then on no engine takes a new
order of the account, so once an engine has liquidated it the engine's book
holds no order of the account ever again (`liquidation_final`).
-/

namespace MRE.Proof.Lockout

open SharedRisk Proof.Book Proof.Engine

variable {M K : Type} {s : System M K} {account : AccountId}

/-! ## The freeze -/

section Freeze

variable [DecidableEq K] [Arena M K] {env : Env}

theorem Locked.step (h : s.Locked account) (a : SharedRisk.Action) : (s.step env a).Locked account := by
  cases Freeze.step_effect env s a with
  | quiet states _ pending =>
    refine ⟨?_, fun st l hpc => h.pending st l (pending account st l hpc)⟩
    rw [states]
    exact h.table
  | @reads account' old st l states _ pending read frozen =>
    refine ⟨?_, fun st' l' hpc => ?_⟩
    · rw [states]
      exact h.table
    · rw [pending] at hpc
      cases hpc
      exact frozen (h.table old read)
  | @freezes i engine account' st _ _ states _ pending =>
    refine ⟨fun st' hst' => ?_, fun st' l hpc => h.pending st' l (pending ▸ hpc)⟩
    rw [states] at hst'
    by_cases hacct : account' = account
    · rw [hacct] at hst'
      rw [Freeze.get_set_inv hst']
    · rw [Risk.get_set_ne _ _ (Ne.symm hacct)] at hst'
      exact h.table st' hst'
  | @writes account' st l pc states _ pending =>
    refine ⟨fun st' hst' => ?_, fun st' l' hpc => absurd hpc (pending _ _ _)⟩
    rw [states] at hst'
    by_cases hacct : account' = account
    · rw [hacct] at hst' pc
      rw [Freeze.get_set_inv hst']
      exact h.pending st l pc
    · rw [Risk.get_set_ne _ _ (Ne.symm hacct)] at hst'
      exact h.table st' hst'

theorem Locked.run (h : s.Locked account) (actions : List SharedRisk.Action) : (s.run env actions).Locked account := by
  induction actions generalizing s with
  | nil => exact h
  | cons a actions ih => exact ih (Locked.step h a)

/-- The shard's update of a frozen state locks the account. -/
theorem locked_of_published (env : Env) {iter : IterOrder} {st : AccountRiskState}
    (hpub : (s.step env (.shard iter)).published = s.published ++ [(account, st)]) (hst : st.frozen = true) :
    (s.step env (.shard iter)).Locked account := by
  have hne : s.published ≠ s.published ++ [(account, st)] := fun e => by simpa using congrArg List.length e
  cases Freeze.step_effect env s (.shard iter) with
  | quiet _ published => exact absurd (published.symm.trans hpub) hne
  | reads _ published => exact absurd (published.symm.trans hpub) hne
  | freezes action => cases action
  | @writes account' st' l pc states published pending =>
    have hsame := List.append_cancel_left (published.symm.trans hpub)
    obtain ⟨rfl, rfl⟩ : account' = account ∧ st' = st := by simpa using hsame
    refine ⟨fun st'' h => ?_, fun st'' l' hpc => absurd hpc (pending _ _ _)⟩
    rw [states] at h
    rw [Freeze.get_set_inv h]
    exact hst

end Freeze

/-! ## An engine's book -/

section Engines

variable {i : Nat} {t : SharedRisk.EngineThread M K}

theorem setEngine_self (h : s.engines[i]? = some t) (u : SharedRisk.EngineThread M K) :
    (s.setEngine i u).engines[i]? = some u := by
  rw [System.setEngine, List.getElem?_set_self (List.getElem?_eq_some_iff.mp h).1]

theorem setEngine_ne {j : Nat} (hne : j ≠ i) (u : SharedRisk.EngineThread M K) :
    (s.setEngine j u).engines[i]? = s.engines[i]? := by
  rw [System.setEngine, List.getElem?_set_ne hne]

/-- The engine with the risk states that it finds in the table. -/
def sees (e : MatchingEngine M K) (states : AccountRiskTable) : MatchingEngine M K := { e with riskStates := states }

/-- An engine with the book and the term of another. -/
def SameBook (t t' : SharedRisk.EngineThread M K) : Prop :=
  t'.engine.book = t.engine.book ∧ t'.engine.highestTermSeen = t.engine.highestTermSeen

theorem stepEngine_thread (h : s.engines[i]? = some t) (j : Nat) :
    ∃ t', (s.stepEngine j).engines[i]? = some t' ∧ SameBook t t' := by
  rw [System.stepEngine]
  by_cases hj : j = i
  · subst hj
    rw [h]
    obtain ⟨engine, pc⟩ := t
    cases pc with
    | idle | stopped => exact ⟨_, h, rfl, rfl⟩
    | readState account' =>
      dsimp only
      split
      · exact ⟨_, setEngine_self h _, rfl, rfl⟩
      · exact ⟨_, h, rfl, rfl⟩
    | updateState account' st => exact ⟨_, setEngine_self h _, rfl, rfl⟩
  · refine ⟨t, ?_, rfl, rfl⟩
    split
    · split
      · rw [setEngine_ne hj, h]
      · exact h
    · rw [setEngine_ne hj]
      exact h
    · exact h

theorem event_engines (markPrices : MarkPrices) (ev : EngineEvent) : (s.event markPrices ev).engines = s.engines := by
  unfold System.event
  repeat' split
  all_goals rfl

theorem seed_engines (account : AccountId) (amount : Int64) : (s.seed account amount).engines = s.engines := by
  unfold System.seed
  repeat' split
  all_goals rfl

theorem stepShard_engines (iter : IterOrder) : (s.stepShard iter).engines = s.engines := by
  unfold System.stepShard
  repeat' split
  all_goals rfl

variable [DecidableEq K] [Arena M K] {env : Env}

/-- What taking up a command does to the engine that does so. -/
theorem command_thread (env : Env) (h : s.engines[i]? = some t) (cmd : SequencedCommand) :
    ∃ t', (s.command env i cmd).engines[i]? = some t' ∧ (SameBook t t' ∨ ∃ e', t.pc = .idle ∧
      (sees t.engine s.states).handleCommand env cmd = some e' ∧ t' = ⟨e', .idle⟩) := by
  obtain ⟨engine, pc⟩ := t
  rw [System.command, h]
  cases pc with
  | readState | updateState | stopped => exact ⟨_, h, .inl ⟨rfl, rfl⟩⟩
  | idle =>
    dsimp only
    split
    · split
      · exact ⟨_, setEngine_self h _, .inl ⟨rfl, rfl⟩⟩
      · exact ⟨_, h, .inl ⟨rfl, rfl⟩⟩
    · split
      · rename_i e' he
        exact ⟨_, setEngine_self h _, .inr ⟨e', rfl, he, rfl⟩⟩
      · exact ⟨_, setEngine_self h _, .inl ⟨rfl, rfl⟩⟩

theorem command_handles {e e' : MatchingEngine M K} {cmd : SequencedCommand} (h : s.engines[i]? = some ⟨e, .idle⟩)
    (htarget : System.freezeTarget (sees e s.states) cmd = none)
    (he : (sees e s.states).handleCommand env cmd = some e') : (s.command env i cmd).engines[i]? = some ⟨e', .idle⟩ := by
  rw [System.command, h]
  simp only [sees] at htarget he
  simp only [htarget, he]
  exact setEngine_self h _

theorem command_engines_ne {j : Nat} (hne : j ≠ i) (cmd : SequencedCommand) :
    (s.command env j cmd).engines[i]? = s.engines[i]? := by
  simp only [System.command]
  repeat' split
  all_goals first | rfl | rw [setEngine_ne hne]

/-- What a step does to an engine: nothing to its book, or it handles a command
with the risk states of the table. -/
theorem step_thread (env : Env) (h : s.engines[i]? = some t) (a : SharedRisk.Action) :
    ∃ t', (s.step env a).engines[i]? = some t' ∧ (SameBook t t' ∨ ∃ cmd e', a.commandTo i = some cmd ∧ t.pc = .idle ∧
      (sees t.engine s.states).handleCommand env cmd = some e' ∧ t' = ⟨e', .idle⟩) := by
  cases a with
  | command j cmd =>
    by_cases hj : j = i
    · subst hj
      obtain ⟨t', ht', hstep⟩ := command_thread env h cmd
      exact ⟨t', ht', hstep.imp_right fun ⟨e', hidle, he⟩ => ⟨cmd, e', if_pos rfl, hidle, he⟩⟩
    · exact ⟨t, (command_engines_ne hj cmd).trans h, .inl ⟨rfl, rfl⟩⟩
  | engine j =>
    obtain ⟨t', ht', hsame⟩ := stepEngine_thread h j
    exact ⟨t', ht', .inl hsame⟩
  | event ev markPrices => exact ⟨t, (congrArg (·[i]?) (event_engines markPrices ev)).trans h, .inl ⟨rfl, rfl⟩⟩
  | seed account amount => exact ⟨t, (congrArg (·[i]?) (seed_engines account amount)).trans h, .inl ⟨rfl, rfl⟩⟩
  | shard iter => exact ⟨t, (congrArg (·[i]?) (stepShard_engines iter)).trans h, .inl ⟨rfl, rfl⟩⟩

theorem step_length (env : Env) (s : System M K) (a : SharedRisk.Action) :
    (s.step env a).engines.length = s.engines.length := by
  cases a with
  | command j cmd =>
    simp only [System.step, System.command]
    repeat' split
    all_goals first | rfl | exact List.length_set
  | engine j =>
    simp only [System.step, System.stepEngine]
    repeat' split
    all_goals first | rfl | exact List.length_set
  | event ev markPrices => exact congrArg List.length (event_engines markPrices ev)
  | seed account amount => exact congrArg List.length (seed_engines account amount)
  | shard iter => exact congrArg List.length (stepShard_engines iter)

theorem run_length (env : Env) (s : System M K) (actions : List SharedRisk.Action) :
    (s.run env actions).engines.length = s.engines.length := by
  induction actions generalizing s with
  | nil => rfl
  | cons a actions ih => exact (ih (s.step env a)).trans (step_length env s a)

theorem filterMap_commandsTo_cons (i : Nat) (a : SharedRisk.Action) (actions : List SharedRisk.Action) :
    (commandsTo i (a :: actions)).filterMap SequencedCommand.newOrderSeq =
      ((a.commandTo i).bind SequencedCommand.newOrderSeq).toList ++
        (commandsTo i actions).filterMap SequencedCommand.newOrderSeq := by
  rw [commandsTo, commandsTo, List.filterMap_cons]
  cases a.commandTo i with
  | none => rfl
  | some cmd =>
    rw [Option.bind_some, List.filterMap_cons]
    cases cmd.newOrderSeq <;> rfl

/-- What an interleaving does to an engine's book, commands lead to. -/
theorem run_thread (env : Env) (h : s.engines[i]? = some t) (actions : List SharedRisk.Action) :
    ∃ t', (s.run env actions).engines[i]? = some t' ∧
      Leads ((commandsTo i actions).filterMap SequencedCommand.newOrderSeq) t.engine.book t'.engine.book ∧
      t'.engine.highestTermSeen = t.engine.highestTermSeen := by
  induction actions generalizing s t with
  | nil => exact ⟨t, h, .refl _ _, rfl⟩
  | cons a actions ih =>
    obtain ⟨t₁, h₁, hstep⟩ := step_thread env h a
    obtain ⟨t', ht', hleads, hterm⟩ := ih h₁
    rw [filterMap_commandsTo_cons]
    rcases hstep with ⟨hbook, hterm₁⟩ | ⟨cmd, e', hcmd, -, he, rfl⟩
    · rw [hbook] at hleads
      exact ⟨t', ht', (Leads.refl _ _).trans hleads, hterm.trans hterm₁⟩
    · rw [hcmd, Option.bind_some]
      have hterm₁ := handleCommand_highestTermSeen he
      exact ⟨t', ht', (leads_handleCommand he).trans hleads, hterm.trans hterm₁⟩

end Engines

/-! ## Orders of a locked account -/

/-- The risk check refuses the orders of a frozen account. -/
theorem riskResult_frozen {e : MatchingEngine M K} {o : InboundNewOrder}
    (hfrozen : ∀ st, e.riskStates.get o.account = some st → st.frozen = true) : e.riskResult o ≠ .ok () := by
  rw [MatchingEngine.riskResult]
  split
  · rename_i st hst
    simp only [RiskCheck.checkNewOrder, hfrozen st hst]
    cases st.halted <;> exact fun h => by cases h
  · exact fun h => by cases h

section Orders

variable [DecidableEq K] [Arena M K] {env : Env} {c : RefConfig} {b b' : OrderBook M K}
  {Q : Side → Nat → List K} {e e' : MatchingEngine M K} {cmd : SequencedCommand}

theorem holdsNone_iff : b.HoldsNone account ↔ ∀ k x, dataOf b.arena k = some x → x.account ≠ account := by
  refine ⟨fun h k x hx => ?_, fun h k o ho => h k o.data (dataOf_of_get? ho)⟩
  obtain ⟨o, ho, rfl⟩ := get?_of_dataOf hx
  exact h k o ho

/-- Commands bring no order of the account, unless they are one. -/
theorem Valid.run_holdsNone (hb : Valid c b Q) (h : b.HoldsNone account) {cmds : List SequencedCommand}
    {evss : List (List EngineEvent)} (hrun : b.run cmds = some (b', evss))
    (hcmds : ∀ cmd ∈ cmds, ∀ o, cmd.cmd = .newOrder o → o.account ≠ account) : b'.HoldsNone account := by
  refine holdsNone_iff.mpr (hb.run_live (P := fun x => x.account ≠ account) (fun e hy => ?_) (holdsNone_iff.mp h) hrun
    fun cmd hin o _ => hcmds cmd hin o)
  rw [e]
  exact hy

/-- Handling a command brings no order of a frozen account. -/
theorem handleCommand_holdsNone (hcmd : e.handleCommand env cmd = some e') (hb : Valid c e.book Q)
    (hfrozen : ∀ st, e.riskStates.get account = some st → st.frozen = true) (h : e.book.HoldsNone account) :
    e'.book.HoldsNone account := by
  have hleads := leads_handleCommand hcmd
  rcases handleCommand_book hcmd with hbook | ⟨evs, happly, hok⟩ | ⟨symbol, account', hc, -⟩
  · rw [hbook]
    exact h
  · have hrun : e.book.run [cmd] = some (e'.book, [evs]) := by
      rw [run_singleton, happly]
      rfl
    refine Valid.run_holdsNone hb h hrun (List.forall_mem_singleton.mpr fun o ho hacct => ?_)
    rw [← hacct] at hfrozen
    exact riskResult_frozen hfrozen (hok o ho)
  · rw [SequencedCommand.newOrderSeq, hc] at hleads
    obtain ⟨cmds, evss, hrun, hsub⟩ := hleads
    refine Valid.run_holdsNone hb h hrun fun cmd hin o ho => ?_
    have hmem : cmd.seq ∈ cmds.filterMap SequencedCommand.newOrderSeq :=
      List.mem_filterMap.mpr ⟨cmd, hin, newOrderSeq_of_newOrder ho⟩
    rw [List.sublist_nil.mp hsub] at hmem
    cases hmem

theorem handleCommand_valid (hcmd : e.handleCommand env cmd = some e') (hb : Valid c e.book Q) :
    ∃ Q', Valid c e'.book Q' := by
  obtain ⟨cmds, evss, hrun, -⟩ := leads_handleCommand hcmd
  obtain ⟨b', evss', Q', hrun', hb'⟩ := hb.run cmds
  cases Option.some.inj (hrun'.symm.trans hrun)
  exact ⟨Q', hb'⟩

/-- A liquidation takes the account's orders out of a book that numbered commands
lead to. -/
theorem liquidate_holdsNone (env : Env) (hterm : e.highestTermSeen = 0) (hb : Valid c e.book Q)
    (hids : IdsOk e.book.idToKey (dataOf e.book.arena)) {symbol : Symbol} (hcmd : cmd.cmd = .liquidate symbol account)
    (states : AccountRiskTable) :
    ∃ e', (sees e states).handleCommand env cmd = some e' ∧ e'.book.HoldsNone account ∧ ∃ Q', Valid c e'.book Q' := by
  obtain ⟨b', hcancel, hclears⟩ := hb.clears hids cmd account
  have hall := cancelAll_book env cmd account (sees e states) (e.book.openOrderIdsForAccount account)
  rw [show (sees e states).book = e.book from rfl, hcancel] at hall
  obtain ⟨e', he', rfl⟩ := Option.map_eq_some_iff.mp hall
  have hhandle : (sees e states).handleCommand env cmd = some e' := by
    rw [MatchingEngine.handleCommand,
      if_neg (by rw [show (sees e states).highestTermSeen = 0 from hterm]; exact UInt64.not_lt_zero)]
    simp only [hcmd]
    exact he'
  exact ⟨e', hhandle, hclears.gone, handleCommand_valid hhandle hb⟩

end Orders

/-! ## Liquidation -/

section Final

variable [DecidableEq K] [Arena M K] {env : Env} {i : Nat} {t : SharedRisk.EngineThread M K}

/-- Whatever the threads do, the book of an engine stays without orders of a
locked account. -/
theorem run_holdsNone (hlocked : s.Locked account) (h : s.engines[i]? = some t) {c : RefConfig} {Q : Side → Nat → List K}
    (hb : Valid c t.engine.book Q) (hnone : t.engine.book.HoldsNone account) (actions : List SharedRisk.Action) :
    ∃ t', (s.run env actions).engines[i]? = some t' ∧ t'.engine.book.HoldsNone account := by
  induction actions generalizing s t Q with
  | nil => exact ⟨t, h, hnone⟩
  | cons a actions ih =>
    obtain ⟨t₁, h₁, hstep⟩ := step_thread env h a
    rcases hstep with ⟨hbook, -⟩ | ⟨cmd, e', -, -, he, rfl⟩
    · rw [← hbook] at hb hnone
      exact ih (Locked.step hlocked a) h₁ hb hnone
    · obtain ⟨Q', hb'⟩ := handleCommand_valid he hb
      exact ih (Locked.step hlocked a) h₁ hb' (handleCommand_holdsNone he hb hlocked.table hnone)

theorem thread_book {engines : List (MatchingEngine M K)} (hfresh : ∀ e ∈ engines, e.IsNew) (shard : RiskShard)
    {actions : List SharedRisk.Action} (h : ((System.init engines shard).run env actions).engines[i]? = some t)
    (hseqs : ((commandsTo i actions).filterMap SequencedCommand.newOrderSeq).Nodup) :
    t.engine.highestTermSeen = 0 ∧
      ∃ c Q, Valid c t.engine.book Q ∧ IdsOk t.engine.book.idToKey (dataOf t.engine.book.arena) := by
  have hlt := (List.getElem?_eq_some_iff.mp h).1
  rw [run_length] at hlt
  have hinit := List.getElem?_eq_getElem hlt
  obtain ⟨e₀, he₀, e⟩ := List.mem_map.mp (List.mem_of_getElem? hinit)
  rw [← e] at hinit
  obtain ⟨limits, cfg, b₀, risk, hnew, rfl⟩ := hfresh e₀ he₀
  obtain ⟨t₁, ht₁, ⟨cmds, evss, hrun, hsub⟩, hterm⟩ := run_thread env hinit actions
  cases Option.some.inj (h.symm.trans ht₁)
  obtain ⟨Q, hb, hids⟩ := run_idsOk hnew (hseqs.sublist hsub) hrun
  exact ⟨hterm, b₀.refConfig, Q, hb, hids⟩

/-- Once the shard has published an account as frozen and an engine has then
handled a liquidation of it, the book of that engine holds no order of the
account in any later state, whatever the threads do. -/
theorem liquidation_final {engines : List (MatchingEngine M K)} (hfresh : ∀ e ∈ engines, e.IsNew) (shard : RiskShard)
    (before after : List SharedRisk.Action) {iter : IterOrder} {st : AccountRiskState} {cmd : SequencedCommand}
    {symbol : Symbol} (hst : st.frozen = true)
    (hpub : ((System.init engines shard).run env (before ++ [.shard iter])).published =
      ((System.init engines shard).run env before).published ++ [(account, st)])
    (hidle : (((System.init engines shard).run env (before ++ .shard iter :: after)).engines[i]?).map
      SharedRisk.EngineThread.pc = some .idle)
    (hseqs : ((commandsTo i (before ++ .shard iter :: after)).filterMap SequencedCommand.newOrderSeq).Nodup)
    (hcmd : cmd.cmd = .liquidate symbol account) (later : List SharedRisk.Action) :
    ∃ t, ((System.init engines shard).run env (before ++ .shard iter :: after ++ .command i cmd :: later)).engines[i]? =
        some t ∧ t.engine.book.HoldsNone account := by
  obtain ⟨⟨e, pc⟩, hidle, rfl⟩ := Option.map_eq_some_iff.mp hidle
  have happend : ∀ xs ys, (System.init engines shard).run env (xs ++ ys) =
      ((System.init engines shard).run env xs).run env ys := fun xs ys => List.foldl_append
  -- the account is locked when the command comes
  have hlocked : ((System.init engines shard).run env (before ++ .shard iter :: after)).Locked account := by
    rw [List.append_cons, happend]
    refine Locked.run ?_ after
    rw [happend] at hpub ⊢
    exact locked_of_published env hpub hst
  -- and the engine's book is one that numbered commands lead to
  obtain ⟨hterm, c, Q, hb, hids⟩ := thread_book hfresh shard hidle hseqs
  obtain ⟨e', he', hnone, Q', hb'⟩ := liquidate_holdsNone env hterm hb hids hcmd _
  have hstep := command_handles (e := e) hidle (by rw [System.freezeTarget, hcmd]) he'
  rw [happend]
  exact run_holdsNone (Locked.step hlocked (.command i cmd)) hstep hb' hnone later

end Final

/-- An engine and a shard of accounts without a deposit. -/
def poorShard : RiskShard := RiskShard.new 0 3 .default (AccountRiskTable.new 3)

def orderOfOne (seq : UInt64) : SequencedCommand :=
  { term := 1, seq, tsNs := 0
    cmd := .newOrder { account := ⟨1⟩, clientOrderId := ⟨seq⟩, symbol := ⟨1⟩, side := .sell, price := ⟨105⟩, qty := ⟨5⟩
                       orderType := .limit, timeInForce := .gtc } }

/-- Account 1 has an order in the book, and then it trades without margin. -/
def breachRun : List SharedRisk.Action :=
  [.command 0 (orderOfOne 1), .event (.trade (Risk.demoTrade ⟨1000000⟩)) Risk.demoMarks, .shard Risk.inOrder]

/-- What the shard publishes of it. -/
def breachState : AccountRiskState :=
  { balance := 0, usedMargin := 2500000000, frozen := true, halted := false, position := 0, openOrderCount := 0 }

/-- The order of account 1 is cancelled, and a later one is not taken. -/
theorem liquidation_final_demo :
    (((System.init [demoEngine] poorShard).run idealEnv breachRun).engines[0]?.map fun t =>
        t.engine.book.openOrderIdsForAccount ⟨1⟩) = some [⟨1⟩] ∧
      ∃ t, ((System.init [demoEngine] poorShard).run idealEnv (breachRun ++ [.shard Risk.inOrder] ++
          [.command 0 { term := 1, seq := 2, tsNs := 0, cmd := .liquidate ⟨1⟩ ⟨1⟩ }, .command 0 (orderOfOne 3)])).engines[0]? =
        some t ∧ t.engine.book.HoldsNone ⟨1⟩ := by
  refine ⟨rfl, liquidation_final ?_ poorShard breachRun [] (show breachState.frozen = true from rfl) rfl rfl (by decide)
    rfl _⟩
  exact List.forall_mem_singleton.mpr ⟨.default, demoConfig, demoBook, AccountRiskTable.new 16, new_demoBook, rfl⟩

end MRE.Proof.Lockout
