import MatchRiskEngine.Proof.MatchingEngine.Publish
import MatchRiskEngine.Proof.OrderBook.EventSourcing

/-!
# The published events and the open orders

`mapEngineEvent` has no translation for the book's own `Cancelled`, so an
order that leaves the book by a cancellation stays open for a reader of the
published stream. As long as nothing is cancelled (`CancelsNothing`, at every
command), replaying the stream gives the open orders (`openQtys_run`): each
published event does to the quantities what the book's event does to the open
orders (`qtys_replay`), which are known from the book.
-/

namespace MRE

open SlotMap

/-- A command that makes no resting order leave the book other than by a
fill. -/
def MatchingEngine.CancelsNothing {M K : Type} [DecidableEq K] [Arena M K] (e : MatchingEngine M K)
    (cmd : SequencedCommand) : Prop :=
  match cmd.cmd with
  | .newOrder o => e.riskResult o = .ok () → ¬ e.book.Refuses o →
      ∀ x ∈ e.book.live, e.book.Reaches (o.aggressor cmd.seq cmd.tsNs) o.qty x → x.account ≠ o.account
  | .cancel account orderId => ∀ x ∈ e.book.live, x.id = orderId → x.account ≠ account
  | .liquidate _ account => ∀ x ∈ e.book.live, x.account ≠ account
  | .freezeAccount _ => True

instance {M K : Type} [DecidableEq K] [Arena M K] (e : MatchingEngine M K) (cmd : SequencedCommand) :
    Decidable (e.CancelsNothing cmd) :=
  match cmd with
  | ⟨_, seq, tsNs, .newOrder o⟩ => inferInstanceAs (Decidable (e.riskResult o = .ok () → ¬ e.book.Refuses o →
      ∀ x ∈ e.book.live, e.book.Reaches (o.aggressor seq tsNs) o.qty x → x.account ≠ o.account))
  | ⟨_, _, _, .cancel account orderId⟩ =>
    inferInstanceAs (Decidable (∀ x ∈ e.book.live, x.id = orderId → x.account ≠ account))
  | ⟨_, _, _, .liquidate _ account⟩ => inferInstanceAs (Decidable (∀ x ∈ e.book.live, x.account ≠ account))
  | ⟨_, _, _, .freezeAccount _⟩ => isTrue trivial

/-- Every command of a run meets `P` in the state that finds it. -/
def MatchingEngine.EveryStep {M K : Type} [DecidableEq K] [Arena M K] (env : Env)
    (P : MatchingEngine M K → SequencedCommand → Prop) : MatchingEngine M K → List MatchingEngine.Input → Prop
  | _, [] => True
  | e, i :: is => P (e.atInput i) i.cmd ∧
      ∀ e', (e.atInput i).handleCommand env i.cmd = some e' → EveryStep env P e' is

instance instDecidableEveryStep {M K : Type} [DecidableEq K] [Arena M K] (env : Env)
    (P : MatchingEngine M K → SequencedCommand → Prop) [∀ e cmd, Decidable (P e cmd)] :
    ∀ e is, Decidable (MatchingEngine.EveryStep env P e is)
  | _, [] => isTrue trivial
  | e, i :: is =>
    match h : (e.atInput i).handleCommand env i.cmd with
    | none => decidable_of_iff (P (e.atInput i) i.cmd) ⟨fun hp => ⟨hp, fun _ he => nomatch h.symm.trans he⟩, And.left⟩
    | some e₁ =>
      have := instDecidableEveryStep env P e₁ is
      decidable_of_iff (P (e.atInput i) i.cmd ∧ MatchingEngine.EveryStep env P e₁ is)
        (and_congr_right fun _ => ⟨fun hs _ he => Option.some.inj (h.symm.trans he) ▸ hs, fun hs => hs e₁ h⟩)

/-- An event that is published as what it does to the open orders. -/
def EngineEvent.Shown : EngineEvent → Prop
  | .trade t => t.makerOrder = t.makerOrderId
  | .accepted _ => True
  | .rejected _ => True
  | .bookTop _ => True
  | _ => False

namespace Proof.Engine

open Proof.Book

/-! ## The quantities, from the published events -/

theorem qtys_put (m : OpenOrders) (id : OrderId) (o : OpenOrder) :
    OpenOrders.qtys (m.put id o) = Ledger.put m.qtys id o.qty := by
  funext i
  simp only [OpenOrders.qtys, Ledger.put, Function.update_apply]
  split <;> rfl

theorem qtys_cut (m : OpenOrders) (id : OrderId) (qty : Qty) :
    OpenOrders.qtys (m.cut id fun o => o.reduce qty) =
      Ledger.cut m.qtys id fun q => if q.raw - qty.raw = 0 then none else some ⟨q.raw - qty.raw⟩ := by
  funext i
  simp only [OpenOrders.qtys, Ledger.cut, Function.update_apply]
  split
  · cases m id with
    | none => rfl
    | some o =>
      simp only [Option.bind_some, Option.map_some, OpenOrder.reduce]
      split <;> rfl
  · rfl

theorem qtys_apply (m : OpenOrders) {ev : EngineEvent} (h : ev.Shown) :
    (m.apply ev).qtys = OpenQtys.replay m.qtys (mapEngineEvent ev).toList := by
  cases ev with
  | trade t =>
    show OpenOrders.qtys (m.cut t.makerOrderId _) = Ledger.cut m.qtys t.makerOrder _
    rw [qtys_cut, show t.makerOrder = t.makerOrderId from h]
  | accepted e => exact qtys_put m e.orderId _
  | rejected | bookTop => rfl
  | _ => exact h.elim

theorem openQtys_replay_append (m : OpenQtys) (evs evs' : List Event) :
    m.replay (evs ++ evs') = (m.replay evs).replay evs' := List.foldl_append

/-- What the published events do to the quantities is what the book's events
do to the open orders. -/
theorem qtys_replay (m : OpenOrders) {evs : List EngineEvent} (h : ∀ ev ∈ evs, ev.Shown) :
    (m.replay evs).qtys = OpenQtys.replay m.qtys (evs.filterMap mapEngineEvent) := by
  induction evs generalizing m with
  | nil => rfl
  | cons ev evs ih =>
    obtain ⟨hev, hevs⟩ := List.forall_mem_cons.mp h
    show ((m.apply ev).replay evs).qtys = _
    rw [ih (m.apply ev) hevs, qtys_apply m hev, ← openQtys_replay_append]
    cases hmap : mapEngineEvent ev <;> simp [hmap]

theorem filterMap_tops {tops : List EngineEvent} (h : ∀ e ∈ tops, e.isBookTop = true) :
    tops.filterMap mapEngineEvent = [] := by
  refine List.filterMap_eq_nil_iff.mpr fun ev hev => ?_
  have := h ev hev
  cases ev with
  | bookTop => rfl
  | _ => cases this

theorem shown_append {evs evs' : List EngineEvent} (h : ∀ ev ∈ evs, ev.Shown) (h' : ∀ ev ∈ evs', ev.Shown) :
    ∀ ev ∈ evs ++ evs', ev.Shown := fun ev hev => (List.mem_append.mp hev).elim (h ev) (h' ev)

theorem shown_singleton {ev : EngineEvent} (h : ev.Shown) : ∀ ev' ∈ [ev], ev'.Shown := List.forall_mem_singleton.mpr h

variable {M K : Type} [DecidableEq K] [Arena M K]

variable {c : RefConfig} {b b₀ : OrderBook M K} {r : RefBook} {m : OpenOrders} {env : Env} {e e' : MatchingEngine M K}

/-! ## Commands that cancel nothing -/

theorem qtys_newOrderIf (h : Sim c b r) {seq tsNs : UInt64} {o : InboundNewOrder} (hseq : Below r seq)
    (hm : Told m (ordersFrom r .buy))
    (hown : ¬ b.Refuses o → ∀ x ∈ b.live, b.Reaches (o.aggressor seq tsNs) o.qty x → x.account ≠ o.account) {f : Bool}
    (hf : b.canFullyFill o.side o.price o.qty o.account o.orderType = some f) :
    (m.replay (r.newOrderIf c seq tsNs o f).2).qtys =
      OpenQtys.replay m.qtys ((r.newOrderIf c seq tsNs o f).2.filterMap mapEngineEvent) := by
  by_cases hr : b.Refuses o
  · obtain ⟨rej, hrej⟩ := newOrderIf_refused h hf hr seq tsNs
    rw [hrej]
    exact qtys_replay m (shown_singleton trivial)
  have hshown : ∀ {qty' evs}, Swept (o.aggressor seq tsNs) (r.side o.side.opposite) o.qty
      ((r.afterSweep seq tsNs o).side o.side.opposite) qty' evs → ∀ ev ∈ evs, ev.Shown := fun hw ev hev => by
    obtain ⟨x, q, fill, rfl⟩ := trades_of_reaches h (hown hr) hw ev hev
    rfl
  have hout := newOrderIf_outcome c r seq tsNs o f
  generalize r.newOrderIf c seq tsNs o f = res at hout ⊢
  rcases hout with rej | hw | ⟨hw, ⟨rej, rfl⟩ | rfl⟩ | ⟨hw, he⟩
  · exact qtys_replay m (shown_singleton trivial)
  · exact qtys_replay m (hshown hw)
  · exact qtys_replay m (shown_append (hshown hw) (shown_singleton trivial))
  · -- the remainder of the order itself, which never rested
    have hdrop := Ledger.drop_eq_self (afterSweep_told h hseq hm hw).2
    rw [replay_append, List.filterMap_append, show List.filterMap mapEngineEvent [EngineEvent.cancelled seq ⟨seq⟩] = [] from
      rfl, List.append_nil, ← qtys_replay m (hshown hw)]
    exact congrArg OpenOrders.qtys hdrop
  · exact qtys_replay m (shown_append (hshown hw) (shown_singleton trivial))

/-- A cancel of an order that the account does not have is refused. -/
theorem cancel_refused (h : Sim c b r) (seq : UInt64) {account : AccountId} {orderId : OrderId}
    (hno : ∀ x ∈ b.live, x.id = orderId → x.account ≠ account) :
    ∃ rej, r.cancel seq account orderId = (r, [.rejected rej]) := by
  unfold RefBook.cancel
  split
  · exact ⟨_, rfl⟩
  · rename_i o ho
    have hmem := h.mem_live.mpr (RefBook.mem_sides.mp (List.mem_of_find?_eq_some ho))
    have hid := List.find?_some ho
    rw [if_neg (hno o hmem (of_decide_eq_true hid))]
    exact ⟨_, rfl⟩

theorem openOrderIds_nil {account : AccountId} (hno : ∀ x ∈ b.live, x.account ≠ account) :
    b.openOrderIdsForAccount account = [] := by
  rw [OrderBook.openOrderIdsForAccount, List.map_eq_nil_iff, List.filter_eq_nil_iff]
  intro ro hro
  have hne : ro.account ≠ account := hno ro.data (List.mem_map_of_mem hro)
  simpa using hne

/-- The engine's book holds the orders of `r`, and both published streams tell
their quantities. -/
structure InStep (c : RefConfig) (e : MatchingEngine M K) (r : RefBook) (m : OpenOrders) : Prop where
  sim : Sim c e.book r
  told : Told m (ordersFrom r .buy)
  same : e.outbound = e.wal
  qtys : OpenQtys.empty.replay e.wal = m.qtys

/-- Events that are told, and published as they are told. -/
theorem InStep.publish {r' : RefBook} {evs : List EngineEvent} {out : List Event} (h : InStep c e r m)
    (hsim : Sim c e'.book r') (htold : Told (m.replay evs) (ordersFrom r' .buy)) (hpub : Publishes e e' out)
    (hout : (m.replay evs).qtys = OpenQtys.replay m.qtys out) : InStep c e' r' (m.replay evs) where
  sim := hsim
  told := htold
  same := by rw [hpub.outbound, hpub.wal, h.same]
  qtys := by rw [hpub.wal, openQtys_replay_append, h.qtys, hout]

/-- What rests in `r'` rested in `r`, or came with the command. -/
def Ages (cmd : SequencedCommand) (r r' : RefBook) : Prop :=
  ∀ n, Below r n → (∀ seq ∈ cmd.newOrderSeq, seq < n) → Below r' n

theorem Ages.refl (cmd : SequencedCommand) (r : RefBook) : Ages cmd r r := fun _ h _ => h

/-- A command that goes to the book, its events published by `g`. -/
theorem InStep.apply (h : InStep c e r m) {cmd : SequencedCommand} (hseq : ∀ n ∈ cmd.newOrderSeq, Below r n)
    {g : MatchingEngine M K → EngineEvent → MatchingEngine M K}
    (hquiet : ∀ e ev, Quiet e (g e ev)) (hg : ∀ e ev, Publishes e (g e ev) (mapEngineEvent ev).toList)
    (hqtys : ∀ f, (∀ o, cmd.cmd = .newOrder o → e.book.canFullyFill o.side o.price o.qty o.account o.orderType = some f) →
      (m.replay (r.applyIf c cmd f).2).qtys =
        OpenQtys.replay m.qtys ((r.applyIf c cmd f).2.filterMap mapEngineEvent)) :
    ∃ book evs r' m', e.book.apply cmd = some (book, evs) ∧ InStep c (evs.foldl g { e with book }) r' m' ∧
      Ages cmd r r' := by
  obtain ⟨book, evs, f, hb, ⟨tops, rfl, htops⟩, hsim, -, hf⟩ := apply_ok h.sim cmd hseq
  have hpub := Publishes.foldl hg { e with book } ((r.applyIf c cmd f).2 ++ tops)
  have hbook := (Quiet.foldl hquiet { e with book } ((r.applyIf c cmd f).2 ++ tops)).book
  rw [List.filterMap_append, filterMap_tops htops, List.append_nil] at hpub
  refine ⟨book, _, (r.applyIf c cmd f).1, _, hb, h.publish ?_ (applyIf_told h.sim cmd hseq f h.told) ⟨hpub.wal, hpub.outbound⟩
    (hqtys f hf), fun n hn hcmd => hn.applyIf cmd f hcmd⟩
  rw [hbook]
  exact hsim

theorem handleCommand_ok (henv : env.Healthy) (h : InStep c e r m) {cmd : SequencedCommand}
    (hseq : ∀ n ∈ cmd.newOrderSeq, Below r n) (hkeep : e.CancelsNothing cmd) :
    ∃ e' r' m', e.handleCommand env cmd = some e' ∧ InStep c e' r' m' ∧ Ages cmd r r' := by
  unfold MatchingEngine.CancelsNothing at hkeep
  unfold MatchingEngine.handleCommand
  split
  · exact ⟨_, r, m, rfl, ⟨h.sim, h.told, h.same, h.qtys⟩, Ages.refl cmd r⟩
  rcases hc : cmd.cmd with o | ⟨account, orderId⟩ | ⟨symbol, account⟩ | account <;> simp only [hc] at hkeep ⊢
  · cases hrisk : e.riskResult o with
    | ok u =>
      have hnew : ∀ f, r.applyIf c cmd f = r.newOrderIf c cmd.seq cmd.tsNs o f := fun f => by
        rw [RefBook.applyIf, hc]
      have hbelow : Below r cmd.seq := hseq cmd.seq (newOrderSeq_of_newOrder hc)
      obtain ⟨book, evs, r', m', hb, h', hages⟩ := h.apply hseq
        (quiet_trackPrice_publishEvent env) (trackPrice_publishEvent_ok henv)
        fun f hf => by rw [hnew]; exact qtys_newOrderIf h.sim hbelow h.told (hkeep hrisk) (hf o hc)
      exact ⟨_, r', m', by rw [hb]; rfl, h', hages⟩
    | error reason =>
      refine ⟨_, r, m, rfl, ?_, Ages.refl cmd r⟩
      refine InStep.publish h ?_ (show Told (m.replay []) _ from h.told) (publishAndLog_ok henv e _) rfl
      rw [(quiet_publishAndLog env e _).book]
      exact h.sim
  · obtain ⟨rej, hrej⟩ := cancel_refused h.sim cmd.seq hkeep
    have hcancel : ∀ f, r.applyIf c cmd f = (r, [.rejected rej]) := fun f => by
      rw [RefBook.applyIf, hc]
      exact hrej
    obtain ⟨book, evs, r', m', hb, h', hages⟩ := h.apply hseq (quiet_publishEvent env) (publishEvent_ok henv)
      fun f _ => by rw [hcancel]; exact qtys_replay m (shown_singleton trivial)
    exact ⟨_, r', m', by rw [MatchingEngine.applyAndPublish, hb]; rfl, h', hages⟩
  · rw [openOrderIds_nil hkeep]
    exact ⟨e, r, m, rfl, h, Ages.refl cmd r⟩
  · exact ⟨_, r, m, rfl, ⟨h.sim, h.told, h.same, h.qtys⟩, Ages.refl cmd r⟩

/-! ## Runs -/

theorem run_inStep (henv : env.Healthy) (h : InStep c e r m) {is : List MatchingEngine.Input}
    (hinc : Increasing (is.map MatchingEngine.Input.cmd)) (hfresh : Fresh r (is.map MatchingEngine.Input.cmd))
    (hkeep : MatchingEngine.EveryStep env MatchingEngine.CancelsNothing e is) :
    ∃ e' r' m', e.run env is = some e' ∧ InStep c e' r' m' := by
  induction is generalizing e r m with
  | nil => exact ⟨e, r, m, rfl, h⟩
  | cons i is ih =>
    have h₀ : InStep c (e.atInput i) r m := ⟨h.sim, h.told, h.same, h.qtys⟩
    obtain ⟨e₁, r₁, m₁, he₁, h₁, hages⟩ := handleCommand_ok henv h₀ hfresh.head hkeep.1
    obtain ⟨e', r', m', he', h'⟩ := ih h₁ (Increasing.tail hinc) (hfresh.step hinc hages) (hkeep.2 e₁ he₁)
    exact ⟨e', r', m', by rw [MatchingEngine.run, he₁]; exact he', h'⟩

/-- The table holds the ids and the quantities of the resting orders. -/
def HoldsQtys (m : OpenQtys) (b : OrderBook M K) : Prop :=
  ∀ id q, m id = some q ↔ ∃ k ro, get? b.arena k = some ro ∧ ro.id = id ∧ ro.qtyRemaining = q

theorem holdsQtys_of_holds (h : HoldsOpenOrders m b) : HoldsQtys m.qtys b := by
  intro id q
  rw [OpenOrders.qtys, Option.map_eq_some_iff]
  refine ⟨fun ⟨v, hv, hq⟩ => ?_, fun ⟨k, ro, hro, hid, hq⟩ => ⟨ro.openOrder, (h id _).mpr ⟨k, ro, hro, hid, rfl⟩, hq⟩⟩
  obtain ⟨k, ro, hro, hid, rfl⟩ := (h id v).mp hv
  exact ⟨k, ro, hro, hid, hq⟩

/-- In a run in which no command cancels a resting order, replaying what was
logged, which is what was published, gives the open orders of the book. -/
theorem openQtys_run {cfg : BookConfig} (hnew : OrderBook.new cfg = some b₀) (limits : Tier0Limits)
    (risk : AccountRiskTable) (henv : env.Healthy) {is : List MatchingEngine.Input}
    (hinc : Increasing (is.map MatchingEngine.Input.cmd))
    (hkeep : MatchingEngine.EveryStep env MatchingEngine.CancelsNothing (MatchingEngine.new limits b₀ risk) is) :
    ∃ e, (MatchingEngine.new limits b₀ risk).run env is = some e ∧ e.outbound = e.wal ∧
      HoldsQtys (OpenQtys.empty.replay e.wal) e.book := by
  have h₀ : InStep b₀.refConfig (MatchingEngine.new limits b₀ risk) RefBook.empty OpenOrders.empty :=
    ⟨(new_ok hnew).1, Ledger.Tracks.empty, rfl, rfl⟩
  obtain ⟨e, r, m, he, h⟩ := run_inStep henv h₀ hinc (fun _ _ s x hx => by cases s <;> cases hx) hkeep
  refine ⟨e, he, h.same, ?_⟩
  rw [h.qtys]
  exact holdsQtys_of_holds (h.told.holds h.sim)

/-- Appends succeed and the rings have room. -/
def idealEnv : Env := ⟨fun _ => true, fun _ => true, fun _ => true⟩

theorem idealEnv_healthy : idealEnv.Healthy := ⟨fun _ => rfl, fun _ => rfl⟩

/-- Commands between which the risk shards write nothing. -/
def undisturbed (cmds : List SequencedCommand) : List MatchingEngine.Input := cmds.map fun cmd => ⟨id, cmd⟩

def demoBook : OrderBook SlotArena SlotKey := (OrderBook.new demoConfig).get rfl

theorem new_demoBook : OrderBook.new demoConfig = some demoBook := (Option.some_get rfl).symm

def demoEngine : MatchingEngine SlotArena SlotKey :=
  MatchingEngine.new .default demoBook (AccountRiskTable.new 16)

theorem openQtys_run_demo : ∃ e, demoEngine.run idealEnv (undisturbed (demoCommands.take 3)) = some e ∧
    e.outbound = e.wal ∧ HoldsQtys (OpenQtys.empty.replay e.wal) e.book :=
  openQtys_run new_demoBook .default (AccountRiskTable.new 16) idealEnv_healthy (by decide) (by decide)

/-- An order that rests and is then cancelled. -/
def ghostCommands : List SequencedCommand :=
  demoCommands.take 1 ++ [{ term := 1, seq := 2, tsNs := 0, cmd := .cancel ⟨10⟩ ⟨1⟩ }]

theorem run_ghostCommands : (demoEngine.run idealEnv (undisturbed ghostCommands)).isSome = true := rfl

def ghostEngine : MatchingEngine SlotArena SlotKey := Option.get _ run_ghostCommands

/-- The cancelled order has left the book, but not the published stream. -/
theorem openQtys_run_ghost : Increasing ghostCommands ∧ (∀ cmd ∈ ghostCommands, 1 ≤ cmd.seq) ∧ idealEnv.Healthy ∧
    ∃ e, demoEngine.run idealEnv (undisturbed ghostCommands) = some e ∧ e.outbound = e.wal ∧
      ¬ HoldsQtys (OpenQtys.empty.replay e.wal) e.book := by
  refine ⟨by decide, by decide, idealEnv_healthy, ghostEngine, (Option.some_get _).symm, rfl, ?_⟩
  intro h
  have hopen : OpenQtys.empty.replay ghostEngine.wal ⟨1⟩ = some ⟨5⟩ := rfl
  have hgone : keys ghostEngine.book.arena = [] := rfl
  obtain ⟨k, ro, hro, -⟩ := (h ⟨1⟩ ⟨5⟩).mp hopen
  have hk : k ∈ keys ghostEngine.book.arena := mem_keys.mpr (by rw [hro]; rfl)
  rw [hgone] at hk
  cases hk

end Proof.Engine

end MRE
