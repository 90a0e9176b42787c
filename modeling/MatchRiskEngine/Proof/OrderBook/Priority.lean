import MatchRiskEngine.Proof.OrderBook.EventSourcing
import MatchRiskEngine.Proof.OrderBook.Ids
import MatchRiskEngine.Proof.OrderBook.OrderLife

/-!
# Price-time priority

In every run, each trade of a new order is with the resting order whose turn it
is, at that order's price, and an order is left with a quantity only when no
resting order would trade with it (`trades_inTurn`). The sweep passes over the
orders one by one (`Swept.inTurn`), and what rests is what the commands brought
(`run_cameWith`).
-/

namespace MRE

open SlotMap

/-! ## The sweep -/

section Sweep

variable {a : Aggressor} {os os' done : List RefOrder} {qty qty' : Qty} {evs before : List EngineEvent} {x : RefOrder}

theorem Aggressor.PassedOver.mono (h : a.PassedOver before x) (evs : List EngineEvent) :
    a.PassedOver (before ++ evs) x := by
  unfold Aggressor.PassedOver at h ⊢
  by_cases hacct : x.account = a.account
  · rw [if_pos hacct] at h ⊢
    exact List.mem_append_left _ h
  · rw [if_neg hacct] at h ⊢
    obtain ⟨t, ht, h⟩ := h
    exact ⟨t, List.mem_append_left _ ht, h⟩

theorem passedOver_concat_own (hacct : x.account = a.account) (before : List EngineEvent) :
    a.PassedOver (before ++ [.cancelled a.seq x.id]) x := by
  rw [Aggressor.PassedOver, if_pos hacct]
  exact List.mem_append_right _ List.mem_cons_self

theorem passedOver_concat_trade (hacct : x.account ≠ a.account) (before : List EngineEvent) (qty : Qty) :
    a.PassedOver (before ++ [a.tradeWith x qty x.qty]) x := by
  rw [Aggressor.PassedOver, if_neg hacct]
  exact ⟨_, List.mem_append_right _ List.mem_cons_self, rfl, rfl, UInt64.sub_self _⟩

theorem passedOver_concat {e : EngineEvent} (hdone : ∀ y ∈ done, a.PassedOver before y)
    (hx : a.PassedOver (before ++ [e]) x) : ∀ y ∈ done ++ [x], a.PassedOver (before ++ [e]) y := by
  intro y hy
  rcases List.mem_append.mp hy with hy | hy
  · exact (hdone y hy).mono _
  · rw [List.mem_singleton.mp hy]
    exact hx

theorem mem_done_of_ahead {s : Side} {y : RefOrder} (hs : (done ++ x :: os).Pairwise (RefOrder.ahead s))
    (hy : y ∈ done ++ x :: os) (hahead : y.ahead s x) : y ∈ done := by
  rcases List.mem_append.mp hy with hy | hy
  · exact hy
  rcases List.mem_cons.mp hy with rfl | hy
  · exact absurd hahead (RefOrder.ahead_irrefl s y)
  · have hbehind := (List.pairwise_cons.mp (List.pairwise_append.mp hs).2.1).1 y hy
    exact absurd (RefOrder.ahead_trans hahead hbehind) (RefOrder.ahead_irrefl s y)

theorem tradeWith_inTurn {fill : Qty} {t : EngineEvent.Trade}
    (hs : (done ++ x :: os).Pairwise (RefOrder.ahead a.side.opposite))
    (hside : ∀ y ∈ done ++ x :: os, y.side = a.side.opposite) (hdone : ∀ y ∈ done, a.PassedOver before y)
    (hx : a.crosses x.price = true) (hacct : x.account ≠ a.account) (hfill : fill.raw ≤ x.qty.raw)
    (ht : a.tradeWith x qty fill = .trade t) : ∃ y, t.InTurn (done ++ x :: os) a before y := by
  have hmem : x ∈ done ++ x :: os := List.mem_append_right _ List.mem_cons_self
  have hxs := hside x hmem
  cases ht
  refine ⟨x, hmem, ⟨hxs, hxs.symm⟩, ⟨rfl, rfl⟩, ⟨rfl, rfl⟩, hacct, ⟨rfl, hx⟩, hfill, fun y hy _ hahead => ?_⟩
  rw [hxs] at hahead
  exact hdone y (mem_done_of_ahead hs hy hahead)

/-- The sweep comes to the orders one after the other: those of `done` have
been dealt with. -/
theorem Swept.inTurn (h : Swept a os qty os' qty' evs) (done : List RefOrder)
    (hs : (done ++ os).Pairwise (RefOrder.ahead a.side.opposite))
    (hside : ∀ y ∈ done ++ os, y.side = a.side.opposite) (hdone : ∀ y ∈ done, a.PassedOver before y) :
    AllTrades (fun pre t => ∃ x, t.InTurn (done ++ os) a pre x) before evs := by
  induction h generalizing done before with
  | nil | stop => exact trivial
  | @own o os os' qty qty' evs _ _ hacct _ ih =>
    refine ⟨fun t e => (by cases e), ?_⟩
    rw [List.append_cons] at hs hside ⊢
    exact ih _ hs hside (passedOver_concat hdone (passedOver_concat_own hacct before))
  | @full o os os' qty qty' evs _ hx hacct _ _ ih =>
    refine ⟨fun t e => tradeWith_inTurn hs hside hdone hx hacct (UInt64.le_refl _) e, ?_⟩
    rw [List.append_cons] at hs hside ⊢
    exact ih _ hs hside (passedOver_concat hdone (passedOver_concat_trade hacct before qty))
  | part os _ hx hacct hlt =>
    exact ⟨fun t e => tradeWith_inTurn hs hside hdone hx hacct (UInt64.le_of_lt hlt) e, trivial⟩

end Sweep

namespace Proof.Book

/-! ## A new order -/

/-- A new order is refused, or it sweeps the other side, and then no more
trades follow. -/
theorem newOrderIf_swept (c : RefConfig) (r : RefBook) (seq tsNs : UInt64) (o : InboundNewOrder) (f : Bool) :
    (∃ rej, r.newOrderIf c seq tsNs o f = (r, [.rejected rej]) ∧ rej.reason ∈ RejectReason.beforeMatching) ∨
      ∃ left evs tail, Swept (o.aggressor seq tsNs) (r.side o.side.opposite) o.qty
          ((r.newOrderIf c seq tsNs o f).1.side o.side.opposite) left evs ∧
        (r.newOrderIf c seq tsNs o f).2 = evs ++ tail ∧ ∀ e ∈ tail, ∀ t, e ≠ .trade t := by
  have hw := swept (o.aggressor seq tsNs) (r.side o.side.opposite) o.qty
  have hside := RefBook.side_setSide r o.side.opposite
    (RefBook.sweep (o.aggressor seq tsNs) (r.side o.side.opposite) o.qty).1
  have hnone : ∀ {e : EngineEvent}, (∀ t, e ≠ .trade t) → ∀ e' ∈ [e], ∀ t, e' ≠ .trade t :=
    fun he => List.forall_mem_singleton.mpr he
  simp only [RefBook.newOrderIf]
  generalize RefBook.sweep (o.aggressor seq tsNs) (r.side o.side.opposite) o.qty = sw at hw hside ⊢
  rw [← hside] at hw
  repeat' split
  · exact .inl ⟨_, rfl, by simp [RejectReason.beforeMatching]⟩
  · exact .inl ⟨_, rfl, by simp [RejectReason.beforeMatching]⟩
  · exact .inl ⟨_, rfl, by simp [RejectReason.beforeMatching]⟩
  · exact .inr ⟨sw.2.1, sw.2.2, [], hw, (List.append_nil _).symm, fun e he => absurd he List.not_mem_nil⟩
  · unfold RefBook.rest
    split
    · exact .inr ⟨sw.2.1, sw.2.2, _, hw, rfl, hnone fun t ht => by cases ht⟩
    · refine .inr ⟨sw.2.1, sw.2.2, _, ?_, rfl, hnone fun t ht => by cases ht⟩
      rw [RefBook.side_setSide_ne _ (Side.opposite_ne o.side)]
      exact hw
  · exact .inr ⟨sw.2.1, sw.2.2, _, hw, rfl, hnone fun t ht => by cases ht⟩
  · exact .inr ⟨sw.2.1, sw.2.2, _, hw, rfl, hnone fun t ht => by cases ht⟩

variable {M K : Type} [DecidableEq K] [Arena M K]

variable {c : RefConfig} {b b₀ : OrderBook M K} {r : RefBook} {cmd : SequencedCommand} {cmds : List SequencedCommand}
  {o : InboundNewOrder} {a : Aggressor} {cfg : BookConfig}

theorem Sim.inTurn (h : Sim c b r) {pre : List EngineEvent} {t : EngineEvent.Trade} {x : RefOrder}
    (ht : t.InTurn (r.side a.side.opposite) a pre x) : t.InTurn b.live a pre x := by
  obtain ⟨Q, -, hl⟩ := id h
  refine ⟨h.mem_live.mpr ⟨_, ht.mem⟩, ht.side, ht.maker, ht.taker, ht.others, ht.price, ht.qty,
    fun y hy hys hahead => ht.ahead y ?_ hys hahead⟩
  obtain ⟨s, hy⟩ := h.mem_live.mp hy
  have hs := (hl.mem.mp hy).1
  rw [hys, ht.side.1] at hs
  rwa [hs]

theorem AllTrades.append_none {P : List EngineEvent → EngineEvent.Trade → Prop} {evs tail : List EngineEvent}
    (h : AllTrades P [] evs) (htail : ∀ e ∈ tail, ∀ t, e ≠ .trade t) : AllTrades P [] (evs ++ tail) :=
  allTrades_append.mpr ⟨h, allTrades_of_none htail⟩

theorem tradedQty_append_none {evs tail : List EngineEvent} (htail : ∀ e ∈ tail, ∀ t, e ≠ .trade t) :
    tradedQty (evs ++ tail) = tradedQty evs := by
  have hzero : ∀ n ∈ tail.map EngineEvent.tradedQty, n = 0 := by
    intro n hn
    obtain ⟨e, he, rfl⟩ := List.mem_map.mp hn
    cases e with
    | trade t => exact absurd rfl (htail _ he t)
    | _ => rfl
  rw [tradedQty, List.map_append, List.sum_append, List.sum_eq_zero_iff_forall_eq_nat.mpr hzero, Nat.add_zero]
  rfl

theorem ne_trade_of_isBookTop {tops : List EngineEvent} (h : ∀ e ∈ tops, e.isBookTop = true) :
    ∀ e ∈ tops, ∀ t, e ≠ .trade t := by
  rintro e he t rfl
  cases h _ he

theorem Sim.newOrder_inTurn (h : Sim c b r) (hc : cmd.cmd = .newOrder o) (hseq : ∀ seq ∈ cmd.newOrderSeq, Below r seq) :
    ∃ b' evs, b.apply cmd = some (b', evs) ∧
      AllTrades (fun pre t => ∃ x, t.InTurn b.live (o.aggressor cmd.seq cmd.tsNs) pre x) [] evs ∧
      Exhausted o (o.aggressor cmd.seq cmd.tsNs) evs b'.live := by
  obtain ⟨b', evs, f, e, ⟨tops, rfl, htops⟩, h', -⟩ := apply_ok h cmd hseq
  obtain ⟨Q, -, hl⟩ := id h
  obtain ⟨Q', -, hl'⟩ := id h'
  have htops := ne_trade_of_isBookTop htops
  have hif : r.applyIf c cmd f = r.newOrderIf c cmd.seq cmd.tsNs o f := by simp only [RefBook.applyIf, hc]
  rw [hif] at e h' hl'
  refine ⟨b', _, e, ?_⟩
  rcases newOrderIf_swept c r cmd.seq cmd.tsNs o f with ⟨rej, hrej, hreason⟩ | ⟨left, evs, tail, hw, hevs, htail⟩
  · rw [hrej]
    exact ⟨⟨fun t e => (by cases e), allTrades_of_none htops⟩, .inl ⟨rej, List.mem_cons_self, hreason⟩⟩
  · have hsorted := hl.sorted o.side.opposite
    rw [hevs]
    refine ⟨AllTrades.append_none (AllTrades.append_none ?_ htail) htops, ?_⟩
    · refine (hw.inTurn [] hsorted (fun y hy => (hl.mem.mp hy).1) fun y hy => absurd hy List.not_mem_nil).mono ?_
      rintro pre t ⟨x, hx⟩
      exact ⟨x, h.inTurn hx⟩
    · have htraded := hw.traded
      rw [← tradedQty_append_none htail, ← tradedQty_append_none htops] at htraded
      by_cases hz : left.raw = 0
      · rw [hz, UInt64.toNat_zero, Nat.zero_add] at htraded
        exact .inr (.inl htraded)
      · refine .inr (.inr fun y hy hys => ?_)
        obtain ⟨s, hy⟩ := h'.mem_live.mp hy
        have hs := (hl'.mem.mp hy).1
        rw [hys] at hs
        rw [← hs] at hy
        exact hw.not_crosses (Aggressor.falls_of_ahead hsorted) hz y hy

/-! ## Runs -/

theorem mem_live_iff {x : RefOrder} : x ∈ b.live ↔ ∃ k, dataOf b.arena k = some x := by
  rw [OrderBook.live, values, List.map_filterMap, List.mem_filterMap]
  constructor
  · rintro ⟨k, -, hk⟩
    exact ⟨k, hk⟩
  · rintro ⟨k, hk⟩
    refine ⟨k, mem_keys.mpr ?_, hk⟩
    rw [← dataOf_isSome]
    exact Option.isSome_of_eq_some hk

/-- What rests after a run came with one of its commands. -/
theorem run_cameWith {evss : List (List EngineEvent)} (hnew : OrderBook.new cfg = some b₀)
    (hrun : b₀.run cmds = some (b, evss)) : ∀ x ∈ b.live, x.CameWith cmds := by
  intro x hx
  obtain ⟨k, hk⟩ := mem_live_iff.mp hx
  obtain ⟨Q, hb₀⟩ := new_valid hnew
  refine hb₀.run_live (P := RefOrder.CameWith cmds) (fun e hy => ?_) (fun k x hx => ?_) hrun
    (fun cmd hin o qty hc => ⟨cmd, hin, o, hc, rfl, rfl, rfl, rfl, rfl⟩) k x hk
  · rw [e]
    exact hy
  · obtain ⟨o, ho, rfl⟩ := get?_of_dataOf hx
    exact absurd ((new_ids (S := fun _ => False) hnew).arena k o ho) id

/-- The orders that rest after a run are older than one that comes later. -/
theorem new_run (hnew : OrderBook.new cfg = some b₀) (hinc : Increasing cmds) :
    ∃ b evss r, b₀.run cmds = some (b, evss) ∧ Sim b₀.refConfig b r ∧
      ∀ cmd, Increasing (cmds ++ [cmd]) → ∀ seq ∈ cmd.newOrderSeq, Below r seq := by
  obtain ⟨b, evss, r, refs, e, -, -, h, -⟩ := run_ok (new_ok hnew).1 hinc fun _ _ s x hx => by
    cases s <;> cases hx
  refine ⟨b, evss, r, e, h, fun cmd hinc seq hseq s x hx => ?_⟩
  obtain ⟨cmd₀, hin, o, hc, -, hx, -⟩ := run_cameWith hnew e x (h.mem_live.mpr ⟨s, hx⟩)
  rw [hx]
  exact Increasing.lt_last hinc hin (newOrderSeq_of_newOrder hc) hseq

/-- At every new order of a run: the orders that rest came with earlier commands,
each trade is with the one whose turn it is and at its price, and a quantity is
left only if no resting order would trade with it. -/
theorem trades_inTurn (hnew : OrderBook.new cfg = some b₀) (hinc : Increasing (cmds ++ [cmd]))
    (hc : cmd.cmd = .newOrder o) :
    ∃ b evss b' evs, b₀.run cmds = some (b, evss) ∧ b.apply cmd = some (b', evs) ∧
      (∀ x ∈ b.live, x.CameWith cmds) ∧
      (∀ pre t post, evs = pre ++ .trade t :: post → ∃ x, t.InTurn b.live (o.aggressor cmd.seq cmd.tsNs) pre x) ∧
      Exhausted o (o.aggressor cmd.seq cmd.tsNs) evs b'.live := by
  obtain ⟨b, evss, r, e, h, hlater⟩ := new_run hnew (Increasing.init hinc)
  obtain ⟨b', evs, e', htrades, hexhausted⟩ := h.newOrder_inTurn hc (hlater cmd hinc)
  exact ⟨b, evss, b', evs, e, e', run_cameWith hnew e, fun pre t post => htrades.at, hexhausted⟩

/-- The buyer of the demonstration run, after the two sellers. -/
theorem trades_inTurn_demo : ∃ (b₀ b b' : OrderBook SlotArena SlotKey)
    (evss : List (List EngineEvent)) (evs : List EngineEvent) (cmd : SequencedCommand) (o : InboundNewOrder),
    OrderBook.new demoConfig = some b₀ ∧ demoCommands[2]? = some cmd ∧ cmd.cmd = .newOrder o ∧
      b₀.run (demoCommands.take 2) = some (b, evss) ∧ b.apply cmd = some (b', evs) ∧
      (∀ pre t post, evs = pre ++ .trade t :: post → ∃ x, t.InTurn b.live (o.aggressor cmd.seq cmd.tsNs) pre x) ∧
      Exhausted o (o.aggressor cmd.seq cmd.tsNs) evs b'.live := by
  obtain ⟨b₀, h₀⟩ := new_demoConfig
  obtain ⟨b, evss, b', evs, e, e', -, h⟩ := trades_inTurn h₀
    (show Increasing (demoCommands.take 2 ++ [demoCommands[2]]) by decide) rfl
  exact ⟨b₀, b, b', evss, evs, demoCommands[2], _, h₀, rfl, rfl, e, e', h⟩

end Proof.Book

end MRE
