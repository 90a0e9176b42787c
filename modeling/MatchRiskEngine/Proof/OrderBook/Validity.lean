import MatchRiskEngine.Framework.Actors
import MatchRiskEngine.Proof.OrderBook.Runs

/-!
# Books with any sequence numbers

What every command keeps of a book, whatever the sequence numbers of the
orders (`Valid`): its ladders, queues and best pointers are well formed, the
id map finds only live orders and the arena is not over its capacity. So no
command panics, and a new order has one of six outcomes (`Applied`).
-/

namespace MRE

open SlotMap

namespace Proof.Book

variable {M K : Type} [DecidableEq K] [Arena M K]

/-- The invariant of a book under any commands. -/
structure Valid (c : RefConfig) (b : OrderBook M K) (Q : Side → Nat → List K) : Prop extends Sound c b Q where
  ids : IdsLive b.idToKey (dataOf b.arena)
  room : len b.arena ≤ c.capacity

variable {c : RefConfig} {b b₁ b' : OrderBook M K} {Q : Side → Nat → List K}

theorem Shape.capacity_eq (hb : Shape c b Q) : capacity b.arena = c.capacity := congrArg RefConfig.capacity hb.config

theorem len_le_of_data {arena arena' : M} (h : ∀ k, (dataOf arena' k).isSome → (dataOf arena k).isSome) :
    len arena' ≤ len arena :=
  len_le_of_live fun k hk => by rw [← dataOf_isSome] at hk ⊢; exact h k hk

/-! ## New orders -/

/-- What becomes of a new order, with the book and the events it leaves. -/
inductive Applied (b : OrderBook M K) (seq tsNs : UInt64) (o : InboundNewOrder) :
    OrderBook M K → List EngineEvent → Prop
  | refused (h : b.Refuses o) (rej : EngineEvent.Rejected) : Applied b seq tsNs o b [.rejected rej]
  | filled {b₁ : OrderBook M K} {left : Qty} {evs : List EngineEvent} {top : EngineEvent}
      (hm : Matched b seq tsNs o b₁ left evs) (hz : left.raw = 0) (ht : b₁.bookTopEvent seq o.symbol = some top) :
      Applied b seq tsNs o b₁ (evs ++ [top])
  | cancelled {b₁ : OrderBook M K} {left : Qty} {evs : List EngineEvent} {top : EngineEvent}
      (hm : Matched b seq tsNs o b₁ left evs) (hz : left.raw ≠ 0) (hlt : left.raw < o.qty.raw)
      (ht : b₁.bookTopEvent seq o.symbol = some top) (hdrop : o.NeverRests) :
      Applied b seq tsNs o b₁ (evs ++ [.cancelled seq ⟨seq⟩, top])
  | unmatched {b₁ : OrderBook M K} {left : Qty} {evs : List EngineEvent} {top : EngineEvent}
      (hm : Matched b seq tsNs o b₁ left evs) (hz : left.raw ≠ 0) (hle : ¬ left.raw < o.qty.raw)
      (rej : EngineEvent.Rejected) (ht : b₁.bookTopEvent seq o.symbol = some top) (hdrop : o.NeverRests) :
      Applied b seq tsNs o b₁ (evs ++ [.rejected rej, top])
  | full {b₁ : OrderBook M K} {left : Qty} {evs : List EngineEvent} (hm : Matched b seq tsNs o b₁ left evs)
      (hz : left.raw ≠ 0) (hrests : ¬ o.NeverRests) (hfull : capacity b₁.arena ≤ len b₁.arena)
      (rej : EngineEvent.Rejected) : Applied b seq tsNs o b₁ (evs ++ [.rejected rej])
  | rested {b₁ b' : OrderBook M K} {left : Qty} {evs : List EngineEvent} {top : EngineEvent} {i : Nat}
      (hm : Matched b seq tsNs o b₁ left evs) (hz : left.raw ≠ 0) (hrests : ¬ o.NeverRests)
      (hroom : ¬ capacity b₁.arena ≤ len b₁.arena) (hidx : b.priceToIdx o.price = some i)
      (hrest : b₁.restRemainder seq tsNs o i left evs = some (b', evs ++ [o.accepted seq tsNs left, top]))
      (ht : b'.bookTopEvent seq o.symbol = some top) :
      Applied b seq tsNs o b' (evs ++ [o.accepted seq tsNs left, top])

theorem Valid.matched (hb : Valid c b Q) (a : Aggressor) (qty : Qty) :
    ∃ b₁ Q₁, b.matchAgainstBook a qty =
        some (b₁, (RefBook.sweep a ((queued c (dataOf b.arena) Q).side a.side.opposite) qty).2) ∧ Valid c b₁ Q₁ ∧
      queued c (dataOf b₁.arena) Q₁ = (queued c (dataOf b.arena) Q).setSide a.side.opposite
        (RefBook.sweep a ((queued c (dataOf b.arena) Q).side a.side.opposite) qty).1 ∧
      ∀ k x, dataOf b₁.arena k = some x → ∃ y, dataOf b.arena k = some y ∧ x.IsRestOf y := by
  obtain ⟨b₁, Q₁, e, hq⟩ := hb.toSound.matchAgainstBook hb.ids a qty
  refine ⟨b₁, Q₁, e, ⟨hq.sound, hq.ids, ?_⟩, hq.listed.symm, fun k x hx => hq.only hx⟩
  refine Nat.le_trans (len_le_of_data fun k hk => ?_) hb.room
  obtain ⟨x, hx⟩ := Option.isSome_iff_exists.mp hk
  obtain ⟨y, hy, -⟩ := hq.only hx
  rw [hy]
  rfl

variable {evs : List EngineEvent} {o : InboundNewOrder} {seq tsNs : UInt64} {left : Qty}

theorem Valid.of_matched (hb : Valid c b Q) (hm : Matched b seq tsNs o b₁ left evs) :
    ∃ Q₁ os, Valid c b₁ Q₁ ∧
      Swept (o.aggressor seq tsNs) ((queued c (dataOf b.arena) Q).side o.side.opposite) o.qty os left evs ∧
      queued c (dataOf b₁.arena) Q₁ = (queued c (dataOf b.arena) Q).setSide o.side.opposite os ∧
      ∀ k x, dataOf b₁.arena k = some x → ∃ y, dataOf b.arena k = some y ∧ x.IsRestOf y := by
  obtain ⟨b₂, Q₁, e, hb₁, hq, hrest⟩ := hb.matched (o.aggressor seq tsNs) o.qty
  have hw := swept (o.aggressor seq tsNs) ((queued c (dataOf b.arena) Q).side o.side.opposite) o.qty
  have he := Option.some.inj (hm.loop.symm.trans e)
  have hleft : left = _ := congrArg (fun x => x.2.1) he
  have hevs : evs = _ := congrArg (fun x => x.2.2) he
  obtain rfl : b₁ = b₂ := congrArg Prod.fst he
  refine ⟨Q₁, (RefBook.sweep (o.aggressor seq tsNs) ((queued c (dataOf b.arena) Q).side o.side.opposite) o.qty).1,
    hb₁, ?_, hq, hrest⟩
  rw [hleft, hevs]
  exact hw

/-- Matching forgets the id of an order that leaves the book, and no other. -/
theorem Valid.matched_ids (hb : Valid c b Q) (hids : IdsOk b.idToKey (dataOf b.arena))
    (hm : Matched b seq tsNs o b₁ left evs) :
    IdsOk b₁.idToKey (dataOf b₁.arena) := by
  obtain ⟨b₂, Q₁, e, hq⟩ := hb.toSound.matchAgainstBook hb.ids (o.aggressor seq tsNs) o.qty
  obtain rfl : b₁ = b₂ := congrArg Prod.fst (Option.some.inj (hm.loop.symm.trans e))
  exact hq.found hids

theorem Valid.matched_idle (hb : Valid c b Q) (hm : Matched b seq tsNs o b₁ left []) : b₁ = b ∧ left = o.qty:= by
  obtain ⟨b₂, Q₁, e, -⟩ := hb.matched (o.aggressor seq tsNs) o.qty
  have he := Option.some.inj (hm.loop.symm.trans e)
  have hnil : (RefBook.sweep (o.aggressor seq tsNs)
      ((queued c (dataOf b.arena) Q).side (o.aggressor seq tsNs).side.opposite) o.qty).2.2 = [] :=
    (congrArg (fun x => x.2.2) he).symm
  have hidle := Option.some.inj (hm.loop.symm.trans (hb.toSound.matchAgainstBook_idle hnil))
  exact ⟨congrArg Prod.fst hidle, congrArg (fun x => x.2.1) hidle⟩

/-- The remainder of an order comes to rest in a valid book. -/
theorem Valid.restRemainder (hb : Valid c b Q) (hroom : ¬ capacity b.arena ≤ len b.arena) (seq tsNs : UInt64)
    (o : InboundNewOrder) {i : Nat} (hi : c.index? o.price = some i) (hq : left.raw ≠ 0) (evs : List EngineEvent) :
    ∃ b' Q' top, b.restRemainder seq tsNs o i left evs = some (b', evs ++ [o.accepted seq tsNs left, top]) ∧
      b'.bookTopEvent seq o.symbol = some top ∧ Valid c b' Q' := by
  obtain ⟨b', k, top, e, ht, -, hk, hsound, hd, hids⟩ := hb.toSound.restRemainder hroom seq tsNs o hi hq evs
  refine ⟨b', _, top, e, ht, hsound, ?_, ?_⟩
  · rw [hd, hids]
    exact hb.ids.insert hk (o.resting seq left)
  · have hlen : len b'.arena ≤ len b.arena + 1 := len_le_succ_of_live (k := k) fun j hj => by
      rw [← dataOf_isSome] at hj ⊢
      obtain ⟨y, hy⟩ := Option.isSome_iff_exists.mp hj
      rw [hd] at hy
      rcases update_some_eq_some.mp hy with ⟨rfl, -⟩ | ⟨-, hy⟩
      · exact .inl rfl
      · exact .inr (by rw [hy]; rfl)
    have := hb.capacity_eq
    omega

theorem Valid.of_rested (hb : Valid c b Q)
    {evs evs' : List EngineEvent} (hm : Matched b seq tsNs o b₁ left evs) (hz : left.raw ≠ 0) {i : Nat}
    (hroom : ¬ capacity b₁.arena ≤ len b₁.arena) (hidx : b.priceToIdx o.price = some i)
    (hrest : b₁.restRemainder seq tsNs o i left evs = some (b', evs')) :
    ∃ k, dataOf b₁.arena k = none ∧
      dataOf b'.arena = Function.update (dataOf b₁.arena) k (some (o.resting seq left)) ∧
      b'.idToKey = Function.update b₁.idToKey ⟨seq⟩ (some k) := by
  obtain ⟨Q₁, os, hb₁, -⟩ := hb.of_matched hm
  rw [hb.priceToIdx] at hidx
  obtain ⟨b₂, k, top, e, -, -, hk, -, hd, hids⟩ := hb₁.toSound.restRemainder hroom seq tsNs o hidx hz evs
  rw [hrest] at e
  obtain rfl : b' = b₂ := congrArg Prod.fst (Option.some.inj e)
  exact ⟨k, hk, hd, hids⟩

theorem Valid.afterMatch (hb : Valid c b Q) (hm : Matched b seq tsNs o b₁ left evs) :
    ∃ b' evs' Q', b.applyNewOrder seq tsNs o = some (b', evs') ∧ Applied b seq tsNs o b' evs' ∧ Valid c b' Q' := by
  obtain ⟨Q₁, os, hb₁, -⟩ := hb.of_matched hm
  obtain ⟨top, ht, -⟩ := bookTopEvent_ok hb₁.toSound seq o.symbol
  obtain ⟨i, hi, e⟩ := hm.apply
  rw [e, OrderBook.afterMatch]
  by_cases hdone : left.raw = 0
  · rw [if_pos hdone, ht]
    exact ⟨b₁, _, Q₁, rfl, .filled hm hdone ht, hb₁⟩
  rw [if_neg hdone]
  by_cases hdrop : o.NeverRests
  · rw [if_pos hdrop, ht]
    by_cases hlt : left.raw < o.qty.raw
    · rw [if_pos hlt]
      exact ⟨b₁, _, Q₁, rfl, .cancelled hm hdone hlt ht hdrop, hb₁⟩
    · rw [if_neg hlt]
      exact ⟨b₁, _, Q₁, rfl, .unmatched hm hdone hlt _ ht hdrop, hb₁⟩
  · rw [if_neg hdrop]
    have hidx := hi ((not_neverRests_iff o).mp hdrop).1
    by_cases hfull : capacity b₁.arena ≤ len b₁.arena
    · rw [OrderBook.restRemainder, if_pos hfull]
      exact ⟨b₁, _, Q₁, rfl, .full hm hdone hdrop hfull _, hb₁⟩
    · obtain ⟨b', Q', top, hrest, ht, hb'⟩ := hb₁.restRemainder hfull seq tsNs o (by rw [← hb.priceToIdx, hidx]) hdone evs
      exact ⟨b', _, Q', hrest, .rested hm hdone hdrop hfull hidx hrest ht, hb'⟩

/-- A new order never panics, and it has one of the outcomes. -/
theorem Valid.applyNewOrder (hb : Valid c b Q) (seq tsNs : UInt64) (o : InboundNewOrder) :
    ∃ b' evs Q', b.applyNewOrder seq tsNs o = some (b', evs) ∧ Applied b seq tsNs o b' evs ∧ Valid c b' Q' := by
  by_cases hz : o.qty.raw = 0
  · exact ⟨b, _, Q, applyNewOrder_zero b seq tsNs hz, .refused (.inl hz) _, hb⟩
  by_cases hlad : o.orderType = .limit ∧ b.priceToIdx o.price = none
  · exact ⟨b, _, Q, applyNewOrder_offLadder seq tsNs hz hlad.1 hlad.2, .refused (.inr (.inl hlad)) _, hb⟩
  have hslot : o.orderType = .limit → ∃ i, b.priceToIdx o.price = some i := fun hlim =>
    Option.ne_none_iff_exists'.mp fun e => hlad ⟨hlim, e⟩
  obtain ⟨left, hf, -⟩ := hb.canFullyFill (o.aggressor seq tsNs) o.qty
  have hf : b.canFullyFill o.side o.price o.qty o.account o.orderType = some (decide (left = 0)) := hf
  by_cases hfok : o.timeInForce = .fok ∧ left ≠ 0
  · rw [decide_eq_false hfok.2] at hf
    exact ⟨b, _, Q, applyNewOrder_notFillable seq tsNs hz hslot hfok.1 hf, .refused (.inr (.inr ⟨hfok.1, hf⟩)) _, hb⟩
  obtain ⟨b₁, Q₁, hloop, -⟩ := hb.matched (o.aggressor seq tsNs) o.qty
  refine hb.afterMatch ⟨hz, hslot, fun htif => ?_, hloop⟩
  rw [hf, decide_eq_true (not_not.mp fun h => hfok ⟨htif, h⟩)]

/-! ## Any command -/

/-- What a command does to the book. -/
inductive Effect (b : OrderBook M K) (cmd : SequencedCommand) : OrderBook M K → List EngineEvent → Prop
  | newOrder {o : InboundNewOrder} (hc : cmd.cmd = .newOrder o) {b' : OrderBook M K} {evs : List EngineEvent}
      (h : Applied b cmd.seq cmd.tsNs o b' evs) : Effect b cmd b' evs
  | notCancelled {account : AccountId} {id : OrderId} (hc : cmd.cmd = .cancel account id)
      (h : ∀ k ro, b.idToKey id = some k → get? b.arena k = some ro → ro.account ≠ account)
      (rej : EngineEvent.Rejected) : Effect b cmd b [.rejected rej]
  | cancelled {id : OrderId} {k : K} {ro : RestingOrder K} (hc : cmd.cmd = .cancel ro.account id)
      (hk : b.idToKey id = some k) (hro : get? b.arena k = some ro) {b' : OrderBook M K}
      (h : b.applyCancel cmd.seq ro.account id = some (b', [.cancelled cmd.seq id])) :
      Effect b cmd b' [.cancelled cmd.seq id]
  | idle (hnew : ∀ o, cmd.cmd ≠ .newOrder o) (hcancel : ∀ account id, cmd.cmd ≠ .cancel account id) :
      Effect b cmd b []

variable {cmd : SequencedCommand}

theorem Effect.applied (h : Effect b cmd b' evs) (hc : cmd.cmd = .newOrder o) : Applied b cmd.seq cmd.tsNs o b' evs:= by
  cases h with
  | newOrder hc' h =>
    rw [hc] at hc'
    cases hc'
    exact h
  | notCancelled hc' => rw [hc] at hc'; cases hc'
  | cancelled hc' => rw [hc] at hc'; cases hc'
  | idle hnew => exact absurd hc (hnew o)

theorem Valid.cancel (hb : Valid c b Q) {id : OrderId} {k : K} {ro : RestingOrder K} (hk : b.idToKey id = some k)
    (hro : get? b.arena k = some ro) (seq : UInt64) :
    ∃ i as bs b', c.index? ro.price = some i ∧ Q ro.side i = as ++ k :: bs ∧
      b.applyCancel seq ro.account id = some (b', [.cancelled seq id]) ∧ Valid c b' (setQueue Q ro.side i (as ++ bs)) ∧
      Removed c b Q ro.side i k (as ++ bs) id b' := by
  obtain ⟨i, as, bs, b', hi, hq, e, hb'⟩ := hb.toSound.applyCancel hk hro seq
  obtain ⟨x, hx, rfl⟩ := hb.ids id k hk
  refine ⟨i, as, bs, b', hi, hq, e, ⟨hb'.sound, ?_, ?_⟩, hb'⟩
  · rw [hb'.data, hb'.ids]
    exact hb.ids.erase hx
  · refine Nat.le_trans (len_le_of_data fun j hj => ?_) hb.room
    obtain ⟨y, hy⟩ := Option.isSome_iff_exists.mp hj
    rw [hb'.data] at hy
    rw [(update_none_eq_some.mp hy).2]
    rfl

theorem Valid.of_cancelled (hb : Valid c b Q) {id : OrderId} {k : K} {ro : RestingOrder K} (hk : b.idToKey id = some k)
    (hro : get? b.arena k = some ro) {seq : UInt64} (h : b.applyCancel seq ro.account id = some (b', evs)) :
    ∃ i as bs, c.index? ro.price = some i ∧ Q ro.side i = as ++ k :: bs ∧ Valid c b' (setQueue Q ro.side i (as ++ bs)) ∧
      Removed c b Q ro.side i k (as ++ bs) id b' := by
  obtain ⟨i, as, bs, b₁, hi, hq, e, hb₁⟩ := hb.cancel hk hro seq
  rw [h] at e
  cases e
  exact ⟨i, as, bs, hi, hq, hb₁⟩

theorem Valid.applyCancel (hb : Valid c b Q) (cmd : SequencedCommand) {account : AccountId} {id : OrderId}
    (hc : cmd.cmd = .cancel account id) :
    ∃ b' evs Q', b.applyCancel cmd.seq account id = some (b', evs) ∧ Effect b cmd b' evs ∧ Valid c b' Q' := by
  cases hk : b.idToKey id with
  | none =>
    refine ⟨b, _, Q, applyCancel_none hk cmd.seq account, .notCancelled hc (fun k ro e => ?_) _, hb⟩
    rw [hk] at e
    cases e
  | some k =>
    obtain ⟨x, hx, -⟩ := hb.ids id k hk
    obtain ⟨ro, hro, -⟩ := get?_of_dataOf hx
    by_cases hacct : ro.account = account
    · subst hacct
      obtain ⟨i, as, bs, b', -, -, e, hb', -⟩ := hb.cancel hk hro cmd.seq
      exact ⟨b', _, _, e, .cancelled hc hk hro e, hb'⟩
    · refine ⟨b, _, Q, applyCancel_other hk hro cmd.seq hacct, .notCancelled hc (fun k' ro' e e' => ?_) _, hb⟩
      rw [hk] at e
      cases e
      rw [hro] at e'
      cases e'
      exact hacct

theorem Valid.apply (hb : Valid c b Q) (cmd : SequencedCommand) :
    ∃ b' evs Q', b.apply cmd = some (b', evs) ∧ Effect b cmd b' evs ∧ Valid c b' Q' := by
  unfold OrderBook.apply
  rcases hc : cmd.cmd with o | ⟨account, orderId⟩ | ⟨symbol, account⟩ | account
  · obtain ⟨b', evs, Q', e, ha, hb'⟩ := hb.applyNewOrder cmd.seq cmd.tsNs o
    exact ⟨b', evs, Q', e, .newOrder hc ha, hb'⟩
  · exact hb.applyCancel cmd hc
  all_goals
    refine ⟨b, [], Q, rfl, .idle (fun _ e => ?_) (fun _ _ e => ?_), hb⟩
    all_goals
      rw [hc] at e
      cases e

theorem Valid.effect (hb : Valid c b Q) (h : b.apply cmd = some (b', evs)) : Effect b cmd b' evs ∧ ∃ Q', Valid c b' Q':= by
  obtain ⟨b₁, evs₁, Q₁, e, heff, hb₁⟩ := hb.apply cmd
  rw [h] at e
  cases e
  exact ⟨heff, Q₁, hb₁⟩

theorem new_valid {cfg : BookConfig} (h : OrderBook.new cfg = some b) : ∃ Q, Valid b.refConfig b Q := by
  obtain ⟨⟨Q, hb, hl⟩, -, -⟩ := new_ok h
  refine ⟨Q, hb.sound, hb.ids.live, ?_⟩
  rw [hb.len_eq hl]
  exact Nat.zero_le _

theorem Valid.run (hb : Valid c b Q) (cmds : List SequencedCommand) :
    ∃ b' evss Q', b.run cmds = some (b', evss) ∧ Valid c b' Q' := by
  induction cmds generalizing b Q with
  | nil => exact ⟨b, [], Q, rfl, hb⟩
  | cons cmd cmds ih =>
    obtain ⟨b₁, evs, Q₁, e₁, -, hb₁⟩ := hb.apply cmd
    obtain ⟨b', evss, Q', e', hb'⟩ := ih hb₁
    exact ⟨b', evs :: evss, Q', by simp only [OrderBook.run, e₁, e', Option.bind_eq_bind, Option.bind_some], hb'⟩

theorem Reachable.valid {cfg : BookConfig} (h : b.Reachable cfg) :
    ∃ c Q, Valid c b Q ∧ c.tickFloor = cfg.tickFloor ∧ c.numTicks = cfg.numTicks := by
  obtain ⟨b₀, cmds, evss, hnew, hrun⟩ := h
  obtain ⟨Q, hb₀⟩ := new_valid hnew
  obtain ⟨b', evss', Q', e, hb'⟩ := hb₀.run cmds
  rw [hrun] at e
  cases e
  exact ⟨b₀.refConfig, Q', hb', (new_ok hnew).2.1, (new_ok hnew).2.2⟩

/-- If every command keeps a property exactly when it meets the condition, then
the property holds after every command exactly when all of them meet it. -/
theorem Valid.always_iff {P : OrderBook M K → List EngineEvent → Prop} {ok : OrderBook M K → SequencedCommand → Prop}
    (hP : ∀ {b b' : OrderBook M K} {Q : Side → Nat → List K} {evs₀ evs : List EngineEvent} {cmd : SequencedCommand},
      Valid c b Q → P b evs₀ → b.apply cmd = some (b', evs) → (P b' (evs₀ ++ evs) ↔ ok b cmd))
    (hb : Valid c b Q) (evs₀ : List EngineEvent) (h : P b evs₀) (cmds : List SequencedCommand) :
    b.AlwaysAfter (fun b' evs => P b' (evs₀ ++ evs)) cmds ↔ b.AllCommands ok cmds := by
  induction cmds generalizing b Q evs₀ with
  | nil =>
    refine ⟨fun _ => trivial, fun _ done hdone => ?_⟩
    rw [List.prefix_nil.mp hdone]
    exact ⟨b, [], rfl, (congrArg (P b) (List.append_nil evs₀)).mpr h⟩
  | cons cmd cmds ih =>
    obtain ⟨b₁, evs, Q₁, e₁, -, hb₁⟩ := hb.apply cmd
    have hrun : ∀ done, b.run (cmd :: done) = (b₁.run done).map fun r => (r.1, evs :: r.2) := fun done => by
      simp only [OrderBook.run, e₁, Option.bind_eq_bind, Option.bind_some]
      cases b₁.run done <;> rfl
    have hnext : (∀ done, done <+: cmds → ∃ b' evss, b.run (cmd :: done) = some (b', evss) ∧
          P b' (evs₀ ++ evss.flatten)) ↔ b₁.AlwaysAfter (fun b' es => P b' ((evs₀ ++ evs) ++ es)) cmds := by
      refine forall₂_congr fun done _ => ?_
      rw [hrun]
      constructor
      · rintro ⟨b', evss, e, hp⟩
        obtain ⟨⟨b₂, rest⟩, e₂, heq⟩ := Option.map_eq_some_iff.mp e
        cases heq
        exact ⟨b₂, rest, e₂, (congrArg (P b₂) (List.append_assoc _ _ _)).mpr hp⟩
      · rintro ⟨b', rest, e, hp⟩
        exact ⟨b', evs :: rest, by rw [e]; rfl, (congrArg (P b') (List.append_assoc _ _ _)).mp hp⟩
    rw [OrderBook.AlwaysAfter, List.forall_prefix_cons, hnext, OrderBook.AllCommands]
    constructor
    · rintro ⟨-, hall⟩
      obtain ⟨b', evss, e, hp⟩ := hall [] List.nil_prefix
      cases e
      have hp := (congrArg (P b₁) (List.append_nil _)).mp hp
      refine ⟨(hP hb h e₁).mp hp, fun b' evs' e' => ?_⟩
      rw [e₁] at e'
      cases e'
      exact (ih hb₁ _ hp).mp hall
    · rintro ⟨hok, hall⟩
      refine ⟨⟨b, [], rfl, (congrArg (P b) (List.append_nil evs₀)).mpr h⟩, ?_⟩
      exact (ih hb₁ _ ((hP hb h e₁).mpr hok)).mpr (hall b₁ evs e₁)

theorem Valid.always {P : OrderBook M K → List EngineEvent → Prop}
    (hP : ∀ {b b' : OrderBook M K} {Q : Side → Nat → List K} {evs₀ evs : List EngineEvent} {cmd : SequencedCommand},
      Valid c b Q → P b evs₀ → b.apply cmd = some (b', evs) → P b' (evs₀ ++ evs))
    (hb : Valid c b Q) (h : P b []) (cmds : List SequencedCommand) : b.AlwaysAfter P cmds := by
  refine (hb.always_iff (P := P) (fun hb h e => iff_true_intro (hP hb h e)) [] h cmds).mpr ?_
  clear hb h
  induction cmds generalizing b with
  | nil => exact trivial
  | cons cmd cmds ih => exact ⟨trivial, fun _ _ _ => ih⟩

/-! ## A book with two orders -/

theorem demoConfig_fits : demoConfig.LadderFits := show (100 : Int) + 20 ≤ 2 ^ 63 by decide

theorem run_restingBook : ((OrderBook.new demoConfig : Option (OrderBook SlotArena SlotKey)).bind
    fun b => b.run (demoCommands.take 2)).isSome = true := rfl

/-- Five on offer at 105 and three at 106. -/
def restingBook : OrderBook SlotArena SlotKey := (Option.get _ run_restingBook).1

theorem reachable_restingBook : restingBook.Reachable demoConfig := by
  obtain ⟨b₀, hnew, hrun⟩ := Option.bind_eq_some_iff.mp (Option.some_get run_restingBook).symm
  exact ⟨b₀, demoCommands.take 2, _, hnew, hrun⟩

end Proof.Book

end MRE
