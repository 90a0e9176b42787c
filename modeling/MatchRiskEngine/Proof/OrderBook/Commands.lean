import MatchRiskEngine.Proof.OrderBook.Fok

/-!
# Commands

Every command takes a well-formed book to a well-formed book and never
panics, and it does what the reference book does (`apply_ok`), with an update
of the top of the book at the end of its events. Whether a fill-or-kill order
may proceed is the book's own decision here (`RefBook.applyIf`); where the
ladder fits it is the reference's.
-/

namespace MRE

open SlotMap

/-- The reference book, told whether a fill-or-kill order may proceed. -/
def RefBook.applyIf (c : RefConfig) (r : RefBook) (cmd : SequencedCommand) (fillable : Bool) :
    RefBook × List EngineEvent :=
  match cmd.cmd with
  | .newOrder o => r.newOrderIf c cmd.seq cmd.tsNs o fillable
  | .cancel account orderId => r.cancel cmd.seq account orderId
  | .liquidate _ _ => (r, [])
  | .freezeAccount _ => (r, [])

def InboundNewOrder.rejected (o : InboundNewOrder) (seq : UInt64) (reason : RejectReason) : EngineEvent :=
  .rejected { seq, orderId := ⟨seq⟩, accountId := o.account, clientOrderId := o.clientOrderId, reason }

section

variable {M K : Type} [DecidableEq K] [Arena M K]

/-- The part of `applyNewOrder` that comes after the matching loop. -/
def OrderBook.afterMatch (b : OrderBook M K) (seq tsNs : UInt64) (o : InboundNewOrder) (priceIdx : Nat) (left : Qty)
    (evs : List EngineEvent) : Option (OrderBook M K × List EngineEvent) :=
  if left.raw = 0 then (b.bookTopEvent seq o.symbol).map fun top => (b, evs ++ [top])
  else if o.NeverRests then
    (b.bookTopEvent seq o.symbol).map fun top => (b, evs ++
      [if left.raw < o.qty.raw then .cancelled seq ⟨seq⟩ else o.rejected seq .iocNoMatch, top])
  else b.restRemainder seq tsNs o priceIdx left evs

end

/-- The part of `RefBook.newOrderIf` that comes after the sweep. -/
def RefBook.afterMatch (c : RefConfig) (r : RefBook) (seq tsNs : UInt64) (o : InboundNewOrder) (left : Qty)
    (evs : List EngineEvent) : RefBook × List EngineEvent :=
  if left.raw = 0 then (r, evs)
  else if o.orderType = .limit ∧ o.timeInForce = .gtc then r.rest c seq tsNs o left evs
  else (r, evs ++ [if left.raw = o.qty.raw then o.rejected seq .iocNoMatch else .cancelled seq ⟨seq⟩])

namespace Proof.Book

variable {M K : Type} {r : RefBook}

/-- Every live order is older than `seq`. -/
def Below (r : RefBook) (seq : UInt64) : Prop := ∀ s, ∀ x ∈ r.side s, x.seq < seq

theorem Below.live {seq : UInt64} (h : Below r seq) {d : K → Option RefOrder} (hl : Listed d r) {k : K} {x : RefOrder}
    (hx : d k = some x) : x.seq < seq := h x.side x (hl.mem.mpr ⟨rfl, k, hx⟩)

/-- The index at which a new order would rest; an order that is not limited has
none, and zero stands for it. -/
theorem exists_slot {b : OrderBook M K} {o : InboundNewOrder}
    (h : o.orderType = .limit → ∃ i, b.priceToIdx o.price = some i) :
    ∃ i, (if o.orderType = .limit then b.priceToIdx o.price else some 0) = some i ∧
      (o.orderType = .limit → b.priceToIdx o.price = some i) := by
  by_cases hlim : o.orderType = .limit
  · obtain ⟨i, hi⟩ := h hlim
    exact ⟨i, by rw [if_pos hlim, hi], fun _ => hi⟩
  · exact ⟨0, if_neg hlim, fun e => absurd e hlim⟩

variable [DecidableEq K] [Arena M K]

variable {c : RefConfig} {b : OrderBook M K} {Q : Side → Nat → List K}

/-- `evs` are `ref`, followed by updates of the top of the book. -/
def TopsAfter (ref evs : List EngineEvent) : Prop := ∃ tops, evs = ref ++ tops ∧ ∀ e ∈ tops, e.isBookTop = true

theorem TopsAfter.refl (evs : List EngineEvent) : TopsAfter evs evs :=
  ⟨[], (List.append_nil evs).symm, fun _ h => nomatch h⟩

theorem TopsAfter.one (ref : List EngineEvent) {top : EngineEvent} (h : top.isBookTop = true) :
    TopsAfter ref (ref ++ [top]) :=
  ⟨[top], rfl, fun _ he => List.mem_singleton.mp he ▸ h⟩

theorem TopsAfter.last (evs : List EngineEvent) (e : EngineEvent) {top : EngineEvent} (h : top.isBookTop = true) :
    TopsAfter (evs ++ [e]) (evs ++ [e, top]) :=
  ⟨[top], (List.append_assoc evs [e] [top]).symm, fun _ he => List.mem_singleton.mp he ▸ h⟩

theorem levelPrice_ok (hb : Sound c b Q) (s : Side) : ∃ p, OrderBook.levelPrice (b.ladder s) (b.best s) = some p := by
  have hbest := hb.best s
  cases h : b.best s with
  | none => exact ⟨none, rfl⟩
  | some i =>
    rw [h] at hbest
    obtain ⟨l, hl⟩ := hb.occupied hbest.1
    exact ⟨_, by rw [OrderBook.levelPrice, hl]; rfl⟩

theorem bookTopEvent_ok (hb : Sound c b Q) (seq : UInt64) (symbol : Symbol) :
    ∃ top, b.bookTopEvent seq symbol = some top ∧ top.isBookTop = true := by
  obtain ⟨bid, hbid⟩ := levelPrice_ok hb .buy
  obtain ⟨ask, hask⟩ := levelPrice_ok hb .sell
  have hbid : b.bestBid = some bid := hbid
  have hask : b.bestAsk = some ask := hask
  exact ⟨_, by rw [OrderBook.bookTopEvent, hbid, hask]; rfl, rfl⟩

/-! ## Resting an order -/

theorem Shape.slot_ok (hb : Shape c b Q) {s : Side} {i : Nat} {p : Price} (hi : c.index? p = some i) :
    ∃ slot, (b.ladder s)[i]? = some slot ∧ LevelOk b.arena (slot.getD (PriceLevel.new p)) (Q s i) ∧
      c.index? (slot.getD (PriceLevel.new p)).price = some i := by
  have hlt : i < (b.ladder s).length := by rw [hb.length]; exact (RefConfig.index?_eq_some.mp hi).2
  have hg := List.getElem?_eq_getElem hlt
  refine ⟨_, hg, ?_⟩
  cases hl : (b.ladder s)[i] with
  | none =>
    have he : Q s i = [] := by
      by_contra hne
      obtain ⟨l, h⟩ := hb.occupied hne
      rw [hg, hl] at h
      cases h
    rw [he]
    exact ⟨LevelOk.new b.arena p, hi⟩
  | some l =>
    rw [hl] at hg
    exact ⟨hb.level hg, hb.price hg⟩

/-- The book with a new order at the end of its level's queue, before the best
pointer is moved. -/
def rested (b : OrderBook M K) (s : Side) (i : Nat) (l : PriceLevel K) (arena : M) (id : OrderId) (k : K) :
    OrderBook M K :=
  OrderBook.setLevel { b with arena, idToKey := Function.update b.idToKey id (some k) } s i l

/-- An order comes to rest at the end of its level's queue. -/
theorem Sound.rested_ok (hb : Sound c b Q) (o : RestingOrder K) {i : Nat} (hi : c.index? o.price = some i)
    (hroom : len b.arena < capacity b.arena) (hq : o.qtyRemaining.raw ≠ 0) (hnext : o.next = none)
    (hprev : o.prev = none) :
    ∃ slot l arena, (b.ladder o.side)[i]? = some slot ∧
      (slot.getD (PriceLevel.new o.price)).pushBack (SlotMap.insert b.arena o).1 (SlotMap.insert b.arena o).2 =
        some (l, arena) ∧
      Sound c ((rested b o.side i l arena o.id (SlotMap.insert b.arena o).1).refreshBest o.side i)
        (setQueue Q o.side i (Q o.side i ++ [(SlotMap.insert b.arena o).1])) ∧
      dataOf arena = Function.update (dataOf b.arena) (SlotMap.insert b.arena o).1 (some o.data) ∧
      ((rested b o.side i l arena o.id (SlotMap.insert b.arena o).1).refreshBest o.side i).arena = arena ∧
      ((rested b o.side i l arena o.id (SlotMap.insert b.arena o).1).refreshBest o.side i).idToKey =
        Function.update b.idToKey o.id (some (SlotMap.insert b.arena o).1) := by
  obtain ⟨slot, hg, hl, hp⟩ := hb.slot_ok (s := o.side) hi
  have hfresh : get? b.arena (SlotMap.insert b.arena o).1 = none := insert_fresh b.arena o
  have g := get?_insert b.arena o
  have hcap : capacity (SlotMap.insert b.arena o).2 = capacity b.arena := capacity_insert hroom o
  generalize hk : (SlotMap.insert b.arena o).1 = k at *
  generalize ha : (SlotMap.insert b.arena o).2 = a₁ at *
  have hdk : dataOf b.arena k = none := by rw [dataOf, hfresh]; rfl
  have hkQ := hb.seated.notMem_of_none hdk
  have hne : ∀ j ∈ Q o.side i, j ≠ k := fun j hj e => hkQ _ _ (e ▸ hj)
  have hd₁ : dataOf a₁ = Function.update (dataOf b.arena) k (some o.data) := by
    funext j
    rw [dataOf, g, Function.update_apply]
    split <;> rfl
  obtain ⟨l, arena, e, hl', hp', hd, ht⟩ := pushBack_ok
    (hl.congr fun j hj => by rw [g, if_neg (hne j hj)] : LevelOk a₁ _ (Q o.side i))
    (fun j hj => by rw [g, if_neg (hne j hj)]; exact hb.live hj) (hkQ _ _) (by rw [g, if_pos rfl]) hnext hprev
  have hshape : Shape c ({ b with arena }.setLevel o.side i l) (setQueue Q o.side i (Q o.side i ++ [k])) := by
    refine hb.setLevel (RefConfig.index?_eq_some.mp hi).2 hl' (hp' ▸ hp) (fun j hj hjQ => ?_)
      (ht.capacity.trans hcap) ?_
    · have hjk : j ≠ k := fun e => by rw [e, hdk] at hj; cases hj
      rw [ht.outside j (by simp [hjQ, hjk]), g, if_neg hjk]
    · rw [hd, hd₁]
      exact hb.seated.insert hdk hi hq
  have hbests : ∀ s', (rested b o.side i l arena o.id k).best s' = b.best s' := fun s' => by
    rw [rested, OrderBook.best_setLevel]; cases s' <;> rfl
  have hbest : IsBest o.side (fun j => Q o.side j ≠ []) ((rested b o.side i l arena o.id k).best o.side) := by
    rw [hbests]; exact hb.best o.side
  have hocc : setQueue Q o.side i (Q o.side i ++ [k]) o.side i ≠ [] := by rw [setQueue_self]; simp
  have hrest : ∀ j, j ≠ i → (setQueue Q o.side i (Q o.side i ++ [k]) o.side j ≠ [] ↔ Q o.side j ≠ []) :=
    fun j hj => by rw [setQueue_ne _ _ fun h => hj h.2]
  obtain ⟨best', eb, hbest'⟩ := refreshBest_ok (rested b o.side i l arena o.id k) hbest hocc hrest
  have harena : ((rested b o.side i l arena o.id k).setBest o.side best').arena = arena := by
    rw [OrderBook.arena_setBest, rested, OrderBook.arena_setLevel]
  have hids : ((rested b o.side i l arena o.id k).setBest o.side best').idToKey =
      Function.update b.idToKey o.id (some k) := by
    rw [OrderBook.idToKey_setBest, rested, OrderBook.idToKey_setLevel]
  refine ⟨slot, l, arena, hg, e, ?_, by rw [hd, hd₁], by rw [eb, harena], by rw [eb, hids]⟩
  rw [eb]
  have hlad : ∀ s', (rested b o.side i l arena o.id k).ladder s' =
      OrderBook.ladder ({ b with arena }.setLevel o.side i l) s' := fun s' => by
    cases hs : o.side <;> cases s' <;> rfl
  refine ⟨hshape.congr ?_ ?_ fun s' => ?_, fun s' => ?_⟩
  · rw [OrderBook.refConfig_setBest, rested, OrderBook.refConfig_setLevel, OrderBook.refConfig_setLevel]; rfl
  · rw [OrderBook.arena_setBest, rested, OrderBook.arena_setLevel, OrderBook.arena_setLevel]
  · rw [OrderBook.ladder_setBest, hlad]
  · rcases eq_or_ne s' o.side with rfl | hs'
    · rw [OrderBook.best_setBest]; exact hbest'
    · rw [OrderBook.best_setBest_opposite _ hs', hbests]
      simpa only [setQueue_ne Q _ fun h : s' = o.side ∧ _ = i => hs' h.1] using hb.best s'

/-- The remainder of an order comes to rest if the arena has room. -/
theorem Sound.restRemainder (hb : Sound c b Q) (hroom : ¬ capacity b.arena ≤ len b.arena) (seq tsNs : UInt64)
    (o : InboundNewOrder) {i : Nat} (hi : c.index? o.price = some i) {left : Qty} (hq : left.raw ≠ 0)
    (evs : List EngineEvent) :
    ∃ b' k top, b.restRemainder seq tsNs o i left evs =
        some (b', evs ++ [o.accepted seq tsNs left, top]) ∧
      b'.bookTopEvent seq o.symbol = some top ∧ top.isBookTop = true ∧ dataOf b.arena k = none ∧
      Sound c b' (setQueue Q o.side i (Q o.side i ++ [k])) ∧
      dataOf b'.arena = Function.update (dataOf b.arena) k (some (o.resting seq left)) ∧
      b'.idToKey = Function.update b.idToKey ⟨seq⟩ (some k) := by
  obtain ⟨slot, l, arena, hg, e, hsound, hd, harena, hids⟩ := hb.rested_ok
    (RestingOrder.new ⟨seq⟩ o.account left o.side o.price seq) hi (Nat.lt_of_not_le hroom) hq rfl rfl
  have hfresh : get? b.arena (SlotMap.insert b.arena (RestingOrder.new ⟨seq⟩ o.account left o.side o.price seq)).1 =
      none := insert_fresh _ _
  obtain ⟨top, ht, htop⟩ := bookTopEvent_ok hsound seq o.symbol
  refine ⟨_, _, top, ?_, ht, htop, by rw [dataOf, hfresh]; rfl, hsound, by rw [harena, hd]; rfl, hids⟩
  have hg : (b.ladder o.side)[i]? = some slot := hg
  have e : (slot.getD (PriceLevel.new o.price)).pushBack (SlotMap.insert b.arena
      (RestingOrder.new ⟨seq⟩ o.account left o.side o.price seq)).1 (SlotMap.insert b.arena
      (RestingOrder.new ⟨seq⟩ o.account left o.side o.price seq)).2 = some (l, arena) := e
  simp only [OrderBook.restRemainder, hroom, if_false, Option.bind_eq_bind, hg, Option.bind_some, e]
  exact congrArg (Option.bind · _) ht

theorem restRemainder_ok (h : Sim c b r) {seq : UInt64} (tsNs : UInt64) (o : InboundNewOrder) {i : Nat}
    (hi : c.index? o.price = some i) {left : Qty} (hq : left.raw ≠ 0) (hseq : Below r seq) (evs : List EngineEvent) :
    ∃ b' evs', b.restRemainder seq tsNs o i left evs = some (b', evs') ∧
      TopsAfter (r.rest c seq tsNs o left evs).2 evs' ∧ Sim c b' (r.rest c seq tsNs o left evs).1 := by
  obtain ⟨Q, hb, hl⟩ := h
  have hcap : capacity b.arena = c.capacity := congrArg RefConfig.capacity hb.config
  have hlen := hb.len_eq hl
  by_cases hfull : c.capacity ≤ r.size
  · have hfull' : capacity b.arena ≤ len b.arena := by omega
    simp only [OrderBook.restRemainder, RefBook.rest, hfull, hfull', if_true]
    exact ⟨b, _, rfl, TopsAfter.refl _, Q, hb, hl⟩
  · have hfull' : ¬ capacity b.arena ≤ len b.arena := by omega
    have hlt : ∀ j x, dataOf b.arena j = some x → x.seq < seq := fun j x hx => hseq.live hl hx
    obtain ⟨b', k, top, e, -, htop, hk, hsound, hd, hids⟩ := hb.sound.restRemainder hfull' seq tsNs o hi hq evs
    have hne : ∀ j x, dataOf b.arena j = some x → x.id ≠ (o.resting seq left).id := by
      intro j x hx e
      rw [hb.placed.id hx] at e
      have := hlt j x hx
      rw [OrderId.mk.inj e] at this
      exact UInt64.lt_irrefl _ this
    refine ⟨b', (r.rest c seq tsNs o left evs).2 ++ [top], ?_, TopsAfter.one _ htop, _, ⟨hsound, ?_, ?_⟩, ?_⟩
    · rw [e, RefBook.rest, if_neg hfull, List.append_assoc]
      rfl
    · rw [hd]
      exact hb.placed.insert (o := o.resting seq left) hk hi hq rfl hlt
    · rw [hd, hids]
      exact hb.ids.insert (o := o.resting seq left) hk hne
    · rw [hd, RefBook.rest, if_neg hfull]
      exact hl.insert (o := o.resting seq left) hk fun j x hx e => UInt64.lt_irrefl _ (e ▸ hlt j x hx)

/-! ## New orders -/

theorem Below.setSide {seq : UInt64} (h : Below r seq) {s : Side} {os : List RefOrder} (hos : ∀ x ∈ os, x.seq < seq) :
    Below (r.setSide s os) seq := by
  intro s' x hx
  rcases eq_or_ne s' s with rfl | hs
  · rw [RefBook.side_setSide] at hx
    exact hos x hx
  · rw [RefBook.side_setSide_ne _ hs] at hx
    exact h s' x hx

theorem Below.sweep {seq : UInt64} (h : Below r seq) (a : Aggressor) (qty : Qty) (s : Side) :
    Below (r.setSide s (RefBook.sweep a (r.side s) qty).1) seq := by
  refine h.setSide fun x hx => ?_
  obtain ⟨y, hy, e⟩ := sweep_mem hx
  rw [e]
  exact h s y hy

/-- A new order is matched: `b₁`, `left` and `evs` are what the matching loop
leaves. -/
structure Matched (b : OrderBook M K) (seq tsNs : UInt64) (o : InboundNewOrder) (b₁ : OrderBook M K) (left : Qty)
    (evs : List EngineEvent) : Prop where
  qty : o.qty.raw ≠ 0
  idx : o.orderType = .limit → ∃ i, b.priceToIdx o.price = some i
  fok : o.timeInForce = .fok → b.canFullyFill o.side o.price o.qty o.account o.orderType = some true
  loop : b.matchAgainstBook (o.aggressor seq tsNs) o.qty = some (b₁, left, evs)

section Outcomes

variable {b₁ : OrderBook M K} {seq tsNs : UInt64} {o : InboundNewOrder} {left : Qty} {evs : List EngineEvent}

theorem applyNewOrder_zero (b : OrderBook M K) (seq tsNs : UInt64) (hz : o.qty.raw = 0) :
    b.applyNewOrder seq tsNs o = some (b, [o.rejected seq .invalidQty]) := by
  simp only [OrderBook.applyNewOrder, hz, UInt64.le_refl, if_true]
  rfl

theorem applyNewOrder_offLadder (seq tsNs : UInt64) (hz : o.qty.raw ≠ 0) (hlim : o.orderType = .limit)
    (hidx : b.priceToIdx o.price = none) :
    b.applyNewOrder seq tsNs o = some (b, [o.rejected seq .priceOutOfRange]) := by
  have hz : ¬ o.qty.raw ≤ 0 := fun e => hz (UInt64.le_zero_iff.mp e)
  simp only [OrderBook.applyNewOrder, hz, if_false, hlim, if_true, hidx]
  rfl

theorem applyNewOrder_notFillable (seq tsNs : UInt64) (hz : o.qty.raw ≠ 0)
    (hslot : o.orderType = .limit → ∃ i, b.priceToIdx o.price = some i) (htif : o.timeInForce = .fok)
    (hf : b.canFullyFill o.side o.price o.qty o.account o.orderType = some false) :
    b.applyNewOrder seq tsNs o = some (b, [o.rejected seq .fokNotFullyFillable]) := by
  have hz : ¬ o.qty.raw ≤ 0 := fun e => hz (UInt64.le_zero_iff.mp e)
  obtain ⟨i, hidx, -⟩ := exists_slot hslot
  simp only [OrderBook.applyNewOrder, hz, if_false, hidx, htif, if_true, hf]
  rfl

theorem Matched.proceeds (hm : Matched b seq tsNs o b₁ left evs) :
    (if o.timeInForce = .fok then b.canFullyFill o.side o.price o.qty o.account o.orderType else some true) =
      some true := by
  split
  · rename_i htif
    exact hm.fok htif
  · rfl

theorem Matched.apply (hm : Matched b seq tsNs o b₁ left evs) :
    ∃ i, (o.orderType = .limit → b.priceToIdx o.price = some i) ∧
      b.applyNewOrder seq tsNs o = b₁.afterMatch seq tsNs o i left evs := by
  have hz : ¬ o.qty.raw ≤ 0 := fun e => hm.qty (UInt64.le_zero_iff.mp e)
  obtain ⟨i, hidx, hi⟩ := exists_slot hm.idx
  have hloop := hm.loop
  rw [InboundNewOrder.aggressor] at hloop
  refine ⟨i, hi, ?_⟩
  simp only [OrderBook.applyNewOrder, hz, if_false, hidx, hm.proceeds, hloop, Option.bind_eq_bind, Option.bind_some]
  rw [OrderBook.afterMatch]
  split
  · cases b₁.bookTopEvent seq o.symbol <;> rfl
  · split
    · rename_i hdrop
      rw [if_pos (show o.NeverRests from hdrop)]
      cases b₁.bookTopEvent seq o.symbol with
      | none => rfl
      | some top => by_cases hlt : left.raw < o.qty.raw <;> simp [hlt, InboundNewOrder.rejected]
    · rename_i hrests
      rw [if_neg (show ¬ o.NeverRests from hrests)]

theorem not_neverRests_iff (o : InboundNewOrder) : ¬ o.NeverRests ↔ o.orderType = .limit ∧ o.timeInForce = .gtc := by
  unfold InboundNewOrder.NeverRests
  cases o.timeInForce <;> cases o.orderType <;> simp

end Outcomes

/-- After the matching loop the book does what the reference book does after the
sweep. -/
theorem afterMatch_ok (h : Sim c b r) {seq : UInt64} (hseq : Below r seq) (tsNs : UInt64) {o : InboundNewOrder} {i : Nat}
    (hi : o.orderType = .limit → c.index? o.price = some i) {left : Qty} (hle : left.raw ≤ o.qty.raw)
    (evs : List EngineEvent) :
    ∃ b' evs', b.afterMatch seq tsNs o i left evs = some (b', evs') ∧
      TopsAfter (r.afterMatch c seq tsNs o left evs).2 evs' ∧ Sim c b' (r.afterMatch c seq tsNs o left evs).1 := by
  obtain ⟨top, ht, htop⟩ : ∃ top, b.bookTopEvent seq o.symbol = some top ∧ top.isBookTop = true := by
    obtain ⟨Q, hb, -⟩ := h
    exact bookTopEvent_ok hb.sound seq o.symbol
  unfold OrderBook.afterMatch RefBook.afterMatch
  by_cases hdone : left.raw = 0
  · rw [if_pos hdone, if_pos hdone, ht]
    exact ⟨b, _, rfl, TopsAfter.one _ htop, h⟩
  rw [if_neg hdone, if_neg hdone]
  by_cases hrests : o.orderType = .limit ∧ o.timeInForce = .gtc
  · rw [if_neg ((not_neverRests_iff o).mpr hrests), if_pos hrests]
    exact restRemainder_ok h tsNs o (hi hrests.1) hdone hseq evs
  · rw [if_pos (not_not.mp (mt (not_neverRests_iff o).mp hrests)), if_neg hrests, ht]
    refine ⟨b, _, rfl, ?_, h⟩
    by_cases heq : left.raw = o.qty.raw
    · rw [if_pos heq, if_neg (by rw [heq]; exact UInt64.lt_irrefl _)]
      exact TopsAfter.last evs _ htop
    · rw [if_neg heq, if_pos (UInt64.lt_of_le_of_ne hle heq)]
      exact TopsAfter.last evs _ htop

/-- A new order, if `f` is the book's decision on whether it could be filled. -/
theorem applyNewOrder_of (h : Sim c b r) {seq : UInt64} (hseq : Below r seq) (tsNs : UInt64) (o : InboundNewOrder)
    {f : Bool} (hf : b.canFullyFill o.side o.price o.qty o.account o.orderType = some f) :
    ∃ b' evs, b.applyNewOrder seq tsNs o = some (b', evs) ∧
      TopsAfter (r.newOrderIf c seq tsNs o f).2 evs ∧ Sim c b' (r.newOrderIf c seq tsNs o f).1 := by
  have hidx : b.priceToIdx o.price = c.index? o.price := by
    obtain ⟨Q, hb, -⟩ := h
    exact hb.sound.priceToIdx o.price
  unfold RefBook.newOrderIf
  dsimp only
  split
  · rename_i hz
    exact ⟨b, _, applyNewOrder_zero b seq tsNs hz, TopsAfter.refl _, h⟩
  rename_i hz
  split
  · rename_i hlad
    have hnone : b.priceToIdx o.price = none := by
      rw [hidx, ← Option.isNone_iff_eq_none, ← Option.not_isSome, RefConfig.index?_isSome, hlad.2]
      rfl
    exact ⟨b, _, applyNewOrder_offLadder seq tsNs hz hlad.1 hnone, TopsAfter.refl _, h⟩
  rename_i hlad
  have hslot : o.orderType = .limit → ∃ i, b.priceToIdx o.price = some i := fun hlim => by
    rw [hidx, ← Option.isSome_iff_exists, RefConfig.index?_isSome, ← Bool.not_eq_false]
    exact fun e => hlad ⟨hlim, e⟩
  split
  · rename_i hfok
    obtain ⟨htif, rfl⟩ := hfok
    exact ⟨b, _, applyNewOrder_notFillable seq tsNs hz hslot htif hf, TopsAfter.refl _, h⟩
  rename_i hfok
  obtain ⟨b₁, hloop, h₁⟩ := matchAgainstBook_ok h (o.aggressor seq tsNs) o.qty
  have hm : Matched b seq tsNs o b₁ _ _ := ⟨hz, hslot, fun htif => by
    rw [hf, Bool.eq_true_of_not_eq_false fun e => hfok ⟨htif, e⟩], hloop⟩
  obtain ⟨i, hi, e⟩ := hm.apply
  rw [e]
  exact afterMatch_ok h₁ (hseq.sweep (o.aggressor seq tsNs) o.qty o.side.opposite) tsNs
    (fun hlim => by rw [← hidx, hi hlim]) (swept (o.aggressor seq tsNs) _ o.qty).left_le _

/-! ## Cancels -/

theorem applyCancel_none {id : OrderId} (hk : b.idToKey id = none) (seq : UInt64) (account : AccountId) :
    b.applyCancel seq account id = some (b, [.rejected
      { seq, orderId := id, accountId := account, clientOrderId := ⟨0⟩, reason := .orderNotFound }]) := by
  simp only [OrderBook.applyCancel, hk]

theorem applyCancel_other {id : OrderId} {k : K} {ro : RestingOrder K} (hk : b.idToKey id = some k)
    (hro : get? b.arena k = some ro) (seq : UInt64) {account : AccountId} (hacct : ro.account ≠ account) :
    b.applyCancel seq account id = some (b, [.rejected
      { seq, orderId := id, accountId := account, clientOrderId := ⟨0⟩, reason := .wrongAccount }]) := by
  have hids : Function.update (Function.update b.idToKey id none) id (some k) = b.idToKey := by
    rw [Function.update_idem, ← hk, Function.update_eq_self]
  simp only [OrderBook.applyCancel, hk, hro, hacct, Option.bind_eq_bind, Option.bind_some, hids, ne_eq,
    not_false_eq_true, if_true]

theorem Sound.applyCancel (hb : Sound c b Q) {id : OrderId} {k : K} {ro : RestingOrder K} (hk : b.idToKey id = some k)
    (hro : get? b.arena k = some ro) (seq : UInt64) :
    ∃ i as bs b', c.index? ro.price = some i ∧ Q ro.side i = as ++ k :: bs ∧
      b.applyCancel seq ro.account id = some (b', [.cancelled seq id]) ∧
      Removed c b Q ro.side i k (as ++ bs) id b' := by
  obtain ⟨i, hi, hkq⟩ := hb.seated.mem_queue (dataOf_of_get? hro)
  obtain ⟨as, bs, hq⟩ := List.append_of_mem hkq
  obtain ⟨l, hg, hlev, hp⟩ := hb.level_of_mem hkq
  obtain ⟨l', arena', e, hl', hp', hd, ht⟩ := remove_ok (hq ▸ hlev)
    (fun j hj => hb.live (hq ▸ hj : j ∈ Q ro.data.side i)) hro
  obtain ⟨b', he, hrem⟩ := hb.dropped_ok hq hl' (hp' ▸ hp) hd ht id
  refine ⟨i, as, bs, b', hi, hq, ?_, hrem⟩
  have hidx : OrderBook.priceToIdx { b with idToKey := Function.update b.idToKey id none } ro.price = some i :=
    (hb.priceToIdx ro.price).trans hi
  have hslot : (OrderBook.ladder { b with idToKey := Function.update b.idToKey id none } ro.side)[i]? =
      some (some l) := by
    rw [← show (b.ladder ro.side)[i]? = some (some l) from hg]
    cases ro.side <;> rfl
  simp only [OrderBook.applyCancel, hk, hro, ne_eq, not_true_eq_false, if_false, hidx, hslot, e, Option.bind_eq_bind,
    Option.bind_some]
  have hdrop : dropped b ro.data.side i l' arena' id = OrderBook.setLevel
      { b with arena := arena', idToKey := Function.update b.idToKey id none } ro.side i l' := by
    show dropped b ro.side i l' arena' id = _
    cases ro.side <;> rfl
  rw [hdrop] at he
  by_cases hempty : l'.isEmpty = true
  · rw [if_pos hempty] at he ⊢
    rw [show OrderBook.clearEmptyBest _ ro.side i = some b' from he, Option.bind_some]
  · rw [if_neg hempty] at he ⊢
    rw [← Option.some.inj he]

theorem applyCancel_ok (h : Sim c b r) (seq : UInt64) (account : AccountId) (orderId : OrderId) :
    ∃ b', b.applyCancel seq account orderId = some (b', (r.cancel seq account orderId).2) ∧
      Sim c b' (r.cancel seq account orderId).1 := by
  obtain ⟨Q, hb, hl⟩ := h
  have hfind := hb.find_eq hl orderId
  cases hk : b.idToKey orderId with
  | none =>
    rw [hk, Option.bind_none] at hfind
    rw [applyCancel_none hk]
    simp only [RefBook.cancel, hfind]
    exact ⟨b, rfl, Q, hb, hl⟩
  | some k =>
    obtain ⟨x, hx, hid⟩ := (hb.ids orderId k).mp hk
    rw [hk, Option.bind_some, hx] at hfind
    obtain ⟨ro, hro, rfl⟩ := get?_of_dataOf hx
    by_cases hacct : ro.account = account
    · subst hid hacct
      obtain ⟨i, as, bs, b', -, hq, e, hb'⟩ := hb.sound.applyCancel hk hro seq
      have hcancel : r.cancel seq ro.account ro.data.id =
          (⟨r.bids.filter fun x => x.id ≠ ro.data.id, r.asks.filter fun x => x.id ≠ ro.data.id⟩,
            [.cancelled seq ro.data.id]) := by
        simp only [RefBook.cancel, hfind, show ro.data.account = ro.account from rfl, if_true]
      rw [hcancel]
      refine ⟨b', e, _, hb.erase hq hx hb', ?_⟩
      rw [hb'.data]
      exact hl.erase hb.ids hx
    · have hacct' : ¬ ro.data.account = account := hacct
      rw [applyCancel_other hk hro seq hacct]
      simp only [RefBook.cancel, hfind, hacct', if_false]
      exact ⟨b, rfl, Q, hb, hl⟩

theorem newOrderIf_refused (h : Sim c b r) {o : InboundNewOrder} {f : Bool}
    (hf : b.canFullyFill o.side o.price o.qty o.account o.orderType = some f) (hr : b.Refuses o) (seq tsNs : UInt64) :
    ∃ rej, r.newOrderIf c seq tsNs o f = (r, [.rejected rej]) := by
  obtain ⟨Q, hb, -⟩ := h
  unfold RefBook.newOrderIf
  dsimp only
  split
  · exact ⟨_, rfl⟩
  rename_i hz
  split
  · exact ⟨_, rfl⟩
  rename_i hlad
  split
  · exact ⟨_, rfl⟩
  rename_i hfok
  rcases hr with h | ⟨hlim, hnone⟩ | ⟨htif, hfalse⟩
  · exact absurd h hz
  · refine absurd ⟨hlim, ?_⟩ hlad
    rw [← RefConfig.index?_isSome, ← hb.sound.priceToIdx, hnone]
    rfl
  · exact absurd ⟨htif, Option.some.inj (hf.symm.trans hfalse)⟩ hfok

/-! ## Any command -/

theorem newOrderSeq_of_newOrder {cmd : SequencedCommand} {o : InboundNewOrder} (h : cmd.cmd = .newOrder o) :
    cmd.newOrderSeq = some cmd.seq := by
  rw [SequencedCommand.newOrderSeq, h]

/-- A command: the book does what the reference book does. -/
theorem apply_ok (h : Sim c b r) (cmd : SequencedCommand) (hseq : ∀ seq ∈ cmd.newOrderSeq, Below r seq) :
    ∃ b' evs f, b.apply cmd = some (b', evs) ∧ TopsAfter (r.applyIf c cmd f).2 evs ∧
      Sim c b' (r.applyIf c cmd f).1 ∧ (c.LadderFits → r.applyIf c cmd f = r.apply c cmd) ∧
      ∀ o, cmd.cmd = .newOrder o → b.canFullyFill o.side o.price o.qty o.account o.orderType = some f := by
  unfold OrderBook.apply RefBook.applyIf RefBook.apply
  rcases hc : cmd.cmd with o | ⟨account, orderId⟩ | ⟨symbol, account⟩ | account
  · obtain ⟨f, hf, hfit⟩ := canFullyFill_ok h (o.aggressor cmd.seq cmd.tsNs) o.qty
    obtain ⟨b', evs, e, htops, hsim⟩ := applyNewOrder_of h (hseq cmd.seq (newOrderSeq_of_newOrder hc)) cmd.tsNs o hf
    exact ⟨b', evs, f, e, htops, hsim, fun hc => by rw [hfit hc]; rfl, fun o' ho' => InboundCommand.newOrder.inj ho' ▸ hf⟩
  · obtain ⟨b', e, hsim⟩ := applyCancel_ok h cmd.seq account orderId
    exact ⟨b', _, false, e, TopsAfter.refl _, hsim, fun _ => rfl, fun _ ho => by cases ho⟩
  · exact ⟨b, [], false, rfl, TopsAfter.refl _, h, fun _ => rfl, fun _ ho => by cases ho⟩
  · exact ⟨b, [], false, rfl, TopsAfter.refl _, h, fun _ => rfl, fun _ ho => by cases ho⟩

theorem Below.newOrderIf {seq n : UInt64} (h : Below r n) (hlt : seq < n) (tsNs : UInt64) (o : InboundNewOrder)
    (f : Bool) : Below (r.newOrderIf c seq tsNs o f).1 n := by
  have hswept : Below (r.afterSweep seq tsNs o) n := h.sweep (o.aggressor seq tsNs) o.qty o.side.opposite
  have hout := newOrderIf_outcome c r seq tsNs o f
  generalize r.newOrderIf c seq tsNs o f = res at hout ⊢
  rcases hout with rej | hw | ⟨hw, he⟩ | ⟨hw, he⟩
  · exact h
  · exact hswept
  · exact hswept
  · refine hswept.setSide fun x hx => ?_
    rcases (List.mem_orderedInsert _).mp hx with rfl | hx
    · exact hlt
    · exact hswept o.side x hx

theorem Below.cancel {n : UInt64} (h : Below r n) (seq : UInt64) (account : AccountId) (orderId : OrderId) :
    Below (r.cancel seq account orderId).1 n := by
  simp only [RefBook.cancel]
  repeat' split
  all_goals first | exact h | skip
  intro s x hx
  cases s
  · exact h .buy x (List.mem_of_mem_filter hx)
  · exact h .sell x (List.mem_of_mem_filter hx)

/-- What rests after a command is older than every later order. -/
theorem Below.applyIf {n : UInt64} (h : Below r n) (cmd : SequencedCommand) (f : Bool)
    (hcmd : ∀ seq ∈ cmd.newOrderSeq, seq < n) : Below (r.applyIf c cmd f).1 n := by
  unfold RefBook.applyIf
  unfold SequencedCommand.newOrderSeq at hcmd
  split
  · exact h.newOrderIf (hcmd cmd.seq (by rename_i hc; rw [hc]; rfl)) _ _ _
  · exact h.cancel _ _ _
  · exact h
  · exact h

end Proof.Book

end MRE
