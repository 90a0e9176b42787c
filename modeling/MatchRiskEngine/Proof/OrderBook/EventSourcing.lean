import MatchRiskEngine.Proof.OrderBook.Runs

/-!
# The book's events determine its open orders

Whatever a command does to the resting orders, its events tell a reader of
the stream (`applyIf_told`), so that replaying the events of a run gives
exactly the open orders (`replay_run`). The sweep is followed order by order
(`Swept.told`).

Matching a new order reaches the live orders that cross and have less than its
quantity on offer ahead of them (`OrderBook.Reaches`). If none of them is of the
taker's own account, matching only trades (`trades_of_reaches`).
-/

namespace MRE

open SlotMap

def RefOrder.openOrder (o : RefOrder) : OpenOrder :=
  { account := o.account, side := o.side, price := o.price, qty := o.qty }

variable {evs : List EngineEvent}

namespace Proof.Book

variable {M K : Type} [DecidableEq K] [Arena M K]

variable {c : RefConfig} {b b₀ : OrderBook M K} {r : RefBook} {m : OpenOrders} {s : Side}

/-- The table holds the orders `os`. -/
def Told (m : OpenOrders) (os : List RefOrder) : Prop := Ledger.Tracks RefOrder.id RefOrder.openOrder m os

/-- All orders of the book, those of side `s` first. -/
def ordersFrom (r : RefBook) (s : Side) : List RefOrder := r.side s ++ r.side s.opposite

theorem mem_ordersFrom {o : RefOrder} : o ∈ ordersFrom r s ↔ ∃ s', o ∈ r.side s' := by
  rw [ordersFrom, List.mem_append]
  refine ⟨fun h => h.elim (⟨s, ·⟩) (⟨s.opposite, ·⟩), fun ⟨s', h⟩ => ?_⟩
  cases s <;> cases s'
  · exact .inl h
  · exact .inr h
  · exact .inr h
  · exact .inl h

theorem Told.turn {s' : Side} (h : Told m (ordersFrom r s)) : Told m (ordersFrom r s') :=
  Ledger.Tracks.congr h fun _ => by rw [mem_ordersFrom, mem_ordersFrom]

theorem Sim.nodup_ids (h : Sim c b r) (s : Side) : ((ordersFrom r s).map RefOrder.id).Nodup := by
  obtain ⟨Q, hb, hl⟩ := h
  refine List.Nodup.map_on (fun x hx y hy e => ?_) (List.nodup_append.mpr
    ⟨RefOrder.nodup_of_ahead (hl.sorted _), RefOrder.nodup_of_ahead (hl.sorted _), fun x hx y hy e => ?_⟩)
  · obtain ⟨s₁, hx⟩ := mem_ordersFrom.mp hx
    obtain ⟨s₂, hy⟩ := mem_ordersFrom.mp hy
    obtain ⟨-, k, hk⟩ := hl.mem.mp hx
    obtain ⟨-, k', hk'⟩ := hl.mem.mp hy
    rw [hb.ids.inj hk hk' e, hk'] at hk
    exact (Option.some.inj hk).symm
  · have h₁ := (hl.mem.mp hx).1
    rw [e, (hl.mem.mp hy).1] at h₁
    exact absurd h₁ (by cases s <;> decide)

/-- The events of a sweep, told of the orders `os` of one side and the orders
`rest` of the other. -/
theorem Swept.told {a : Aggressor} {os os' rest : List RefOrder} {qty qty' : Qty}
    (h : Swept a os qty os' qty' evs) (hm : Told m (os ++ rest)) (hid : ((os ++ rest).map RefOrder.id).Nodup) :
    Told (m.replay evs) (os' ++ rest) := by
  induction h generalizing m with
  | nil | stop => exact hm
  | own _ _ _ _ ih => exact ih (Ledger.Tracks.drop_head hm (ne_of_nodup_ids hid)) (List.nodup_cons.mp hid).2
  | full _ _ _ _ _ ih =>
    refine ih (Ledger.Tracks.cut_all hm (ne_of_nodup_ids hid) ?_) (List.nodup_cons.mp hid).2
    exact if_pos (UInt64.sub_self _)
  | @part o os qty _ _ _ hlt =>
    refine Ledger.Tracks.cut_head hm (ne_of_nodup_ids hid)
      (show RefOrder.id { o with qty := ⟨o.qty.raw - qty.raw⟩ } = o.id from rfl) ?_
    exact if_neg (UInt64.sub_ne_zero_of_lt hlt)

theorem replay_append (m : OpenOrders) (evs evs' : List EngineEvent) :
    m.replay (evs ++ evs') = (m.replay evs).replay evs' := List.foldl_append

theorem replay_tops {m : OpenOrders} {tops : List EngineEvent} (h : ∀ e ∈ tops, e.isBookTop = true) :
    m.replay tops = m := by
  induction tops with
  | nil => rfl
  | cons e tops ih =>
    obtain ⟨he, htops⟩ := List.forall_mem_cons.mp h
    cases e with
    | bookTop => exact ih htops
    | _ => cases he

/-- The table has no entry for an order that is yet to come. -/
theorem Told.none_of_below {seq : UInt64} (hm : Told m (ordersFrom r s)) (h : Sim c b r) (hseq : Below r seq) :
    m ⟨seq⟩ = none := by
  obtain ⟨Q, hb, hl⟩ := h
  cases hs : m ⟨seq⟩ with
  | none => rfl
  | some v =>
    obtain ⟨o, ho, hid, -⟩ := (hm ⟨seq⟩ v).mp hs
    obtain ⟨s', ho⟩ := mem_ordersFrom.mp ho
    obtain ⟨-, k, hk⟩ := hl.mem.mp ho
    have hlt := hseq s' o ho
    rw [hb.placed.id hk] at hid
    rw [OrderId.mk.inj hid] at hlt
    exact absurd hlt (UInt64.lt_irrefl _)

/-- After the sweep of a new order its events are told, and nothing is known of
the order itself. -/
theorem afterSweep_told (h : Sim c b r) {seq : UInt64} (hseq : Below r seq) {tsNs : UInt64} {o : InboundNewOrder}
    (hm : Told m (ordersFrom r .buy)) {qty' : Qty} (hw : Swept (o.aggressor seq tsNs) (r.side o.side.opposite) o.qty
      ((r.afterSweep seq tsNs o).side o.side.opposite) qty' evs) :
    Told (m.replay evs) (ordersFrom (r.afterSweep seq tsNs o) .buy) ∧ m.replay evs ⟨seq⟩ = none := by
  obtain ⟨b₁, -, h₁⟩ := matchAgainstBook_ok h (o.aggressor seq tsNs) o.qty
  have hother : (r.afterSweep seq tsNs o).side o.side.opposite.opposite = r.side o.side.opposite.opposite :=
    RefBook.side_setSide_ne _ (by cases o.side <;> decide) _
  have htold : Told (m.replay evs) (ordersFrom (r.afterSweep seq tsNs o) o.side.opposite) := by
    rw [ordersFrom, hother]
    exact Swept.told hw hm.turn (h.nodup_ids o.side.opposite)
  exact ⟨htold.turn, htold.none_of_below h₁ (hseq.sweep (o.aggressor seq tsNs) o.qty o.side.opposite)⟩

theorem newOrderIf_told (h : Sim c b r) {seq : UInt64} (hseq : Below r seq) (tsNs : UInt64) (o : InboundNewOrder)
    (f : Bool) (hm : Told m (ordersFrom r .buy)) :
    Told (m.replay (r.newOrderIf c seq tsNs o f).2) (ordersFrom (r.newOrderIf c seq tsNs o f).1 .buy) := by
  have hout := newOrderIf_outcome c r seq tsNs o f
  generalize r.newOrderIf c seq tsNs o f = res at hout ⊢
  cases hout with
  | refused rej => exact hm
  | filled hw => exact (afterSweep_told h hseq hm hw).1
  | dropped hw he =>
    obtain ⟨htold, hfresh⟩ := afterSweep_told h hseq hm hw
    rw [replay_append]
    rcases he with ⟨rej, rfl⟩ | rfl
    · exact htold
    · show Told (Ledger.drop _ _) _
      rwa [Ledger.drop_eq_self hfresh]
  | @rested left evs hw e he =>
    obtain ⟨e₁, e₂, e₃, e₄, e₅⟩ := he
    obtain ⟨htold, hfresh⟩ := afterSweep_told h hseq hm hw
    have hput := Ledger.Tracks.put (x := o.resting seq left) htold fun y hy e => by
      rw [show (⟨seq⟩ : OrderId) = y.id from e.symm, (htold _ _).mpr ⟨y, hy, rfl, rfl⟩] at hfresh
      cases hfresh
    rw [replay_append]
    show Told (Ledger.put _ e.orderId _) _
    rw [e₁, e₂, e₃, e₄, e₅]
    refine Ledger.Tracks.congr hput fun x => ?_
    rw [List.mem_cons, mem_ordersFrom, mem_ordersFrom, RefBook.exists_mem_setSide, List.mem_orderedInsert, or_assoc,
      ← List.mem_append]
    exact or_congr_right (mem_ordersFrom (s := o.side))

theorem cancel_told (seq : UInt64) (account : AccountId) (orderId : OrderId)
    (hm : Told m (ordersFrom r .buy)) :
    Told (m.replay (r.cancel seq account orderId).2) (ordersFrom (r.cancel seq account orderId).1 .buy) := by
  unfold RefBook.cancel
  split
  · exact hm
  · split
    · show Told (m.drop orderId) (_ ++ _)
      have := Ledger.Tracks.drop hm orderId
      rwa [ordersFrom, List.filter_append] at this
    · exact hm

/-- What a command does to the resting orders, its events tell. -/
theorem applyIf_told (h : Sim c b r) (cmd : SequencedCommand) (hseq : ∀ n ∈ cmd.newOrderSeq, Below r n) (f : Bool)
    (hm : Told m (ordersFrom r .buy)) :
    Told (m.replay (r.applyIf c cmd f).2) (ordersFrom (r.applyIf c cmd f).1 .buy) := by
  unfold RefBook.applyIf
  unfold SequencedCommand.newOrderSeq at hseq
  split
  · rename_i o hc
    rw [hc] at hseq
    exact newOrderIf_told h (hseq cmd.seq rfl) cmd.tsNs o f hm
  · exact cancel_told cmd.seq _ _ hm
  · exact hm
  · exact hm

theorem run_told {cmds : List SequencedCommand} (h : Sim c b r) (hinc : Increasing cmds) (hfresh : Fresh r cmds)
    (hm : Told m (ordersFrom r .buy)) :
    ∃ b' evss r', b.run cmds = some (b', evss) ∧ Sim c b' r' ∧ Told (m.replay evss.flatten) (ordersFrom r' .buy) := by
  induction cmds generalizing b r m with
  | nil => exact ⟨b, [], r, rfl, h, hm⟩
  | cons cmd cmds ih =>
    obtain ⟨b₁, evs, f, e₁, ⟨tops, rfl, htops⟩, h₁, -⟩ := apply_ok h cmd hfresh.head
    have hm₁ := applyIf_told h cmd hfresh.head f hm
    obtain ⟨b', evss, r', e', h', hm'⟩ := ih h₁ (Increasing.tail hinc) (hfresh.tail hinc c f) hm₁
    refine ⟨b', ((r.applyIf c cmd f).2 ++ tops) :: evss, r', ?_, h', ?_⟩
    · rw [OrderBook.run, e₁, Option.bind_eq_bind, Option.bind_some]
      simp only [e', Option.bind_eq_bind, Option.bind_some]
    · rwa [List.flatten_cons, replay_append, replay_append, replay_tops htops]

/-- The table holds the open orders of a book. -/
def HoldsOpenOrders (m : OpenOrders) (b : OrderBook M K) : Prop :=
  ∀ id v, m id = some v ↔ ∃ k ro, get? b.arena k = some ro ∧ ro.id = id ∧ ro.openOrder = v

theorem Told.holds (hm : Told m (ordersFrom r .buy)) (h : Sim c b r) : HoldsOpenOrders m b := by
  obtain ⟨Q, -, hl⟩ := h
  intro id v
  refine (hm id v).trans ⟨fun ⟨o, ho, e, ev⟩ => ?_, fun ⟨k, ro, hro, e, ev⟩ => ?_⟩
  · obtain ⟨s, ho⟩ := mem_ordersFrom.mp ho
    obtain ⟨-, k, hk⟩ := hl.mem.mp ho
    obtain ⟨ro, hro, rfl⟩ := get?_of_dataOf hk
    exact ⟨k, ro, hro, e, ev⟩
  · exact ⟨ro.data, mem_ordersFrom.mpr ⟨ro.side, hl.mem.mpr ⟨rfl, k, dataOf_of_get? hro⟩⟩, e, ev⟩

/-- Replaying the events of a run gives the open orders of the book. -/
theorem replay_run {cfg : BookConfig} (hnew : OrderBook.new cfg = some b₀) {cmds : List SequencedCommand}
    (hinc : Increasing cmds) :
    ∃ b evss, b₀.run cmds = some (b, evss) ∧ HoldsOpenOrders (OpenOrders.empty.replay evss.flatten) b := by
  obtain ⟨b, evss, r', e, h, hm⟩ := run_told (new_ok hnew).1 hinc (fun _ _ s x hx => by cases s <;> cases hx)
    (show Told OpenOrders.empty (ordersFrom RefBook.empty .buy) from Ledger.Tracks.empty)
  exact ⟨b, evss, e, hm.holds h⟩

theorem replay_run_demo : ∃ (b₀ b : OrderBook SlotArena SlotKey)
    (evss : List (List EngineEvent)), OrderBook.new demoConfig = some b₀ ∧ b₀.run demoCommands = some (b, evss) ∧
    HoldsOpenOrders (OpenOrders.empty.replay evss.flatten) b := by
  obtain ⟨b₀, h₀⟩ := new_demoConfig
  obtain ⟨b, evss, h⟩ := replay_run h₀ (show Increasing demoCommands by decide)
  exact ⟨b₀, b, evss, h₀, h⟩

end Proof.Book

/-! ## The orders a new order reaches -/

/-- What the orders of `os` ahead of `x` offer to a taker of another account. -/
def RefOrder.offeredAhead (account : AccountId) (os : List RefOrder) (x : RefOrder) : Nat :=
  ((os.filter fun y => y.side = x.side ∧ y.ahead x.side x).map (RefOrder.avail account)).sum

/-- Matching `a` reaches the resting order `x`: it crosses, and the live orders
ahead of it offer less than the quantity. -/
def OrderBook.Reaches {M K : Type} [DecidableEq K] [Arena M K] (b : OrderBook M K) (a : Aggressor)
    (qty : Qty) (x : RefOrder) : Prop :=
  x.side = a.side.opposite ∧ a.crosses x.price = true ∧ x.offeredAhead a.account b.live < qty.raw.toNat

instance {M K : Type} [DecidableEq K] [Arena M K] (b : OrderBook M K) (a : Aggressor) (qty : Qty)
    (x : RefOrder) : Decidable (b.Reaches a qty x) :=
  inferInstanceAs (Decidable (_ ∧ _ ∧ _))

namespace Proof.Book

theorem avail_of_ne {account : AccountId} {o : RefOrder} (h : o.account ≠ account) : o.avail account = o.qty.raw.toNat :=
  if_neg h

theorem offeredAhead_cons_of_ahead {account : AccountId} {o x : RefOrder} (os : List RefOrder) (hs : o.side = x.side)
    (h : o.ahead x.side x) : x.offeredAhead account (o :: os) = o.avail account + x.offeredAhead account os := by
  rw [RefOrder.offeredAhead, List.filter_cons_of_pos (by simp [hs, h]), List.map_cons, List.sum_cons]
  rfl

theorem offeredAhead_head {account : AccountId} {o : RefOrder} {os : List RefOrder}
    (h : (o :: os).Pairwise (RefOrder.ahead o.side)) : o.offeredAhead account (o :: os) = 0 := by
  have hnone : (o :: os).filter (fun y => y.side = o.side ∧ y.ahead o.side o) = [] := by
    refine List.filter_eq_nil_iff.mpr fun y hy => ?_
    simp only [decide_eq_true_eq, not_and]
    intro _ hya
    rcases List.mem_cons.mp hy with rfl | hy
    · exact RefOrder.ahead_irrefl _ _ hya
    · exact RefOrder.ahead_irrefl _ _ (RefOrder.ahead_trans hya ((List.pairwise_cons.mp h).1 y hy))
  rw [RefOrder.offeredAhead, hnone]
  rfl

/-- A sweep that reaches no order of the taker's own only trades. -/
theorem Swept.trades {a : Aggressor} {os os' : List RefOrder} {qty qty' : Qty}
    (h : Swept a os qty os' qty' evs) (hs : os.Pairwise (RefOrder.ahead a.side.opposite))
    (hside : ∀ x ∈ os, x.side = a.side.opposite)
    (hown : ∀ x ∈ os, a.crosses x.price = true → x.offeredAhead a.account os < qty.raw.toNat → x.account ≠ a.account) :
    ∀ ev ∈ evs, ∃ o q fill, ev = a.tradeWith o q fill := by
  induction h with
  | nil | stop => exact fun ev hev => nomatch hev
  | @own o os os' qty qty' evs hz hx hacct _ _ =>
    have hhead : o.side = a.side.opposite := hside o List.mem_cons_self
    have hpos := UInt64.toNat_pos hz
    refine absurd hacct (hown o List.mem_cons_self hx ?_)
    rw [offeredAhead_head (by rw [hhead]; exact hs)]
    exact hpos
  | @full o os os' qty qty' evs hz hx hacct hle _ ih =>
    obtain ⟨hahead, hs'⟩ := List.pairwise_cons.mp hs
    obtain ⟨hhead, hside'⟩ := List.forall_mem_cons.mp hside
    refine List.forall_mem_cons.mpr ⟨⟨_, _, _, rfl⟩, ih hs' hside' fun x hx' hc hlt => ?_⟩
    refine hown x (List.mem_cons_of_mem o hx') hc ?_
    rw [offeredAhead_cons_of_ahead os (by rw [hhead, hside' x hx']) (by rw [hside' x hx']; exact hahead x hx'),
      avail_of_ne hacct]
    have hle := UInt64.le_iff_toNat_le.mp (UInt64.not_lt.mp hle)
    rw [UInt64.toNat_sub_of_le _ _ (UInt64.le_iff_toNat_le.mpr hle)] at hlt
    omega
  | part => exact List.forall_mem_cons.mpr ⟨⟨_, _, _, rfl⟩, fun ev hev => nomatch hev⟩

variable {M K : Type} [DecidableEq K] [Arena M K]

variable {c : RefConfig} {b : OrderBook M K} {r : RefBook} {s : Side}

theorem Sim.live_perm (h : Sim c b r) (s : Side) : b.live.Perm (ordersFrom r s) := by
  obtain ⟨Q, hb, hl⟩ := id h
  have hlive : b.live = (keys b.arena).filterMap (dataOf b.arena) := by
    rw [OrderBook.live, values, List.map_filterMap]
    rfl
  have hnodup : b.live.Nodup := by
    rw [hlive]
    refine List.Nodup.filterMap (fun k k' o hk hk' => ?_) (nodup_keys b.arena)
    exact hb.ids.inj hk hk' rfl
  refine (List.perm_ext_iff_of_nodup hnodup (List.Nodup.of_map _ (h.nodup_ids s))).mpr fun o => ?_
  rw [hlive, List.mem_filterMap, mem_ordersFrom]
  constructor
  · rintro ⟨k, -, hk⟩
    exact ⟨o.side, hl.mem.mpr ⟨rfl, k, hk⟩⟩
  · rintro ⟨s', ho⟩
    obtain ⟨-, k, hk⟩ := hl.mem.mp ho
    exact ⟨k, mem_keys.mpr (by rw [← dataOf_isSome, hk]; rfl), hk⟩

theorem Sim.mem_live (h : Sim c b r) {o : RefOrder} : o ∈ b.live ↔ ∃ s, o ∈ r.side s := by
  rw [(h.live_perm .buy).mem_iff, mem_ordersFrom]

/-- Only the orders of its own side count for what is ahead of an order. -/
theorem Sim.offeredAhead_live (h : Sim c b r) (account : AccountId) {x : RefOrder} (hx : x.side = s) :
    x.offeredAhead account b.live = x.offeredAhead account (r.side s) := by
  obtain ⟨Q, hb, hl⟩ := id h
  have hother : (r.side s.opposite).filter (fun y => y.side = x.side ∧ y.ahead x.side x) = [] := by
    refine List.filter_eq_nil_iff.mpr fun y hy => ?_
    simp only [decide_eq_true_eq, not_and]
    intro hside _
    rw [(hl.mem.mp hy).1, hx] at hside
    exact Side.opposite_ne s hside
  have hperm := ((h.live_perm s).filter fun y => y.side = x.side ∧ y.ahead x.side x).map (RefOrder.avail account)
  rw [RefOrder.offeredAhead, hperm.sum_nat, ordersFrom, List.filter_append, hother, List.append_nil]
  rfl

/-- Matching an order that reaches none of its own account's only trades. -/
theorem trades_of_reaches (h : Sim c b r) {a : Aggressor} {qty qty' : Qty} {os' : List RefOrder}
    (hown : ∀ x ∈ b.live, b.Reaches a qty x → x.account ≠ a.account)
    (hw : Swept a (r.side a.side.opposite) qty os' qty' evs) : ∀ ev ∈ evs, ∃ o q fill, ev = a.tradeWith o q fill := by
  obtain ⟨Q, hb, hl⟩ := id h
  refine Swept.trades hw (hl.sorted _) (fun x hx => (hl.mem.mp hx).1) fun x hx hc hlt => ?_
  have hside : x.side = a.side.opposite := (hl.mem.mp hx).1
  refine hown x (h.mem_live.mpr ⟨_, hx⟩) ⟨hside, hc, ?_⟩
  rwa [h.offeredAhead_live a.account hside]

end Proof.Book

end MRE
