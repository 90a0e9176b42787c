import MatchRiskEngine.Proof.OrderBook.Outcomes

/-!
# Best prices

The book is never crossed (`never_crossed`): an order rests only when the matching
loop has left no order of the other side that it crosses. The last `BookTop` event
carries the best prices of the book as long as no cancel takes away the only order
at a best price (`showsTop_iff_keepsBest`): a new order reports the best prices
after whatever it did, a cancel does not.
-/

namespace MRE

open SlotMap

namespace Proof.Book

variable {M K : Type} {b b' : OrderBook M K}

/-! ## The top-of-book stream -/

variable {evs : List EngineEvent}

theorem lastTop_append (h : ∀ e ∈ evs, e.isBookTop = false) (evs₀ : List EngineEvent) :
    lastTop (evs₀ ++ evs) = lastTop evs₀ := by
  rw [lastTop, List.foldl_append]
  induction evs generalizing evs₀ with
  | nil => rfl
  | cons e evs ih =>
    obtain ⟨he, hevs⟩ := List.forall_mem_cons.mp h
    have hkeep : topAfter (evs₀.foldl topAfter (none, none)) e = evs₀.foldl topAfter (none, none) := by
      cases e <;> first | rfl | cases he
    rw [List.foldl_cons, hkeep]
    exact ih hevs evs₀

theorem showsTop_concat {seq : UInt64} {symbol : Symbol} {top : EngineEvent} (h : b.bookTopEvent seq symbol = some top)
    (evs : List EngineEvent) : b.ShowsTop (evs ++ [top]) := by
  unfold OrderBook.bookTopEvent at h
  obtain ⟨bid, hbid, h⟩ := Option.bind_eq_some_iff.mp h
  obtain ⟨ask, hask, h⟩ := Option.bind_eq_some_iff.mp h
  rw [← Option.some.inj h, OrderBook.ShowsTop, lastTop, List.foldl_append]
  exact ⟨hbid, hask⟩

/-- Events that say nothing of the best prices are right if those stay. -/
theorem showsTop_append_iff {evs₀ evs : List EngineEvent} (h : b.ShowsTop evs₀) (hevs : ∀ e ∈ evs, e.isBookTop = false) :
    b'.ShowsTop (evs₀ ++ evs) ↔ ∀ s, b'.bestPrice s = b.bestPrice s := by
  rw [OrderBook.ShowsTop, lastTop_append hevs, ← h.1, ← h.2]
  refine ⟨fun ⟨hbid, hask⟩ s => ?_, fun h => ⟨h .buy, h .sell⟩⟩
  cases s
  · exact hbid
  · exact hask

/-- Every bid is below every ask. -/
def Apart (d : K → Option RefOrder) : Prop :=
  ∀ j k x y, d j = some x → d k = some y → x.side = .buy → y.side = .sell → x.price.raw < y.price.raw

theorem Apart.of_rests {d d' : K → Option RefOrder} (h : Apart d)
    (hrest : ∀ k x, d' k = some x → ∃ y, d k = some y ∧ x.IsRestOf y) : Apart d' := by
  intro j k x y hx hy hxs hys
  obtain ⟨x₀, hx₀, ex⟩ := hrest j x hx
  obtain ⟨y₀, hy₀, ey⟩ := hrest k y hy
  rw [ex] at hxs ⊢
  rw [ey] at hys ⊢
  exact h j k x₀ y₀ hx₀ hy₀ hxs hys

variable [DecidableEq K] [Arena M K]

variable {c : RefConfig} {cfg : BookConfig} {Q Q' : Side → Nat → List K} {s : Side} {i : Nat}

/-! ## Best prices and best pointers -/

/-- The best price of a side is the price at its best pointer. -/
theorem Sound.bestPrice_eq (hb : Sound c b Q) (s : Side) : b.bestPrice s = some ((b.best s).map b.idxToPrice) := by
  have hlevel : b.bestPrice s = OrderBook.levelPrice (b.ladder s) (b.best s) := by cases s <;> rfl
  have hbest := hb.best s
  rw [hlevel]
  cases h : b.best s with
  | none => rfl
  | some i =>
    rw [h] at hbest
    obtain ⟨l, hl⟩ := hb.occupied hbest.1
    have hempty : l.isEmpty = false := by
      rw [(hb.level hl).isEmpty, List.isEmpty_eq_false_iff]
      exact hbest.1
    rw [OrderBook.levelPrice, hl, Option.map_some, Option.filter_some, hempty, Bool.not_false, if_pos rfl,
      Option.map_some, Option.map_some, hb.idxToPrice (hb.price hl)]

theorem Shape.index?_idxToPrice (hb : Shape c b Q) (hq : Q s i ≠ []) : c.index? (b.idxToPrice i) = some i := by
  obtain ⟨l, hl⟩ := hb.occupied hq
  rw [hb.idxToPrice (hb.price hl)]
  exact hb.price hl

theorem Sound.bind_index? (hb : Sound c b Q) (s : Side) : ((b.best s).map b.idxToPrice).bind c.index? = b.best s := by
  have hbest := hb.best s
  cases h : b.best s with
  | none => rfl
  | some i =>
    rw [h] at hbest
    exact hb.index?_idxToPrice hbest.1

theorem Sound.bestPrice_inj (hb : Sound c b Q) (hb' : Sound c b' Q') (s : Side) :
    b'.bestPrice s = b.bestPrice s ↔ b'.best s = b.best s := by
  have hprice : b'.idxToPrice = b.idxToPrice := by
    have hfloor : b'.tickFloor = b.tickFloor := congrArg RefConfig.tickFloor (hb'.config.trans hb.config.symm)
    funext i
    rw [OrderBook.idxToPrice, OrderBook.idxToPrice, hfloor]
  rw [hb.bestPrice_eq, hb'.bestPrice_eq, hprice, Option.some.injEq]
  refine ⟨fun e => ?_, fun e => by rw [e]⟩
  have e := congrArg (Option.bind · c.index?) e
  have hb'' := hb'.bind_index? s
  rw [hprice] at hb''
  exact (hb''.symm.trans e).trans (hb.bind_index? s)

theorem isBest_unique {occ : Nat → Prop} {x y : Option Nat} (hx : IsBest s occ x) (hy : IsBest s occ y) : y = x := by
  cases x with
  | none => exact (isBest_none_iff hy).mpr hx
  | some i => exact (isBest_iff hy).mpr hx

/-- When an order leaves its queue, the best pointers stay unless it was the
only one at the best index of its side. -/
theorem Sound.best_eq_iff {ks : List K} (hb : Sound c b Q) (hb' : Sound c b' (setQueue Q s i ks)) (hq : Q s i ≠ []) :
    (∀ s', b'.best s' = b.best s') ↔ ¬ (b.best s = some i ∧ ks = []) := by
  constructor
  · rintro h ⟨hbest, hks⟩
    have hbest' := hb'.best s
    rw [h, hbest] at hbest'
    exact hbest'.1 (by rw [setQueue_self, hks])
  intro h s'
  have hbest := hb.best s'
  have hbest' := hb'.best s'
  rcases eq_or_ne s' s with rfl | hs
  · cases hm : b.best s' with
    | none =>
      rw [hm] at hbest
      exact absurd hq (hbest i)
    | some m =>
      rw [hm] at hbest
      have hocc : ∀ j, setQueue Q s' i ks s' j ≠ [] → Q s' j ≠ [] := fun j hj => by
        rcases eq_or_ne j i with rfl | hji
        · exact hq
        · rwa [setQueue_ne _ _ fun e => hji e.2] at hj
      refine (isBest_iff hbest').mpr ⟨?_, fun j hj => hbest.2 j (hocc j hj)⟩
      rcases eq_or_ne m i with rfl | hmi
      · rw [setQueue_self]
        exact fun hks => h ⟨hm, hks⟩
      · rw [setQueue_ne _ _ fun e => hmi e.2]
        exact hbest.1
  · simp only [setQueue_ne Q ks fun e : s' = s ∧ _ = i => hs e.1] at hbest'
    exact isBest_unique hbest hbest'

/-! ## What the commands report -/

theorem Valid.showsTop_applied (hb : Valid c b Q) {evs₀ evs : List EngineEvent} (h : b.ShowsTop evs₀) {seq tsNs : UInt64}
    {o : InboundNewOrder} (ha : Applied b seq tsNs o b' evs) : b'.ShowsTop (evs₀ ++ evs) := by
  cases ha with
  | refused _ rej => exact (showsTop_append_iff h (noTops_singleton rfl)).mpr fun s => rfl
  | filled hm hz ht =>
    rw [← List.append_assoc]
    exact showsTop_concat ht _
  | @full b₁ left evs hm hz hrests hfull rej =>
    obtain ⟨rfl, rfl⟩ := hb.full_idle hm hz hfull
    exact (showsTop_append_iff h (noTops_singleton rfl)).mpr fun s => rfl
  | cancelled hm hz hlt ht => exact List.append_cons _ _ _ ▸ List.append_assoc _ _ _ ▸ showsTop_concat ht _
  | unmatched hm hz hle rej ht => exact List.append_cons _ _ _ ▸ List.append_assoc _ _ _ ▸ showsTop_concat ht _
  | rested hm hz hrests hroom hidx hrest ht =>
    exact List.append_cons _ _ _ ▸ List.append_assoc _ _ _ ▸ showsTop_concat ht _

/-- A cancel takes away the only order at a best price, in terms of the
queues. -/
theorem Sound.emptiesBest_iff (hb : Sound c b Q) {id : OrderId} {k : K} {ro : RestingOrder K} {as bs : List K}
    (hk : b.idToKey id = some k) (hro : get? b.arena k = some ro) (hi : c.index? ro.price = some i)
    (hq : Q ro.side i = as ++ k :: bs) :
    b.EmptiesBest ro.account id ↔ b.best ro.side = some i ∧ as ++ bs = [] := by
  have hmem : ∀ {j}, j ∈ Q ro.side i ↔
      ∃ x : RestingOrder K, get? b.arena j = some x ∧ x.side = ro.side ∧ x.price = ro.price := by
    intro j
    rw [hb.seated.mem]
    constructor
    · rintro ⟨x, hx, hs, hp⟩
      obtain ⟨ro', hro', rfl⟩ := get?_of_dataOf hx
      exact ⟨ro', hro', hs, (hb.idxToPrice hp).symm.trans (hb.idxToPrice hi)⟩
    · rintro ⟨x, hx, hs, hp⟩
      exact ⟨x.data, dataOf_of_get? hx, hs, (congrArg c.index? hp).trans hi⟩
  have hbest : b.bestPrice ro.side = some (some ro.price) ↔ b.best ro.side = some i := by
    rw [hb.bestPrice_eq, Option.some.injEq]
    refine ⟨fun e => ?_, fun e => by rw [e, Option.map_some, hb.idxToPrice hi]⟩
    rw [← hb.bind_index?, e]
    exact hi
  have honly : (∀ j x, get? b.arena j = some x → x.side = ro.side → x.price = ro.price → j = k) ↔ as ++ bs = [] := by
    have hnd := hb.seated.nodup ro.side i
    rw [hq] at hnd
    have hkn : k ∉ as ++ bs := fun hin => (List.nodup_middle.mp hnd).notMem hin
    constructor
    · intro h
      refine List.eq_nil_iff_forall_not_mem.mpr fun j hj => ?_
      have hjq : j ∈ Q ro.side i := by
        rw [hq, List.mem_append, List.mem_cons]
        exact (List.mem_append.mp hj).imp_right .inr
      obtain ⟨x, hx, hs, hp⟩ := hmem.mp hjq
      exact hkn (h j x hx hs hp ▸ hj)
    · intro h j x hx hs hp
      have hjq := hmem.mpr ⟨x, hx, hs, hp⟩
      obtain ⟨rfl, rfl⟩ := List.append_eq_nil_iff.mp h
      rw [hq] at hjq
      exact List.mem_singleton.mp hjq
  rw [← hbest, ← honly]
  constructor
  · rintro ⟨k', o', hk', ho', -, hp, hu⟩
    rw [hk] at hk'
    cases hk'
    rw [hro] at ho'
    cases ho'
    exact ⟨hp, hu⟩
  · rintro ⟨hp, hu⟩
    exact ⟨k, ro, hk, hro, rfl, hp, hu⟩

/-- One command: the stream stays right exactly if the command is not a cancel
of the only order at a best price. -/
theorem Valid.showsTop_iff (hb : Valid c b Q) {evs₀ evs : List EngineEvent} (h : b.ShowsTop evs₀) {cmd : SequencedCommand}
    (e : b.apply cmd = some (b', evs)) : b'.ShowsTop (evs₀ ++ evs) ↔ b.KeepsBest cmd := by
  obtain ⟨heff, Q', hb'⟩ := hb.effect e
  cases heff with
  | newOrder hc ha =>
    refine iff_of_true (hb.showsTop_applied h ha) fun account id hc' => ?_
    rw [hc] at hc'
    cases hc'
  | notCancelled hc hno rej =>
    refine iff_of_true ((showsTop_append_iff h (noTops_singleton rfl)).mpr fun s => rfl) fun account id hc' => ?_
    rw [hc] at hc'
    cases hc'
    rintro ⟨k, o, hk, ho, hacct, -⟩
    exact hno k o hk ho hacct
  | @cancelled id k ro hc hk hro _ hcancel =>
    obtain ⟨i, as, bs, hi, hq, hb', -⟩ := hb.of_cancelled hk hro hcancel
    have hne : Q ro.side i ≠ [] := by rw [hq]; exact List.append_ne_nil_of_right_ne_nil _ (List.cons_ne_nil _ _)
    rw [showsTop_append_iff h (noTops_singleton rfl), forall_congr' (hb.toSound.bestPrice_inj hb'.toSound),
      hb.toSound.best_eq_iff hb'.toSound hne, ← hb.toSound.emptiesBest_iff hk hro hi hq]
    refine ⟨fun hno account id' hc' => ?_, fun hkeep => hkeep _ _ hc⟩
    rw [hc] at hc'
    cases hc'
    exact hno
  | idle hnew hcancel =>
    exact iff_of_true ((showsTop_append_iff h fun e (he : e ∈ []) => nomatch he).mpr fun s => rfl)
      fun account id hc => absurd hc (hcancel account id)

theorem new_showsTop {b₀ : OrderBook M K} (hnew : OrderBook.new cfg = some b₀) : b₀.ShowsTop [] := by
  unfold OrderBook.new at hnew
  split at hnew
  · cases hnew
  · cases hnew
    exact ⟨rfl, rfl⟩

/-- After every command of a run the last `BookTop` event carries the best
prices of the book, exactly if no command of the run is a cancel of the only
order at a best price. -/
theorem showsTop_iff_keepsBest {b₀ : OrderBook M K} (hnew : OrderBook.new cfg = some b₀) (cmds : List SequencedCommand) :
    b₀.AlwaysAfter OrderBook.ShowsTop cmds ↔ b₀.AllCommands OrderBook.KeepsBest cmds := by
  obtain ⟨Q, hb₀⟩ := new_valid hnew
  exact hb₀.always_iff (P := OrderBook.ShowsTop) (fun hb h e => hb.showsTop_iff h e) [] (new_showsTop hnew) cmds

theorem showsTop_iff_keepsBest_demo : ∃ b₀ : OrderBook SlotArena SlotKey,
    OrderBook.new demoConfig = some b₀ ∧
      (b₀.AlwaysAfter OrderBook.ShowsTop demoCommands ↔ b₀.AllCommands OrderBook.KeepsBest demoCommands) := by
  obtain ⟨b₀, h₀⟩ := new_demoConfig
  exact ⟨b₀, h₀, showsTop_iff_keepsBest h₀ demoCommands⟩

/-- An order comes to rest at 105 and is cancelled. -/
def cancelBest : List SequencedCommand :=
  demoCommands.take 1 ++ [{ term := 1, seq := 2, tsNs := 0, cmd := .cancel ⟨10⟩ ⟨1⟩ }]

theorem run_cancelBest :
    ((OrderBook.new demoConfig : Option (OrderBook SlotArena SlotKey)).bind fun b₀ =>
      (b₀.run cancelBest).map fun r => (lastTop r.2.flatten, r.1.bestBid, r.1.bestAsk)) =
    some ((none, some ⟨105⟩), some none, some none) := rfl

/-- The stream still shows an ask of 105 when the book is empty. -/
theorem cancelBest_stale : ∃ (b₀ b : OrderBook SlotArena SlotKey) (evss : List (List EngineEvent)),
    OrderBook.new demoConfig = some b₀ ∧ b₀.run cancelBest = some (b, evss) ∧
      lastTop evss.flatten = (none, some ⟨105⟩) ∧ b.bestAsk = some none ∧
      ¬ b₀.AlwaysAfter OrderBook.ShowsTop cancelBest := by
  obtain ⟨b₀, hnew, hrun⟩ := Option.bind_eq_some_iff.mp run_cancelBest
  obtain ⟨⟨b, evss⟩, hrun, hr⟩ := Option.map_eq_some_iff.mp hrun
  have htop : lastTop evss.flatten = (none, some ⟨105⟩) := congrArg Prod.fst hr
  have hask : b.bestAsk = some none := congrArg (fun x => x.2.2) hr
  refine ⟨b₀, b, evss, hnew, hrun, htop, hask, fun h => ?_⟩
  obtain ⟨b', evss', hrun', -, hshow⟩ := h cancelBest (List.prefix_refl _)
  rw [hrun] at hrun'
  cases hrun'
  rw [htop, hask] at hshow
  cases hshow

/-! ## No crossed book -/

theorem uncrossed_iff : b.Uncrossed ↔ Apart (dataOf b.arena) := by
  constructor
  · intro h j k x y hx hy
    obtain ⟨x, hx', rfl⟩ := get?_of_dataOf hx
    obtain ⟨y, hy', rfl⟩ := get?_of_dataOf hy
    exact h j k x y hx' hy'
  · intro h j k x y hx hy
    exact h j k x.data y.data (dataOf_of_get? hx) (dataOf_of_get? hy)

theorem Apart.insert {d : K → Option RefOrder} (h : Apart d) {a : Aggressor} {o : RefOrder} (hside : o.side = a.side)
    (hprice : o.price = a.price) (hno : ∀ j x, d j = some x → x.side = a.side.opposite → a.crosses x.price = false)
    (k : K) : Apart (Function.update d k (some o)) := by
  intro i j x y hx hy hxs hys
  rcases update_some_eq_some.mp hx with ⟨-, rfl⟩ | ⟨-, hx'⟩
  · have hbuy : a.side = .buy := hside.symm.trans hxs
    rcases update_some_eq_some.mp hy with ⟨-, rfl⟩ | ⟨-, hy'⟩
    · rw [hxs] at hys
      cases hys
    · rw [hprice]
      exact Aggressor.lt_of_not_crosses_buy hbuy (hno j y hy' (by rw [hys, hbuy]; rfl))
  · rcases update_some_eq_some.mp hy with ⟨-, rfl⟩ | ⟨-, hy'⟩
    · have hsell : a.side = .sell := hside.symm.trans hys
      rw [hprice]
      exact Aggressor.lt_of_not_crosses_sell hsell (hno i x hx' (by rw [hxs, hsell]; rfl))
    · exact h i j x y hx' hy' hxs hys

/-- What the matching loop leaves of the other side, if it does not fill the
order. -/
theorem Valid.matched_not_crosses (hb : Valid c b Q) {seq tsNs : UInt64} {o : InboundNewOrder}
    {b₁ : OrderBook M K} {left : Qty} (hm : Matched b seq tsNs o b₁ left evs)
    (hz : left.raw ≠ 0) {k : K} {x : RefOrder} (hx : dataOf b₁.arena k = some x) (hs : x.side = o.side.opposite) :
    (o.aggressor seq tsNs).crosses x.price = false := by
  obtain ⟨Q₁, os, hb₁, hw, hq, -⟩ := hb.of_matched hm
  refine hw.not_crosses (hb.queued_falls (o.aggressor seq tsNs)) hz x ?_
  have hmem := hb₁.mem_queued_iff.mpr ⟨hs, k, hx⟩
  rwa [hq, RefBook.side_setSide] at hmem

theorem Valid.apart_applied (hb : Valid c b Q) (h : Apart (dataOf b.arena)) {seq tsNs : UInt64}
    {o : InboundNewOrder} (ha : Applied b seq tsNs o b' evs) : Apart (dataOf b'.arena) := by
  have hmatched : ∀ {b₁ : OrderBook M K} {left : Qty} {evs : List EngineEvent}, Matched b seq tsNs o b₁ left evs →
      Apart (dataOf b₁.arena) := fun hm => by
    obtain ⟨Q₁, os, -, -, -, hrest⟩ := hb.of_matched hm
    exact h.of_rests hrest
  cases ha with
  | refused => exact h
  | filled hm => exact hmatched hm
  | cancelled hm => exact hmatched hm
  | unmatched hm => exact hmatched hm
  | full hm => exact hmatched hm
  | @rested b₁ _ left evs top i hm hz hrests hroom hidx hrest ht =>
    obtain ⟨k, -, hd, -⟩ := hb.of_rested hm hz hroom hidx hrest
    rw [hd]
    exact (hmatched hm).insert (a := o.aggressor seq tsNs) rfl rfl
      (fun j x hx hs => hb.matched_not_crosses hm hz hx hs) k

theorem Valid.apart (hb : Valid c b Q) (h : Apart (dataOf b.arena)) {cmd : SequencedCommand}
    (e : b.apply cmd = some (b', evs)) : Apart (dataOf b'.arena) := by
  cases (hb.effect e).1 with
  | newOrder hc ha => exact hb.apart_applied h ha
  | notCancelled => exact h
  | cancelled hc hk hro hcancel =>
    obtain ⟨i, as, bs, -, -, -, -, hd, -⟩ := hb.of_cancelled hk hro hcancel
    refine h.of_rests fun k x hx => ⟨x, ?_, rfl⟩
    rw [hd] at hx
    exact (update_none_eq_some.mp hx).2
  | idle => exact h

theorem Sound.bestPrice_mem (hb : Sound c b Q) {p : Price} (h : b.bestPrice s = some (some p)) :
    ∃ k x, dataOf b.arena k = some x ∧ x.side = s ∧ x.price = p := by
  rw [hb.bestPrice_eq, Option.some.injEq] at h
  obtain ⟨i, hi, rfl⟩ := Option.map_eq_some_iff.mp h
  obtain ⟨k, bs, x, hq, hx, hidx, -⟩ := hb.queued_head hi
  obtain ⟨y, hy, hs, -⟩ := hb.seated.mem.mp (hq ▸ List.mem_cons_self : k ∈ Q s i)
  rw [hx] at hy
  cases hy
  exact ⟨k, x, hx, hs, (hb.idxToPrice hidx).symm⟩

theorem Valid.best_lt (hb : Valid c b Q) (h : Apart (dataOf b.arena)) :
    ∃ bid ask, b.bestBid = some bid ∧ b.bestAsk = some ask ∧ ∀ p ∈ bid, ∀ q ∈ ask, p.raw < q.raw := by
  refine ⟨_, _, hb.toSound.bestPrice_eq .buy, hb.toSound.bestPrice_eq .sell, fun p hp q hq => ?_⟩
  obtain ⟨j, x, hx, hxs, rfl⟩ := hb.toSound.bestPrice_mem ((hb.toSound.bestPrice_eq .buy).trans (congrArg some hp))
  obtain ⟨k, y, hy, hys, rfl⟩ := hb.toSound.bestPrice_mem ((hb.toSound.bestPrice_eq .sell).trans (congrArg some hq))
  exact h j k x y hx hy hxs hys

/-- After every command of every run, the best bid is below the best ask, and
every resting bid is below every resting ask. -/
theorem never_crossed {b₀ : OrderBook M K} (hnew : OrderBook.new cfg = some b₀)
    (cmds : List SequencedCommand) :
    b₀.AlwaysAfter (fun b _ =>
      (∃ bid ask, b.bestBid = some bid ∧ b.bestAsk = some ask ∧ ∀ p ∈ bid, ∀ q ∈ ask, p.raw < q.raw) ∧
        b.Uncrossed) cmds := by
  obtain ⟨⟨Q₀, hrep, hl⟩, -⟩ := new_ok hnew
  obtain ⟨Q, hb₀⟩ := new_valid hnew
  have hnone : Apart (dataOf b₀.arena) := fun j k x y hx _ hxs _ => by
    have hmem := hl.mem.mpr ⟨rfl, j, hx⟩
    rw [hxs] at hmem
    cases hmem
  refine hb₀.always (fun hb h e => ?_) ⟨hb₀.best_lt hnone, uncrossed_iff.mpr hnone⟩ cmds
  obtain ⟨-, Q', hb'⟩ := hb.effect e
  have hapart := hb.apart (uncrossed_iff.mp h.2) e
  exact ⟨hb'.best_lt hapart, uncrossed_iff.mpr hapart⟩

theorem never_crossed_demo : ∃ b₀ : OrderBook SlotArena SlotKey,
    OrderBook.new demoConfig = some b₀ ∧ b₀.AlwaysAfter (fun b _ =>
      (∃ bid ask, b.bestBid = some bid ∧ b.bestAsk = some ask ∧ ∀ p ∈ bid, ∀ q ∈ ask, p.raw < q.raw) ∧
        b.Uncrossed) demoCommands := by
  obtain ⟨b₀, h₀⟩ := new_demoConfig
  exact ⟨b₀, h₀, never_crossed h₀ demoCommands⟩

end Proof.Book

end MRE
