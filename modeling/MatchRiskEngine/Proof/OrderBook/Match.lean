import MatchRiskEngine.Proof.OrderBook.Queues
import MatchRiskEngine.Proof.OrderBook.Sweep

/-!
# The matching loop

One pass of the matching loop is one step of the reference sweep: it stops
(`matchStep_stop`), cancels the first opposite order (`matchStep_own`), fills it
(`matchStep_full`) or fills the aggressor (`matchStep_partial`). So the whole loop
is the sweep and ends within its bound, for every relation between books and
reference books that the passes keep (`Sweeps.matchLoop`).

There are two of them. `Queued`: the book is well formed but for the order of its
queues, and the reference book lists its live orders queue by queue. `Sim`: the
book is well formed, and the reference book lists its live orders.
-/

namespace MRE

open SlotMap

namespace Proof.Book

variable {M K : Type}

@[simp] theorem setQueue_eq_self (Q : Side → Nat → List K) (s : Side) (i : Nat) : setQueue Q s i (Q s i) = Q := by
  funext s' i'
  unfold setQueue
  split
  · rename_i e; rw [e.1, e.2]
  · rfl

/-- The book after the level at `i` lost the order with the id `id`, before
the best pointer is moved. -/
def dropped (b : OrderBook M K) (s : Side) (i : Nat) (l : PriceLevel K) (arena : M) (id : OrderId) :
    OrderBook M K :=
  { ({ b with arena }.setLevel s i l) with idToKey := Function.update b.idToKey id none }

theorem ladder_dropped (b : OrderBook M K) (s s' : Side) (i : Nat) (l : PriceLevel K) (arena : M) (id : OrderId) :
    (dropped b s i l arena id).ladder s' = OrderBook.ladder ({ b with arena }.setLevel s i l) s' := by
  cases s' <;> rfl

theorem afterRemoval_eq {b : OrderBook M K} {s : Side} {i : Nat} (hi : i < (b.ladder s).length) (l : PriceLevel K)
    (arena : M) (id : OrderId) :
    ({ b with arena }.setLevel s i l).afterRemoval s i (some id) =
      if l.isEmpty then (dropped b s i l arena id).clearEmptyBest s i else some (dropped b s i l arena id) := by
  have hlad : OrderBook.ladder { b with arena } s = b.ladder s := by cases s <;> rfl
  have hg : ((dropped b s i l arena id).ladder s)[i]? = some (some l) := by
    rw [ladder_dropped, OrderBook.ladder_setLevel, if_pos rfl, hlad, List.getElem?_set_self hi]
  have he : (dropped b s i l arena id).isLevelEmpty s i = some l.isEmpty := by
    rw [OrderBook.isLevelEmpty, hg]; rfl
  have hid : ({ b with arena }.setLevel s i l).idToKey = b.idToKey := by cases s <;> rfl
  simp only [OrderBook.afterRemoval, Option.bind_eq_bind]
  rw [hid]
  show ((dropped b s i l arena id).isLevelEmpty s i).bind _ = _
  rw [he]
  rfl

theorem bestOpposite_eq (b : OrderBook M K) (a : Aggressor) :
    b.bestOpposite a = (b.best a.side.opposite).map fun i => (i, a.crosses (b.idxToPrice i)) := by
  cases hs : a.side <;> simp only [OrderBook.bestOpposite, Aggressor.crosses, hs] <;> rfl

variable [DecidableEq K] [Arena M K]

variable {c : RefConfig} {b : OrderBook M K} {Q : Side → Nat → List K} {r : RefBook} {s : Side} {i : Nat}
  {k : K} {as bs : List K} {o : RefOrder}

theorem get?_of_dataOf {arena : M} (h : dataOf arena k = some o) :
    ∃ ro, get? arena k = some ro ∧ ro.data = o := Option.map_eq_some_iff.mp h

theorem Shape.level_of_mem (hb : Shape c b Q) (hk : k ∈ Q s i) :
    ∃ l, (b.ladder s)[i]? = some (some l) ∧ LevelOk b.arena l (Q s i) ∧ c.index? l.price = some i := by
  obtain ⟨l, hl⟩ := hb.occupied (List.ne_nil_of_mem hk)
  exact ⟨l, hl, hb.level hl, hb.price hl⟩

/-! ## An order leaves the book -/

/-- The book `b'` is the book `b` without the order at the key `k`, whose queue
is `ks` now. -/
structure Removed (c : RefConfig) (b : OrderBook M K) (Q : Side → Nat → List K) (s : Side) (i : Nat) (k : K) (ks : List K)
    (id : OrderId) (b' : OrderBook M K) : Prop where
  sound : Sound c b' (setQueue Q s i ks)
  data : dataOf b'.arena = Function.update (dataOf b.arena) k none
  ids : b'.idToKey = Function.update b.idToKey id none

/-- Once the best pointer is moved, the book is well formed again. -/
theorem Sound.dropped_ok (hb : Sound c b Q) (hq : Q s i = as ++ k :: bs) {l : PriceLevel K} {arena : M}
    (hl : LevelOk arena l (as ++ bs)) (hp : c.index? l.price = some i)
    (hd : dataOf arena = Function.update (dataOf b.arena) k none) (ht : Touches (as ++ k :: bs) b.arena arena)
    (id : OrderId) :
    ∃ b', (if l.isEmpty then (dropped b s i l arena id).clearEmptyBest s i
        else some (dropped b s i l arena id)) = some b' ∧ Removed c b Q s i k (as ++ bs) id b' := by
  have hk : k ∈ Q s i := hq ▸ by simp
  have hi := hb.lt_of_occupied (List.ne_nil_of_mem hk)
  have hshape : Shape c ({ b with arena }.setLevel s i l) (setQueue Q s i (as ++ bs)) := by
    refine hb.setLevel hi hl hp (fun j _ hj => ht.outside j (hq ▸ hj)) ht.capacity ?_
    rw [hd]
    exact hb.seated.erase hq
  have hdrop : Shape c (dropped b s i l arena id) (setQueue Q s i (as ++ bs)) :=
    hshape.congr (by cases s <;> rfl) rfl (fun s' => ladder_dropped b s s' i l arena id)
  have harena : (dropped b s i l arena id).arena = arena := by cases s <;> rfl
  have hids : (dropped b s i l arena id).idToKey = Function.update b.idToKey id none := rfl
  have hbests : ∀ s', (dropped b s i l arena id).best s' = b.best s' := fun s' => by cases s <;> cases s' <;> rfl
  have hempty : l.isEmpty = (setQueue Q s i (as ++ bs) s i).isEmpty := by rw [setQueue_self, hl.isEmpty]
  have hother : ∀ s', s' ≠ s → ∀ j, setQueue Q s i (as ++ bs) s' j = Q s' j := fun s' hs' j =>
    setQueue_ne _ _ fun e => hs' e.1
  have hsub : ∀ j, setQueue Q s i (as ++ bs) s j ≠ [] → Q s j ≠ [] := by
    intro j hj
    by_cases e : j = i
    · rw [e]; exact List.ne_nil_of_mem hk
    · rwa [setQueue_ne _ _ fun h => e h.2] at hj
  have hne : ∀ j, j ≠ i → Q s j ≠ [] → setQueue Q s i (as ++ bs) s j ≠ [] := by
    intro j hj h
    rwa [setQueue_ne _ _ fun h => hj h.2]
  obtain ⟨best', he, hbest⟩ := hdrop.clearEmptyBest_ok hi (by rw [hbests]; exact hb.best s) hsub hne
  rw [hempty, he]
  refine ⟨_, rfl, ⟨hdrop.congr (by simp) (by simp) (by simp), fun s' => ?_⟩, ?_, ?_⟩
  · rcases eq_or_ne s' s with rfl | hs'
    · rw [OrderBook.best_setBest]; exact hbest
    · rw [OrderBook.best_setBest_opposite _ hs', hbests]
      simpa only [hother s' hs'] using hb.best s'
  · rw [OrderBook.arena_setBest, harena, hd]
  · rw [OrderBook.idToKey_setBest, hids]

/-- Self-trade prevention: the first order of a level is cancelled. -/
theorem cancelRestingHead_ok (hb : Sound c b Q) (hq : Q s i = k :: bs) (ho : dataOf b.arena k = some o) :
    ∃ b₁ b', b.cancelRestingHead s i = some (some o.id, b₁) ∧ b₁.afterRemoval s i (some o.id) = some b' ∧
      Removed c b Q s i k bs o.id b' := by
  obtain ⟨l, hg, hl, hp⟩ := hb.level_of_mem (hq ▸ List.mem_cons_self : k ∈ Q s i)
  obtain ⟨ro, hro, rfl⟩ := get?_of_dataOf ho
  rw [hq] at hl
  obtain ⟨l', arena', e, hl', hp', hd, ht⟩ := remove_ok (show LevelOk b.arena l ([] ++ k :: bs) from hl)
    (fun j hj => hb.live (hq ▸ hj : j ∈ Q s i)) hro
  obtain ⟨b', he, hrem⟩ := hb.dropped_ok (show Q s i = [] ++ k :: bs from hq) hl' (hp' ▸ hp) hd ht ro.data.id
  refine ⟨{ b with arena := arena' }.setLevel s i l', b', ?_, ?_, hrem⟩
  · simp only [OrderBook.cancelRestingHead, hg, PriceLevel.peekHead, hl.links.head_eq, List.head?_cons, e,
      Option.bind_eq_bind, Option.bind_some, Option.map_some]
    rfl
  · rw [afterRemoval_eq (List.getElem?_eq_some_iff.mp hg).1]
    exact he

theorem fillLevelHead_full (hb : Sound c b Q) (hq : Q s i = k :: bs) (ho : dataOf b.arena k = some o) :
    ∃ b₁ b', b.fillLevelHead s i o.qty = some (true, b₁) ∧ b₁.afterRemoval s i (some o.id) = some b' ∧
      Removed c b Q s i k bs o.id b' := by
  obtain ⟨l, hg, hl, hp⟩ := hb.level_of_mem (hq ▸ List.mem_cons_self : k ∈ Q s i)
  obtain ⟨ro, hro, rfl⟩ := get?_of_dataOf ho
  rw [hq] at hl
  obtain ⟨l', arena', e, hl', hp', hd, ht⟩ := fillHead_full hl (fun j hj => hb.live (hq ▸ hj : j ∈ Q s i)) hro
  obtain ⟨b', he, hrem⟩ := hb.dropped_ok (show Q s i = [] ++ k :: bs from hq) hl' (hp' ▸ hp) hd ht ro.data.id
  refine ⟨{ b with arena := arena' }.setLevel s i l', b', ?_, ?_, hrem⟩
  · have e : l.fillHead ro.data.qty b.arena = some (true, l', arena') := e
    simp only [OrderBook.fillLevelHead, hg, e, Option.bind_eq_bind, Option.bind_some]
  · rw [afterRemoval_eq (List.getElem?_eq_some_iff.mp hg).1]
    exact he

theorem fillLevelHead_partial (hb : Sound c b Q) (hq : Q s i = k :: bs) (ho : dataOf b.arena k = some o) {q : Qty}
    (hlt : q.raw < o.qty.raw) :
    ∃ b', b.fillLevelHead s i q = some (false, b') ∧ Sound c b' Q ∧
      dataOf b'.arena = Function.update (dataOf b.arena) k (some { o with qty := ⟨o.qty.raw - q.raw⟩ }) ∧
      b'.idToKey = b.idToKey := by
  have hk : k ∈ Q s i := hq ▸ List.mem_cons_self
  obtain ⟨l, hg, hl, hp⟩ := hb.level_of_mem hk
  obtain ⟨ro, hro, rfl⟩ := get?_of_dataOf ho
  obtain ⟨l', arena', e, hl', hp', hd, ht⟩ := fillHead_partial (hq ▸ hl) hro hlt
  have hshape : Shape c ({ b with arena := arena' }.setLevel s i l') (setQueue Q s i (Q s i)) := by
    refine hb.setLevel (hb.lt_of_occupied (List.ne_nil_of_mem hk)) (hq ▸ hl') (hp' ▸ hp)
      (fun j _ hj => ht.outside j (hq ▸ hj)) ht.capacity ?_
    rw [setQueue_eq_self, hd]
    exact hb.seated.setQty ho (UInt64.sub_ne_zero_of_lt hlt)
  rw [setQueue_eq_self] at hshape
  refine ⟨{ b with arena := arena' }.setLevel s i l', ?_, ⟨hshape, fun s' => ?_⟩, ?_, ?_⟩
  · simp only [OrderBook.fillLevelHead, hg, e, Option.bind_eq_bind, Option.bind_some]
  · rw [OrderBook.best_setLevel]
    have : OrderBook.best { b with arena := arena' } s' = b.best s' := by cases s' <;> rfl
    rw [this]
    exact hb.best s'
  · rw [OrderBook.arena_setLevel, hd]
    rfl
  · rw [OrderBook.idToKey_setLevel]

/-! ## One pass of the loop -/

variable {a : Aggressor} {qty : Qty} (evs : List EngineEvent)

/-- The loop ends when nothing is left to fill, or to fill it with. -/
theorem matchStep_stop (hstop : qty.raw = 0 ∨ b.best a.side.opposite = none ∨
      ∃ i, b.best a.side.opposite = some i ∧ a.crosses (b.idxToPrice i) = false) :
    OrderBook.matchStep a (b, qty, evs) = some (false, b, qty, evs) := by
  by_cases hz : qty.raw = 0
  · simp only [OrderBook.matchStep, hz, if_true]
  simp only [OrderBook.matchStep, hz, if_false, bestOpposite_eq]
  rcases hstop.resolve_left hz with hs | ⟨i, hs, hx⟩
  · rw [hs]; rfl
  · rw [hs, Option.map_some, hx]

/-- Where the book keeps the order at the head of a queue. -/
theorem Shape.head_level (hb : Shape c b Q) (hq : Q s i = k :: bs) (ho : dataOf b.arena k = some o) :
    ∃ l ro, (b.ladder s)[i]? = some (some l) ∧ l.peekHead = some k ∧ get? b.arena k = some ro ∧ ro.data = o := by
  obtain ⟨l, hg, hlev, -⟩ := hb.level_of_mem (hq ▸ List.mem_cons_self : k ∈ Q s i)
  obtain ⟨ro, hro, hdata⟩ := get?_of_dataOf ho
  rw [hq] at hlev
  exact ⟨l, ro, hg, hlev.links.head_eq, hro, hdata⟩

section Pass

variable (hb : Sound c b Q) (hs : b.best a.side.opposite = some i) (hq : Q a.side.opposite i = k :: bs)
  (ho : dataOf b.arena k = some o) (hz : qty.raw ≠ 0) (hx : a.crosses (b.idxToPrice i) = true)

include hb hs hq ho hz hx

/-- An order of the aggressor's own account is cancelled. -/
theorem matchStep_own (hacct : o.account = a.account) :
    ∃ b', OrderBook.matchStep a (b, qty, evs) = some (true, b', qty, evs ++ [.cancelled a.seq o.id]) ∧
      Removed c b Q a.side.opposite i k bs o.id b' := by
  obtain ⟨l, ro, hg, hhead, hro, rfl⟩ := hb.head_level hq ho
  obtain ⟨b₁, b', e₁, e₂, hsound⟩ := cancelRestingHead_ok hb hq ho
  refine ⟨b', ?_, hsound⟩
  have hacct : ro.account = a.account := hacct
  simp only [OrderBook.matchStep, hz, if_false, bestOpposite_eq, hs, Option.map_some, hx, hg, hhead, hro, hacct, if_true,
    e₁, e₂, Option.bind_eq_bind, Option.bind_some, Option.toList_some, List.map_cons, List.map_nil]

/-- An order that is not larger than what is left is filled. -/
theorem matchStep_full (hacct : o.account ≠ a.account) (hle : ¬ qty.raw < o.qty.raw) :
    ∃ b', OrderBook.matchStep a (b, qty, evs) =
        some (true, b', ⟨qty.raw - o.qty.raw⟩, evs ++ [a.tradeWith o qty o.qty]) ∧
      Removed c b Q a.side.opposite i k bs o.id b' := by
  obtain ⟨l, ro, hg, hhead, hro, rfl⟩ := hb.head_level hq ho
  obtain ⟨b₁, b', e₁, e₂, hsound⟩ := fillLevelHead_full hb hq ho
  refine ⟨b', ?_, hsound⟩
  have hacct : ¬ ro.account = a.account := hacct
  have hle : ¬ qty.raw < ro.qtyRemaining.raw := hle
  have e₁ : b.fillLevelHead a.side.opposite i ro.qtyRemaining = some (true, b₁) := e₁
  have e₂ : b₁.afterRemoval a.side.opposite i (some ro.id) = some b' := e₂
  simp only [OrderBook.matchStep, hz, if_false, bestOpposite_eq, hs, Option.map_some, hx, hg, hhead, hro, hacct, hle,
    if_true, e₁, e₂, Option.bind_eq_bind, Option.bind_some]
  rfl

theorem matchStep_partial (hacct : o.account ≠ a.account) (hlt : qty.raw < o.qty.raw) :
    ∃ b', OrderBook.matchStep a (b, qty, evs) =
        some (true, b', ⟨qty.raw - qty.raw⟩, evs ++ [a.tradeWith o qty qty]) ∧ Sound c b' Q ∧
      dataOf b'.arena = Function.update (dataOf b.arena) k (some { o with qty := ⟨o.qty.raw - qty.raw⟩ }) ∧
      b'.idToKey = b.idToKey := by
  obtain ⟨l, ro, hg, hhead, hro, rfl⟩ := hb.head_level hq ho
  obtain ⟨b', e₁, hsound⟩ := fillLevelHead_partial hb hq ho hlt
  refine ⟨b', ?_, hsound⟩
  have hacct : ¬ ro.account = a.account := hacct
  have hlt : qty.raw < ro.qtyRemaining.raw := hlt
  simp only [OrderBook.matchStep, hz, if_false, bestOpposite_eq, hs, Option.map_some, hx, hg, hhead, hro, hacct, hlt,
    if_true, e₁, Option.bind_eq_bind, Option.bind_some]
  rfl

end Pass

/-! ## The whole loop -/

variable {evs}

theorem matchLoop_stop {n : Nat} (h : OrderBook.matchStep a (b, qty, evs) = some (false, b, qty, evs)) :
    OrderBook.matchLoop a (n + 1) (b, qty, evs) = some (b, qty, evs) := by
  rw [OrderBook.matchLoop, h]; rfl

theorem matchLoop_next {n : Nat} {st st' : OrderBook.MatchState M K}
    (h : OrderBook.matchStep a st = some (true, st')) :
    OrderBook.matchLoop a (n + 1) st = OrderBook.matchLoop a n st' := by
  rw [OrderBook.matchLoop, h]; rfl

/-- A relation between books and reference books that every pass of the
matching loop keeps. -/
structure Sweeps (S : OrderBook M K → RefBook → Prop) : Prop where
  best_none {b : OrderBook M K} {r : RefBook} {s : Side} : S b r → r.side s = [] → b.best s = none
  best_some {b : OrderBook M K} {r : RefBook} {s : Side} {o : RefOrder} {rest : List RefOrder} : S b r →
    r.side s = o :: rest → ∃ i, b.best s = some i ∧ b.idxToPrice i = o.price
  own {b : OrderBook M K} {r : RefBook} {o : RefOrder} {rest : List RefOrder} {a : Aggressor} {qty : Qty}
    (evs : List EngineEvent) : S b r → r.side a.side.opposite = o :: rest →
    qty.raw ≠ 0 → a.crosses o.price = true → o.account = a.account →
    ∃ b', OrderBook.matchStep a (b, qty, evs) = some (true, b', qty, evs ++ [.cancelled a.seq o.id]) ∧
      S b' (r.setSide a.side.opposite rest)
  full {b : OrderBook M K} {r : RefBook} {o : RefOrder} {rest : List RefOrder} {a : Aggressor} {qty : Qty}
    (evs : List EngineEvent) : S b r → r.side a.side.opposite = o :: rest →
    qty.raw ≠ 0 → a.crosses o.price = true → o.account ≠ a.account → ¬ qty.raw < o.qty.raw →
    ∃ b', OrderBook.matchStep a (b, qty, evs) =
        some (true, b', ⟨qty.raw - o.qty.raw⟩, evs ++ [a.tradeWith o qty o.qty]) ∧
      S b' (r.setSide a.side.opposite rest)
  part {b : OrderBook M K} {r : RefBook} {o : RefOrder} {rest : List RefOrder} {a : Aggressor} {qty : Qty}
    (evs : List EngineEvent) : S b r → r.side a.side.opposite = o :: rest →
    qty.raw ≠ 0 → a.crosses o.price = true → o.account ≠ a.account → qty.raw < o.qty.raw →
    ∃ b', OrderBook.matchStep a (b, qty, evs) =
        some (true, b', ⟨qty.raw - qty.raw⟩, evs ++ [a.tradeWith o qty qty]) ∧
      S b' (r.setSide a.side.opposite ({ o with qty := ⟨o.qty.raw - qty.raw⟩ } :: rest))

theorem Sweeps.matchLoop {S : OrderBook M K → RefBook → Prop} (hS : Sweeps S) {os os' : List RefOrder} {qty' : Qty}
    {evs' : List EngineEvent} {n : Nat} (hw : Swept a os qty os' qty' evs') (h : S b r)
    (hr : r.side a.side.opposite = os) (hn : os.length < n) (evs : List EngineEvent) :
    ∃ b', OrderBook.matchLoop a n (b, qty, evs) = some (b', qty', evs ++ evs') ∧
      S b' (r.setSide a.side.opposite os') := by
  induction hw generalizing b r n evs with
  | nil qty =>
    obtain ⟨n, rfl⟩ : ∃ m, n = m + 1 := ⟨n - 1, by omega⟩
    rw [matchLoop_stop (matchStep_stop evs (.inr (.inl (hS.best_none h hr)))), List.append_nil, ← hr, RefBook.setSide_side]
    exact ⟨b, rfl, h⟩
  | @stop o os qty hstop =>
    obtain ⟨n, rfl⟩ : ∃ m, n = m + 1 := ⟨n - 1, by omega⟩
    obtain ⟨i, hs, hp⟩ := hS.best_some h hr
    rw [matchLoop_stop (matchStep_stop evs (hstop.imp_right fun hx => .inr ⟨i, hs, by rw [hp, hx]⟩)), List.append_nil,
      ← hr, RefBook.setSide_side]
    exact ⟨b, rfl, h⟩
  | own hz hx hacct _ ih =>
    obtain ⟨n, rfl⟩ : ∃ m, n = m + 1 := ⟨n - 1, by omega⟩
    obtain ⟨b₁, e, h₁⟩ := hS.own evs h hr hz hx hacct
    obtain ⟨b', e', h'⟩ := ih h₁ (RefBook.side_setSide _ _ _) (Nat.lt_of_succ_lt_succ hn) (evs ++ [_])
    rw [RefBook.setSide_setSide] at h'
    exact ⟨b', by rw [matchLoop_next e, e', List.append_assoc]; rfl, h'⟩
  | full hz hx hacct hle _ ih =>
    obtain ⟨n, rfl⟩ : ∃ m, n = m + 1 := ⟨n - 1, by omega⟩
    obtain ⟨b₁, e, h₁⟩ := hS.full evs h hr hz hx hacct hle
    obtain ⟨b', e', h'⟩ := ih h₁ (RefBook.side_setSide _ _ _) (Nat.lt_of_succ_lt_succ hn) (evs ++ [_])
    rw [RefBook.setSide_setSide] at h'
    exact ⟨b', by rw [matchLoop_next e, e', List.append_assoc]; rfl, h'⟩
  | part os hz hx hacct hlt =>
    rw [List.length_cons] at hn
    obtain ⟨n, rfl⟩ : ∃ m, n = m + 2 := ⟨n - 2, by omega⟩
    obtain ⟨b', e, h'⟩ := hS.part evs h hr hz hx hacct hlt
    refine ⟨b', ?_, h'⟩
    rw [matchLoop_next e]
    exact matchLoop_stop (matchStep_stop _ (.inl (UInt64.sub_self _)))

/-! ## Whatever the sequence numbers -/

/-- The book is well formed up to the order of its queues, its id map finds
only live orders, and all of them if `ids₀` finds all of `d`, and `r` lists its
live orders queue by queue. They are what is left of the orders `d`. -/
structure Queued (c : RefConfig) (d : K → Option RefOrder) (ids₀ : OrderId → Option K) (Q : Side → Nat → List K)
    (b : OrderBook M K) (r : RefBook) : Prop where
  sound : Sound c b Q
  ids : IdsLive b.idToKey (dataOf b.arena)
  found : IdsOk ids₀ d → IdsOk b.idToKey (dataOf b.arena)
  listed : r = queued c (dataOf b.arena) Q
  only {k : K} {o : RefOrder} : dataOf b.arena k = some o → ∃ x, d k = some x ∧ o.IsRestOf x

variable {d : K → Option RefOrder} {ids₀ : OrderId → Option K} {rest : List RefOrder}

theorem Queued.best_none (h : Queued c d ids₀ Q b r) (hr : r.side s = []) : b.best s = none := by
  rw [h.listed] at hr
  cases hs : b.best s with
  | none => rfl
  | some i =>
    obtain ⟨k, bs, o, -, -, -, e⟩ := h.sound.queued_head hs
    rw [hr] at e
    cases e

theorem Queued.best_some (h : Queued c d ids₀ Q b r) (hr : r.side s = o :: rest) :
    ∃ i k bs, b.best s = some i ∧ Q s i = k :: bs ∧ dataOf b.arena k = some o ∧ b.idxToPrice i = o.price := by
  rw [h.listed] at hr
  cases hs : b.best s with
  | none => rw [h.sound.queued_nil hs] at hr; cases hr
  | some i =>
    obtain ⟨k, bs, o', hq, ho, hi, e⟩ := h.sound.queued_head hs
    rw [hr] at e
    cases e
    exact ⟨i, k, bs, rfl, hq, ho, h.sound.idxToPrice hi⟩

theorem Queued.eraseHead (h : Queued c d ids₀ Q b r) (hr : r.side s = o :: rest) (hs : b.best s = some i)
    (hq : Q s i = k :: bs) (ho : dataOf b.arena k = some o) {b' : OrderBook M K} (hb' : Removed c b Q s i k bs o.id b') :
    Queued c d ids₀ (setQueue Q s i bs) b' (r.setSide s rest) where
  sound := hb'.sound
  ids := by
    rw [hb'.data, hb'.ids]
    exact h.ids.erase ho
  found hok := by
    rw [hb'.data, hb'.ids]
    exact (h.found hok).erase ho
  listed := by
    rw [h.listed] at hr ⊢
    rw [hb'.data, h.sound.queued_erase hs hq ho hr]
  only ho := by
    rw [hb'.data] at ho
    exact h.only (update_none_eq_some.mp ho).2

theorem Queued.setQty (h : Queued c d ids₀ Q b r) (hr : r.side s = o :: rest) (hs : b.best s = some i)
    (hq : Q s i = k :: bs) (ho : dataOf b.arena k = some o) {q : Qty} {b' : OrderBook M K} (hsound : Sound c b' Q)
    (hd : dataOf b'.arena = Function.update (dataOf b.arena) k (some { o with qty := q }))
    (hids : b'.idToKey = b.idToKey) : Queued c d ids₀ Q b' (r.setSide s ({ o with qty := q } :: rest)) where
  sound := hsound
  ids := by
    rw [hd, hids]
    exact h.ids.setQty ho q
  found hok := by
    rw [hd, hids]
    exact (h.found hok).setQty ho q
  listed := by
    rw [h.listed] at hr ⊢
    rw [hd, h.sound.queued_setQty hs hq ho hr]
  only hy := by
    rw [hd] at hy
    rcases update_some_eq_some.mp hy with ⟨rfl, rfl⟩ | ⟨-, hy⟩
    · obtain ⟨x, hx, e⟩ := h.only ho
      rw [e]
      exact ⟨x, hx, rfl⟩
    · exact h.only hy

theorem sweeps_queued (c : RefConfig) (d : K → Option RefOrder) (ids₀ : OrderId → Option K) :
    Sweeps fun (b : OrderBook M K) r => ∃ Q, Queued c d ids₀ Q b r where
  best_none h hr := by
    obtain ⟨Q, h⟩ := h
    exact h.best_none hr
  best_some h hr := by
    obtain ⟨Q, h⟩ := h
    obtain ⟨i, k, bs, hs, -, -, hp⟩ := h.best_some hr
    exact ⟨i, hs, hp⟩
  own evs h hr hz hx hacct := by
    obtain ⟨Q, h⟩ := h
    obtain ⟨i, k, bs, hs, hq, ho, hp⟩ := h.best_some hr
    obtain ⟨b', e, hb'⟩ := matchStep_own evs h.sound hs hq ho hz (hp ▸ hx) hacct
    exact ⟨b', e, _, h.eraseHead hr hs hq ho hb'⟩
  full evs h hr hz hx hacct hle := by
    obtain ⟨Q, h⟩ := h
    obtain ⟨i, k, bs, hs, hq, ho, hp⟩ := h.best_some hr
    obtain ⟨b', e, hb'⟩ := matchStep_full evs h.sound hs hq ho hz (hp ▸ hx) hacct hle
    exact ⟨b', e, _, h.eraseHead hr hs hq ho hb'⟩
  part evs h hr hz hx hacct hlt := by
    obtain ⟨Q, h⟩ := h
    obtain ⟨i, k, bs, hs, hq, ho, hp⟩ := h.best_some hr
    obtain ⟨b', e, hsound, hd, hids⟩ := matchStep_partial evs h.sound hs hq ho hz (hp ▸ hx) hacct hlt
    exact ⟨b', e, Q, h.setQty hr hs hq ho hsound hd hids⟩

theorem side_length_le_size (r : RefBook) (s : Side) : (r.side s).length ≤ r.size := by
  cases s
  · exact Nat.le_add_right _ _
  · exact Nat.le_add_left _ _

theorem Sound.matchAgainstBook (hb : Sound c b Q) (hids : IdsLive b.idToKey (dataOf b.arena)) (a : Aggressor) (qty : Qty) :
    ∃ b' Q', b.matchAgainstBook a qty =
        some (b', (RefBook.sweep a ((queued c (dataOf b.arena) Q).side a.side.opposite) qty).2) ∧
      Queued c (dataOf b.arena) b.idToKey Q' b' ((queued c (dataOf b.arena) Q).setSide a.side.opposite
        (RefBook.sweep a ((queued c (dataOf b.arena) Q).side a.side.opposite) qty).1) := by
  have hfuel : ((queued c (dataOf b.arena) Q).side a.side.opposite).length < len b.arena + 1 := by
    rw [hb.len_eq]
    exact Nat.lt_succ_of_le (side_length_le_size _ _)
  obtain ⟨b', e, Q', h⟩ := (sweeps_queued c (dataOf b.arena) b.idToKey).matchLoop (swept a _ qty)
    ⟨Q, hb, hids, id, rfl, fun ho => ⟨_, ho, rfl⟩⟩ rfl hfuel []
  exact ⟨b', Q', e, h⟩

theorem Sound.matchAgainstBook_idle (hb : Sound c b Q) {a : Aggressor} {qty : Qty}
    (h : (RefBook.sweep a ((queued c (dataOf b.arena) Q).side a.side.opposite) qty).2.2 = []) :
    b.matchAgainstBook a qty = some (b, qty, []) := by
  refine matchLoop_stop (matchStep_stop [] ?_)
  have hw := swept a ((queued c (dataOf b.arena) Q).side a.side.opposite) qty
  rw [h] at hw
  cases hs : b.best a.side.opposite with
  | none => exact .inr (.inl rfl)
  | some i =>
    obtain ⟨k, bs, o, -, -, hi, e⟩ := hb.queued_head hs
    exact (hw.stopped e).imp_right fun hx => .inr ⟨i, rfl, by rw [hb.idxToPrice hi, hx]⟩

/-! ## Increasing sequence numbers -/

/-- The book is well formed and `r` lists its live orders. -/
def Sim (c : RefConfig) (b : OrderBook M K) (r : RefBook) : Prop :=
  ∃ Q, Rep c b Q ∧ Listed (dataOf b.arena) r

theorem Sim.best_none (h : Sim c b r) (hr : r.side s = []) : b.best s = none := by
  obtain ⟨Q, hb, hl⟩ := h
  cases hs : b.best s with
  | none => rfl
  | some i =>
    obtain ⟨k, bs, o, rest, -, -, e, -⟩ := hb.head hl hs
    rw [hr] at e
    cases e

theorem Sim.best_some (h : Sim c b r) (hr : r.side s = o :: rest) :
    ∃ Q i k bs, Rep c b Q ∧ Listed (dataOf b.arena) r ∧ b.best s = some i ∧ Q s i = k :: bs ∧
      dataOf b.arena k = some o ∧ b.idxToPrice i = o.price := by
  obtain ⟨Q, hb, hl⟩ := h
  cases hs : b.best s with
  | none => rw [hb.side_nil hl hs] at hr; cases hr
  | some i =>
    obtain ⟨k, bs, o', rest', hq, ho, e, hi⟩ := hb.head hl hs
    rw [hr] at e
    cases e
    exact ⟨Q, i, k, bs, hb, hl, rfl, hq, ho, hb.sound.idxToPrice hi⟩

theorem Rep.erase (hb : Rep c b Q) (hq : Q s i = as ++ k :: bs) (ho : dataOf b.arena k = some o) {b' : OrderBook M K}
    (hb' : Removed c b Q s i k (as ++ bs) o.id b') : Rep c b' (setQueue Q s i (as ++ bs)) := by
  refine ⟨hb'.sound, ?_, ?_⟩
  · rw [hb'.data]
    exact hb.placed.erase hq
  · rw [hb'.data, hb'.ids]
    exact hb.ids.erase ho

theorem Rep.eraseHead (hb : Rep c b Q) (hl : Listed (dataOf b.arena) r) (hq : Q s i = k :: bs)
    (ho : dataOf b.arena k = some o) (hr : r.side s = o :: rest) {b' : OrderBook M K} (hb' : Removed c b Q s i k bs o.id b') :
    Sim c b' (r.setSide s rest) := by
  refine ⟨_, hb.erase (show Q s i = [] ++ k :: bs from hq) ho hb', ?_⟩
  rw [hb'.data]
  exact hl.eraseHead hb.ids ho hr

theorem sweeps_sim (c : RefConfig) : Sweeps (Sim (M := M) (K := K) c) where
  best_none h hr := h.best_none hr
  best_some h hr := by
    obtain ⟨Q, i, k, bs, -, -, hs, -, -, hp⟩ := h.best_some hr
    exact ⟨i, hs, hp⟩
  own evs h hr hz hx hacct := by
    obtain ⟨Q, i, k, bs, hb, hl, hs, hq, ho, hp⟩ := h.best_some hr
    obtain ⟨b', e, hb'⟩ := matchStep_own evs hb.sound hs hq ho hz (hp ▸ hx) hacct
    exact ⟨b', e, hb.eraseHead hl hq ho hr hb'⟩
  full evs h hr hz hx hacct hle := by
    obtain ⟨Q, i, k, bs, hb, hl, hs, hq, ho, hp⟩ := h.best_some hr
    obtain ⟨b', e, hb'⟩ := matchStep_full evs hb.sound hs hq ho hz (hp ▸ hx) hacct hle
    exact ⟨b', e, hb.eraseHead hl hq ho hr hb'⟩
  part evs h hr hz hx hacct hlt := by
    obtain ⟨Q, i, k, bs, hb, hl, hs, hq, ho, hp⟩ := h.best_some hr
    obtain ⟨b', e, hsound, hd, hids⟩ := matchStep_partial evs hb.sound hs hq ho hz (hp ▸ hx) hacct hlt
    refine ⟨b', e, Q, ⟨hsound, ?_, ?_⟩, ?_⟩
    · rw [hd]
      exact hb.placed.setQty ho (UInt64.sub_ne_zero_of_lt hlt)
    · rw [hd, hids]
      exact hb.ids.setQty ho _
    · rw [hd]
      exact hl.fillHead hb.ids ho hr _

/-- `match_against_book` ends, and does what the reference sweep does. -/
theorem matchAgainstBook_ok (h : Sim c b r) (a : Aggressor) (qty : Qty) :
    ∃ b', b.matchAgainstBook a qty = some (b', (RefBook.sweep a (r.side a.side.opposite) qty).2) ∧
      Sim c b' (r.setSide a.side.opposite (RefBook.sweep a (r.side a.side.opposite) qty).1) := by
  have hlen : len b.arena = r.size := by
    obtain ⟨Q, hb, hl⟩ := h
    exact hb.len_eq hl
  have hn := side_length_le_size r a.side.opposite
  exact (sweeps_sim c).matchLoop (swept a _ qty) h rfl (by omega) []

end Proof.Book

end MRE
