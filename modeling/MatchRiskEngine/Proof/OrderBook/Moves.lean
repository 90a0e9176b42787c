import MatchRiskEngine.Proof.OrderBook.Outcomes

/-!
# What a new order moves

A new order that is matched does nothing to the other side exactly if it meets
none of the live orders (`Valid.idle_iff`), and else takes something away
(`Swept.sum_lt`), so that a queue gets shorter. So it leaves the queues as they
are exactly if the book `Spares` them (`Valid.sameOpenOrders_iff`).
-/

namespace MRE

open SlotMap

/-! ## The sweep -/

section Sweep

variable {a : Aggressor} {os os' : List RefOrder} {qty qty' : Qty} {evs : List EngineEvent}

/-- A sweep does nothing if and only if no order crosses. -/
theorem Swept.idle_iff (h : Swept a os qty os' qty' evs) (hq : qty.raw ≠ 0) (hs : a.Falls os) :
    evs = [] ↔ ∀ x ∈ os, a.crosses x.price = false := by
  have hhead {o : RefOrder} {os : List RefOrder} (hx : a.crosses o.price = true) :
      ¬ ∀ x ∈ o :: os, a.crosses x.price = false := fun h => by
    rw [h o List.mem_cons_self] at hx
    cases hx
  cases h with
  | nil => simp
  | stop os h => exact iff_of_true rfl (Swept.not_crosses (.stop os h) hs hq)
  | own _ hx | full _ hx | part _ _ hx => exact iff_of_false (List.cons_ne_nil _ _) (hhead hx)

theorem Swept.sum_le (h : Swept a os qty os' qty' evs) :
    (os'.map fun x => x.qty.raw.toNat).sum ≤ (os.map fun x => x.qty.raw.toNat).sum := by
  induction h with
  | nil | stop => exact Nat.le_refl _
  | own _ _ _ _ ih | full _ _ _ _ _ ih => exact Nat.le_trans ih (by simp)
  | part _ _ _ _ hlt =>
    have hsub := UInt64.toNat_sub_of_le _ _ (UInt64.le_of_lt hlt)
    simp only [List.map_cons, List.sum_cons]
    omega

theorem Swept.sum_lt (h : Swept a os qty os' qty' evs) (hpos : ∀ x ∈ os, x.qty.raw ≠ 0) (hne : evs ≠ []) :
    (os'.map fun x => x.qty.raw.toNat).sum < (os.map fun x => x.qty.raw.toNat).sum := by
  have hhead {o : RefOrder} {os : List RefOrder} (hpos : ∀ x ∈ o :: os, x.qty.raw ≠ 0) {n : Nat}
      (hn : n ≤ (os.map fun x => x.qty.raw.toNat).sum) : n < ((o :: os).map fun x => x.qty.raw.toNat).sum := by
    have := UInt64.toNat_pos (hpos o List.mem_cons_self)
    rw [List.map_cons, List.sum_cons]
    omega
  cases h with
  | nil | stop => exact absurd rfl hne
  | own _ _ _ h | full _ _ _ _ h => exact hhead hpos h.sum_le
  | part _ hz _ _ hlt =>
    have hsub := UInt64.toNat_sub_of_le _ _ (UInt64.le_of_lt hlt)
    have := UInt64.toNat_pos hz
    have := UInt64.lt_iff_toNat_lt.mp hlt
    simp only [List.map_cons, List.sum_cons]
    omega

end Sweep

namespace Proof.Book

variable {M K : Type} [DecidableEq K] [Arena M K]

variable {c : RefConfig} {b b₁ b' : OrderBook M K} {Q Q' Q₁ : Side → Nat → List K} {seq tsNs : UInt64}
  {o : InboundNewOrder} {left : Qty} {evs : List EngineEvent}

/-! ## What a level shows -/

/-- The ids and the quantities of the orders at some keys. -/
def idQtys (d : K → Option RefOrder) (ks : List K) : List (OrderId × Qty) :=
  ks.filterMap fun k => (d k).map fun x => (x.id, x.qty)

theorem levelOrders_ok {arena : M} {ks : List K} {head : Option K} {n : Nat} (hl : Linked (nextOf arena) head ks)
    (hlive : ∀ k ∈ ks, (get? arena k).isSome) (hn : ks.length < n) :
    OrderBook.levelOrders arena n head = some (idQtys (dataOf arena) ks) := by
  induction ks generalizing head n with
  | nil =>
    obtain ⟨n, rfl⟩ : ∃ m, n = m + 1 := ⟨n - 1, by omega⟩
    rw [show head = none from hl]
    rfl
  | cons k ks ih =>
    obtain ⟨n, rfl⟩ : ∃ m, n = m + 1 := ⟨n - 1, by omega⟩
    obtain ⟨rfl, hl⟩ := hl
    obtain ⟨o, ho⟩ := Option.isSome_iff_exists.mp (hlive k List.mem_cons_self)
    rw [nextOf, ho, Option.bind_some] at hl
    have ih := ih hl (fun j hj => hlive j (List.mem_cons_of_mem k hj))
      (show ks.length < n by rw [List.length_cons] at hn; omega)
    simp only [OrderBook.levelOrders, ho, ih, Option.bind_eq_bind, Option.bind_some]
    rw [idQtys, idQtys, List.filterMap_cons, dataOf_of_get? ho]
    rfl

theorem Shape.queue_eq (hb : Shape c b Q) (s : Side) (i : Nat) :
    b.queue s i = some (idQtys (dataOf b.arena) (Q s i)) := by
  have hnil : (∀ l, (b.ladder s)[i]? ≠ some (some l)) → idQtys (dataOf b.arena) (Q s i) = [] := fun h => by
    have hq : Q s i = [] := by
      by_contra hne
      obtain ⟨l, hl⟩ := hb.occupied hne
      exact h l hl
    rw [hq]
    rfl
  rw [OrderBook.queue]
  split
  · rename_i l hg
    exact levelOrders_ok (hb.level hg).links.fwd (fun k hk => hb.live hk) (hb.length_queue hg)
  · rename_i hno
    rw [hnil hno]

/-- What rests in a queue. -/
def restsIn (arena : M) (ks : List K) : Nat := sumOver (dataOf arena) (fun x => x.qty.raw.toNat) ks

theorem sum_queued (c : RefConfig) (arena : M) (Q : Side → Nat → List K) (s : Side) :
    (((queued c (dataOf arena) Q).side s).map fun x => x.qty.raw.toNat).sum =
      ((bestFirst s c.numTicks).map fun i => restsIn arena (Q s i)).sum := by
  rw [side_queued, keysOf]
  generalize bestFirst s c.numTicks = is
  induction is with
  | nil => rfl
  | cons i is ih =>
    rw [List.flatMap_cons, List.filterMap_append, List.map_append, List.sum_append, ih, List.map_cons, List.sum_cons]
    rfl

theorem Shape.restsIn_eq (hb : Shape c b Q) (hb' : Shape c b' Q') (h : b'.SameOpenOrders b) (s : Side) (i : Nat) :
    restsIn b'.arena (Q' s i) = restsIn b.arena (Q s i) := by
  have hsum (arena : M) (ks : List K) : restsIn arena ks = ((idQtys (dataOf arena) ks).map fun x => x.2.raw.toNat).sum := by
    rw [restsIn, sumOver, idQtys, List.map_filterMap, List.map_filterMap]
    simp only [Option.map_map]
    rfl
  have hsame := h s i
  rw [hb.queue_eq, hb'.queue_eq] at hsame
  rw [hsum, hsum, Option.some.inj hsame]

/-! ## A new order -/

theorem mem_live {x : RefOrder} : x ∈ b.live ↔ ∃ k, dataOf b.arena k = some x := by
  simp only [OrderBook.live, values, List.mem_map, List.mem_filterMap, dataOf, Option.map_eq_some_iff]
  constructor
  · rintro ⟨ro, ⟨k, -, hk⟩, hx⟩
    exact ⟨k, ro, hk, hx⟩
  · rintro ⟨k, ro, hk, hx⟩
    exact ⟨ro, ⟨k, mem_keys.mpr (by rw [hk]; rfl), hk⟩, hx⟩

theorem Matched.not_refuses (hm : Matched b seq tsNs o b₁ left evs) : ¬ b.Refuses o := by
  rintro (hz | ⟨hlim, hnone⟩ | ⟨hfok, hfalse⟩)
  · exact hm.qty hz
  · obtain ⟨i, hi⟩ := hm.idx hlim
    rw [hnone] at hi
    cases hi
  · rw [hm.fok hfok] at hfalse
    cases hfalse

/-- The orders that a new order meets are those of the other side that it
crosses. -/
theorem Shape.meets_iff (hb : Shape c b Q) (seq tsNs : UInt64) (o : InboundNewOrder) {x : RefOrder} :
    x ∈ b.live ∧ o.Meets x ↔
      x ∈ (queued c (dataOf b.arena) Q).side o.side.opposite ∧ (o.aggressor seq tsNs).crosses x.price = true := by
  rw [hb.mem_queued_iff, mem_live, and_comm (a := x.side = _), and_assoc]
  rfl

theorem Valid.idle_iff (hb : Valid c b Q) (hm : Matched b seq tsNs o b₁ left evs) :
    evs = [] ↔ ∀ x ∈ b.live, ¬ o.Meets x := by
  obtain ⟨Q₁, os, -, hw, -⟩ := hb.of_matched hm
  rw [hw.idle_iff hm.qty (hb.queued_falls (o.aggressor seq tsNs))]
  have hmeets {x : RefOrder} := hb.toShape.meets_iff seq tsNs o (x := x)
  constructor
  · intro h x hx hmeet
    obtain ⟨hx, hc⟩ := hmeets.mp ⟨hx, hmeet⟩
    rw [h x hx] at hc
    cases hc
  · intro h x hx
    by_contra hc
    obtain ⟨hx, hmeet⟩ := hmeets.mpr ⟨hx, Bool.of_not_eq_false hc⟩
    exact h x hx hmeet

/-- If matching does something, then there is less on the other side. -/
theorem Valid.matched_sum_lt (hb : Valid c b Q) (hm : Matched b seq tsNs o b₁ left evs) (hne : evs ≠ []) :
    ∃ Q₁, Valid c b₁ Q₁ ∧ (((queued c (dataOf b₁.arena) Q₁).side o.side.opposite).map fun x => x.qty.raw.toNat).sum <
      (((queued c (dataOf b.arena) Q).side o.side.opposite).map fun x => x.qty.raw.toNat).sum := by
  obtain ⟨Q₁, os, hb₁, hw, hq, -⟩ := hb.of_matched hm
  refine ⟨Q₁, hb₁, ?_⟩
  rw [hq, RefBook.side_setSide]
  exact hw.sum_lt (hb.queued_pos _) hne

/-- The order that comes to rest is on its own side, at its price. -/
theorem Valid.rested_restsIn (hb : Valid c b Q) (hroom : ¬ capacity b.arena ≤ len b.arena) {i : Nat}
    (hi : c.index? o.price = some i) (hz : left.raw ≠ 0) {evs' : List EngineEvent}
    (hrest : b.restRemainder seq tsNs o i left evs = some (b', evs')) :
    ∃ Q', Shape c b' Q' ∧ (∀ j, restsIn b'.arena (Q' o.side.opposite j) = restsIn b.arena (Q o.side.opposite j)) ∧
      restsIn b.arena (Q o.side i) < restsIn b'.arena (Q' o.side i) := by
  obtain ⟨b₂, k, top, e, -, -, hk, hsound, hd, -⟩ := hb.toSound.restRemainder hroom seq tsNs o hi hz evs
  obtain rfl : b' = b₂ := congrArg Prod.fst (Option.some.inj (hrest.symm.trans e))
  have hkeep (s : Side) (j : Nat) : restsIn b'.arena (Q s j) = restsIn b.arena (Q s j) := by
    rw [restsIn, hd, sumOver, filterMap_update fun hmem => ?_]
    · rfl
    · obtain ⟨x, hx, -⟩ := hb.seated.mem.mp hmem
      rw [hk] at hx
      cases hx
  refine ⟨_, hsound.toShape, fun j => ?_, ?_⟩
  · rw [setQueue_ne Q _ fun h => Side.opposite_ne o.side h.1, hkeep]
  · have hpos := UInt64.toNat_pos hz
    have happend : restsIn b'.arena (Q o.side i ++ [k]) = restsIn b'.arena (Q o.side i) + restsIn b'.arena [k] :=
      sumOver_append _ _ _ _
    have hlast : restsIn b'.arena [k] = left.raw.toNat + 0 :=
      sumOver_cons (show dataOf b'.arena k = some (o.resting seq left) by rw [hd, Function.update_self]) []
    rw [setQueue_self, happend, hkeep, hlast]
    omega

/-- A new order leaves the open orders as they are exactly if it is refused, or
meets no order and does not come to rest. -/
theorem Valid.sameOpenOrders_iff (hb : Valid c b Q) (h : Applied b seq tsNs o b' evs) :
    b'.SameOpenOrders b ↔ b.Spares o := by
  have hsame : b.SameOpenOrders b := fun _ _ => rfl
  have hspares {b₁ : OrderBook M K} {left : Qty} {evs : List EngineEvent} (hm : Matched b seq tsNs o b₁ left evs) :
      b.Spares o ↔ evs = [] ∧ (o.NeverRests ∨ capacity b.arena ≤ len b.arena) := by
    rw [OrderBook.Spares, or_iff_right hm.not_refuses, hb.idle_iff hm]
  -- there is less in some queue of the other side
  have hless {b₁ : OrderBook M K} {left : Qty} {evs : List EngineEvent} (hm : Matched b seq tsNs o b₁ left evs)
      (hne : evs ≠ []) : ∃ Q₁, Valid c b₁ Q₁ ∧ ∀ b' Q', Shape c b' Q' →
        (∀ j, restsIn b'.arena (Q' o.side.opposite j) = restsIn b₁.arena (Q₁ o.side.opposite j)) → ¬ b'.SameOpenOrders b := by
    obtain ⟨Q₁, hb₁, hlt⟩ := hb.matched_sum_lt hm hne
    refine ⟨Q₁, hb₁, fun b' Q' hb' heq h => Nat.ne_of_lt hlt ?_⟩
    rw [sum_queued, sum_queued]
    refine congrArg List.sum (List.map_congr_left fun j _ => ?_)
    rw [← heq, hb.toShape.restsIn_eq hb' h]
  -- the order does not come to rest
  have hgone {b₁ : OrderBook M K} {left : Qty} {evs : List EngineEvent} (hm : Matched b seq tsNs o b₁ left evs)
      (hend : evs = [] → o.NeverRests ∨ capacity b.arena ≤ len b.arena) : b₁.SameOpenOrders b ↔ b.Spares o := by
    rw [hspares hm]
    by_cases hne : evs = []
    · obtain ⟨rfl, -⟩ := hb.matched_idle (hne ▸ hm)
      exact iff_of_true hsame ⟨hne, hend hne⟩
    · obtain ⟨Q₁, hb₁, hnot⟩ := hless hm hne
      exact iff_of_false (hnot b₁ Q₁ hb₁.toShape fun _ => rfl) fun h => hne h.1
  cases h with
  | refused hr => exact iff_of_true hsame (.inl hr)
  | filled hm hz =>
    refine hgone hm fun hne => ?_
    obtain ⟨-, rfl⟩ := hb.matched_idle (hne ▸ hm)
    exact absurd hz hm.qty
  | cancelled hm _ _ _ hdrop | unmatched hm _ _ _ _ hdrop => exact hgone hm fun _ => .inl hdrop
  | full hm hz _ hfull =>
    refine hgone hm fun hne => .inr ?_
    obtain ⟨rfl, -⟩ := hb.matched_idle (hne ▸ hm)
    exact hfull
  | @rested b₁ _ left evs _ i hm hz hrests hroom hidx hrest _ =>
    rw [hb.priceToIdx] at hidx
    rw [hspares hm]
    by_cases hne : evs = []
    · obtain ⟨rfl, -⟩ := hb.matched_idle (hne ▸ hm)
      obtain ⟨Q', hb', -, hlt⟩ := hb.rested_restsIn hroom hidx hz hrest
      exact iff_of_false (fun h => Nat.ne_of_gt hlt (hb.toShape.restsIn_eq hb' h o.side i)) fun h => h.2.elim hrests hroom
    · obtain ⟨Q₁, hb₁, hnot⟩ := hless hm hne
      obtain ⟨Q', hb', heq, -⟩ := hb₁.rested_restsIn hroom hidx hz hrest
      exact iff_of_false (hnot b' Q' hb' heq) fun h => hne h.1

end Proof.Book

end MRE
