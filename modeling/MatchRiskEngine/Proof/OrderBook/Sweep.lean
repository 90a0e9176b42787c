import MatchRiskEngine.Proof.OrderBook.Sides

/-!
# The reference sweep

`Swept` is `RefBook.sweep` as a relation with one rule for each thing that
can happen to the first order of the list, and what follows from it by
induction on the rules: what is left of the quantity (`sweep_left`), which
orders are left (`sweep_mem`), and that the events are trades and
cancellations (`sweep_noTops`).
-/

namespace MRE

/-- What an order offers to a taker of another account. -/
def RefOrder.avail (account : AccountId) (o : RefOrder) : Nat :=
  if o.account = account then 0 else o.qty.raw.toNat

/-- What an order offers to `a`. -/
def Aggressor.offered (a : Aggressor) (o : RefOrder) : Nat :=
  if a.crosses o.price then o.avail a.account else 0

/-- `o` is `x`, up to its quantity. -/
def RefOrder.IsRestOf (o x : RefOrder) : Prop := o = { x with qty := o.qty }

/-- Sweeping `os` for `qty` leaves `os'` and `qty'`, with the events `evs`. -/
inductive Swept (a : Aggressor) : List RefOrder → Qty → List RefOrder → Qty → List EngineEvent → Prop
  | nil (qty : Qty) : Swept a [] qty [] qty []
  | stop {o : RefOrder} (os : List RefOrder) {qty : Qty} (h : qty.raw = 0 ∨ a.crosses o.price = false) :
      Swept a (o :: os) qty (o :: os) qty []
  | own {o : RefOrder} {os os' : List RefOrder} {qty qty' : Qty} {evs : List EngineEvent}
      (hz : qty.raw ≠ 0) (hx : a.crosses o.price = true) (hacct : o.account = a.account)
      (h : Swept a os qty os' qty' evs) : Swept a (o :: os) qty os' qty' (.cancelled a.seq o.id :: evs)
  | full {o : RefOrder} {os os' : List RefOrder} {qty qty' : Qty} {evs : List EngineEvent}
      (hz : qty.raw ≠ 0) (hx : a.crosses o.price = true) (hacct : o.account ≠ a.account)
      (hle : ¬ qty.raw < o.qty.raw) (h : Swept a os ⟨qty.raw - o.qty.raw⟩ os' qty' evs) :
      Swept a (o :: os) qty os' qty' (a.tradeWith o qty o.qty :: evs)
  | part {o : RefOrder} (os : List RefOrder) {qty : Qty} (hz : qty.raw ≠ 0) (hx : a.crosses o.price = true)
      (hacct : o.account ≠ a.account) (hlt : qty.raw < o.qty.raw) :
      Swept a (o :: os) qty ({ o with qty := ⟨o.qty.raw - qty.raw⟩ } :: os) ⟨qty.raw - qty.raw⟩
        [a.tradeWith o qty qty]

theorem swept (a : Aggressor) (os : List RefOrder) (qty : Qty) :
    Swept a os qty (RefBook.sweep a os qty).1 (RefBook.sweep a os qty).2.1 (RefBook.sweep a os qty).2.2 := by
  induction os generalizing qty with
  | nil => exact .nil qty
  | cons o os ih =>
    rw [RefBook.sweep]
    by_cases hstop : qty.raw = 0 ∨ a.crosses o.price = false
    · rw [if_pos hstop]
      exact .stop os hstop
    rw [if_neg hstop]
    rw [not_or, Bool.not_eq_false] at hstop
    obtain ⟨hz, hx⟩ := hstop
    by_cases hacct : o.account = a.account
    · rw [if_pos hacct]
      exact .own hz hx hacct (ih qty)
    rw [if_neg hacct]
    by_cases hlt : qty.raw < o.qty.raw
    · simp only [hlt, if_true, UInt64.sub_ne_zero_of_lt hlt, if_false]
      exact .part os hz hx hacct hlt
    · simp only [hlt, if_false, UInt64.sub_self, if_true]
      exact .full hz hx hacct hlt (ih _)

theorem Aggressor.crosses_of_ahead {a : Aggressor} {x y : RefOrder} (h : x.ahead a.side.opposite y)
    (hy : a.crosses y.price = true) : a.crosses x.price = true := by
  rcases h with h | ⟨e, -⟩
  · unfold Aggressor.crosses at hy ⊢
    rw [Bool.or_eq_true] at hy ⊢
    refine hy.imp_right fun hy => ?_
    cases hs : a.side <;> simp only [hs, decide_eq_true_eq, Int64.le_iff_toInt_le] at hy ⊢ <;> rw [hs] at h
    · have := Int64.lt_iff_toInt_lt.mp (show x.price.raw < y.price.raw from h)
      omega
    · have := Int64.lt_iff_toInt_lt.mp (show y.price.raw < x.price.raw from h)
      omega
  · rw [e]; exact hy

theorem Aggressor.offered_of_crosses {a : Aggressor} {o : RefOrder} (hx : a.crosses o.price = true) :
    a.offered o = if o.account = a.account then 0 else o.qty.raw.toNat := if_pos hx

variable {a : Aggressor} {os os' : List RefOrder} {qty qty' : Qty} {evs : List EngineEvent}

theorem Aggressor.lt_of_not_crosses_buy {p : Price} (hs : a.side = .buy) (h : a.crosses p = false) :
    a.price.raw < p.raw := by
  rw [Aggressor.crosses, Bool.or_eq_false_iff] at h
  have h := h.2
  rw [hs] at h
  exact Int64.not_le.mp (of_decide_eq_false h)

theorem Aggressor.lt_of_not_crosses_sell {p : Price} (hs : a.side = .sell) (h : a.crosses p = false) :
    p.raw < a.price.raw := by
  rw [Aggressor.crosses, Bool.or_eq_false_iff] at h
  have h := h.2
  rw [hs] at h
  exact Int64.not_le.mp (of_decide_eq_false h)

/-- The prices of the list get no better: behind an order that does not cross
there is none that does. -/
def Aggressor.Falls (a : Aggressor) (os : List RefOrder) : Prop :=
  os.Pairwise fun x y => a.crosses y.price = true → a.crosses x.price = true

theorem Aggressor.falls_of_ahead (h : os.Pairwise (RefOrder.ahead a.side.opposite)) : a.Falls os :=
  List.Pairwise.imp Aggressor.crosses_of_ahead h

/-- Behind an order that does not cross, nothing is offered. -/
theorem sum_offered_of_not_crosses {o : RefOrder} (h : a.Falls (o :: os)) (hx : a.crosses o.price = false) :
    ((o :: os).map a.offered).sum = 0 := by
  refine List.sum_eq_zero_iff_forall_eq_nat.mpr fun n hn => ?_
  obtain ⟨x, hmem, rfl⟩ := List.mem_map.mp hn
  refine if_neg fun hc => ?_
  rcases List.mem_cons.mp hmem with rfl | hmem
  · rw [hx] at hc; cases hc
  · rw [(List.pairwise_cons.mp h).1 x hmem hc] at hx; cases hx

theorem Swept.left (h : Swept a os qty os' qty' evs) (hs : a.Falls os) :
    qty'.raw.toNat = qty.raw.toNat - (os.map a.offered).sum := by
  induction h with
  | nil => rfl
  | stop os h =>
    rcases h with h | h
    · rw [h]; simp
    · rw [sum_offered_of_not_crosses hs h, Nat.sub_zero]
  | own hz hx hacct _ ih =>
    rw [ih (List.pairwise_cons.mp hs).2, List.map_cons, List.sum_cons, Aggressor.offered_of_crosses hx, if_pos hacct,
      Nat.zero_add]
  | full hz hx hacct hle _ ih =>
    rw [ih (List.pairwise_cons.mp hs).2, List.map_cons, List.sum_cons, Aggressor.offered_of_crosses hx, if_neg hacct,
      UInt64.toNat_sub_of_le _ _ (UInt64.not_lt.mp hle), Nat.sub_sub]
  | part os hz hx hacct hlt =>
    rw [List.map_cons, List.sum_cons, Aggressor.offered_of_crosses hx, if_neg hacct, UInt64.sub_self, UInt64.toNat_zero]
    have := UInt64.lt_iff_toNat_lt.mp hlt
    omega

theorem sweep_left (a : Aggressor) (qty : Qty) (h : a.Falls os) :
    (RefBook.sweep a os qty).2.1.raw.toNat = qty.raw.toNat - (os.map a.offered).sum := (swept a os qty).left h

theorem tradedQty_cons (e : EngineEvent) (evs : List EngineEvent) : tradedQty (e :: evs) = e.tradedQty + tradedQty evs := by
  rw [tradedQty, List.map_cons, List.sum_cons]
  rfl

/-- What a sweep trades and what it leaves is the quantity. -/
theorem Swept.traded (h : Swept a os qty os' qty' evs) : qty'.raw.toNat + tradedQty evs = qty.raw.toNat := by
  induction h with
  | nil => rfl
  | stop => rfl
  | own _ _ _ _ ih =>
    rw [tradedQty_cons, ← ih]
    exact congrArg _ (Nat.zero_add _)
  | @full o os os' qty qty' evs _ _ _ hle _ ih =>
    have hle := UInt64.not_lt.mp hle
    have hsub := UInt64.toNat_sub_of_le _ _ hle
    have hle := UInt64.le_iff_toNat_le.mp hle
    have ih : qty'.raw.toNat + tradedQty evs = (qty.raw - o.qty.raw).toNat := ih
    have htrade : (a.tradeWith o qty o.qty).tradedQty = o.qty.raw.toNat := rfl
    rw [tradedQty_cons, htrade]
    omega
  | @part o os qty _ _ _ _ =>
    have htrade : (a.tradeWith o qty qty).tradedQty = qty.raw.toNat := rfl
    rw [tradedQty_cons, htrade, UInt64.sub_self]
    exact Nat.zero_add _

theorem Swept.left_le (h : Swept a os qty os' qty' evs) : qty'.raw ≤ qty.raw := by
  have := h.traded
  rw [UInt64.le_iff_toNat_le]
  omega

theorem Swept.length_le (h : Swept a os qty os' qty' evs) : os'.length ≤ os.length := by
  induction h with
  | nil | stop => exact Nat.le_refl _
  | own _ _ _ _ ih => exact Nat.le_succ_of_le ih
  | full _ _ _ _ _ ih => exact Nat.le_succ_of_le ih
  | part => exact Nat.le_refl _

/-- A sweep that does not use up the quantity does nothing or takes an order
away. -/
theorem Swept.nil_or_length_lt (h : Swept a os qty os' qty' evs) (hz : qty'.raw ≠ 0) :
    evs = [] ∨ os'.length < os.length := by
  cases h with
  | nil | stop => exact .inl rfl
  | own _ _ _ h => exact .inr (Nat.lt_succ_of_le h.length_le)
  | full _ _ _ _ h => exact .inr (Nat.lt_succ_of_le h.length_le)
  | part => exact absurd (UInt64.sub_self _) hz

/-- A sweep that leaves the whole quantity and cancels nothing does nothing. -/
theorem Swept.eq_nil (h : Swept a os qty os' qty' evs) (hpos : ∀ o ∈ os, o.qty.raw ≠ 0) (hz : qty'.raw ≠ 0)
    (hle : ¬ qty'.raw < qty.raw) (hcancel : ∀ seq id, EngineEvent.cancelled seq id ∉ evs) : evs = [] := by
  cases h with
  | nil | stop => rfl
  | own => exact absurd List.mem_cons_self (hcancel _ _)
  | @full o os _ _ _ evs _ _ _ hge h =>
    have hge := UInt64.not_lt.mp hge
    have hsub := UInt64.toNat_sub_of_le _ _ hge
    have hge := UInt64.le_iff_toNat_le.mp hge
    have hpos := UInt64.toNat_pos (hpos o List.mem_cons_self)
    have hleft := UInt64.le_iff_toNat_le.mp h.left_le
    have hle := UInt64.le_iff_toNat_le.mp (UInt64.not_lt.mp hle)
    have hleft : qty'.raw.toNat ≤ (qty.raw - o.qty.raw).toNat := hleft
    omega
  | part => exact absurd (UInt64.sub_self _) hz

/-- A sweep that does not use up the quantity leaves no order that crosses. -/
theorem Swept.not_crosses (h : Swept a os qty os' qty' evs) (hs : a.Falls os) (hz : qty'.raw ≠ 0) :
    ∀ x ∈ os', a.crosses x.price = false := by
  induction h with
  | nil => exact fun x hx => nomatch hx
  | @stop o os qty h =>
    have hx := h.resolve_left hz
    refine List.forall_mem_cons.mpr ⟨hx, fun y hy => ?_⟩
    rw [← Bool.not_eq_true] at hx ⊢
    exact fun hc => hx ((List.pairwise_cons.mp hs).1 y hy hc)
  | own _ _ _ _ ih => exact ih (List.pairwise_cons.mp hs).2 hz
  | full _ _ _ _ _ ih => exact ih (List.pairwise_cons.mp hs).2 hz
  | part => exact absurd (UInt64.sub_self _) hz

theorem Swept.stopped (h : Swept a os qty os' qty' []) {o : RefOrder} {rest : List RefOrder} (hos : os = o :: rest) :
    qty.raw = 0 ∨ a.crosses o.price = false := by
  cases h with
  | nil => cases hos
  | stop os h =>
    cases hos
    exact h

theorem ne_of_nodup_ids {o : RefOrder} {os : List RefOrder} (h : ((o :: os).map RefOrder.id).Nodup) :
    ∀ x ∈ os, x.id ≠ o.id := fun x hx e =>
  (List.nodup_cons.mp h).1 (List.mem_map.mpr ⟨x, hx, e⟩)

theorem Swept.mem (h : Swept a os qty os' qty' evs) {x : RefOrder} (hx : x ∈ os') :
    ∃ y ∈ os, x = { y with qty := x.qty } := by
  induction h with
  | nil => cases hx
  | stop os _ => exact ⟨x, hx, rfl⟩
  | own _ _ _ _ ih =>
    obtain ⟨y, hy, e⟩ := ih hx
    exact ⟨y, List.mem_cons_of_mem _ hy, e⟩
  | full _ _ _ _ _ ih =>
    obtain ⟨y, hy, e⟩ := ih hx
    exact ⟨y, List.mem_cons_of_mem _ hy, e⟩
  | part os _ _ _ _ =>
    rcases List.mem_cons.mp hx with rfl | hx
    · exact ⟨_, List.mem_cons_self, rfl⟩
    · exact ⟨x, List.mem_cons_of_mem _ hx, rfl⟩

theorem sweep_mem {x : RefOrder} (hx : x ∈ (RefBook.sweep a os qty).1) : ∃ y ∈ os, x = { y with qty := x.qty } :=
  (swept a os qty).mem hx

theorem Swept.events (h : Swept a os qty os' qty' evs) :
    ∀ e ∈ evs, (∃ t, e = .trade t) ∨ ∃ id, e = .cancelled a.seq id := by
  induction h with
  | nil | stop => exact fun e he => nomatch he
  | own _ _ _ _ ih => exact List.forall_mem_cons.mpr ⟨.inr ⟨_, rfl⟩, ih⟩
  | full _ _ _ _ _ ih => exact List.forall_mem_cons.mpr ⟨.inl ⟨_, rfl⟩, ih⟩
  | part => exact List.forall_mem_cons.mpr ⟨.inl ⟨_, rfl⟩, fun e he => nomatch he⟩

theorem Swept.noTops (h : Swept a os qty os' qty' evs) : ∀ e ∈ evs, e.isBookTop = false := by
  intro e he
  obtain ⟨t, rfl⟩ | ⟨id, rfl⟩ := h.events e he <;> rfl

/-! ## What a new order can do -/

/-- What is left of the reference book after the sweep of a new order. -/
def RefBook.afterSweep (r : RefBook) (seq tsNs : UInt64) (o : InboundNewOrder) : RefBook :=
  r.setSide o.side.opposite (RefBook.sweep (o.aggressor seq tsNs) (r.side o.side.opposite) o.qty).1

/-- The order that a new order comes to rest as. -/
def InboundNewOrder.resting (o : InboundNewOrder) (seq : UInt64) (left : Qty) : RefOrder :=
  { id := ⟨seq⟩, account := o.account, qty := left, side := o.side, price := o.price, seq }

/-- The event of a new order that comes to rest with `left`. -/
def InboundNewOrder.accepted (o : InboundNewOrder) (seq tsNs : UInt64) (left : Qty) : EngineEvent :=
  .accepted { seq, orderId := ⟨seq⟩, tsNs, symbol := o.symbol, accountId := o.account
              clientOrderId := o.clientOrderId, side := o.side, price := o.price, qty := left }

/-- The outcomes of a new order: refused before or after the sweep, filled,
dropped after the sweep, or rested. -/
inductive RefBook.Outcome (r : RefBook) (seq tsNs : UInt64) (o : InboundNewOrder) :
    RefBook × List EngineEvent → Prop
  | refused (rej : EngineEvent.Rejected) : Outcome r seq tsNs o (r, [.rejected rej])
  | filled {qty' : Qty} {evs : List EngineEvent}
      (h : Swept (o.aggressor seq tsNs) (r.side o.side.opposite) o.qty
        ((r.afterSweep seq tsNs o).side o.side.opposite) qty' evs) :
      Outcome r seq tsNs o (r.afterSweep seq tsNs o, evs)
  | dropped {qty' : Qty} {evs : List EngineEvent}
      (h : Swept (o.aggressor seq tsNs) (r.side o.side.opposite) o.qty
        ((r.afterSweep seq tsNs o).side o.side.opposite) qty' evs) {e : EngineEvent}
      (he : (∃ rej, e = .rejected rej) ∨ e = .cancelled seq ⟨seq⟩) :
      Outcome r seq tsNs o (r.afterSweep seq tsNs o, evs ++ [e])
  | rested {left : Qty} {evs : List EngineEvent}
      (h : Swept (o.aggressor seq tsNs) (r.side o.side.opposite) o.qty
        ((r.afterSweep seq tsNs o).side o.side.opposite) left evs) {e : EngineEvent.Accepted}
      (he : e.orderId = ⟨seq⟩ ∧ e.accountId = o.account ∧ e.side = o.side ∧ e.price = o.price ∧ e.qty = left) :
      Outcome r seq tsNs o ((r.afterSweep seq tsNs o).setSide o.side
        (((r.afterSweep seq tsNs o).side o.side).orderedInsert (RefOrder.ahead o.side) (o.resting seq left)),
        evs ++ [.accepted e])

theorem newOrderIf_outcome (c : RefConfig) (r : RefBook) (seq tsNs : UInt64) (o : InboundNewOrder) (f : Bool) :
    r.Outcome seq tsNs o (r.newOrderIf c seq tsNs o f) := by
  have hw := swept (o.aggressor seq tsNs) (r.side o.side.opposite) o.qty
  have hside : (r.afterSweep seq tsNs o).side o.side.opposite =
      (RefBook.sweep (o.aggressor seq tsNs) (r.side o.side.opposite) o.qty).1 := by
    rw [RefBook.afterSweep, RefBook.side_setSide]
  rw [← hside] at hw
  simp only [RefBook.newOrderIf]
  repeat' split
  · exact .refused _
  · exact .refused _
  · exact .refused _
  · exact .filled hw
  · unfold RefBook.rest
    split
    · exact .dropped hw (.inl ⟨_, rfl⟩)
    · exact .rested hw ⟨rfl, rfl, rfl, rfl, rfl⟩
  · exact .dropped hw (.inl ⟨_, rfl⟩)
  · exact .dropped hw (.inr rfl)

end MRE
