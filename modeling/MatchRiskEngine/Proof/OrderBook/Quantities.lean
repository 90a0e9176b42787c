import Mathlib.Algebra.Order.BigOperators.Group.List
import Mathlib.Data.List.Infix
import MatchRiskEngine.Proof.OrderBook.BestPrices

/-!
# Resting quantities

A level's total is what rests at its price modulo `2 ^ 64`
(`Shape.levelQty_ok`). As long as what rests at every price is a 64-bit number,
every subtraction of the book is exact (`matchLoop_fits`); the one addition,
when an order comes to rest, is exact exactly if that is still so afterwards.
So the operations of a run are exact, and what the book reports is right,
exactly if what rests at a price never exceeds 64 bits (`qtyOps_exact_iff`).
-/

namespace MRE

open SlotMap

namespace Proof.Book

variable {M K : Type}

/-- The total of every queue is a 64-bit number. -/
def Fits (d : K → Option RefOrder) (Q : Side → Nat → List K) : Prop := ∀ s i, queueQty d (Q s i) < 2 ^ 64

theorem queueQty_le {d d' : K → Option RefOrder} {ks ks' : List K} (hsub : ks'.Sublist ks)
    (hle : ∀ k, qtyAt d' k ≤ qtyAt d k) : queueQty d' ks' ≤ queueQty d ks := by
  induction hsub with
  | slnil => exact Nat.le_refl _
  | cons k _ ih =>
    rw [queueQty_cons]
    exact Nat.le_trans ih (Nat.le_add_left _ _)
  | cons_cons k _ ih =>
    rw [queueQty_cons, queueQty_cons]
    exact Nat.add_le_add (hle k) ih

theorem Fits.shrink {d d' : K → Option RefOrder} {Q Q' : Side → Nat → List K} (h : Fits d Q)
    (hsub : ∀ s i, (Q' s i).Sublist (Q s i)) (hle : ∀ k, qtyAt d' k ≤ qtyAt d k) : Fits d' Q' := fun s i =>
  Nat.lt_of_le_of_lt (queueQty_le (hsub s i) hle) (h s i)

theorem sublist_setQueue {Q : Side → Nat → List K} {s : Side} {i : Nat} {ks : List K} (h : ks.Sublist (Q s i))
    (s' : Side) (j : Nat) : (setQueue Q s i ks s' j).Sublist (Q s' j) := by
  unfold setQueue
  split
  · rename_i e
    rw [e.1, e.2]
    exact h
  · exact List.Sublist.refl _

variable [DecidableEq K]

theorem qtyAt_erase_le (d : K → Option RefOrder) (k j : K) : qtyAt (Function.update d k none) j ≤ qtyAt d j := by
  rw [qtyAt, Function.update_apply]
  split
  · exact Nat.zero_le _
  · exact Nat.le_refl _

theorem qtyAt_setQty_le {d : K → Option RefOrder} {k : K} {o : RefOrder} (ho : d k = some o) {q : Qty}
    (hq : q.raw.toNat ≤ o.qty.raw.toNat) (j : K) :
    qtyAt (Function.update d k (some { o with qty := q })) j ≤ qtyAt d j := by
  rw [qtyAt, Function.update_apply]
  split
  · rename_i e
    rw [e, qtyAt, ho]
    exact hq
  · exact Nat.le_refl _

variable [Arena M K]

variable {c : RefConfig} {cfg : BookConfig} {b b₁ b' : OrderBook M K} {Q : Side → Nat → List K} {s : Side} {i : Nat}

/-! ## What rests at a price -/

theorem filter_filterMap_keys (arena : M) (ks : List K) (p : RestingOrder K → Bool) :
    (ks.filterMap (get? arena)).filter p = (ks.filter fun k => (get? arena k).any p).filterMap (get? arena) := by
  induction ks with
  | nil => rfl
  | cons k ks ih =>
    cases hk : get? arena k with
    | none => rw [List.filterMap_cons_none hk, List.filter_cons_of_neg (by rw [hk]; simp), ih]
    | some o =>
      rw [List.filterMap_cons_some hk]
      by_cases hp : p o = true
      · rw [List.filter_cons_of_pos hp, List.filter_cons_of_pos (by rw [hk]; exact hp), List.filterMap_cons_some hk, ih]
      · rw [List.filter_cons_of_neg hp, List.filter_cons_of_neg (by rw [hk]; exact hp), ih]

theorem Shape.restingQty_eq (hb : Shape c b Q) (s : Side) {p : Price} (hi : c.index? p = some i) :
    b.restingQty s p = queueQty (dataOf b.arena) (Q s i) := by
  have hmem : ∀ k, (get? b.arena k).any (fun o => o.side = s ∧ o.price = p) = true ↔ k ∈ Q s i := fun k => by
    rw [hb.seated.mem, Option.any_eq_true]
    constructor
    · rintro ⟨o, ho, hp⟩
      obtain ⟨hs, hp⟩ := of_decide_eq_true hp
      exact ⟨o.data, dataOf_of_get? ho, hs, (congrArg c.index? hp).trans hi⟩
    · rintro ⟨x, hx, hs, hxi⟩
      obtain ⟨o, ho, rfl⟩ := get?_of_dataOf hx
      exact ⟨o, ho, decide_eq_true ⟨hs, (hb.idxToPrice hxi).symm.trans (hb.idxToPrice hi)⟩⟩
  have hperm : ((keys b.arena).filter fun k => (get? b.arena k).any fun o => o.side = s ∧ o.price = p).Perm (Q s i) := by
    refine (List.perm_ext_iff_of_nodup ((nodup_keys b.arena).filter _) (hb.seated.nodup s i)).mpr fun k => ?_
    rw [List.mem_filter, hmem]
    exact ⟨fun h => h.2, fun h => ⟨mem_keys.mpr (hb.live h), h⟩⟩
  rw [OrderBook.restingQty, queueQty_eq, values, filter_filterMap_keys]
  exact ((hperm.filterMap (get? b.arena)).map fun o : RestingOrder K => o.qtyRemaining.raw.toNat).sum_nat

theorem Shape.restingQty_none (hb : Shape c b Q) (s : Side) {p : Price} (hi : c.index? p = none) :
    b.restingQty s p = 0 := by
  have hnone : (values b.arena).filter (fun o => o.side = s ∧ o.price = p) = [] := by
    refine List.filter_eq_nil_iff.mpr fun o ho hp => ?_
    obtain ⟨k, -, hk⟩ := List.mem_filterMap.mp ho
    obtain ⟨-, hp⟩ := of_decide_eq_true hp
    obtain ⟨j, hj, -⟩ := hb.seated.mem_queue (dataOf_of_get? hk)
    rw [show o.data.price = p from hp, hi] at hj
    cases hj
  rw [OrderBook.restingQty, hnone]
  rfl

theorem Shape.qtyFits_iff (hb : Shape c b Q) : b.QtyFits ↔ Fits (dataOf b.arena) Q := by
  refine ⟨fun h s i => ?_, fun h s p => ?_⟩
  · by_cases hq : Q s i = []
    · rw [hq]
      exact Nat.two_pow_pos 64
    · obtain ⟨l, hl⟩ := hb.occupied hq
      rw [← hb.restingQty_eq s (hb.price hl)]
      exact h s l.price
  · cases hi : c.index? p with
    | none =>
      rw [hb.restingQty_none s hi]
      exact Nat.two_pow_pos 64
    | some i =>
      rw [hb.restingQty_eq s hi]
      exact h s i

/-- What a level reports is what rests at its price, modulo `2 ^ 64`. -/
theorem Shape.levelQty_ok (hb : Shape c b Q) (s : Side) (p : Price) :
    ∃ q, OrderBook.levelQty (b.ladder s) (b.priceToIdx p) = some q ∧ q.raw.toNat = b.restingQty s p % 2 ^ 64 := by
  rw [hb.priceToIdx]
  cases hi : c.index? p with
  | none => exact ⟨⟨0⟩, rfl, by rw [hb.restingQty_none s hi]; rfl⟩
  | some i =>
    obtain ⟨slot, hslot, hl, -⟩ := hb.slot_ok (s := s) hi
    refine ⟨(slot.getD (PriceLevel.new p)).totalQty, ?_, by rw [hb.restingQty_eq s hi, hl.total]⟩
    rw [OrderBook.levelQty, hslot]
    cases slot <;> rfl

theorem eq_iff_lt_of_mod {q : Qty} {n : Nat} (h : q.raw.toNat = n % 2 ^ 64) : q.raw.toNat = n ↔ n < 2 ^ 64 := by
  have := q.raw.toNat_lt
  refine ⟨fun e => by omega, fun hlt => by rw [h, Nat.mod_eq_of_lt hlt]⟩

theorem Shape.reportsQty_iff (hb : Shape c b Q) : b.ReportsQty ↔ b.QtyFits := by
  have hside : ∀ s p, (∃ q, OrderBook.levelQty (b.ladder s) (b.priceToIdx p) = some q ∧
      q.raw.toNat = b.restingQty s p) ↔ b.restingQty s p < 2 ^ 64 := fun s p => by
    obtain ⟨q, hq, hmod⟩ := hb.levelQty_ok s p
    rw [hq]
    refine ⟨fun ⟨q', e, h⟩ => ?_, fun h => ⟨q, rfl, (eq_iff_lt_of_mod hmod).mpr h⟩⟩
    cases e
    exact (eq_iff_lt_of_mod hmod).mp h
  refine ⟨fun h s p => ?_, fun h p => ⟨(hside .buy p).mpr (h .buy p), (hside .sell p).mpr (h .sell p)⟩⟩
  cases s
  · exact (hside .buy p).mp (h p).1
  · exact (hside .sell p).mp (h p).2

/-! ## The matching loop -/

theorem LevelOk.total_eq {arena : M} {l : PriceLevel K} {ks : List K} (hl : LevelOk arena l ks)
    (h : queueQty (dataOf arena) ks < 2 ^ 64) : l.totalQty.raw.toNat = queueQty (dataOf arena) ks := by
  rw [hl.total, Nat.mod_eq_of_lt h]

section Pass

variable {k : K} {bs : List K} {o : RefOrder} {a : Aggressor} {qty : Qty} (evs : List EngineEvent)

theorem matchStepOps_stop (hstop : qty.raw = 0 ∨ b.best a.side.opposite = none ∨
      ∃ i, b.best a.side.opposite = some i ∧ a.crosses (b.idxToPrice i) = false) :
    OrderBook.matchStepOps a (b, qty, evs) = [] := by
  by_cases hz : qty.raw = 0
  · simp only [OrderBook.matchStepOps, hz, if_true]
  simp only [OrderBook.matchStepOps, hz, if_false, bestOpposite_eq]
  rcases hstop.resolve_left hz with hs | ⟨i, hs, hx⟩
  · rw [hs]; rfl
  · rw [hs, Option.map_some, hx]

variable (hb : Sound c b Q) (hs : b.best a.side.opposite = some i) (hq : Q a.side.opposite i = k :: bs)
  (ho : dataOf b.arena k = some o) (hz : qty.raw ≠ 0) (hx : a.crosses (b.idxToPrice i) = true)
  (hfit : Fits (dataOf b.arena) Q)

include hb hs hq ho hz hx hfit

theorem matchStepOps_exact : ∀ op ∈ OrderBook.matchStepOps a (b, qty, evs), op.Exact := by
  obtain ⟨l, hg, hlev, -⟩ := hb.level_of_mem (hq ▸ List.mem_cons_self : k ∈ Q a.side.opposite i)
  obtain ⟨ro, hro, rfl⟩ := get?_of_dataOf ho
  have htotal := hlev.total_eq (hfit _ _)
  rw [hq] at hlev htotal
  rw [queueQty_cons, qtyAt_of_get? hro] at htotal
  have hhead : l.head = some k := hlev.links.head_eq
  by_cases hacct : ro.account = a.account
  · simp only [OrderBook.matchStepOps, hz, if_false, bestOpposite_eq, hs, Option.map_some, hx, hg, PriceLevel.peekHead,
      hhead, hro, hacct, if_true, PriceLevel.removeOps]
    refine List.forall_mem_singleton.mpr ?_
    show ro.qtyRemaining.raw.toNat ≤ l.totalQty.raw.toNat
    omega
  · simp only [OrderBook.matchStepOps, hz, if_false, bestOpposite_eq, hs, Option.map_some, hx, hg, PriceLevel.peekHead,
      hhead, hro, hacct, PriceLevel.fillHeadOps, Option.bind_some]
    generalize hf : (if qty.raw < ro.qtyRemaining.raw then qty else ro.qtyRemaining) = f
    have hle : f.raw.toNat ≤ qty.raw.toNat ∧ f.raw.toNat ≤ ro.qtyRemaining.raw.toNat := by
      rw [← hf]
      split
      · exact ⟨Nat.le_refl _, Nat.le_of_lt (UInt64.lt_iff_toNat_lt.mp ‹_›)⟩
      · exact ⟨UInt64.le_iff_toNat_le.mp (UInt64.not_lt.mp ‹_›), Nat.le_refl _⟩
    have htot : f.raw.toNat ≤ l.totalQty.raw.toNat := by omega
    exact List.forall_mem_cons.mpr ⟨hle.2, List.forall_mem_cons.mpr ⟨htot,
      List.forall_mem_cons.mpr ⟨hle.1, List.forall_mem_singleton.mpr hle.2⟩⟩⟩

/-- A pass leaves a book in which every total still fits. -/
theorem matchStep_fits : ∃ st Q', OrderBook.matchStep a (b, qty, evs) = some (true, st) ∧ Sound c st.1 Q' ∧
    Fits (dataOf st.1.arena) Q' := by
  have herase : Fits (Function.update (dataOf b.arena) k none) (setQueue Q a.side.opposite i bs) :=
    hfit.shrink (sublist_setQueue (hq ▸ List.sublist_cons_self k bs)) (qtyAt_erase_le _ k)
  by_cases hacct : o.account = a.account
  · obtain ⟨b', e, hsound, hd, -⟩ := matchStep_own evs hb hs hq ho hz hx hacct
    exact ⟨_, _, e, hsound, show Fits (dataOf b'.arena) _ from hd ▸ herase⟩
  by_cases hlt : qty.raw < o.qty.raw
  · obtain ⟨b', e, hsound, hd, -⟩ := matchStep_partial evs hb hs hq ho hz hx hacct hlt
    refine ⟨_, Q, e, hsound, ?_⟩
    show Fits (dataOf b'.arena) Q
    rw [hd]
    refine hfit.shrink (fun _ _ => List.Sublist.refl _) (qtyAt_setQty_le ho ?_)
    rw [UInt64.toNat_sub_of_le _ _ (UInt64.le_of_lt hlt)]
    exact Nat.sub_le _ _
  · obtain ⟨b', e, hsound, hd, -⟩ := matchStep_full evs hb hs hq ho hz hx hacct hlt
    exact ⟨_, _, e, hsound, show Fits (dataOf b'.arena) _ from hd ▸ herase⟩

end Pass

theorem matchLoopOps_next {a : Aggressor} {n : Nat} {st st' : OrderBook.MatchState M K}
    (h : OrderBook.matchStep a st = some (true, st')) :
    OrderBook.matchLoopOps a (n + 1) st = OrderBook.matchStepOps a st ++ OrderBook.matchLoopOps a n st' := by
  rw [OrderBook.matchLoopOps, h]

theorem matchLoop_fits (a : Aggressor) (n : Nat) (qty : Qty) (evs : List EngineEvent) (hb : Sound c b Q)
    (hfit : Fits (dataOf b.arena) Q) :
    (∀ op ∈ OrderBook.matchLoopOps a n (b, qty, evs), op.Exact) ∧
      ∀ st, OrderBook.matchLoop a n (b, qty, evs) = some st → st.1.QtyFits := by
  induction n generalizing b Q qty evs with
  | zero => exact ⟨fun op hop => (nomatch hop), fun st e => (nomatch e)⟩
  | succ n ih =>
    by_cases hstop : qty.raw = 0 ∨ b.best a.side.opposite = none ∨
        ∃ i, b.best a.side.opposite = some i ∧ a.crosses (b.idxToPrice i) = false
    · have hstep := matchStep_stop evs hstop
      refine ⟨fun op hop => ?_, fun st e => ?_⟩
      · rw [OrderBook.matchLoopOps, hstep, matchStepOps_stop evs hstop] at hop
        cases hop
      · rw [matchLoop_stop hstep] at e
        cases e
        exact hb.qtyFits_iff.mpr hfit
    · rw [not_or, not_or] at hstop
      obtain ⟨hz, hne, hx⟩ := hstop
      obtain ⟨i, hs⟩ := Option.ne_none_iff_exists'.mp hne
      have hx : a.crosses (b.idxToPrice i) = true := by
        rw [← Bool.not_eq_false]
        exact fun e => hx ⟨i, hs, e⟩
      obtain ⟨k, bs, o, hq, ho, -⟩ := hb.queued_head hs
      obtain ⟨st, Q', e, hsound, hfit'⟩ := matchStep_fits evs hb hs hq ho hz hx hfit
      obtain ⟨hops, hend⟩ := ih st.2.1 st.2.2 hsound hfit'
      rw [matchLoopOps_next e, matchLoop_next e]
      refine ⟨fun op hop => ?_, hend⟩
      rcases List.mem_append.mp hop with hop | hop
      · exact matchStepOps_exact evs hb hs hq ho hz hx hfit op hop
      · exact hops op hop

/-! ## Commands -/

variable {seq tsNs : UInt64} {o : InboundNewOrder} {left : Qty} {evs : List EngineEvent}

/-- The operations of a new order that is matched: those of the matching loop,
and of what comes to rest. -/
theorem Matched.ops (hm : Matched b seq tsNs o b₁ left evs) :
    b.applyNewOrderOps seq tsNs o = b.matchAgainstBookOps (o.aggressor seq tsNs) o.qty ++
      if left.raw = 0 ∨ o.NeverRests then []
      else b₁.restRemainderOps seq o ((b.priceToIdx o.price).getD 0) left := by
  have hz : ¬ o.qty.raw ≤ 0 := fun e => hm.qty (UInt64.le_zero_iff.mp e)
  obtain ⟨i, hidx, hi⟩ := exists_slot hm.idx
  have hloop := hm.loop
  unfold InboundNewOrder.aggressor at hloop ⊢
  simp only [OrderBook.applyNewOrderOps, hz, if_false, hidx, hm.proceeds, hloop]
  refine congrArg _ ?_
  by_cases hdone : left.raw = 0
  · rw [if_pos hdone, if_pos (.inl hdone)]
  rw [if_neg hdone]
  by_cases hdrop : o.NeverRests
  · exact (if_pos hdrop).trans (if_pos (.inr hdrop)).symm
  · rw [if_neg (not_or.mpr ⟨hdone, hdrop⟩), hi ((not_neverRests_iff o).mp hdrop).1]
    exact if_neg hdrop

theorem ops_of_refuses (h : b.Refuses o) (seq tsNs : UInt64) : b.applyNewOrderOps seq tsNs o = [] := by
  by_cases hz : o.qty.raw ≤ 0
  · simp only [OrderBook.applyNewOrderOps, hz, if_true]
  rcases h with h | ⟨hlim, h⟩ | ⟨hfok, h⟩
  · exact absurd (UInt64.le_zero_iff.mpr h) hz
  · simp only [OrderBook.applyNewOrderOps, hz, if_false, hlim, if_true, h]
  · simp only [OrderBook.applyNewOrderOps, hz, if_false, hfok, if_true, h]
    split <;> rfl

theorem Valid.matched_fits (hb : Valid c b Q) (hfit : b.QtyFits) (hm : Matched b seq tsNs o b₁ left evs) :
    (∀ op ∈ b.matchAgainstBookOps (o.aggressor seq tsNs) o.qty, op.Exact) ∧ b₁.QtyFits := by
  obtain ⟨hops, hend⟩ := matchLoop_fits (o.aggressor seq tsNs) (len b.arena + 1) o.qty [] hb.toSound
    (hb.qtyFits_iff.mp hfit)
  exact ⟨hops, hend _ hm.loop⟩

theorem Valid.rested_fits (hb : Valid c b Q) (hfit : b.QtyFits) (hroom : ¬ capacity b.arena ≤ len b.arena)
    (hi : c.index? o.price = some i) (hz : left.raw ≠ 0) {evs' : List EngineEvent}
    (hrest : b.restRemainder seq tsNs o i left evs = some (b', evs')) :
    b'.QtyFits ↔ ∀ op ∈ b.restRemainderOps seq o i left, op.Exact := by
  obtain ⟨b₂, k, top, e, -, -, hk, hsound, hd, -⟩ := hb.toSound.restRemainder hroom seq tsNs o hi hz evs
  rw [hrest] at e
  obtain rfl : b' = b₂ := congrArg Prod.fst (Option.some.inj e)
  obtain ⟨slot, hslot, hl, -⟩ := hb.slot_ok (s := o.side) hi
  have hfit := hb.qtyFits_iff.mp hfit
  have hops : b.restRemainderOps seq o i left = [.add (slot.getD (PriceLevel.new o.price)).totalQty left] := by
    simp only [OrderBook.restRemainderOps, hroom, if_false, hslot, PriceLevel.pushBackOps, get?_insert, if_true]
    rfl
  have hkQ : ∀ s j, k ∉ Q s j := hb.seated.notMem_of_none hk
  have hsame : ∀ ks : List K, k ∉ ks → queueQty (dataOf b'.arena) ks = queueQty (dataOf b.arena) ks := fun ks hks => by
    rw [hd]
    refine queueQty_congr fun j hj => ?_
    have hne : j ≠ k := fun e => hks (e ▸ hj)
    exact Function.update_of_ne hne _ _
  have hnew : queueQty (dataOf b'.arena) (Q o.side i ++ [k]) =
      queueQty (dataOf b.arena) (Q o.side i) + left.raw.toNat := by
    have hqk : qtyAt (dataOf b'.arena) k = left.raw.toNat := by
      rw [hd, qtyAt, Function.update_self]
      rfl
    rw [queueQty_append, hsame _ (hkQ _ _), queueQty_cons, hqk]
    rfl
  have htotal := hl.total_eq (hfit o.side i)
  rw [hsound.qtyFits_iff, hops, List.forall_mem_singleton]
  show _ ↔ (slot.getD (PriceLevel.new o.price)).totalQty.raw.toNat + left.raw.toNat < 2 ^ 64
  rw [htotal, ← hnew]
  refine ⟨fun h => ?_, fun h s j => ?_⟩
  · have hsi := h o.side i
    rwa [setQueue_self] at hsi
  · by_cases e : s = o.side ∧ j = i
    · rw [e.1, e.2, setQueue_self]
      exact h
    · rw [setQueue_ne _ _ e, hsame _ (hkQ _ _)]
      exact hfit s j

theorem Valid.applied_fits (hb : Valid c b Q) (hfit : b.QtyFits) (h : Applied b seq tsNs o b' evs) :
    b'.QtyFits ↔ ∀ op ∈ b.applyNewOrderOps seq tsNs o, op.Exact := by
  -- Where nothing comes to rest, the operations are those of the loop.
  have hgone : ∀ {b₁ left evs}, Matched b seq tsNs o b₁ left evs → left.raw = 0 ∨ o.NeverRests →
      (b₁.QtyFits ↔ ∀ op ∈ b.applyNewOrderOps seq tsNs o, op.Exact) := by
    intro b₁ left evs hm hend
    obtain ⟨hops, hfit₁⟩ := hb.matched_fits hfit hm
    rw [hm.ops, if_pos hend, List.append_nil]
    exact iff_of_true hfit₁ hops
  cases h with
  | refused h =>
    rw [ops_of_refuses h]
    exact iff_of_true hfit fun op hop => nomatch hop
  | filled hm hz => exact hgone hm (.inl hz)
  | cancelled hm hz hlt ht hdrop => exact hgone hm (.inr hdrop)
  | unmatched hm hz hle rej ht hdrop => exact hgone hm (.inr hdrop)
  | full hm hz hrests hfull =>
    obtain ⟨hops, hfit₁⟩ := hb.matched_fits hfit hm
    rw [hm.ops, if_neg (not_or.mpr ⟨hz, hrests⟩), OrderBook.restRemainderOps, if_pos hfull, List.append_nil]
    exact iff_of_true hfit₁ hops
  | rested hm hz hrests hroom hidx hrest =>
    obtain ⟨hops, hfit₁⟩ := hb.matched_fits hfit hm
    obtain ⟨Q₁, os, hb₁, -⟩ := hb.of_matched hm
    rw [hm.ops, if_neg (not_or.mpr ⟨hz, hrests⟩), hidx, List.forall_mem_append]
    rw [hb.priceToIdx] at hidx
    rw [hb₁.rested_fits hfit₁ hroom hidx hz hrest]
    exact (and_iff_right hops).symm

theorem applyCancelOps_none {account : AccountId} {id : OrderId}
    (h : ∀ k ro, b.idToKey id = some k → get? b.arena k = some ro → ro.account ≠ account) :
    b.applyCancelOps account id = [] := by
  unfold OrderBook.applyCancelOps
  cases hk : b.idToKey id with
  | none => rfl
  | some k =>
    cases hro : get? b.arena k with
    | none => simp only [hro]
    | some ro => simp only [hro, ne_eq, h k ro hk hro, not_false_eq_true, if_true]

/-- A command: what rests at every price fits afterwards exactly if the
operations of the command are exact. -/
theorem Valid.opsExact_iff (hb : Valid c b Q) (hfit : b.QtyFits) {cmd : SequencedCommand}
    (e : b.apply cmd = some (b', evs)) : b'.QtyFits ↔ b.OpsExact cmd := by
  unfold OrderBook.OpsExact OrderBook.applyOps
  cases (hb.effect e).1 with
  | newOrder hc h =>
    rw [hc]
    exact hb.applied_fits hfit h
  | @notCancelled account id hc h rej =>
    rw [hc]
    refine iff_of_true hfit fun op (hop : op ∈ b.applyCancelOps account id) => ?_
    rw [applyCancelOps_none h] at hop
    cases hop
  | @cancelled id k ro hc hk hro _ hcancel =>
    obtain ⟨i, as, bs, hi, hq, hb', -, hd, -⟩ := hb.of_cancelled hk hro hcancel
    have hfit := hb.qtyFits_iff.mp hfit
    obtain ⟨l, hg, hlev, -⟩ := hb.level_of_mem (show k ∈ Q ro.side i by rw [hq]; simp)
    have htotal := hlev.total_eq (hfit _ _)
    rw [hq, queueQty_append, queueQty_cons, qtyAt_of_get? hro] at htotal
    rw [hc]
    refine iff_of_true (hb'.qtyFits_iff.mpr ?_) ?_
    · rw [hd]
      exact hfit.shrink (sublist_setQueue (hq ▸ (List.sublist_cons_self k bs).append_left as)) (qtyAt_erase_le _ k)
    · have hidx : b.priceToIdx ro.price = some i := (hb.priceToIdx ro.price).trans hi
      have hops : b.applyCancelOps ro.account id = [.sub l.totalQty ro.qtyRemaining] := by
        simp only [OrderBook.applyCancelOps, hk, hro, ne_eq, not_true_eq_false, if_false, hidx, hg, PriceLevel.removeOps]
      show ∀ op ∈ b.applyCancelOps ro.account id, op.Exact
      rw [hops]
      refine List.forall_mem_singleton.mpr ?_
      show ro.qtyRemaining.raw.toNat ≤ l.totalQty.raw.toNat
      omega
  | idle hnew hcancel =>
    refine iff_of_true hfit fun op hop => ?_
    cases hc : cmd.cmd with
    | newOrder o => exact absurd hc (hnew o)
    | cancel account id => exact absurd hc (hcancel account id)
    | liquidate | freezeAccount =>
      rw [hc] at hop
      cases hop

/-! ## Runs -/

variable {b₀ : OrderBook M K}

theorem new_fits (hnew : OrderBook.new cfg = some b₀) : b₀.QtyFits := by
  obtain ⟨⟨Q, hb, hl⟩, -⟩ := new_ok hnew
  intro s p
  have hnil : (values b₀.arena).filter (fun o => o.side = s ∧ o.price = p) = [] := by
    refine List.filter_eq_nil_iff.mpr fun o ho _ => ?_
    obtain ⟨k, -, hk⟩ := List.mem_filterMap.mp ho
    have hmem := hl.mem.mpr ⟨rfl, k, dataOf_of_get? hk⟩
    cases hs : o.data.side <;> rw [hs] at hmem <;> cases hmem
  rw [OrderBook.restingQty, hnil]
  exact Nat.two_pow_pos 64

/-- In every run, all unchecked operations are exact and the book always
reports what rests at a price, exactly if after every command what rests at a
price is a 64-bit number. -/
theorem qtyOps_exact_iff (hnew : OrderBook.new cfg = some b₀) (cmds : List SequencedCommand) :
    b₀.AllCommands OrderBook.OpsExact cmds ∧ b₀.AlwaysAfter (fun b _ => b.ReportsQty) cmds ↔
      b₀.AlwaysAfter (fun b _ => b.QtyFits) cmds := by
  obtain ⟨Q, hb₀⟩ := new_valid hnew
  have hops := hb₀.always_iff (P := fun b _ => b.QtyFits) (fun hb h e => hb.opsExact_iff h e) []
    (new_fits hnew) cmds
  have hreports : b₀.AlwaysAfter (fun b _ => b.ReportsQty) cmds ↔ b₀.AlwaysAfter (fun b _ => b.QtyFits) cmds := by
    refine forall₂_congr fun done _ => ?_
    obtain ⟨b', evss, Q', e, hb'⟩ := hb₀.run done
    rw [e]
    refine ⟨fun ⟨b₁, evss₁, e₁, h⟩ => ?_, fun ⟨b₁, evss₁, e₁, h⟩ => ?_⟩
    all_goals
      cases e₁
      first | exact ⟨_, _, rfl, hb'.reportsQty_iff.mp h⟩ | exact ⟨_, _, rfl, hb'.reportsQty_iff.mpr h⟩
  rw [← hops, hreports]
  exact and_self_iff

/-- A book in which everything that rests comes to a 64-bit number. -/
theorem qtyFits_of_sum {b : OrderBook M K}
    (h : ((values b.arena).map fun o => o.qtyRemaining.raw.toNat).sum < 2 ^ 64) : b.QtyFits := fun _ _ =>
  Nat.lt_of_le_of_lt ((List.filter_sublist.map _).sum_le_sum fun _ _ => Nat.zero_le _) h

theorem runs_demoCommands : demoCommands.inits.all (fun done =>
    ((OrderBook.new demoConfig : Option (OrderBook SlotArena SlotKey)).bind (·.run done)).any
      fun r => ((values r.1.arena).map fun o => o.qtyRemaining.raw.toNat).sum < 2 ^ 64) = true := rfl

theorem qtyOps_exact_iff_demo : ∃ b₀ : OrderBook SlotArena SlotKey,
    OrderBook.new demoConfig = some b₀ ∧ b₀.AllCommands OrderBook.OpsExact demoCommands ∧
      b₀.AlwaysAfter (fun b _ => b.ReportsQty) demoCommands := by
  obtain ⟨b₀, h₀⟩ := new_demoConfig
  refine ⟨b₀, h₀, (qtyOps_exact_iff h₀ demoCommands).mpr fun done hdone => ?_⟩
  have hrun := List.all_eq_true.mp runs_demoCommands done ((List.mem_inits _ _).mpr hdone)
  rw [h₀] at hrun
  obtain ⟨⟨b, evss⟩, e, hsum⟩ := (Option.any_eq_true _ _).mp hrun
  exact ⟨b, evss, e, qtyFits_of_sum (of_decide_eq_true hsum)⟩

/-- An order to sell half the range of quantities at 105. -/
def hugeOrder (seq account : UInt64) : SequencedCommand :=
  { term := 1, seq, tsNs := 0
    cmd := .newOrder { account := ⟨account⟩, clientOrderId := ⟨seq⟩, symbol := ⟨1⟩, side := .sell, price := ⟨105⟩
                       qty := ⟨9223372036854775808⟩, orderType := .limit, timeInForce := .gtc } }

theorem run_hugeOrders :
    ((OrderBook.new demoConfig : Option (OrderBook SlotArena SlotKey)).bind fun b₀ =>
      (b₀.apply (hugeOrder 1 10)).bind fun r₁ => (r₁.1.apply (hugeOrder 2 11)).map fun r =>
        (r₁.1.applyOps (hugeOrder 2 11), r.1.askQtyAt ⟨105⟩, r.1.restingQty .sell ⟨105⟩)) =
    some ([.add ⟨9223372036854775808⟩ ⟨9223372036854775808⟩], some ⟨0⟩, 2 ^ 64) := rfl

/-- Two such orders come to rest: the addition overflows, and the total of the
level wraps to zero. -/
theorem hugeOrders_wrap : ∃ (b₀ b₁ b : OrderBook SlotArena SlotKey) (evs₁ evs : List EngineEvent),
    OrderBook.new demoConfig = some b₀ ∧ b₀.apply (hugeOrder 1 10) = some (b₁, evs₁) ∧
      b₁.apply (hugeOrder 2 11) = some (b, evs) ∧ ¬ b₁.OpsExact (hugeOrder 2 11) ∧
      b.askQtyAt ⟨105⟩ = some ⟨0⟩ ∧ b.restingQty .sell ⟨105⟩ = 2 ^ 64 := by
  obtain ⟨b₀, hnew, hrun⟩ := Option.bind_eq_some_iff.mp run_hugeOrders
  obtain ⟨⟨b₁, evs₁⟩, h₁, hrun⟩ := Option.bind_eq_some_iff.mp hrun
  obtain ⟨⟨b, evs⟩, h₂, hr⟩ := Option.map_eq_some_iff.mp hrun
  have hops : b₁.applyOps (hugeOrder 2 11) = _ := congrArg Prod.fst hr
  refine ⟨b₀, b₁, b, evs₁, evs, hnew, h₁, h₂, fun h => ?_, congrArg (fun x => x.2.1) hr, congrArg (fun x => x.2.2) hr⟩
  have hadd := h (.add ⟨9223372036854775808⟩ ⟨9223372036854775808⟩) (by rw [hops]; exact List.mem_cons_self)
  exact absurd hadd (show ¬ (9223372036854775808 + 9223372036854775808 < 2 ^ 64) by decide)

end Proof.Book

end MRE
