import MatchRiskEngine.Proof.OrderBook.Match

/-!
# Fill-or-kill

The read-only check of `can_fully_fill` and the matching loop agree. Both are
the quantity asked for less what the other accounts offer at crossing prices:
`fillableLoop_ok` sums that over the ladder, `sweep_left` over the reference
list, and `sum_queues` says that the two sums are the same. The check needs
the ladder's prices to fit (`LadderFits`), since it stops at the first index
whose price does not cross.
-/

namespace MRE

open SlotMap

namespace Proof.Book

variable {M K : Type}

/-- The sum of `g` over the orders of a list of keys. -/
def sumOver (d : K → Option RefOrder) (g : RefOrder → Nat) (ks : List K) : Nat := ((ks.filterMap d).map g).sum

@[simp] theorem sumOver_nil (d : K → Option RefOrder) (g : RefOrder → Nat) : sumOver d g [] = 0 := rfl

theorem sumOver_cons {d : K → Option RefOrder} {g : RefOrder → Nat} {k : K} {o : RefOrder} (ho : d k = some o)
    (ks : List K) : sumOver d g (k :: ks) = g o + sumOver d g ks := by
  rw [sumOver, List.filterMap_cons_some ho, List.map_cons, List.sum_cons]; rfl

theorem sumOver_append (d : K → Option RefOrder) (g : RefOrder → Nat) (as bs : List K) :
    sumOver d g (as ++ bs) = sumOver d g as + sumOver d g bs := by
  rw [sumOver, List.filterMap_append, List.map_append, List.sum_append]; rfl

theorem sumOver_zero (d : K → Option RefOrder) (ks : List K) : sumOver d (fun _ => 0) ks = 0 := by
  simp [sumOver]

theorem sumOver_congr {d : K → Option RefOrder} {g g' : RefOrder → Nat} {ks : List K}
    (h : ∀ k ∈ ks, ∀ o, d k = some o → g o = g' o) : sumOver d g ks = sumOver d g' ks := by
  refine congrArg List.sum (List.map_congr_left fun o ho => ?_)
  obtain ⟨k, hk, ho⟩ := List.mem_filterMap.mp ho
  exact h k hk o ho

/-! ## The check on the ladder -/

variable [DecidableEq K] [Arena M K]

variable {c : RefConfig} {b : OrderBook M K} {Q : Side → Nat → List K} {r : RefBook} {s : Side}

theorem Shape.length_queue (hb : Shape c b Q) {i : Nat} {l : PriceLevel K} (hg : (b.ladder s)[i]? = some (some l)) :
    (Q s i).length < len b.arena + 1 :=
  Nat.lt_succ_of_le (List.Subperm.length_le (List.subperm_of_subset (hb.level hg).links.nodup fun _ hk =>
    mem_keys.mpr (hb.live hk)))

theorem walkLevel_ok {arena : M} (account : AccountId) {ks : List K} {head : Option K} {n : Nat}
    (hl : Linked (nextOf arena) head ks) (hlive : ∀ k ∈ ks, (get? arena k).isSome) (hn : ks.length < n)
    (remaining : UInt64) :
    ∃ left, OrderBook.walkLevel arena account n head remaining = some left ∧
      left.toNat = remaining.toNat - sumOver (dataOf arena) (RefOrder.avail account) ks := by
  induction ks generalizing head n remaining with
  | nil =>
    obtain ⟨n, rfl⟩ : ∃ m, n = m + 1 := ⟨n - 1, by omega⟩
    rw [show head = none from hl]
    exact ⟨remaining, rfl, (Nat.sub_zero _).symm⟩
  | cons k ks ih =>
    obtain ⟨n, rfl⟩ : ∃ m, n = m + 1 := ⟨n - 1, by omega⟩
    obtain ⟨rfl, hl⟩ := hl
    obtain ⟨o, ho⟩ := Option.isSome_iff_exists.mp (hlive k List.mem_cons_self)
    rw [nextOf, ho, Option.bind_some] at hl
    have ih := ih hl (fun j hj => hlive j (List.mem_cons_of_mem k hj))
      (show ks.length < n by rw [List.length_cons] at hn; omega)
    have hav : o.data.avail account = if o.account = account then 0 else o.qtyRemaining.raw.toNat := rfl
    rw [sumOver_cons (dataOf_of_get? ho), hav, OrderBook.walkLevel, ho, Option.bind_eq_bind, Option.bind_some]
    by_cases hacct : o.account = account
    · rw [if_neg (not_not.mpr hacct), if_pos hacct, Nat.zero_add]
      exact ih remaining
    · rw [if_pos hacct, if_neg hacct]
      have hsub := UInt64.toNat_saturatingSub remaining o.qtyRemaining.raw
      by_cases hz : remaining.saturatingSub o.qtyRemaining.raw = 0
      · refine ⟨_, if_pos hz, ?_⟩
        rw [hz, UInt64.toNat_zero] at hsub ⊢
        omega
      · obtain ⟨left, e, hleft⟩ := ih (remaining.saturatingSub o.qtyRemaining.raw)
        refine ⟨left, by rw [← e]; exact if_neg hz, ?_⟩
        omega

theorem fillableLoop_cons (b : OrderBook M K) (a : Aggressor) (i : Nat) (is : List Nat) (remaining : UInt64) :
    b.fillableLoop a.side a.price a.account a.orderType (i :: is) remaining =
      if remaining = 0 then some remaining
      else if !a.crosses (b.idxToPrice i) then some remaining
      else ((b.ladder a.side.opposite)[i]?).bind fun
        | none => b.fillableLoop a.side a.price a.account a.orderType is remaining
        | some l => (OrderBook.walkLevel b.arena a.account (len b.arena + 1) l.peekHead remaining).bind
            (b.fillableLoop a.side a.price a.account a.orderType is) := rfl

/-- The loop over the ladder: what is left after the crossing levels, if the
indices are scanned from better to worse prices. -/
theorem fillableLoop_ok (hb : Shape c b Q) (a : Aggressor) {is : List Nat} (his : ∀ i ∈ is, i < c.numTicks)
    (remaining : UInt64) :
    ∃ left, b.fillableLoop a.side a.price a.account a.orderType is remaining = some left ∧
      (is.Pairwise (fun i j => a.crosses (b.idxToPrice j) = true → a.crosses (b.idxToPrice i) = true) →
        left.toNat = remaining.toNat - sumOver (dataOf b.arena) (RefOrder.avail a.account)
          ((is.filter fun i => a.crosses (b.idxToPrice i)).flatMap (Q a.side.opposite))) := by
  induction is generalizing remaining with
  | nil => exact ⟨remaining, rfl, fun _ => (Nat.sub_zero _).symm⟩
  | cons i is ih =>
    have ih := ih fun j hj => his j (List.mem_cons_of_mem i hj)
    rw [fillableLoop_cons]
    by_cases hz : remaining = 0
    · refine ⟨0, by rw [if_pos hz, hz], fun _ => ?_⟩
      rw [hz]; simp
    rw [if_neg hz]
    cases hx : a.crosses (b.idxToPrice i) with
    | false =>
      refine ⟨remaining, rfl, fun hp => ?_⟩
      have hnil : (i :: is).filter (fun i => a.crosses (b.idxToPrice i)) = [] := by
        refine List.filter_eq_nil_iff.mpr fun j hj hc => ?_
        rcases List.mem_cons.mp hj with rfl | hj
        · rw [hx] at hc; cases hc
        · rw [(List.pairwise_cons.mp hp).1 j hj hc] at hx; cases hx
      rw [hnil, List.flatMap_nil, sumOver_nil, Nat.sub_zero]
    | true =>
      have hfilter : (i :: is).filter (fun i => a.crosses (b.idxToPrice i)) =
          i :: is.filter fun i => a.crosses (b.idxToPrice i) := List.filter_cons_of_pos hx
      have hi : i < (b.ladder a.side.opposite).length := by rw [hb.length]; exact his i List.mem_cons_self
      have hg := List.getElem?_eq_getElem hi
      simp only [hfilter, List.flatMap_cons, sumOver_append, hg, Bool.not_true, Bool.false_eq_true, if_false,
        Option.bind_some]
      cases hl : (b.ladder a.side.opposite)[i] with
      | none =>
        have he : Q a.side.opposite i = [] := by
          by_contra hne
          obtain ⟨l, h⟩ := hb.occupied hne
          rw [hg, hl] at h
          cases h
        obtain ⟨left, e, hleft⟩ := ih remaining
        refine ⟨left, e, fun hp => ?_⟩
        rw [hleft (List.pairwise_cons.mp hp).2, he, sumOver_nil, Nat.zero_add]
      | some l =>
        rw [hl] at hg
        have hlev := hb.level hg
        obtain ⟨left₁, e₁, h₁⟩ := walkLevel_ok a.account hlev.links.fwd (fun k hk => hb.live hk) (hb.length_queue hg) remaining
        obtain ⟨left, e, hleft⟩ := ih left₁
        refine ⟨left, ?_, fun hp => ?_⟩
        · simp only [PriceLevel.peekHead, e₁, Option.bind_some, e]
        · rw [hleft (List.pairwise_cons.mp hp).2, h₁]
          omega

theorem Shape.idxToPrice_toInt (hb : Shape c b Q) (hfit : c.LadderFits) {i : Nat} (hi : i < c.numTicks) :
    (b.idxToPrice i).raw.toInt = c.tickFloor.raw.toInt + i := by
  have hf := hb.fits
  have hlo := Int64.le_toInt c.tickFloor.raw
  have hfit : c.tickFloor.raw.toInt + c.numTicks ≤ 2 ^ 63 := hfit
  have ht : b.tickFloor = c.tickFloor := congrArg RefConfig.tickFloor hb.config
  rw [OrderBook.idxToPrice, ht, Int64.toInt_add, Int64.toInt_ofNat_of_lt (by omega)]
  exact Int64.bmod_of_range (by omega) (by omega)

theorem canFullyFill_eq (b : OrderBook M K) (a : Aggressor) (qty : Qty) :
    b.canFullyFill a.side a.price qty a.account a.orderType =
      (b.fillableLoop a.side a.price a.account a.orderType
        (bestFirst a.side.opposite (b.ladder a.side.opposite).length) qty.raw).map fun left => decide (left = 0) := by
  cases hs : a.side <;> rfl

/-- The queues of a side, one after the other, are the side. -/
theorem sum_queues (hb : Rep c b Q) (hr : Listed (dataOf b.arena) r) (s : Side) (g : RefOrder → Nat) :
    (((queued c (dataOf b.arena) Q).side s).map g).sum = ((r.side s).map g).sum := by
  refine List.Perm.sum_nat (List.Perm.map g ?_)
  rw [side_queued]
  refine (List.perm_ext_iff_of_nodup
    ((hb.seated.nodup_keysOf c.numTicks s).filterMap fun k k' o hk hk' => hb.ids.inj hk hk' rfl)
    (RefOrder.nodup_of_ahead (hr.sorted s))).mpr fun o => ?_
  rw [← side_queued, hb.sound.mem_queued_iff, hr.mem]

/-- Summing over the crossing levels is summing what every order offers. -/
theorem sum_crossing (hb : Shape c b Q) (a : Aggressor) (is : List Nat) :
    sumOver (dataOf b.arena) (RefOrder.avail a.account) ((is.filter fun i => a.crosses (b.idxToPrice i)).flatMap (Q s)) =
      sumOver (dataOf b.arena) a.offered (is.flatMap (Q s)) := by
  induction is with
  | nil => rfl
  | cons i is ih =>
    have hprice : ∀ k ∈ Q s i, ∀ o, dataOf b.arena k = some o → a.crosses o.price = a.crosses (b.idxToPrice i) := by
      intro k hk o ho
      obtain ⟨o', ho', -, hi⟩ := hb.seated.mem.mp hk
      rw [ho] at ho'
      cases ho'
      rw [hb.idxToPrice hi]
    rw [List.filter_cons, List.flatMap_cons, sumOver_append, ← ih]
    split
    · rename_i hx
      rw [List.flatMap_cons, sumOver_append, sumOver_congr fun k hk o ho => ?_]
      rw [Aggressor.offered, hprice k hk o ho, if_pos hx]
    · rename_i hx
      have hz : sumOver (dataOf b.arena) a.offered (Q s i) = sumOver (dataOf b.arena) (fun _ => 0) (Q s i) :=
        sumOver_congr fun k hk o ho => by rw [Aggressor.offered, hprice k hk o ho, if_neg hx]
      rw [hz, sumOver_zero, Nat.zero_add]

theorem crosses_mono (a : Aggressor) {i j : Nat} {p q : Price} (ei : p.raw.toInt = c.tickFloor.raw.toInt + i)
    (ej : q.raw.toInt = c.tickFloor.raw.toInt + j) (hij : a.side.opposite.beats i j) (hx : a.crosses q = true) :
    a.crosses p = true := by
  unfold Aggressor.crosses at hx ⊢
  rw [Bool.or_eq_true] at hx ⊢
  refine hx.imp_right fun hx => ?_
  cases hs : a.side <;> simp only [hs, decide_eq_true_eq, Int64.le_iff_toInt_le] at hx ⊢ <;> rw [hs] at hij
  · have : i < j := hij
    omega
  · have : j < i := hij
    omega

theorem Shape.canFullyFill (hb : Shape c b Q) (a : Aggressor) (qty : Qty) :
    ∃ left : UInt64, b.canFullyFill a.side a.price qty a.account a.orderType = some (decide (left = 0)) ∧
      (c.LadderFits → left.toNat = qty.raw.toNat -
        (((queued c (dataOf b.arena) Q).side a.side.opposite).map a.offered).sum) := by
  obtain ⟨left, e, hleft⟩ := fillableLoop_ok hb a
    (fun i hi => mem_bestFirst.mp hi : ∀ i ∈ bestFirst a.side.opposite c.numTicks, i < c.numTicks) qty.raw
  refine ⟨left, by rw [canFullyFill_eq, hb.length, e]; rfl, fun hfit => ?_⟩
  have hmono := (pairwise_bestFirst a.side.opposite c.numTicks).imp_of_mem fun hi hj hij =>
    crosses_mono a (hb.idxToPrice_toInt hfit (mem_bestFirst.mp hi)) (hb.idxToPrice_toInt hfit (mem_bestFirst.mp hj)) hij
  rw [hleft hmono, sum_crossing hb, side_queued]
  rfl

/-- The check always returns, and it says whether a sweep would fill the
order. -/
theorem canFullyFill_ok (h : Sim c b r) (a : Aggressor) (qty : Qty) :
    ∃ f, b.canFullyFill a.side a.price qty a.account a.orderType = some f ∧
      (c.LadderFits → f = decide ((RefBook.sweep a (r.side a.side.opposite) qty).2.1.raw = 0)) := by
  obtain ⟨Q, hb, hl⟩ := h
  obtain ⟨left, e, hleft⟩ := hb.sound.canFullyFill a qty
  refine ⟨_, e, fun hfit => decide_eq_decide.mpr ?_⟩
  have hleft := hleft hfit
  rw [sum_queues hb hl, ← sweep_left a qty (Aggressor.falls_of_ahead (hl.sorted _))] at hleft
  rw [UInt64.toNat_inj.mp hleft]

/-- The prices of a side get no better from queue to queue. -/
theorem Shape.queued_falls (hb : Shape c b Q) (a : Aggressor) :
    a.Falls ((queued c (dataOf b.arena) Q).side a.side.opposite) := by
  rw [side_queued, Aggressor.Falls, List.pairwise_filterMap, keysOf, List.pairwise_flatMap]
  have hprice : ∀ {i k o}, k ∈ Q a.side.opposite i → dataOf b.arena k = some o → c.index? o.price = some i := by
    intro i k o hk ho
    obtain ⟨o', ho', -, hi⟩ := hb.seated.mem.mp hk
    rw [ho] at ho'
    cases ho'
    exact hi
  refine ⟨fun i _ => ?_, (pairwise_bestFirst a.side.opposite c.numTicks).imp_of_mem fun {i j} hi hj hij => ?_⟩
  · refine List.Pairwise.imp_of_mem (R := fun _ _ => True) (fun {k k'} hk hk' _ x hx y hy hc => ?_)
      (List.pairwise_of_forall fun _ _ => trivial)
    rwa [← hb.idxToPrice (hprice hk hx), hb.idxToPrice (hprice hk' hy)]
  · intro k hk k' hk' x hx y hy hc
    exact crosses_mono a (RefConfig.index?_eq_some.mp (hprice hk hx)).1 (RefConfig.index?_eq_some.mp (hprice hk' hy)).1 hij hc

/-- The check agrees with the sweep of the queues, whatever the sequence
numbers. -/
theorem Shape.canFullyFill_iff (hb : Shape c b Q) (hfit : c.LadderFits) (a : Aggressor) (qty : Qty) :
    b.canFullyFill a.side a.price qty a.account a.orderType =
      some (decide ((RefBook.sweep a ((queued c (dataOf b.arena) Q).side a.side.opposite) qty).2.1.raw = 0)) := by
  obtain ⟨left, e, hleft⟩ := hb.canFullyFill a qty
  rw [e, UInt64.toNat_inj.mp ((hleft hfit).trans (sweep_left a qty (hb.queued_falls a)).symm)]

end Proof.Book

end MRE
