import MatchRiskEngine.Framework.Links
import MatchRiskEngine.Spec.RefBook

/-!
# Price levels

A level whose queue is the keys `ks` (`LevelOk`): its links thread `ks`, and
its total is the sum of the queue's quantities, modulo 2^64. `pushBack_ok`,
`remove_ok` and `fillHead_ok` say what the operations on a level do to its
queue and to the arena: no key outside the queue is touched, and the orders
that stay keep everything but their links.
-/

namespace MRE

open SlotMap

namespace Proof.Book

variable {M K : Type}

/-- The quantity of an order. -/
def qtyAt (d : K → Option RefOrder) (k : K) : Nat := ((d k).map fun o => o.qty.raw.toNat).getD 0

/-- The total quantity of a queue. -/
def queueQty (d : K → Option RefOrder) (ks : List K) : Nat := (ks.map (qtyAt d)).sum

theorem queueQty_append (d : K → Option RefOrder) (as bs : List K) :
    queueQty d (as ++ bs) = queueQty d as + queueQty d bs := by
  simp [queueQty]

theorem queueQty_cons (d : K → Option RefOrder) (k : K) (ks : List K) :
    queueQty d (k :: ks) = qtyAt d k + queueQty d ks := by
  simp [queueQty]

theorem queueQty_congr {d d' : K → Option RefOrder} {ks : List K} (h : ∀ k ∈ ks, d' k = d k) :
    queueQty d' ks = queueQty d ks := by
  refine congrArg List.sum (List.map_congr_left fun k hk => ?_)
  rw [qtyAt, qtyAt, h k hk]

/-! Writing a link of an order that may or may not be there. -/

section Links

variable {x : Option (RestingOrder K)} {c : Prop} [Decidable c] (n p : Option K)

@[simp] theorem data_ite_setNext :
    (if c then x.map (·.setNext n) else x).map RestingOrder.data = x.map RestingOrder.data := by
  split <;> cases x <;> rfl

@[simp] theorem data_ite_setPrev :
    (if c then x.map (·.setPrev p) else x).map RestingOrder.data = x.map RestingOrder.data := by
  split <;> cases x <;> rfl

@[simp] theorem next_ite_setPrev :
    (if c then x.map (·.setPrev p) else x).bind RestingOrder.next = x.bind RestingOrder.next := by
  split <;> cases x <;> rfl

@[simp] theorem prev_ite_setNext :
    (if c then x.map (·.setNext n) else x).bind RestingOrder.prev = x.bind RestingOrder.prev := by
  split <;> cases x <;> rfl

theorem next_ite_setNext (hx : x.isSome) : (if c then x.map (·.setNext n) else x).bind RestingOrder.next =
    if c then n else x.bind RestingOrder.next := by
  obtain ⟨o, rfl⟩ := Option.isSome_iff_exists.mp hx
  split <;> rfl

theorem prev_ite_setPrev (hx : x.isSome) : (if c then x.map (·.setPrev p) else x).bind RestingOrder.prev =
    if c then p else x.bind RestingOrder.prev := by
  obtain ⟨o, rfl⟩ := Option.isSome_iff_exists.mp hx
  split <;> rfl

theorem isSome_ite_map (f : RestingOrder K → RestingOrder K) :
    (if c then x.map f else x).isSome = x.isSome := by
  split <;> simp

end Links

variable [DecidableEq K] [Arena M K]

/-- The order at a key, without its links. -/
def dataOf (arena : M) (k : K) : Option RefOrder := (get? arena k).map RestingOrder.data

def nextOf (arena : M) (k : K) : Option K := (get? arena k).bind RestingOrder.next

def prevOf (arena : M) (k : K) : Option K := (get? arena k).bind RestingOrder.prev

variable {arena : M} {k : K}

theorem dataOf_isSome : (dataOf arena k).isSome = (get? arena k).isSome := by
  simp [dataOf]

variable {o : RestingOrder K}

theorem dataOf_of_get? (h : get? arena k = some o) :
    dataOf arena k = some o.data := by
  rw [dataOf, h, Option.map_some]

theorem qtyAt_of_get? (h : get? arena k = some o) :
    qtyAt (dataOf arena) k = o.qtyRemaining.raw.toNat := by
  rw [qtyAt, dataOf_of_get? h]; rfl

/-- The level `l` holds the queue `ks`. -/
structure LevelOk (arena : M) (l : PriceLevel K) (ks : List K) : Prop where
  links : DLinked (nextOf arena) (prevOf arena) l.head l.tail ks
  total : l.totalQty.raw.toNat = queueQty (dataOf arena) ks % 2 ^ 64

variable {l : PriceLevel K}

theorem LevelOk.congr {arena arena' : M} {ks : List K} (hl : LevelOk arena l ks)
    (h : ∀ k ∈ ks, get? arena' k = get? arena k) : LevelOk arena' l ks where
  links := hl.links.congr (fun k hk => by rw [nextOf, nextOf, h k hk])
    (fun k hk => by rw [prevOf, prevOf, h k hk])
  total := by
    rw [hl.total, queueQty_congr fun k hk => ?_]
    rw [dataOf, dataOf, h k hk]

theorem LevelOk.new (arena : M) (p : Price) : LevelOk arena (PriceLevel.new p) [] :=
  ⟨DLinked.nil, rfl⟩

theorem LevelOk.isEmpty {ks : List K} (hl : LevelOk arena l ks) :
    l.isEmpty = ks.isEmpty := by
  rw [PriceLevel.isEmpty, hl.links.head_eq]
  cases ks <;> rfl

/-- `arena'` differs from `arena` only at keys of the queue `ks`, and its
entries there are live in both or removed in `arena'`. -/
structure Touches (ks : List K) (arena arena' : M) : Prop where
  outside : ∀ j, j ∉ ks → get? arena' j = get? arena j
  capacity : capacity arena' = capacity arena

theorem remove_ok {as bs : List K}
    (hl : LevelOk arena l (as ++ k :: bs)) (hlive : ∀ j ∈ as ++ k :: bs, (get? arena j).isSome)
    (ho : get? arena k = some o) :
    ∃ l' arena', l.remove k arena = some (some o, l', arena') ∧ LevelOk arena' l' (as ++ bs) ∧
      l'.price = l.price ∧ dataOf arena' = Function.update (dataOf arena) k none ∧
      Touches (as ++ k :: bs) arena arena' := by
  have hnk : nextOf arena k = o.next := by rw [nextOf, ho, Option.bind_some]
  have hpk : prevOf arena k = o.prev := by rw [prevOf, ho, Option.bind_some]
  have hnx : o.next = bs.head? := by rw [← hl.links.next_eq, hnk]
  have hpv : o.prev = as.getLast? := by rw [← hl.links.prev_eq, hpk]
  have hkas : k ∉ as := fun h => (List.disjoint_of_nodup_append hl.links.nodup) h List.mem_cons_self
  have hkbs : k ∉ bs := (List.nodup_cons.mp hl.links.nodup.of_append_right).1
  have hmn : ∀ j, o.next = some j → j ∈ bs := fun j hj => List.mem_of_head? (hnx ▸ hj)
  have hmp : ∀ j, o.prev = some j → j ∈ as := fun j hj => List.mem_of_getLast? (hpv ▸ hj)
  obtain ⟨a₁, e₁, g₁, c₁⟩ := modifyOpt_ok (m := arena) (k := o.prev)
    (fun j hj => hlive j (by simp [hmp j hj])) (fun x => x.setNext o.next)
  obtain ⟨a₂, e₂, g₂, c₂⟩ := modifyOpt_ok (m := a₁) (k := o.next) (fun j hj => by
    rw [g₁]
    rw [isSome_ite_map, hlive j (by simp [hmn j hj])]) (fun x => x.setPrev o.prev)
  have g₃ : ∀ j, get? (SlotMap.remove a₂ k).2 j = if j = k then none else get? a₂ j := get?_remove a₂ k
  have hrem : (SlotMap.remove a₂ k).1 = some o := by
    rw [remove_fst, g₂, if_neg (fun h => hkbs (hmn k h)), g₁, if_neg (fun h => hkas (hmp k h)), ho]
  have hdata : dataOf (SlotMap.remove a₂ k).2 = Function.update (dataOf arena) k none := by
    funext j
    rw [dataOf, g₃, Function.update_apply]
    split
    · rfl
    · rw [g₂, data_ite_setPrev, g₁, data_ite_setNext]; rfl
  have hne : ∀ j ∈ as ++ bs, j ≠ k := by
    intro j hj e
    subst e
    exact (List.mem_append.mp hj).elim hkas hkbs
  have hlive' : ∀ j ∈ as ++ bs, (get? arena j).isSome := fun j hj =>
    hlive j (List.Sublist.mem hj (List.Sublist.append_left (List.sublist_cons_self k bs) as))
  refine ⟨{ l with
      head := if o.prev.isNone then o.next else l.head
      tail := if o.next.isNone then o.prev else l.tail
      totalQty := ⟨l.totalQty.raw - o.qtyRemaining.raw⟩ }, (SlotMap.remove a₂ k).2,
    ?_, ⟨hl.links.unlink (fun j hj => ?_) (fun j hj => ?_) ?_ ?_, ?_⟩, rfl, hdata, ⟨fun j hj => ?_, ?_⟩⟩
  · simp only [PriceLevel.remove, ho, e₁, e₂, Option.bind_eq_bind, Option.bind_some, hrem]
  · rw [nextOf, g₃, if_neg (hne j hj), g₂, next_ite_setPrev, g₁, next_ite_setNext _ (hlive' j hj), hnk, hpk]
    rfl
  · rw [prevOf, g₃, if_neg (hne j hj), g₂, prev_ite_setPrev, g₁, prev_ite_setNext, hnk, hpk]
    · rfl
    · rw [g₁, isSome_ite_map, hlive' j hj]
  · simp only [hpk, hnk, Option.isNone_iff_eq_none]
  · simp only [hpk, hnk, Option.isNone_iff_eq_none]
  · rw [hdata, queueQty_congr (d := dataOf arena) fun j hj => Function.update_of_ne (hne j hj) _ _]
    have ht := hl.total
    rw [queueQty_append, queueQty_cons, qtyAt_of_get? ho] at ht
    rw [queueQty_append]
    show (l.totalQty.raw - o.qtyRemaining.raw).toNat = _
    rw [UInt64.toNat_sub, ht]
    have := o.qtyRemaining.raw.toNat_lt
    omega
  · rw [g₃, if_neg (by rintro rfl; simp at hj), g₂, if_neg fun h => hj (by simp [hmn j h]), g₁,
      if_neg fun h => hj (by simp [hmp j h])]
  · rw [capacity_remove, c₂, c₁]

theorem pushBack_ok {ks : List K} (hl : LevelOk arena l ks) (hlive : ∀ j ∈ ks, (get? arena j).isSome) (hk : k ∉ ks)
    (ho : get? arena k = some o) (hnext : o.next = none) (hprev : o.prev = none) :
    ∃ l' arena', l.pushBack k arena = some (l', arena') ∧ LevelOk arena' l' (ks ++ [k]) ∧
      l'.price = l.price ∧ dataOf arena' = dataOf arena ∧ Touches (ks ++ [k]) arena arena' := by
  have hnk : nextOf arena k = none := by rw [nextOf, ho, Option.bind_some, hnext]
  have hpk : prevOf arena k = none := by rw [prevOf, ho, Option.bind_some, hprev]
  have htotal : ∀ {arena' : M}, dataOf arena' = dataOf arena →
      (l.totalQty.raw + o.qtyRemaining.raw).toNat = queueQty (dataOf arena') (ks ++ [k]) % 2 ^ 64 := by
    intro arena' hd
    rw [hd, queueQty_append, queueQty_cons, qtyAt_of_get? ho, UInt64.toNat_add, hl.total]
    simp only [queueQty, List.map_nil, List.sum_nil]
    omega
  cases ht : l.tail with
  | none =>
    refine ⟨{ l with head := some k, tail := some k, totalQty := ⟨l.totalQty.raw + o.qtyRemaining.raw⟩ },
      arena, ?_, ⟨hl.links.snoc hk (fun j _ => ?_) hnk (fun _ _ => rfl) ?_ ?_, htotal rfl⟩, rfl, rfl,
      ⟨fun _ _ => rfl, rfl⟩⟩
    · simp only [PriceLevel.pushBack, ho, ht, Option.bind_eq_bind, Option.bind_some]
    · rw [ht, if_neg (by simp)]
    · rw [hpk, ht]
    · rw [ht, if_pos rfl]
  | some t =>
    have htm : t ∈ ks := List.mem_of_getLast? (hl.links.tail_eq ▸ ht)
    obtain ⟨a₁, e₁, g₁, c₁⟩ := modify_ok (hlive t htm) (fun x => x.setNext (some k))
    obtain ⟨a₂, e₂, g₂, c₂⟩ := modify_ok (m := a₁) (k := k) (by rw [g₁, isSome_ite_map, ho]; rfl)
      (fun x => x.setPrev (some t))
    have hdata : dataOf a₂ = dataOf arena := by
      funext j
      rw [dataOf, g₂, data_ite_setPrev, g₁, data_ite_setNext]; rfl
    have hne : ∀ j ∈ ks, j ≠ k := fun j hj e => hk (e ▸ hj)
    have htk : t ≠ k := hne t htm
    refine ⟨{ l with tail := some k, totalQty := ⟨l.totalQty.raw + o.qtyRemaining.raw⟩ }, a₂, ?_,
      ⟨hl.links.snoc hk (fun j hj => ?_) ?_ (fun j hj => ?_) ?_ ?_, htotal hdata⟩, rfl, hdata,
      ⟨fun j hj => ?_, ?_⟩⟩
    · simp only [PriceLevel.pushBack, ho, ht, e₁, e₂, Option.bind_eq_bind, Option.bind_some]
    · rw [nextOf, g₂, next_ite_setPrev, g₁, next_ite_setNext _ (hlive j hj), ht]
      simp only [Option.some.injEq, eq_comm]
      rfl
    · rw [nextOf, g₂, next_ite_setPrev, g₁, if_neg (Ne.symm htk)]; exact hnk
    · rw [prevOf, g₂, if_neg (hne j hj), g₁, prev_ite_setNext]; rfl
    · rw [prevOf, g₂, if_pos rfl, g₁, if_neg (Ne.symm htk), ho, ht]; rfl
    · rw [ht, if_neg (by simp)]
    · rw [g₂, if_neg fun e => hj (by simp [e]), g₁, if_neg fun e => hj (by simp [e, htm])]
    · rw [c₂, c₁]

theorem setQty_ok {bs : List K} {fill : Qty}
    (hl : LevelOk arena l (k :: bs)) (ho : get? arena k = some o) (hfill : fill.raw ≤ o.qtyRemaining.raw) :
    LevelOk (SlotMap.set arena k { o with qtyRemaining := ⟨o.qtyRemaining.raw - fill.raw⟩ })
      { l with totalQty := ⟨l.totalQty.raw - fill.raw⟩ } (k :: bs) ∧
    dataOf (SlotMap.set arena k { o with qtyRemaining := ⟨o.qtyRemaining.raw - fill.raw⟩ }) =
      Function.update (dataOf arena) k (some { o.data with qty := ⟨o.qtyRemaining.raw - fill.raw⟩ }) := by
  have g := get?_set (m := arena) (k := k) (by rw [ho]; rfl)
    { o with qtyRemaining := ⟨o.qtyRemaining.raw - fill.raw⟩ }
  have hd : dataOf (SlotMap.set arena k { o with qtyRemaining := ⟨o.qtyRemaining.raw - fill.raw⟩ }) =
      Function.update (dataOf arena) k (some { o.data with qty := ⟨o.qtyRemaining.raw - fill.raw⟩ }) := by
    funext j
    rw [dataOf, g, Function.update_apply]
    split <;> rfl
  refine ⟨⟨hl.links.congr (fun j _ => ?_) (fun j _ => ?_), ?_⟩, hd⟩
  · rw [nextOf, nextOf, g]
    split
    · next e => rw [e, ho]; rfl
    · rfl
  · rw [prevOf, prevOf, g]
    split
    · next e => rw [e, ho]; rfl
    · rfl
  · have hbs : ∀ j ∈ bs, j ≠ k := fun j hj e => (List.nodup_cons.mp hl.links.nodup).1 (e ▸ hj)
    have ht := hl.total
    rw [queueQty_cons, qtyAt_of_get? ho] at ht
    rw [hd, queueQty_cons, queueQty_congr (d := dataOf arena) fun j hj => Function.update_of_ne (hbs j hj) _ _]
    have hq : qtyAt (Function.update (dataOf arena) k
        (some { o.data with qty := ⟨o.qtyRemaining.raw - fill.raw⟩ })) k =
        o.qtyRemaining.raw.toNat - fill.raw.toNat := by
      rw [qtyAt, Function.update_self]
      exact UInt64.toNat_sub_of_le _ _ hfill
    rw [hq]
    show (l.totalQty.raw - fill.raw).toNat = _
    rw [UInt64.toNat_sub, ht]
    have := UInt64.le_iff_toNat_le.mp hfill
    have := o.qtyRemaining.raw.toNat_lt
    omega

/-- Filling the head of a level's queue, but not completely. -/
theorem fillHead_partial {bs : List K} {fill : Qty}
    (hl : LevelOk arena l (k :: bs)) (ho : get? arena k = some o) (hfill : fill.raw < o.qtyRemaining.raw) :
    ∃ l' arena', l.fillHead fill arena = some (false, l', arena') ∧ LevelOk arena' l' (k :: bs) ∧
      l'.price = l.price ∧
      dataOf arena' = Function.update (dataOf arena) k
        (some { o.data with qty := ⟨o.qtyRemaining.raw - fill.raw⟩ }) ∧
      Touches (k :: bs) arena arena' := by
  have hle : fill.raw ≤ o.qtyRemaining.raw := UInt64.le_of_lt hfill
  obtain ⟨hl', hd⟩ := setQty_ok hl ho hle
  have hne := UInt64.sub_ne_zero_of_lt hfill
  refine ⟨_, _, ?_, hl', rfl, hd, ⟨fun j hj => ?_, capacity_set _ _ _⟩⟩
  · simp only [PriceLevel.fillHead, hl.links.head_eq, List.head?_cons, ho, Option.bind_eq_bind, Option.bind_some,
      if_neg hne]
  · rw [get?_set (by rw [ho]; rfl), if_neg fun e => hj (by simp [e])]

/-- A complete fill of the head is its removal, with no quantity left. -/
theorem fillHead_eq_remove (hh : l.head = some k) (ho : get? arena k = some o) (hprev : o.prev = none) :
    l.fillHead o.qtyRemaining arena =
      (PriceLevel.remove { l with totalQty := ⟨l.totalQty.raw - o.qtyRemaining.raw⟩ } k
        (SlotMap.set arena k { o with qtyRemaining := ⟨o.qtyRemaining.raw - o.qtyRemaining.raw⟩ })).map
        fun r => (true, r.2) := by
  have g : get? (SlotMap.set arena k { o with qtyRemaining := ⟨o.qtyRemaining.raw - o.qtyRemaining.raw⟩ }) k =
      some { o with qtyRemaining := ⟨o.qtyRemaining.raw - o.qtyRemaining.raw⟩ } := by
    rw [get?_set (by rw [ho]; rfl), if_pos rfl]
  simp only [UInt64.sub_self, hprev] at g
  simp only [PriceLevel.fillHead, hh, ho, PriceLevel.remove, g, hprev, modifyOpt, Option.bind_eq_bind,
    Option.bind_some, UInt64.sub_self, UInt64.sub_zero, if_true, Option.isNone_none, Option.map_bind]
  rfl

/-- Filling the head of a level's queue completely removes it. -/
theorem fillHead_full {bs : List K} (hl : LevelOk arena l (k :: bs)) (hlive : ∀ j ∈ k :: bs, (get? arena j).isSome)
    (ho : get? arena k = some o) :
    ∃ l' arena', l.fillHead o.qtyRemaining arena = some (true, l', arena') ∧ LevelOk arena' l' bs ∧
      l'.price = l.price ∧ dataOf arena' = Function.update (dataOf arena) k none ∧
      Touches (k :: bs) arena arena' := by
  obtain ⟨hl₁, hd₁⟩ := setQty_ok hl ho (UInt64.le_refl _)
  have g₁ := get?_set (m := arena) (k := k) (by rw [ho]; rfl)
    { o with qtyRemaining := ⟨o.qtyRemaining.raw - o.qtyRemaining.raw⟩ }
  have hlive₁ : ∀ j ∈ k :: bs, (get? (SlotMap.set arena k
      { o with qtyRemaining := ⟨o.qtyRemaining.raw - o.qtyRemaining.raw⟩ }) j).isSome := by
    intro j hj
    rw [g₁]
    split
    · rfl
    · exact hlive j hj
  obtain ⟨l', arena', e, hl', hp, hd, ht⟩ := remove_ok (show LevelOk _ _ ([] ++ k :: bs) from hl₁) hlive₁
    ((g₁ k).trans (if_pos rfl))
  have hprev : prevOf arena k = none := DLinked.prev_eq (show DLinked _ _ _ _ ([] ++ k :: bs) from hl.links)
  rw [prevOf, ho, Option.bind_some] at hprev
  refine ⟨l', arena', ?_, hl', hp, ?_, ⟨fun j hj => ?_, ?_⟩⟩
  · rw [fillHead_eq_remove hl.links.head_eq ho hprev, e]; rfl
  · rw [hd, hd₁, Function.update_idem]
  · rw [ht.outside j hj, g₁, if_neg fun e => hj (by simp [e])]
  · rw [ht.capacity, capacity_set]

end Proof.Book

end MRE
