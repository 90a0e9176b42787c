import MatchRiskEngine.Proof.OrderBook.Sides

/-!
# A side, queue by queue

The orders of a side in the order of its queues (`queued`): the levels from
the best price on, each from the head of its queue. Whatever the sequence
numbers, the first of them is the head of the level at the best pointer
(`Sound.queued_head`), and the list follows that order out of the book
(`Sound.queued_erase`) and through a partial fill (`Sound.queued_setQty`).
-/

namespace MRE

open SlotMap

namespace Proof.Book

variable {M K : Type}

/-- The indices of a ladder, from the best price on. -/
def bestFirst (s : Side) (n : Nat) : List Nat :=
  match s with
  | .sell => List.range n
  | .buy => (List.range n).map fun step => n - 1 - step

theorem mem_bestFirst {s : Side} {n i : Nat} : i ∈ bestFirst s n ↔ i < n := by
  cases s
  · rw [bestFirst, List.mem_map]
    refine ⟨fun ⟨j, hj, e⟩ => ?_, fun h => ⟨n - 1 - i, List.mem_range.mpr (by omega), by omega⟩⟩
    have := List.mem_range.mp hj
    omega
  · exact List.mem_range

theorem pairwise_bestFirst (s : Side) (n : Nat) : (bestFirst s n).Pairwise s.beats := by
  cases s
  · refine List.pairwise_map.mpr (List.pairwise_lt_range.imp_of_mem fun {x y} hx hy hxy => ?_)
    have := List.mem_range.mp hx
    have := List.mem_range.mp hy
    show n - 1 - y < n - 1 - x
    omega
  · exact List.pairwise_lt_range

theorem Side.beats_ne {s : Side} {i j : Nat} (h : s.beats i j) : i ≠ j := by
  rintro rfl
  cases s <;> exact Nat.lt_irrefl i h

/-! ## Keys -/

variable {n : Nat} {Q : Side → Nat → List K} {s : Side} {i : Nat} {k : K} {bs : List K}

/-- The keys of a side, from the best price on. -/
def keysOf (n : Nat) (Q : Side → Nat → List K) (s : Side) : List K := (bestFirst s n).flatMap (Q s)

theorem mem_keysOf : k ∈ keysOf n Q s ↔ ∃ i, i < n ∧ k ∈ Q s i := by
  simp only [keysOf, List.mem_flatMap, mem_bestFirst]

theorem keysOf_setQueue_ne (Q : Side → Nat → List K) {s s' : Side} (i : Nat) (ks : List K) (h : s' ≠ s) :
    keysOf n (setQueue Q s i ks) s' = keysOf n Q s' :=
  List.flatMap_congr fun _ _ => setQueue_ne Q ks fun e => h e.1

theorem keysOf_eq_nil (h : IsBest s (fun i => Q s i ≠ []) none) : keysOf n Q s = [] :=
  List.flatMap_eq_nil_iff.mpr fun i _ => not_not.mp (h i)

/-- The first key is the head of the best queue, and the others are those of
the book without it. -/
theorem keysOf_eq_cons (h : IsBest s (fun i => Q s i ≠ []) (some i)) (hi : i < n) (hq : Q s i = k :: bs) :
    keysOf n Q s = k :: keysOf n (setQueue Q s i bs) s := by
  obtain ⟨is, js, hsplit⟩ := List.append_of_mem (mem_bestFirst (s := s).mpr hi)
  have hp := pairwise_bestFirst s n
  rw [hsplit] at hp
  obtain ⟨-, hp, his⟩ := List.pairwise_append.mp hp
  have hbetter : ∀ j ∈ is, Q s j = [] := fun j hj =>
    not_not.mp fun hne => h.2 j hne (his j hj i List.mem_cons_self)
  have hsame : ∀ j, j ≠ i → setQueue Q s i bs s j = Q s j := fun j hj => setQueue_ne Q bs fun e => hj e.2
  have his' : is.flatMap (setQueue Q s i bs s) = [] := List.flatMap_eq_nil_iff.mpr fun j hj => by
    rw [hsame j (Side.beats_ne (his j hj i List.mem_cons_self)), hbetter j hj]
  have hjs : js.flatMap (setQueue Q s i bs s) = js.flatMap (Q s) := List.flatMap_congr fun j hj =>
    hsame j (Ne.symm (Side.beats_ne ((List.pairwise_cons.mp hp).1 j hj)))
  rw [keysOf, keysOf, hsplit, List.flatMap_append, List.flatMap_append, List.flatMap_cons, List.flatMap_cons, his', hjs,
    List.flatMap_eq_nil_iff.mpr hbetter, setQueue_self, hq]
  rfl

variable {d : K → Option RefOrder}

theorem Seated.nodup_keysOf {c : RefConfig} (hp : Seated c d Q) (n : Nat) (s : Side) :
    (keysOf n Q s).Nodup := by
  refine List.nodup_flatMap.mpr ⟨fun i _ => hp.nodup s i, ?_⟩
  exact (pairwise_bestFirst s n).imp fun {i j} hij k hk hk' => Side.beats_ne hij (hp.unique hk hk').2.symm

theorem Seated.notMem_keysOf {c : RefConfig} (hp : Seated c d Q) (hk : k ∈ Q s i) {s' : Side}
    (hs' : s' ≠ s) (n : Nat) : k ∉ keysOf n Q s' := by
  intro hk'
  obtain ⟨i', -, hk'⟩ := mem_keysOf.mp hk'
  exact hs' (hp.unique hk hk').1

/-! ## Orders -/

/-- The orders of both sides, queue by queue. -/
def queued (c : RefConfig) (d : K → Option RefOrder) (Q : Side → Nat → List K) : RefBook :=
  ⟨(keysOf c.numTicks Q .buy).filterMap d, (keysOf c.numTicks Q .sell).filterMap d⟩

theorem side_queued (c : RefConfig) (d : K → Option RefOrder) (Q : Side → Nat → List K) (s : Side) :
    (queued c d Q).side s = (keysOf c.numTicks Q s).filterMap d := by cases s <;> rfl

section Sound

variable [DecidableEq K] [Arena M K] {c : RefConfig} {b : OrderBook M K} {o : RefOrder}

theorem Sound.queued_nil (hb : Sound c b Q) (hs : b.best s = none) : (queued c (dataOf b.arena) Q).side s = [] := by
  have hbest := hb.best s
  rw [hs] at hbest
  rw [side_queued, keysOf_eq_nil hbest]
  rfl

/-- The first order of a side is the first of the queue at the best index. -/
theorem Sound.queued_head (hb : Sound c b Q) (hs : b.best s = some i) :
    ∃ k bs o, Q s i = k :: bs ∧ dataOf b.arena k = some o ∧ c.index? o.price = some i ∧
      (queued c (dataOf b.arena) Q).side s =
        o :: (keysOf c.numTicks (setQueue Q s i bs) s).filterMap (dataOf b.arena) := by
  have hbest := hb.best s
  rw [hs] at hbest
  obtain ⟨k, bs, hq⟩ := List.exists_cons_of_ne_nil hbest.1
  obtain ⟨o, ho, -, hi⟩ := hb.seated.mem.mp (hq ▸ List.mem_cons_self : k ∈ Q s i)
  refine ⟨k, bs, o, hq, ho, hi, ?_⟩
  rw [side_queued, keysOf_eq_cons hbest (hb.lt_of_occupied hbest.1) hq, List.filterMap_cons_some ho]

theorem filterMap_update {ks : List K} (hk : k ∉ ks) (v : Option RefOrder) :
    ks.filterMap (Function.update d k v) = ks.filterMap d := by
  refine List.filterMap_congr fun j hj => ?_
  have hne : j ≠ k := fun e => hk (e ▸ hj)
  rw [Function.update_of_ne hne]

variable {rest : List RefOrder}

/-- The key at the head of the best queue is in no other place. -/
theorem Sound.notMem_rest (hb : Sound c b Q) (hs : b.best s = some i) (hq : Q s i = k :: bs) :
    k ∉ keysOf c.numTicks (setQueue Q s i bs) s := by
  have hbest := hb.best s
  rw [hs] at hbest
  have hnd := hb.seated.nodup_keysOf c.numTicks s
  rw [keysOf_eq_cons hbest (hb.lt_of_occupied hbest.1) hq] at hnd
  exact (List.nodup_cons.mp hnd).1

theorem Sound.queued_erase (hb : Sound c b Q) (hs : b.best s = some i) (hq : Q s i = k :: bs)
    (ho : dataOf b.arena k = some o) (hr : (queued c (dataOf b.arena) Q).side s = o :: rest) :
    queued c (Function.update (dataOf b.arena) k none) (setQueue Q s i bs) =
      (queued c (dataOf b.arena) Q).setSide s rest := by
  have hbest := hb.best s
  rw [hs] at hbest
  rw [side_queued, keysOf_eq_cons hbest (hb.lt_of_occupied hbest.1) hq, List.filterMap_cons_some ho,
    List.cons.injEq] at hr
  refine RefBook.ext_side fun s' => ?_
  rw [side_queued]
  rcases eq_or_ne s' s with rfl | hs'
  · rw [RefBook.side_setSide, filterMap_update (hb.notMem_rest hs hq), hr.2]
  · rw [RefBook.side_setSide_ne _ hs', side_queued, keysOf_setQueue_ne _ _ _ hs',
      filterMap_update (hb.seated.notMem_keysOf (hq ▸ List.mem_cons_self : k ∈ Q s i) hs' _)]

theorem Sound.queued_setQty (hb : Sound c b Q) (hs : b.best s = some i) (hq : Q s i = k :: bs)
    (ho : dataOf b.arena k = some o) (hr : (queued c (dataOf b.arena) Q).side s = o :: rest) (o' : RefOrder) :
    queued c (Function.update (dataOf b.arena) k (some o')) Q =
      (queued c (dataOf b.arena) Q).setSide s (o' :: rest) := by
  have hbest := hb.best s
  rw [hs] at hbest
  have hkeys := keysOf_eq_cons hbest (hb.lt_of_occupied hbest.1) hq
  rw [side_queued, hkeys, List.filterMap_cons_some ho, List.cons.injEq] at hr
  refine RefBook.ext_side fun s' => ?_
  rw [side_queued]
  rcases eq_or_ne s' s with rfl | hs'
  · rw [RefBook.side_setSide, hkeys, List.filterMap_cons_some (Function.update_self k _ _),
      filterMap_update (hb.notMem_rest hs hq), hr.2]
  · rw [RefBook.side_setSide_ne _ hs', side_queued,
      filterMap_update (hb.seated.notMem_keysOf (hq ▸ List.mem_cons_self : k ∈ Q s i) hs' _)]

theorem Shape.mem_keysOf (hb : Shape c b Q) (hk : k ∈ keysOf c.numTicks Q s) : k ∈ keys b.arena := by
  obtain ⟨i, -, hk⟩ := Book.mem_keysOf.mp hk
  exact SlotMap.mem_keys.mpr (hb.live hk)

/-- The orders of a side are the live orders with that side. -/
theorem Shape.mem_queued_iff (hb : Shape c b Q) {x : RefOrder} :
    x ∈ (queued c (dataOf b.arena) Q).side s ↔ x.side = s ∧ ∃ k, dataOf b.arena k = some x := by
  rw [side_queued, List.mem_filterMap]
  refine ⟨fun ⟨k, hk, hx⟩ => ?_, fun ⟨hs, k, hx⟩ => ⟨k, ?_, hx⟩⟩
  · obtain ⟨i, -, hi⟩ := Book.mem_keysOf.mp hk
    obtain ⟨y, hy, hs, -⟩ := hb.seated.mem.mp hi
    rw [hx] at hy
    cases hy
    exact ⟨hs, k, hx⟩
  · obtain ⟨i, hi, hk⟩ := hb.seated.mem_queue hx
    rw [hs] at hk
    exact Book.mem_keysOf.mpr ⟨i, (RefConfig.index?_eq_some.mp hi).2, hk⟩

theorem Shape.keys_perm (hb : Shape c b Q) :
    (keys b.arena).Perm (keysOf c.numTicks Q .buy ++ keysOf c.numTicks Q .sell) := by
  have hnd : (keysOf c.numTicks Q .buy ++ keysOf c.numTicks Q .sell).Nodup := by
    refine List.nodup_append.mpr ⟨hb.seated.nodup_keysOf _ _, hb.seated.nodup_keysOf _ _, fun k hk k' hk' e => ?_⟩
    obtain ⟨i, -, hk⟩ := Book.mem_keysOf.mp hk
    exact hb.seated.notMem_keysOf hk (by decide) _ (e ▸ hk')
  refine (List.perm_ext_iff_of_nodup (nodup_keys b.arena) hnd).mpr fun k => ?_
  rw [List.mem_append]
  refine ⟨fun hk => ?_, fun hk => hk.elim hb.mem_keysOf hb.mem_keysOf⟩
  obtain ⟨o, ho⟩ := Option.isSome_iff_exists.mp (dataOf_isSome.trans (SlotMap.mem_keys.mp hk))
  obtain ⟨i, hi, hk⟩ := hb.seated.mem_queue ho
  have hmem : k ∈ keysOf c.numTicks Q o.side := Book.mem_keysOf.mpr ⟨i, (RefConfig.index?_eq_some.mp hi).2, hk⟩
  cases hs : o.side <;> rw [hs] at hmem
  · exact .inl hmem
  · exact .inr hmem

theorem Shape.len_eq (hb : Shape c b Q) : len b.arena = (queued c (dataOf b.arena) Q).size := by
  have hsome : ∀ s, ∀ k ∈ keysOf c.numTicks Q s, (dataOf b.arena k).isSome := fun s k hk => by
    rw [dataOf_isSome]
    exact SlotMap.mem_keys.mp (hb.mem_keysOf hk)
  have hlen : ∀ s, ((keysOf c.numTicks Q s).filterMap (dataOf b.arena)).length = (keysOf c.numTicks Q s).length :=
    fun s => by rw [List.length_filterMap_eq_countP, List.countP_eq_length.mpr (hsome s)]
  rw [len, hb.keys_perm.length_eq, List.length_append, RefBook.size, queued, hlen, hlen]

end Sound

end Proof.Book

end MRE
