import MatchRiskEngine.Proof.OrderBook.Level

/-!
# The representation invariant of the book

`Rep c b Q` says that the book `b` of the configuration `c` is well formed
when `Q s i` is the queue of keys at index `i` of side `s`. It comes in
pieces, since the operations of the book restore them one after the other:

* `Seated`: the queues hold the live orders, each at its own side and price;
* `Placed`: and oldest first, which needs increasing sequence numbers;
* `IdsOk`: the id map finds the live orders;
* `IsBest`: a best pointer is the best index with an order;
* `Shape` and `Sound`: the ladders are levels with these queues, and the best
  pointers are right.
-/

namespace MRE

open SlotMap

/-- Index `i` holds better prices than index `j`. -/
def Side.beats (s : Side) (i j : Nat) : Prop :=
  match s with
  | .buy => j < i
  | .sell => i < j

/-- The best of the occupied indices, if there is one. -/
def IsBest (s : Side) (occ : Nat → Prop) : Option Nat → Prop
  | none => ∀ j, ¬ occ j
  | some i => occ i ∧ ∀ j, occ j → ¬ s.beats j i

/-- The ladder index of a price. -/
def RefConfig.index? (c : RefConfig) (p : Price) : Option Nat :=
  if c.onLadder p then some (p.raw.toInt - c.tickFloor.raw.toInt).toNat else none

namespace OrderBook

variable {M K : Type}

def best (b : OrderBook M K) : Side → Option Nat
  | .buy => b.bestBidIdx
  | .sell => b.bestAskIdx

def setBest (b : OrderBook M K) (s : Side) (i : Option Nat) : OrderBook M K :=
  match s with
  | .buy => { b with bestBidIdx := i }
  | .sell => { b with bestAskIdx := i }

end OrderBook

namespace RefConfig

theorem index?_eq_some {c : RefConfig} {p : Price} {i : Nat} :
    c.index? p = some i ↔ p.raw.toInt = c.tickFloor.raw.toInt + i ∧ i < c.numTicks := by
  unfold index? onLadder
  split
  · rename_i h
    rw [decide_eq_true_eq] at h
    rw [Option.some.injEq]
    omega
  · rename_i h
    rw [decide_eq_true_eq] at h
    simp only [reduceCtorEq, false_iff]
    omega

theorem index?_isSome {c : RefConfig} {p : Price} : (c.index? p).isSome = c.onLadder p := by
  unfold index?
  split
  · rename_i h; rw [h]; rfl
  · rename_i h; rw [Bool.not_eq_true] at h; rw [h]; rfl

end RefConfig

namespace Proof.Book

variable {M K : Type}

/-! ## The queues -/

/-- The queues of the book with `ks` in place of one of them. -/
def setQueue (Q : Side → Nat → List K) (s : Side) (i : Nat) (ks : List K) (s' : Side) (i' : Nat) : List K :=
  if s' = s ∧ i' = i then ks else Q s' i'

@[simp] theorem setQueue_self (Q : Side → Nat → List K) (s : Side) (i : Nat) (ks : List K) :
    setQueue Q s i ks s i = ks := if_pos ⟨rfl, rfl⟩

theorem setQueue_ne (Q : Side → Nat → List K) {s s' : Side} {i i' : Nat} (ks : List K)
    (h : ¬ (s' = s ∧ i' = i)) : setQueue Q s i ks s' i' = Q s' i' := if_neg h

/-- The order at `j` is older than the one at `k`. -/
def older (d : K → Option RefOrder) (j k : K) : Prop := ∀ x y, d j = some x → d k = some y → x.seq < y.seq

/-- The queues hold the live orders, whatever their sequence numbers. -/
structure Seated (c : RefConfig) (d : K → Option RefOrder) (Q : Side → Nat → List K) : Prop where
  mem {s i k} : k ∈ Q s i ↔ ∃ o, d k = some o ∧ o.side = s ∧ c.index? o.price = some i
  onLadder {k o} : d k = some o → c.onLadder o.price
  pos {k o} : d k = some o → o.qty.raw ≠ 0
  nodup (s i) : (Q s i).Nodup

/-- The queues hold the live orders, oldest first. -/
structure Placed (c : RefConfig) (d : K → Option RefOrder) (Q : Side → Nat → List K) : Prop extends Seated c d Q where
  id {k o} : d k = some o → o.id = ⟨o.seq⟩
  fifo (s i) : (Q s i).Pairwise (older d)

/-- The id map finds exactly the live orders. -/
def IdsOk (ids : OrderId → Option K) (d : K → Option RefOrder) : Prop :=
  ∀ id k, ids id = some k ↔ ∃ o, d k = some o ∧ o.id = id

/-! ## An order leaves, is filled in part, comes to rest -/

section Updates

variable [DecidableEq K] {d : K → Option RefOrder} {j k : K} {o y : RefOrder}

theorem update_none_eq_some : Function.update d k none j = some y ↔ j ≠ k ∧ d j = some y := by
  rcases eq_or_ne j k with rfl | hj
  · simp
  · simp [hj]

theorem update_some_eq_some : Function.update d k (some o) j = some y ↔ j = k ∧ y = o ∨ j ≠ k ∧ d j = some y := by
  rcases eq_or_ne j k with rfl | hj
  · simp [eq_comm]
  · simp [hj]

end Updates

namespace Seated

variable {c : RefConfig} {d : K → Option RefOrder} {Q : Side → Nat → List K} {k : K} {o : RefOrder}

theorem mem_queue (hp : Seated c d Q) (ho : d k = some o) : ∃ i, c.index? o.price = some i ∧ k ∈ Q o.side i := by
  have h := hp.onLadder ho
  rw [← RefConfig.index?_isSome, Option.isSome_iff_exists] at h
  obtain ⟨i, hi⟩ := h
  exact ⟨i, hi, hp.mem.mpr ⟨o, ho, rfl, hi⟩⟩

theorem isSome (hp : Seated c d Q) {s : Side} {i : Nat} (hk : k ∈ Q s i) : (d k).isSome := by
  obtain ⟨o, ho, -⟩ := hp.mem.mp hk
  rw [ho]; rfl

theorem unique (hp : Seated c d Q) {s s' : Side} {i i' : Nat} (h : k ∈ Q s i) (h' : k ∈ Q s' i') :
    s' = s ∧ i' = i := by
  obtain ⟨o, ho, rfl, hi⟩ := hp.mem.mp h
  obtain ⟨o', ho', rfl, hi'⟩ := hp.mem.mp h'
  rw [ho] at ho'
  cases ho'
  rw [hi] at hi'
  cases hi'
  exact ⟨rfl, rfl⟩

theorem notMem_of_none (hp : Seated c d Q) (hk : d k = none) (s : Side) (i : Nat) : k ∉ Q s i := fun h => by
  have := hp.isSome h
  rw [hk] at this
  cases this

variable [DecidableEq K]

theorem erase (hp : Seated c d Q) {s : Side} {i : Nat} {as bs : List K} (hq : Q s i = as ++ k :: bs) :
    Seated c (Function.update d k none) (setQueue Q s i (as ++ bs)) := by
  have hk : k ∉ as ++ bs := (List.nodup_middle.mp (hq ▸ hp.nodup s i)).notMem
  have hsub : (as ++ bs).Sublist (Q s i) := hq ▸ List.Sublist.append_left (List.sublist_cons_self k bs) as
  refine ⟨fun {s' i' j} => ?_, fun h => hp.onLadder (update_none_eq_some.mp h).2,
    fun h => hp.pos (update_none_eq_some.mp h).2, fun s' i' => ?_⟩
  · rcases eq_or_ne j k with rfl | hj
    · rw [Function.update_self]
      simp only [reduceCtorEq, false_and, exists_false, iff_false]
      unfold setQueue
      split
      · exact hk
      · rename_i hne
        exact fun h => hne (hp.unique (hq ▸ by simp : j ∈ Q s i) h)
    · rw [Function.update_of_ne hj, ← hp.mem]
      unfold setQueue
      split
      · rename_i e
        obtain ⟨rfl, rfl⟩ := e
        rw [hq]; simp [hj]
      · rfl
  · unfold setQueue
    split
    · exact (hp.nodup s i).sublist hsub
    · exact hp.nodup s' i'

theorem setQty (hp : Seated c d Q) (ho : d k = some o) {q : Qty} (hq : q.raw ≠ 0) :
    Seated c (Function.update d k (some { o with qty := q })) Q := by
  refine ⟨fun {s' i' j} => ?_, fun {j y} h => ?_, fun {j y} h => ?_, hp.nodup⟩
  · rw [hp.mem]
    rcases eq_or_ne j k with rfl | hj
    · rw [Function.update_self, ho]; simp
    · rw [Function.update_of_ne hj]
  · rcases update_some_eq_some.mp h with ⟨rfl, rfl⟩ | ⟨-, h⟩
    · exact show c.onLadder o.price = true from hp.onLadder ho
    · exact hp.onLadder h
  · rcases update_some_eq_some.mp h with ⟨rfl, rfl⟩ | ⟨-, h⟩
    · exact hq
    · exact hp.pos h

/-- An order comes to rest behind those that are already there. -/
theorem insert (hp : Seated c d Q) (hk : d k = none) {i : Nat} (hi : c.index? o.price = some i)
    (hq : o.qty.raw ≠ 0) : Seated c (Function.update d k (some o)) (setQueue Q o.side i (Q o.side i ++ [k])) := by
  have hkQ := hp.notMem_of_none hk
  refine ⟨fun {s' i' j} => ?_, fun {j y} h => ?_, fun {j y} h => ?_, fun s' i' => ?_⟩
  · rcases eq_or_ne j k with rfl | hj
    · rw [Function.update_self]
      unfold setQueue
      split
      · rename_i e
        obtain ⟨rfl, rfl⟩ := e
        simp [hi]
      · rename_i hne
        simp only [hkQ s' i', Option.some.injEq, exists_eq_left', hi, false_iff]
        exact fun e => hne ⟨e.1.symm, e.2.symm⟩
    · rw [Function.update_of_ne hj, ← hp.mem]
      unfold setQueue
      split
      · rename_i e
        obtain ⟨rfl, rfl⟩ := e
        simp [hj]
      · rfl
  · rcases update_some_eq_some.mp h with ⟨rfl, rfl⟩ | ⟨-, h⟩
    · rw [← RefConfig.index?_isSome, hi]; rfl
    · exact hp.onLadder h
  · rcases update_some_eq_some.mp h with ⟨rfl, rfl⟩ | ⟨-, h⟩
    · exact hq
    · exact hp.pos h
  · unfold setQueue
    split
    · refine List.nodup_append.mpr ⟨hp.nodup _ _, List.nodup_singleton k, fun a ha b hb => ?_⟩
      rw [List.mem_singleton.mp hb]
      exact fun e => hkQ _ _ (e ▸ ha)
    · exact hp.nodup s' i'

end Seated

namespace Placed

variable {c : RefConfig} {d : K → Option RefOrder} {Q : Side → Nat → List K} {k : K} {o : RefOrder}

theorem of_none (h : ∀ k, d k = none) : Placed c d fun _ _ => [] := by
  refine ⟨⟨fun {s i k} => ?_, fun ho => ?_, fun ho => ?_, fun _ _ => .nil⟩, fun ho => ?_, fun _ _ => .nil⟩
  · simp only [h, List.not_mem_nil, reduceCtorEq, false_and, exists_false]
  all_goals rw [h] at ho; cases ho

theorem older_congr {d' : K → Option RefOrder} {ks : List K} (h : ks.Pairwise (older d))
    (hd : ∀ j ∈ ks, ∀ y, d' j = some y → ∃ x, d j = some x ∧ x.seq = y.seq) : ks.Pairwise (older d') := by
  refine h.imp_of_mem fun hj hk hjk x y hx hy => ?_
  obtain ⟨x', hx', ex⟩ := hd _ hj x hx
  obtain ⟨y', hy', ey⟩ := hd _ hk y hy
  rw [← ex, ← ey]
  exact hjk x' y' hx' hy'

variable [DecidableEq K]

theorem erase (hp : Placed c d Q) {s : Side} {i : Nat} {as bs : List K} (hq : Q s i = as ++ k :: bs) :
    Placed c (Function.update d k none) (setQueue Q s i (as ++ bs)) := by
  refine ⟨hp.toSeated.erase hq, fun h => hp.id (update_none_eq_some.mp h).2, fun s' i' => ?_⟩
  refine older_congr (d := d) ?_ fun j _ y hy => ⟨y, (update_none_eq_some.mp hy).2, rfl⟩
  unfold setQueue
  split
  · exact (hp.fifo s i).sublist (hq ▸ List.Sublist.append_left (List.sublist_cons_self k bs) as)
  · exact hp.fifo s' i'

theorem setQty (hp : Placed c d Q) (ho : d k = some o) {q : Qty} (hq : q.raw ≠ 0) :
    Placed c (Function.update d k (some { o with qty := q })) Q := by
  refine ⟨hp.toSeated.setQty ho hq, fun {j y} h => ?_, fun s i => ?_⟩
  · rcases update_some_eq_some.mp h with ⟨rfl, rfl⟩ | ⟨-, h⟩
    · exact show o.id = ⟨o.seq⟩ from hp.id ho
    · exact hp.id h
  · refine older_congr (hp.fifo s i) fun j _ y h => ?_
    rcases update_some_eq_some.mp h with ⟨rfl, rfl⟩ | ⟨-, h⟩
    · exact ⟨o, ho, rfl⟩
    · exact ⟨y, h, rfl⟩

/-- An order comes to rest behind those that are already there. -/
theorem insert (hp : Placed c d Q) (hk : d k = none) {i : Nat} (hi : c.index? o.price = some i)
    (hq : o.qty.raw ≠ 0) (hid : o.id = ⟨o.seq⟩) (hseq : ∀ j x, d j = some x → x.seq < o.seq) :
    Placed c (Function.update d k (some o)) (setQueue Q o.side i (Q o.side i ++ [k])) := by
  have hkQ := hp.notMem_of_none hk
  have hfifo : ∀ s' i', (Q s' i').Pairwise (older (Function.update d k (some o))) := fun s' i' => by
    refine older_congr (hp.fifo s' i') fun j hj y hy => ⟨y, ?_, rfl⟩
    exact (update_some_eq_some.mp hy).elim (fun e => absurd (e.1 ▸ hj) (hkQ s' i')) And.right
  refine ⟨hp.toSeated.insert hk hi hq, fun {j y} h => ?_, fun s' i' => ?_⟩
  · rcases update_some_eq_some.mp h with ⟨rfl, rfl⟩ | ⟨-, h⟩
    · exact hid
    · exact hp.id h
  · unfold setQueue
    split
    · refine List.pairwise_append.mpr ⟨hfifo _ _, List.pairwise_singleton _ _, fun j hj k' hk' x y hx hy => ?_⟩
      rw [List.mem_singleton.mp hk', Function.update_self] at hy
      cases hy
      exact (update_some_eq_some.mp hx).elim (fun e => absurd (e.1 ▸ hj) (hkQ _ _)) fun e => hseq j x e.2
    · exact hfifo s' i'

end Placed

end Proof.Book

end MRE
