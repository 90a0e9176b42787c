import MatchRiskEngine.Proof.OrderBook.Ladder

/-!
# The sides of the reference book

`Listed d r`: the reference book `r` lists the live orders `d` of each side,
those that trade first in front. The list of a side is determined by the live
orders, so every change of `d` is a change of the list: `Listed.eraseHead`,
`Listed.fillHead`, `Listed.erase` and `Listed.insert`. `Rep.head` says that
the front of a list is the front of the queue at the best index.
-/

namespace MRE

open SlotMap

/-! ## Price-time priority -/

theorem Price.better_irrefl (s : Side) (p : Price) : ¬ p.better s p := by
  cases s <;> exact fun h => Int.lt_irrefl _ (Int64.lt_iff_toInt_lt.mp h)

theorem Price.better_trans {s : Side} {p q r : Price} (h₁ : p.better s q) (h₂ : q.better s r) : p.better s r := by
  cases s
  · exact Int64.lt_iff_toInt_lt.mpr (Int.lt_trans (Int64.lt_iff_toInt_lt.mp h₂) (Int64.lt_iff_toInt_lt.mp h₁))
  · exact Int64.lt_iff_toInt_lt.mpr (Int.lt_trans (Int64.lt_iff_toInt_lt.mp h₁) (Int64.lt_iff_toInt_lt.mp h₂))

theorem Price.better_total (s : Side) (p q : Price) : p.better s q ∨ p = q ∨ q.better s p := by
  have h := Int.lt_trichotomy p.raw.toInt q.raw.toInt
  rw [Int64.toInt_inj, ← Int64.lt_iff_toInt_lt, ← Int64.lt_iff_toInt_lt] at h
  have he : p.raw = q.raw → p = q := congrArg Price.mk
  cases s
  · exact h.elim (.inr ∘ .inr) (Or.elim · (.inr ∘ .inl ∘ he) .inl)
  · exact h.elim .inl (Or.elim · (.inr ∘ .inl ∘ he) (.inr ∘ .inr))

variable {os : List RefOrder}

namespace RefOrder

theorem ahead_irrefl (s : Side) (x : RefOrder) : ¬ x.ahead s x := fun h =>
  h.elim (Price.better_irrefl s x.price) fun h => UInt64.lt_irrefl x.seq h.2

theorem ahead_trans {s : Side} {x y z : RefOrder} (h₁ : x.ahead s y) (h₂ : y.ahead s z) : x.ahead s z := by
  rcases h₁ with h₁ | ⟨e₁, h₁⟩ <;> rcases h₂ with h₂ | ⟨e₂, h₂⟩
  · exact .inl (Price.better_trans h₁ h₂)
  · exact .inl (e₂ ▸ h₁)
  · exact .inl (e₁ ▸ h₂)
  · exact .inr ⟨e₁.trans e₂, UInt64.lt_trans h₁ h₂⟩

theorem ahead_total {s : Side} {x y : RefOrder} (h : x.seq ≠ y.seq) : x.ahead s y ∨ y.ahead s x := by
  rcases Price.better_total s x.price y.price with hp | hp | hp
  · exact .inl (.inl hp)
  · exact (UInt64.lt_or_lt_of_ne h).imp (fun h => .inr ⟨hp, h⟩) (fun h => .inr ⟨hp.symm, h⟩)
  · exact .inr (.inl hp)

theorem nodup_of_ahead {s : Side} (h : os.Pairwise (ahead s)) : os.Nodup := by
  refine List.Pairwise.imp ?_ h
  rintro x _ hxy rfl
  exact ahead_irrefl s x hxy

/-- Inserting into a list in priority order keeps the order. -/
theorem pairwise_orderedInsert {s : Side} {x : RefOrder} (h : os.Pairwise (ahead s))
    (hx : ∀ y ∈ os, x.seq ≠ y.seq) : (os.orderedInsert (ahead s) x).Pairwise (ahead s) := by
  induction os with
  | nil => exact List.pairwise_singleton _ _
  | cons y os ih =>
    obtain ⟨hy, hos⟩ := List.pairwise_cons.mp h
    rw [List.orderedInsert_cons]
    split
    · rename_i hxy
      exact List.pairwise_cons.mpr ⟨fun z hz => (List.mem_cons.mp hz).elim (fun e => e ▸ hxy)
        fun hz => ahead_trans hxy (hy z hz), h⟩
    · rename_i hxy
      have hyx := (ahead_total (s := s) (hx y List.mem_cons_self)).resolve_left hxy
      refine List.pairwise_cons.mpr ⟨fun z hz => ?_, ih hos fun z hz => hx z (List.mem_cons_of_mem y hz)⟩
      exact ((List.mem_orderedInsert _).mp hz).elim (fun e => e ▸ hyx) (hy z)

end RefOrder

namespace RefBook

@[simp] theorem side_setSide (r : RefBook) (s : Side) (os : List RefOrder) : (r.setSide s os).side s = os := by
  cases s <;> rfl

@[simp] theorem side_setSide_ne (r : RefBook) {s s' : Side} (h : s' ≠ s) (os : List RefOrder) :
    (r.setSide s os).side s' = r.side s' := by
  cases s <;> cases s' <;> first | rfl | exact absurd rfl h

theorem ext_side {r r' : RefBook} (h : ∀ s, r.side s = r'.side s) : r = r' := by
  have hbids : r.bids = r'.bids := h .buy
  have hasks : r.asks = r'.asks := h .sell
  cases r
  cases r'
  cases hbids
  cases hasks
  rfl

@[simp] theorem setSide_side (r : RefBook) (s : Side) : r.setSide s (r.side s) = r := by cases s <;> rfl

@[simp] theorem setSide_setSide (r : RefBook) (s : Side) (os os' : List RefOrder) :
    (r.setSide s os).setSide s os' = r.setSide s os' := by cases s <;> rfl

theorem exists_mem_setSide {r : RefBook} {s : Side} {o : RefOrder} :
    (∃ s', o ∈ (r.setSide s os).side s') ↔ o ∈ os ∨ o ∈ r.side s.opposite := by
  have ho : (r.setSide s os).side s.opposite = r.side s.opposite := side_setSide_ne r (Side.opposite_ne s) os
  refine ⟨fun ⟨s', h⟩ => ?_, fun h => h.elim (fun h => ⟨s, by rwa [side_setSide]⟩) fun h => ⟨s.opposite, by rwa [ho]⟩⟩
  rcases eq_or_ne s' s with rfl | hs
  · rw [side_setSide] at h; exact .inl h
  · rw [side_setSide_ne _ hs] at h
    have : s' = s.opposite := by cases s <;> cases s' <;> first | rfl | exact absurd rfl hs
    exact .inr (this ▸ h)

theorem mem_sides {r : RefBook} {o : RefOrder} : o ∈ r.bids ++ r.asks ↔ ∃ s, o ∈ r.side s := by
  rw [List.mem_append]
  refine ⟨fun h => h.elim (⟨.buy, ·⟩) (⟨.sell, ·⟩), fun ⟨s, h⟩ => ?_⟩
  cases s
  · exact .inl h
  · exact .inr h

end RefBook

namespace Proof.Book

variable {M K : Type}

/-- `r` lists the live orders of each side in priority order. -/
structure Listed (d : K → Option RefOrder) (r : RefBook) : Prop where
  sorted (s) : (r.side s).Pairwise (RefOrder.ahead s)
  mem {s o} : o ∈ r.side s ↔ o.side = s ∧ ∃ k, d k = some o

theorem IdsOk.inj {ids : OrderId → Option K} {d : K → Option RefOrder} (h : IdsOk ids d) {k k' : K}
    {x y : RefOrder} (hx : d k = some x) (hy : d k' = some y) (e : x.id = y.id) : k = k' := by
  have h₁ := (h x.id k).mpr ⟨x, hx, rfl⟩
  have h₂ := (h x.id k').mpr ⟨y, hy, e.symm⟩
  rw [h₁] at h₂
  exact Option.some.inj h₂

namespace IdsOk

variable [DecidableEq K] {ids : OrderId → Option K} {d : K → Option RefOrder} {k : K} {o : RefOrder}

theorem erase (h : IdsOk ids d) (ho : d k = some o) :
    IdsOk (Function.update ids o.id none) (Function.update d k none) := by
  intro id j
  rcases eq_or_ne id o.id with rfl | hid
  · rw [Function.update_self]
    simp only [reduceCtorEq, false_iff, not_exists, not_and]
    intro x hx e
    rcases eq_or_ne j k with rfl | hj
    · rw [Function.update_self] at hx; cases hx
    · rw [Function.update_of_ne hj] at hx
      exact hj (h.inj hx ho e)
  · rw [Function.update_of_ne hid, h id j]
    rcases eq_or_ne j k with rfl | hj
    · rw [Function.update_self, ho]
      simp only [Option.some.injEq, exists_eq_left', reduceCtorEq, false_and, exists_false, iff_false]
      exact fun e => hid e.symm
    · rw [Function.update_of_ne hj]

theorem setQty (h : IdsOk ids d) (ho : d k = some o) (q : Qty) :
    IdsOk ids (Function.update d k (some { o with qty := q })) := by
  intro id j
  rw [h id j]
  rcases eq_or_ne j k with rfl | hj
  · rw [Function.update_self, ho]; simp
  · rw [Function.update_of_ne hj]

theorem insert (h : IdsOk ids d) (hk : d k = none) (ho : ∀ j x, d j = some x → x.id ≠ o.id) :
    IdsOk (Function.update ids o.id (some k)) (Function.update d k (some o)) := by
  intro id j
  rcases eq_or_ne j k with rfl | hj
  · rw [Function.update_self]
    rcases eq_or_ne id o.id with rfl | hid
    · simp
    · rw [Function.update_of_ne hid, h id j, hk]
      simp [Ne.symm hid]
  · rw [Function.update_of_ne hj]
    rcases eq_or_ne id o.id with rfl | hid
    · rw [Function.update_self]
      simp only [Option.some.injEq, Ne.symm hj, false_iff, not_exists, not_and]
      exact fun x hx => ho j x hx
    · rw [Function.update_of_ne hid, h id j]

end IdsOk

/-- The id map finds only live orders. -/
def IdsLive (ids : OrderId → Option K) (d : K → Option RefOrder) : Prop :=
  ∀ id k, ids id = some k → ∃ o, d k = some o ∧ o.id = id

theorem IdsOk.live {ids : OrderId → Option K} {d : K → Option RefOrder} (h : IdsOk ids d) : IdsLive ids d :=
  fun id k hk => (h id k).mp hk

namespace IdsLive

variable [DecidableEq K] {ids : OrderId → Option K} {d : K → Option RefOrder} {k : K} {o : RefOrder}

theorem erase (h : IdsLive ids d) (ho : d k = some o) :
    IdsLive (Function.update ids o.id none) (Function.update d k none) := by
  intro id j hj
  have hid : id ≠ o.id := by
    rintro rfl
    rw [Function.update_self] at hj
    cases hj
  rw [Function.update_of_ne hid] at hj
  obtain ⟨x, hx, e⟩ := h id j hj
  refine ⟨x, update_none_eq_some.mpr ⟨?_, hx⟩, e⟩
  rintro rfl
  rw [ho] at hx
  cases hx
  exact hid e.symm

theorem setQty (h : IdsLive ids d) (ho : d k = some o) (q : Qty) :
    IdsLive ids (Function.update d k (some { o with qty := q })) := by
  intro id j hj
  obtain ⟨x, hx, e⟩ := h id j hj
  rcases eq_or_ne j k with rfl | hjk
  · rw [ho] at hx
    cases hx
    exact ⟨_, Function.update_self j _ d, e⟩
  · exact ⟨x, by rw [Function.update_of_ne hjk, hx], e⟩

theorem insert (h : IdsLive ids d) (hk : d k = none) (o : RefOrder) :
    IdsLive (Function.update ids o.id (some k)) (Function.update d k (some o)) := by
  intro id j hj
  rcases eq_or_ne id o.id with rfl | hid
  · rw [Function.update_self] at hj
    cases hj
    exact ⟨o, Function.update_self k _ d, rfl⟩
  · rw [Function.update_of_ne hid] at hj
    obtain ⟨x, hx, e⟩ := h id j hj
    refine ⟨x, update_some_eq_some.mpr (.inr ⟨?_, hx⟩), e⟩
    rintro rfl
    rw [hk] at hx
    cases hx

end IdsLive

namespace Listed

variable {d : K → Option RefOrder} {r : RefBook} {s : Side} {k : K} {o : RefOrder} {rest : List RefOrder}

theorem setSide (h : Listed d r) {d' : K → Option RefOrder}
    (hs : os.Pairwise (RefOrder.ahead s)) (hos : ∀ x, x ∈ os ↔ x.side = s ∧ ∃ j, d' j = some x)
    (hne : ∀ x : RefOrder, x.side ≠ s → ((∃ j, d' j = some x) ↔ ∃ j, d j = some x)) :
    Listed d' (r.setSide s os) := by
  refine ⟨fun s' => ?_, fun {s' x} => ?_⟩
  · rcases eq_or_ne s' s with rfl | e
    · rw [RefBook.side_setSide]; exact hs
    · rw [RefBook.side_setSide_ne _ e]; exact h.sorted s'
  · rcases eq_or_ne s' s with rfl | e
    · rw [RefBook.side_setSide]; exact hos x
    · rw [RefBook.side_setSide_ne _ e, h.mem]
      exact and_congr_right fun hx => (hne x (hx ▸ e)).symm

theorem head_side (h : Listed d r) (hr : r.side s = o :: rest) : o.side = s :=
  (h.mem.mp (hr ▸ List.mem_cons_self)).1

variable [DecidableEq K]

theorem exists_update_none {ids : OrderId → Option K} (hids : IdsOk ids d) (ho : d k = some o) (x : RefOrder) :
    (∃ j, Function.update d k none j = some x) ↔ x ≠ o ∧ ∃ j, d j = some x := by
  refine ⟨fun ⟨j, hj⟩ => ?_, fun ⟨hx, j, hj⟩ => ⟨j, ?_⟩⟩
  · have hjk : j ≠ k := fun e => by rw [e, Function.update_self] at hj; cases hj
    rw [Function.update_of_ne hjk] at hj
    refine ⟨fun e => hjk (hids.inj hj ho (by rw [e])), j, hj⟩
  · rw [Function.update_of_ne, hj]
    rintro rfl
    rw [ho] at hj
    exact hx (Option.some.inj hj).symm

theorem eraseHead (h : Listed d r) {ids : OrderId → Option K} (hids : IdsOk ids d) (ho : d k = some o)
    (hr : r.side s = o :: rest) : Listed (Function.update d k none) (r.setSide s rest) := by
  have hs := h.sorted s
  rw [hr] at hs
  have hnd := RefOrder.nodup_of_ahead hs
  refine h.setSide (List.pairwise_cons.mp hs).2 (fun x => ?_) fun x hx => ?_
  · have hm := h.mem (s := s) (o := x)
    rw [hr, List.mem_cons] at hm
    rw [exists_update_none hids ho, and_left_comm, ← hm]
    exact ⟨fun hx => ⟨fun e => (List.nodup_cons.mp hnd).1 (e ▸ hx), .inr hx⟩, fun hx => hx.2.resolve_left hx.1⟩
  · rw [exists_update_none hids ho, and_iff_right]
    rintro rfl
    exact hx (h.head_side hr)

theorem fillHead (h : Listed d r) {ids : OrderId → Option K} (hids : IdsOk ids d) (ho : d k = some o)
    (hr : r.side s = o :: rest) (q : Qty) :
    Listed (Function.update d k (some { o with qty := q })) (r.setSide s ({ o with qty := q } :: rest)) := by
  have hlive : ∀ x, (∃ j, Function.update d k (some { o with qty := q }) j = some x) ↔
      x = { o with qty := q } ∨ ∃ j, Function.update d k none j = some x := by
    intro x
    refine ⟨fun ⟨j, hj⟩ => ?_, fun hx => ?_⟩
    · rcases eq_or_ne j k with rfl | hjk
      · rw [Function.update_self] at hj; exact .inl (Option.some.inj hj).symm
      · rw [Function.update_of_ne hjk] at hj; exact .inr ⟨j, by rw [Function.update_of_ne hjk, hj]⟩
    · rcases hx with rfl | ⟨j, hj⟩
      · exact ⟨k, Function.update_self k _ d⟩
      · have hjk : j ≠ k := fun e => by rw [e, Function.update_self] at hj; cases hj
        rw [Function.update_of_ne hjk] at hj
        exact ⟨j, by rw [Function.update_of_ne hjk, hj]⟩
  have hside := h.head_side hr
  have he := h.eraseHead hids ho hr
  have hs := h.sorted s
  rw [hr] at hs
  have hsorted : ({ o with qty := q } :: rest).Pairwise (RefOrder.ahead s) :=
    have ⟨ho, hrest⟩ := List.pairwise_cons.mp hs
    List.pairwise_cons.mpr ⟨ho, hrest⟩
  rw [← RefBook.setSide_setSide r s rest]
  refine he.setSide hsorted (fun x => ?_) fun x hx => ?_
  · have hm := he.mem (s := s) (o := x)
    rw [RefBook.side_setSide] at hm
    rw [hlive, List.mem_cons, hm, and_or_left]
    refine or_congr_left ⟨fun e => ⟨e ▸ hside, e⟩, And.right⟩
  · rw [hlive, or_iff_right]
    rintro rfl
    exact hx hside

theorem erase (h : Listed d r) {ids : OrderId → Option K} (hids : IdsOk ids d) (ho : d k = some o) :
    Listed (Function.update d k none)
      ⟨r.bids.filter fun x => x.id ≠ o.id, r.asks.filter fun x => x.id ≠ o.id⟩ := by
  have hside : ∀ s', RefBook.side ⟨r.bids.filter fun x => x.id ≠ o.id, r.asks.filter fun x => x.id ≠ o.id⟩ s' =
      (r.side s').filter fun x => x.id ≠ o.id := fun s' => by cases s' <;> rfl
  refine ⟨fun s' => hside s' ▸ (h.sorted s').filter _, fun {s' x} => ?_⟩
  rw [hside, List.mem_filter, h.mem, exists_update_none hids ho, decide_eq_true_eq, and_assoc, and_congr_right_iff]
  intro _
  rw [and_comm, and_congr_left_iff]
  intro ⟨j, hj⟩
  refine ⟨fun hx e => hx (by rw [e]), fun hx e => hx ?_⟩
  have := hids.inj hj ho e
  rw [this, ho] at hj
  exact (Option.some.inj hj).symm

theorem insert (h : Listed d r) (hk : d k = none) (hseq : ∀ j x, d j = some x → o.seq ≠ x.seq) :
    Listed (Function.update d k (some o))
      (r.setSide o.side ((r.side o.side).orderedInsert (RefOrder.ahead o.side) o)) := by
  have hlive : ∀ x, (∃ j, Function.update d k (some o) j = some x) ↔ x = o ∨ ∃ j, d j = some x := by
    intro x
    refine ⟨fun ⟨j, hj⟩ => ?_, fun hx => ?_⟩
    · rcases eq_or_ne j k with rfl | hjk
      · rw [Function.update_self] at hj; exact .inl (Option.some.inj hj).symm
      · rw [Function.update_of_ne hjk] at hj; exact .inr ⟨j, hj⟩
    · rcases hx with rfl | ⟨j, hj⟩
      · exact ⟨k, Function.update_self k _ d⟩
      · exact ⟨j, by rw [Function.update_of_ne (fun e => by rw [e, hk] at hj; cases hj), hj]⟩
  refine h.setSide (RefOrder.pairwise_orderedInsert (h.sorted _) fun y hy => ?_) (fun x => ?_) fun x hx => ?_
  · obtain ⟨-, j, hj⟩ := h.mem.mp hy
    exact hseq j y hj
  · rw [List.mem_orderedInsert, h.mem, hlive, and_or_left]
    refine or_congr_left ⟨fun e => ⟨by rw [e], e⟩, And.right⟩
  · rw [hlive, or_iff_right]
    rintro rfl
    exact hx rfl

end Listed

/-! ## The book and its reference -/

section Refinement

variable [DecidableEq K] [Arena M K] {c : RefConfig} {b : OrderBook M K}
  {Q : Side → Nat → List K} {r : RefBook} {s : Side} {i : Nat}

theorem Rep.side_nil (hb : Rep c b Q) (hr : Listed (dataOf b.arena) r) (hs : b.best s = none) : r.side s = [] := by
  refine List.eq_nil_iff_forall_not_mem.mpr fun o ho => ?_
  obtain ⟨rfl, k, hk⟩ := hr.mem.mp ho
  obtain ⟨i, -, hi⟩ := hb.placed.mem_queue hk
  have := hb.best o.side
  rw [hs] at this
  exact this i (List.ne_nil_of_mem hi)

/-- The first order of a side is the first of the queue at the best index. -/
theorem Rep.head (hb : Rep c b Q) (hr : Listed (dataOf b.arena) r) (hs : b.best s = some i) :
    ∃ k bs o rest, Q s i = k :: bs ∧ dataOf b.arena k = some o ∧ r.side s = o :: rest ∧
      c.index? o.price = some i := by
  have hbest := hb.best s
  rw [hs] at hbest
  obtain ⟨hne, hbest⟩ := hbest
  obtain ⟨k, bs, hq⟩ := List.exists_cons_of_ne_nil hne
  obtain ⟨o, ho, hside, hi⟩ := hb.placed.mem.mp (hq ▸ List.mem_cons_self : k ∈ Q s i)
  have hmem : o ∈ r.side s := hr.mem.mpr ⟨hside, k, ho⟩
  obtain ⟨x, rest, hx⟩ := List.exists_cons_of_ne_nil (List.ne_nil_of_mem hmem)
  refine ⟨k, bs, o, rest, hq, ho, ?_, hi⟩
  have hsorted := hr.sorted s
  rw [hx] at hsorted hmem
  rcases List.mem_cons.mp hmem with rfl | hmem
  · exact hx
  -- An order ahead of `o` would be at a better index or older in the same queue.
  exfalso
  obtain ⟨hxs, k', hk'⟩ := hr.mem.mp (hx ▸ List.mem_cons_self : x ∈ r.side s)
  obtain ⟨i', hi', hq'⟩ := hb.placed.mem_queue hk'
  rw [hxs] at hq'
  rcases (List.pairwise_cons.mp hsorted).1 o hmem with hlt | ⟨hp, hlt⟩
  · refine hbest i' (List.ne_nil_of_mem hq') ?_
    have e := (RefConfig.index?_eq_some.mp hi).1
    have e' := (RefConfig.index?_eq_some.mp hi').1
    cases s
    · have := Int64.lt_iff_toInt_lt.mp hlt
      show i < i'
      omega
    · have := Int64.lt_iff_toInt_lt.mp hlt
      show i' < i
      omega
  · rw [hp, hi] at hi'
    cases hi'
    have hfifo := hb.placed.fifo s i
    rw [hq] at hfifo hq'
    rcases List.mem_cons.mp hq' with rfl | hm
    · rw [ho] at hk'
      cases hk'
      exact UInt64.lt_irrefl _ hlt
    · exact UInt64.lt_asymm hlt ((List.pairwise_cons.mp hfifo).1 k' hm o x ho hk')

theorem Rep.len_eq (hb : Rep c b Q) (hr : Listed (dataOf b.arena) r) : len b.arena = r.size := by
  have hsides : (r.bids ++ r.asks).Nodup := by
    refine List.nodup_append.mpr ⟨RefOrder.nodup_of_ahead (hr.sorted .buy), RefOrder.nodup_of_ahead (hr.sorted .sell),
      fun x hx y hy e => ?_⟩
    have h₁ := (hr.mem (s := .buy).mp hx).1
    have h₂ := (hr.mem (s := .sell).mp hy).1
    rw [e, h₂] at h₁
    cases h₁
  have hkeys : ((keys b.arena).filterMap (dataOf b.arena)).Nodup :=
    List.Nodup.filterMap (fun k k' o hk hk' => hb.ids.inj hk hk' rfl) (nodup_keys b.arena)
  have hperm : ((keys b.arena).filterMap (dataOf b.arena)).Perm (r.bids ++ r.asks) := by
    refine (List.perm_ext_iff_of_nodup hkeys hsides).mpr fun o => ?_
    rw [List.mem_filterMap, RefBook.mem_sides]
    refine ⟨fun ⟨k, _, hk⟩ => ⟨o.side, hr.mem.mpr ⟨rfl, k, hk⟩⟩, fun ⟨s, hs⟩ => ?_⟩
    obtain ⟨-, k, hk⟩ := hr.mem.mp hs
    exact ⟨k, mem_keys.mpr (by rw [← dataOf_isSome, hk]; rfl), hk⟩
  have hlen := hperm.length_eq
  rw [List.length_filterMap_eq_countP, List.countP_eq_length.mpr fun k hk => by
    rw [dataOf_isSome]; exact mem_keys.mp hk, List.length_append] at hlen
  exact hlen

theorem Rep.find_eq (hb : Rep c b Q) (hr : Listed (dataOf b.arena) r) (id : OrderId) :
    r.find id = (b.idToKey id).bind (dataOf b.arena) := by
  refine Option.ext fun o => ?_
  rw [Option.bind_eq_some_iff]
  refine ⟨fun h => ?_, fun ⟨k, hk, ho⟩ => ?_⟩
  · obtain ⟨s, hs⟩ := RefBook.mem_sides.mp (List.mem_of_find?_eq_some h)
    obtain ⟨-, k, hk⟩ := hr.mem.mp hs
    have he := List.find?_some h
    exact ⟨k, (hb.ids id k).mpr ⟨o, hk, of_decide_eq_true he⟩, hk⟩
  · obtain ⟨x, hx, he⟩ := (hb.ids id k).mp hk
    rw [ho] at hx
    cases hx
    cases hf : r.find id with
    | none =>
      have := List.find?_eq_none.mp hf o (RefBook.mem_sides.mpr ⟨o.side, hr.mem.mpr ⟨rfl, k, ho⟩⟩)
      exact absurd (decide_eq_true he) this
    | some x =>
      obtain ⟨s, hs⟩ := RefBook.mem_sides.mp (List.mem_of_find?_eq_some hf)
      obtain ⟨-, k', hk'⟩ := hr.mem.mp hs
      have hx := List.find?_some hf
      rw [hb.ids.inj hk' ho ((of_decide_eq_true hx).trans he.symm), ho] at hk'
      exact hk'.symm

end Refinement

end Proof.Book

end MRE
