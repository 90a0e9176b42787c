import Mathlib.Data.List.Induction
import MatchRiskEngine.Framework.Lifecycle
import MatchRiskEngine.Proof.OrderBook.Outcomes

/-!
# The life of an order

Every order of a run is, at any point after its command, either rejected,
resting with what it has not traded, filled, or cancelled once with less than
its quantity traded; and every trade tells what is left of its two orders
(`order_life`). The events about one order are its `story`; a command adds to
the story of an older order at most one note (`Valid.effect_moves`), and to the
story of the order it brings what the matching loop trades of it
(`Valid.applied_course`).
-/

namespace MRE

open SlotMap

/-! ## The story of an order -/

/-- What an event notes about an order. -/
def EngineEvent.note (id : OrderId) : EngineEvent → Option Note
  | .trade t => if t.names id then some (.fill t.qty.raw.toNat) else none
  | .cancelled _ id' => if id' = id then some .cancel else none
  | _ => none

/-- What the events note about an order. -/
def story (id : OrderId) (evs : List EngineEvent) : List Note := evs.filterMap (EngineEvent.note id)

variable {id : OrderId} {evs : List EngineEvent}

theorem story_append (id : OrderId) (evs evs' : List EngineEvent) : story id (evs ++ evs') = story id evs ++ story id evs' :=
  List.filterMap_append

variable {e : EngineEvent}

theorem story_cons_none (h : e.note id = none) (evs : List EngineEvent) :
    story id (e :: evs) = story id evs := List.filterMap_cons_none h

theorem story_cons_some {n : Note} (h : e.note id = some n) (evs : List EngineEvent) :
    story id (e :: evs) = n :: story id evs := List.filterMap_cons_some h

@[simp] theorem note_cancelled_self (seq : UInt64) (id : OrderId) : (EngineEvent.cancelled seq id).note id = some .cancel :=
  if_pos rfl

theorem tradedOf_eq_used (id : OrderId) (evs : List EngineEvent) :
    tradedOf id evs = ((story id evs).map Note.used).sum := by
  induction evs with
  | nil => rfl
  | cons e evs ih =>
    have hcons : tradedOf id (e :: evs) = e.tradedOf id + tradedOf id evs := by
      rw [tradedOf, List.map_cons, List.sum_cons]
      rfl
    cases hn : e.note id with
    | none =>
      have hz : e.tradedOf id = 0 := by
        cases e with
        | trade t =>
          rw [EngineEvent.note] at hn
          split at hn
          · cases hn
          · exact if_neg ‹_›
        | _ => rfl
      rw [hcons, story_cons_none hn, hz, ih, Nat.zero_add]
    | some n =>
      have hused : e.tradedOf id = n.used := by
        cases e with
        | trade t =>
          rw [EngineEvent.note] at hn
          split at hn
          · cases hn
            exact if_pos ‹_›
          · cases hn
        | cancelled seq id' =>
          rw [EngineEvent.note] at hn
          split at hn
          · cases hn
            rfl
          · cases hn
        | _ => cases hn
      rw [hcons, story_cons_some hn, List.map_cons, List.sum_cons, hused, ih]

theorem tradedOf_of_fills {ns : List Nat} (h : story id evs = fills ns) : tradedOf id evs = ns.sum := by
  rw [tradedOf_eq_used, h, sum_used_fills]

theorem cancelled_notMem_of_fills {ns : List Nat} (h : story id evs = fills ns) (seq : UInt64) :
    EngineEvent.cancelled seq id ∉ evs := by
  intro hin
  refine cancel_notMem_fills ns ?_
  rw [← h]
  exact List.mem_filterMap.mpr ⟨_, hin, note_cancelled_self seq id⟩

theorem eq_cancelled_of_note (h : e.note id = some .cancel) : ∃ seq, e = .cancelled seq id := by
  cases e with
  | trade t =>
    rw [EngineEvent.note] at h
    split at h <;> cases h
  | cancelled seq id' =>
    rw [EngineEvent.note] at h
    split at h
    · rename_i e
      exact ⟨seq, by rw [e]⟩
    · cases h
  | _ => cases h

/-- A story that ends with a cancellation and has no other. -/
theorem cancelledOnce_of_story {ns : List Nat} (h : story id evs = fills ns ++ [.cancel]) : CancelledOnce id evs := by
  obtain ⟨evs₁, evs₂, rfl, h₁, h₂⟩ := List.filterMap_eq_append_iff.mp h
  obtain ⟨evs₃, e, post, rfl, h₃, he, hpost⟩ := List.filterMap_eq_cons_iff.mp h₂
  obtain ⟨seq, rfl⟩ := eq_cancelled_of_note he
  have hpost := List.filterMap_eq_nil_iff.mp hpost
  refine ⟨evs₁ ++ evs₃, seq, post, by rw [List.append_assoc], fun seq' hin => ?_, fun t ht hnames => ?_⟩
  · have hnote := note_cancelled_self seq' id
    rcases List.mem_append.mp hin with hin | hin
    · rcases List.mem_append.mp hin with hin | hin
      · exact cancelled_notMem_of_fills h₁ seq' hin
      · rw [h₃ _ hin] at hnote
        cases hnote
    · rw [hpost _ hin] at hnote
      cases hnote
  · have hnote := hpost _ ht
    rw [EngineEvent.note, if_pos hnames] at hnote
    cases hnote

theorem CancelledOnce.mem (h : CancelledOnce id evs) : ∃ seq, EngineEvent.cancelled seq id ∈ evs := by
  obtain ⟨pre, seq, post, rfl, -⟩ := h
  exact ⟨seq, List.mem_append_right _ List.mem_cons_self⟩

/-! ## The sweep -/

section Sweep

variable {a : Aggressor} {o : RefOrder} {os os' : List RefOrder} {qty qty' : Qty}

theorem note_cancelled_ne {id' : OrderId} (h : id' ≠ id) (seq : UInt64) : (EngineEvent.cancelled seq id').note id = none :=
  if_neg h

theorem note_tradeWith_ne (ho : o.id ≠ id) (ha : a.orderId ≠ id) (qty fill : Qty) :
    (a.tradeWith o qty fill).note id = none :=
  if_neg (not_or.mpr ⟨ho, ha⟩)

theorem note_tradeWith_maker (a : Aggressor) (o : RefOrder) (qty fill : Qty) :
    (a.tradeWith o qty fill).note o.id = some (.fill fill.raw.toNat) := if_pos (.inl rfl)

theorem note_tradeWith_taker (a : Aggressor) (o : RefOrder) (qty fill : Qty) :
    (a.tradeWith o qty fill).note a.orderId = some (.fill fill.raw.toNat) := if_pos (.inr rfl)

/-- A sweep notes nothing about an order that takes no part in it. -/
theorem Swept.story_other (h : Swept a os qty os' qty' evs) (hos : ∀ x ∈ os, x.id ≠ id) (ha : a.orderId ≠ id) :
    story id evs = [] := by
  induction h with
  | nil | stop => rfl
  | own _ _ _ _ ih =>
    obtain ⟨ho, hos⟩ := List.forall_mem_cons.mp hos
    rw [story_cons_none (note_cancelled_ne ho _), ih hos]
  | full _ _ _ _ _ ih =>
    obtain ⟨ho, hos⟩ := List.forall_mem_cons.mp hos
    rw [story_cons_none (note_tradeWith_ne ho ha _ _), ih hos]
  | part =>
    rw [story_cons_none (note_tradeWith_ne (List.forall_mem_cons.mp hos).1 ha _ _)]
    rfl

theorem Swept.story_taker (h : Swept a os qty os' qty' evs) (hos : ∀ x ∈ os, x.id ≠ a.orderId) :
    ∃ ns, story a.orderId evs = fills ns ∧ ns.sum + qty'.raw.toNat = qty.raw.toNat := by
  induction h with
  | nil | stop => exact ⟨[], rfl, Nat.zero_add _⟩
  | own _ _ _ _ ih =>
    obtain ⟨ho, hos⟩ := List.forall_mem_cons.mp hos
    rw [story_cons_none (note_cancelled_ne ho _)]
    exact ih hos
  | @full o os os' qty qty' evs _ _ _ hle _ ih =>
    obtain ⟨ns, hs, hsum⟩ := ih (List.forall_mem_cons.mp hos).2
    have hle := UInt64.not_lt.mp hle
    have hsum : ns.sum + qty'.raw.toNat = (qty.raw - o.qty.raw).toNat := hsum
    rw [UInt64.toNat_sub_of_le _ _ hle] at hsum
    have hle := UInt64.le_iff_toNat_le.mp hle
    refine ⟨o.qty.raw.toNat :: ns, ?_, ?_⟩
    · rw [story_cons_some (note_tradeWith_taker a o qty o.qty), hs]
      rfl
    · rw [List.sum_cons]
      omega
  | @part o os qty =>
    refine ⟨[qty.raw.toNat], ?_, ?_⟩
    · rw [story_cons_some (note_tradeWith_taker a o qty qty)]
      rfl
    · rw [List.sum_singleton, UInt64.sub_self]
      rfl

theorem Swept.id_mem (h : Swept a os qty os' qty' evs) {x : RefOrder} (hx : x ∈ os') : ∃ y ∈ os, x.id = y.id := by
  obtain ⟨y, hy, e⟩ := h.mem hx
  exact ⟨y, hy, by rw [e]⟩

theorem Swept.id_notMem (h : Swept a os qty os' qty' evs) (hne : ∀ y ∈ os, y.id ≠ id) : ∀ x ∈ os', x.id ≠ id := by
  intro x hx e
  obtain ⟨y, hy, e'⟩ := h.id_mem hx
  exact hne y hy (e'.symm.trans e)

/-- What a sweep does to a maker, and what it notes about it. -/
theorem Swept.moves (h : Swept a os qty os' qty' evs) (hnd : (os.map RefOrder.id).Nodup)
    (hos : ∀ x ∈ os, x.id ≠ a.orderId) {x : RefOrder} (hx : x ∈ os) :
    (∃ x' ∈ os', x'.id = x.id ∧ Moves (story x.id evs) (some x.qty.raw.toNat) (some x'.qty.raw.toNat)) ∨
      (∀ x' ∈ os', x'.id ≠ x.id) ∧ Moves (story x.id evs) (some x.qty.raw.toNat) none := by
  induction h with
  | nil => cases hx
  | stop => exact .inl ⟨x, hx, rfl, .same _⟩
  | @own o os os' qty qty' evs _ _ _ h ih =>
    have hne := ne_of_nodup_ids hnd
    obtain ⟨ho, hos⟩ := List.forall_mem_cons.mp hos
    rcases List.mem_cons.mp hx with rfl | hx
    · refine .inr ⟨h.id_notMem hne, ?_⟩
      rw [story_cons_some (note_cancelled_self _ _), h.story_other hne ho.symm]
      exact .cancel _
    · rw [story_cons_none (note_cancelled_ne (hne x hx).symm _)]
      exact ih (List.nodup_cons.mp hnd).2 hos hx
  | @full o os os' qty qty' evs _ _ _ _ h ih =>
    have hne := ne_of_nodup_ids hnd
    obtain ⟨ho, hos⟩ := List.forall_mem_cons.mp hos
    rcases List.mem_cons.mp hx with rfl | hx
    · refine .inr ⟨h.id_notMem hne, ?_⟩
      rw [story_cons_some (note_tradeWith_maker a x qty x.qty), h.story_other hne ho.symm]
      exact .full _
    · rw [story_cons_none (note_tradeWith_ne (hne x hx).symm (hos x hx).symm _ _)]
      exact ih (List.nodup_cons.mp hnd).2 hos hx
  | @part o os qty _ _ _ hlt =>
    have hne := ne_of_nodup_ids hnd
    rcases List.mem_cons.mp hx with rfl | hx
    · refine .inl ⟨_, List.mem_cons_self, rfl, ?_⟩
      rw [story_cons_some (note_tradeWith_maker a x qty qty)]
      refine .part ?_ fun hz => UInt64.sub_ne_zero_of_lt hlt (UInt64.toNat_inj.mp hz)
      rw [UInt64.toNat_sub_of_le _ _ (UInt64.le_of_lt hlt)]
      have := UInt64.lt_iff_toNat_lt.mp hlt
      omega
    · refine .inl ⟨x, List.mem_cons_of_mem _ hx, rfl, ?_⟩
      rw [story_cons_none (note_tradeWith_ne (hne x hx).symm (hos x (List.mem_cons_of_mem _ hx)).symm _ _)]
      exact .same _

end Sweep

/-! ## Trades -/

theorem tradedOf_concat_none (h : e.note id = none) (evs : List EngineEvent) :
    tradedOf id (evs ++ [e]) = tradedOf id evs := by
  rw [tradedOf_eq_used, story_append, story_cons_none h, show story id [] = [] from rfl, List.append_nil,
    ← tradedOf_eq_used]

theorem tradedOf_concat_fill {n : Nat} (h : e.note id = some (.fill n)) (evs : List EngineEvent) :
    tradedOf id (evs ++ [e]) = tradedOf id evs + n := by
  rw [tradedOf_eq_used, story_append, story_cons_some h, List.map_append, List.sum_append, ← tradedOf_eq_used]
  rfl

/-- What is left of a quantity and what was traded of it, after one more
trade. -/
theorem left_add_tradedOf {q fill : UInt64} (h : e.note id = some (.fill fill.toNat)) (hle : fill ≤ q)
    (before : List EngineEvent) : (q - fill).toNat + tradedOf id (before ++ [e]) = q.toNat + tradedOf id before := by
  have hsub := UInt64.toNat_sub_of_le _ _ hle
  have hle := UInt64.le_iff_toNat_le.mp hle
  rw [tradedOf_concat_fill h]
  omega

/-- Every trade of the events has the property `P`, given the events before
it. -/
def AllTrades (P : List EngineEvent → EngineEvent.Trade → Prop) (before : List EngineEvent) :
    List EngineEvent → Prop
  | [] => True
  | e :: evs => (∀ t, e = .trade t → P before t) ∧ AllTrades P (before ++ [e]) evs

section Trades

variable {P P' : List EngineEvent → EngineEvent.Trade → Prop} {before : List EngineEvent}

theorem allTrades_append {evs' : List EngineEvent} :
    AllTrades P before (evs ++ evs') ↔ AllTrades P before evs ∧ AllTrades P (before ++ evs) evs' := by
  induction evs generalizing before with
  | nil => simp [AllTrades]
  | cons e evs ih => rw [List.cons_append, AllTrades, AllTrades, ih, and_assoc, List.append_assoc, List.singleton_append]

theorem AllTrades.mono (h : AllTrades P before evs) (hP : ∀ pre t, P pre t → P' pre t) : AllTrades P' before evs := by
  induction evs generalizing before with
  | nil => exact trivial
  | cons e evs ih => exact ⟨fun t e => hP _ t (h.1 t e), ih h.2⟩

theorem allTrades_of_none (h : ∀ e ∈ evs, ∀ t, e ≠ .trade t) : AllTrades P before evs := by
  induction evs generalizing before with
  | nil => exact trivial
  | cons e evs ih =>
    obtain ⟨he, hevs⟩ := List.forall_mem_cons.mp h
    exact ⟨fun t e => absurd e (he t), ih hevs⟩

theorem AllTrades.at (h : AllTrades P [] evs) {pre post : List EngineEvent} {t : EngineEvent.Trade}
    (e : evs = pre ++ .trade t :: post) : P pre t := by
  rw [e, allTrades_append] at h
  exact h.2.1 t rfl

end Trades

/-- If the quantities of the makers and of the taker are what their orders came
with less what has been traded of them, the trades of a sweep say so. -/
theorem Swept.tradeAdds {a : Aggressor} {os os' : List RefOrder} {qty qty' : Qty} (h : Swept a os qty os' qty' evs)
    (hnd : (os.map RefOrder.id).Nodup) (hos : ∀ x ∈ os, x.id ≠ a.orderId) {cmds : List SequencedCommand}
    {before : List EngineEvent} (hmaker : ∀ x ∈ os, OrderOf cmds x.id x.account (x.qty.raw.toNat + tradedOf x.id before))
    (htaker : OrderOf cmds a.orderId a.account (qty.raw.toNat + tradedOf a.orderId before)) :
    AllTrades (TradeAdds cmds) before evs := by
  induction h generalizing before with
  | nil | stop => exact trivial
  | @own o os os' qty qty' evs _ _ _ h ih =>
    have hne := ne_of_nodup_ids hnd
    obtain ⟨ho, hos⟩ := List.forall_mem_cons.mp hos
    refine ⟨fun t e => (by cases e), ih (List.nodup_cons.mp hnd).2 hos (fun x hx => ?_) ?_⟩
    · rw [tradedOf_concat_none (note_cancelled_ne (hne x hx).symm _)]
      exact hmaker x (List.mem_cons_of_mem _ hx)
    · rwa [tradedOf_concat_none (note_cancelled_ne ho _)]
  | @full o os os' qty qty' evs _ _ hacct hle h ih =>
    have hne := ne_of_nodup_ids hnd
    obtain ⟨ho, hos⟩ := List.forall_mem_cons.mp hos
    have htaken := left_add_tradedOf (note_tradeWith_taker a o qty o.qty) (UInt64.not_lt.mp hle) before
    have hmade := left_add_tradedOf (note_tradeWith_maker a o qty o.qty) (UInt64.le_refl o.qty.raw) before
    rw [← htaken] at htaker
    refine ⟨fun t e => ?_, ih (List.nodup_cons.mp hnd).2 hos (fun x hx => ?_) htaker⟩
    · cases e
      exact ⟨hacct, hmade ▸ hmaker o List.mem_cons_self, htaker⟩
    · rw [tradedOf_concat_none (note_tradeWith_ne (hne x hx).symm (hos x hx).symm _ _)]
      exact hmaker x (List.mem_cons_of_mem _ hx)
  | @part o os qty _ _ hacct hlt =>
    have htaken := left_add_tradedOf (note_tradeWith_taker a o qty qty) (UInt64.le_refl qty.raw) before
    have hmade := left_add_tradedOf (note_tradeWith_maker a o qty qty) (UInt64.le_of_lt hlt) before
    refine ⟨fun t e => ?_, trivial⟩
    cases e
    exact ⟨hacct, hmade ▸ hmaker o List.mem_cons_self, htaken ▸ htaker⟩

namespace Proof.Book

/-! ## What rests of an order -/

/-- What rests of the order with this id, if anything. -/
def RestsAt {K : Type} (d : K → Option RefOrder) (id : OrderId) : Option Nat → Prop
  | none => ∀ k x, d k = some x → x.id ≠ id
  | some n => ∃ k x, d k = some x ∧ x.id = id ∧ x.qty.raw.toNat = n

/-- No two orders have the same id. -/
def DistinctIds {K : Type} (d : K → Option RefOrder) : Prop :=
  ∀ {j k x y}, d j = some x → d k = some y → x.id = y.id → j = k

section

variable {K : Type} {d d' : K → Option RefOrder} {x : Option Nat}

theorem DistinctIds.eq (hd : DistinctIds d) {j k : K} {x y : RefOrder} (hx : d j = some x) (hy : d k = some y)
    (e : x.id = y.id) : x = y := by
  rw [hd hx hy e, hy] at hx
  exact (Option.some.inj hx).symm

theorem RestsAt.eq_of_live (h : RestsAt d id x) (hd : DistinctIds d) {k : K} {y : RefOrder} (hy : d k = some y)
    (hid : y.id = id) : x = some y.qty.raw.toNat := by
  cases x with
  | none => exact absurd hid (h k y hy)
  | some n =>
    obtain ⟨j, z, hz, hzid, hn⟩ := h
    rw [← hd.eq hz hy (hzid.trans hid.symm), hn]

theorem RestsAt.insert [DecidableEq K] (h : RestsAt d id x) {k : K} (hk : d k = none) {y : RefOrder} (hy : y.id ≠ id) :
    RestsAt (Function.update d k (some y)) id x := by
  cases x with
  | none =>
    intro j z hz
    rcases update_some_eq_some.mp hz with ⟨-, rfl⟩ | ⟨-, hz⟩
    · exact hy
    · exact h j z hz
  | some n =>
    obtain ⟨j, z, hz, hid, hn⟩ := h
    have hj : j ≠ k := fun e => by rw [e, hk] at hz; cases hz
    exact ⟨j, z, by rw [Function.update_of_ne hj]; exact hz, hid, hn⟩

theorem RestsAt.erase [DecidableEq K] (h : RestsAt d id x) {k : K} {y : RefOrder} (hk : d k = some y) (hy : y.id ≠ id) :
    RestsAt (Function.update d k none) id x := by
  cases x with
  | none => exact fun j z hz => h j z (update_none_eq_some.mp hz).2
  | some n =>
    obtain ⟨j, z, hz, hid, hn⟩ := h
    have hj : j ≠ k := fun e => by
      rw [e, hk] at hz
      exact hy (Option.some.inj hz ▸ hid)
    exact ⟨j, z, update_none_eq_some.mpr ⟨hj, hz⟩, hid, hn⟩

end

variable {M K : Type}

theorem story_top {b : OrderBook M K} {seq : UInt64} {symbol : Symbol} {top : EngineEvent}
    (h : b.bookTopEvent seq symbol = some top) (id : OrderId) : story id [top] = [] := by
  obtain ⟨e, rfl⟩ := isBookTop_of_eq h
  rfl

/-- The events after the matching loop: one about the order, and the top of the
book. -/
theorem forall_mem_tail {P : EngineEvent → Prop} {b : OrderBook M K} {seq : UInt64} {symbol : Symbol}
    {e top : EngineEvent} (h : b.bookTopEvent seq symbol = some top) (he : P e) (htop : ∀ x, P (.bookTop x)) :
    ∀ e' ∈ [e, top], P e' := by
  obtain ⟨x, rfl⟩ := isBookTop_of_eq h
  exact List.forall_mem_cons.mpr ⟨he, List.forall_mem_singleton.mpr (htop x)⟩

variable [DecidableEq K] [Arena M K]

variable {c : RefConfig} {b b₁ b' : OrderBook M K} {Q : Side → Nat → List K} {seq tsNs : UInt64}
  {o : InboundNewOrder} {left : Qty}

theorem Shape.nodup_queued_ids (hb : Shape c b Q) (hd : DistinctIds (dataOf b.arena)) (s : Side) :
    (((queued c (dataOf b.arena) Q).side s).map RefOrder.id).Nodup := by
  rw [side_queued, List.map_filterMap]
  refine List.Nodup.filterMap (fun k k' i hk hk' => ?_) (hb.seated.nodup_keysOf c.numTicks s)
  obtain ⟨x, hx, rfl⟩ := Option.map_eq_some_iff.mp hk
  obtain ⟨y, hy, e⟩ := Option.map_eq_some_iff.mp hk'
  exact hd hx hy e.symm

/-! ## The matching loop -/

/-- What the matching loop does to an order that was resting, and what it notes
about it. -/
theorem Valid.matched_moves (hb : Valid c b Q) (hd : DistinctIds (dataOf b.arena))
    (hm : Matched b seq tsNs o b₁ left evs) (hnew : RestsAt (dataOf b.arena) ⟨seq⟩ none) (hid : id ≠ ⟨seq⟩)
    {x : Option Nat} (hx : RestsAt (dataOf b.arena) id x) :
    ∃ x', RestsAt (dataOf b₁.arena) id x' ∧ Moves (story id evs) x x' := by
  obtain ⟨Q₁, os, hb₁, hw, hq, hrest⟩ := hb.of_matched hm
  have hlive : ∀ {y}, y ∈ (queued c (dataOf b.arena) Q).side o.side.opposite → ∃ k, dataOf b.arena k = some y :=
    fun hy => (hb.mem_queued_iff.mp hy).2
  have hos : ∀ y ∈ (queued c (dataOf b.arena) Q).side o.side.opposite, y.id ≠ (⟨seq⟩ : OrderId) := fun y hy => by
    obtain ⟨k, hk⟩ := hlive hy
    exact hnew k y hk
  cases x with
  | none =>
    refine ⟨none, fun k z hz => ?_, ?_⟩
    · obtain ⟨y, hy, e⟩ := hrest k z hz
      rw [e]
      exact hx k y hy
    · rw [hw.story_other (fun y hy => ?_) hid.symm]
      · exact .same none
      · obtain ⟨k, hk⟩ := hlive hy
        exact hx k y hk
  | some n =>
    obtain ⟨k, y, hy, rfl, rfl⟩ := hx
    by_cases hside : y.side = o.side.opposite
    · have hmem := hb.mem_queued_iff.mpr ⟨hside, k, hy⟩
      rcases hw.moves (hb.nodup_queued_ids hd _) hos hmem with ⟨x', hx', hid', hmoves⟩ | ⟨hgone, hmoves⟩
      · have hx₁ : x' ∈ (queued c (dataOf b₁.arena) Q₁).side o.side.opposite := by rwa [hq, RefBook.side_setSide]
        obtain ⟨-, k', hk'⟩ := hb₁.mem_queued_iff.mp hx₁
        exact ⟨some x'.qty.raw.toNat, ⟨k', x', hk', hid', rfl⟩, hmoves⟩
      · refine ⟨none, fun k' z hz e => ?_, hmoves⟩
        obtain ⟨z₀, hz₀, ez⟩ := hrest k' z hz
        have hz₀y : z₀ = y := hd.eq hz₀ hy (by rw [← e, ez])
        have hzs : z.side = o.side.opposite := by rw [ez, hz₀y]; exact hside
        have hz₁ := hb₁.mem_queued_iff.mpr ⟨hzs, k', hz⟩
        rw [hq, RefBook.side_setSide] at hz₁
        exact hgone z hz₁ e
    · have hne : ∀ z ∈ (queued c (dataOf b.arena) Q).side o.side.opposite, z.id ≠ y.id := fun z hz e => by
        obtain ⟨hzs, j, hj⟩ := hb.mem_queued_iff.mp hz
        rw [hd.eq hj hy e] at hzs
        exact hside hzs
      have hy₁ : y ∈ (queued c (dataOf b₁.arena) Q₁).side y.side := by
        rw [hq, RefBook.side_setSide_ne _ hside]
        exact hb.mem_queued_iff.mpr ⟨rfl, k, hy⟩
      obtain ⟨-, k', hk'⟩ := hb₁.mem_queued_iff.mp hy₁
      refine ⟨some y.qty.raw.toNat, ⟨k', y, hk', rfl, rfl⟩, ?_⟩
      rw [hw.story_other hne hid.symm]
      exact .same _

theorem Valid.matched_taker (hb : Valid c b Q) (hm : Matched b seq tsNs o b₁ left evs)
    (hnew : RestsAt (dataOf b.arena) ⟨seq⟩ none) :
    RestsAt (dataOf b₁.arena) ⟨seq⟩ none ∧
      ∃ ns, story ⟨seq⟩ evs = fills ns ∧ ns.sum + left.raw.toNat = o.qty.raw.toNat := by
  obtain ⟨Q₁, os, hb₁, hw, hq, hrest⟩ := hb.of_matched hm
  refine ⟨fun k z hz => ?_, hw.story_taker (a := o.aggressor seq tsNs) fun y hy => ?_⟩
  · obtain ⟨y, hy, e⟩ := hrest k z hz
    rw [e]
    exact hnew k y hy
  · obtain ⟨-, k, hk⟩ := hb.mem_queued_iff.mp hy
    exact hnew k y hk

/-! ## Commands -/

theorem Valid.applied_moves (hb : Valid c b Q) (hd : DistinctIds (dataOf b.arena)) (h : Applied b seq tsNs o b' evs)
    (hnew : RestsAt (dataOf b.arena) ⟨seq⟩ none) (hid : id ≠ ⟨seq⟩) {x : Option Nat}
    (hx : RestsAt (dataOf b.arena) id x) :
    ∃ x', RestsAt (dataOf b'.arena) id x' ∧ Moves (story id evs) x x' := by
  cases h with
  | refused => exact ⟨x, hx, .same x⟩
  | filled hm hz ht =>
    rw [story_append, story_top ht, List.append_nil]
    exact hb.matched_moves hd hm hnew hid hx
  | cancelled hm hz hlt ht =>
    rw [story_append, story_cons_none (note_cancelled_ne hid.symm _), story_top ht, List.append_nil]
    exact hb.matched_moves hd hm hnew hid hx
  | unmatched hm hz hle rej ht =>
    rw [story_append, story_cons_none rfl, story_top ht, List.append_nil]
    exact hb.matched_moves hd hm hnew hid hx
  | full hm =>
    rw [story_append, story_cons_none rfl, show story id [] = [] from rfl, List.append_nil]
    exact hb.matched_moves hd hm hnew hid hx
  | rested hm hz hrests hroom hidx hrest ht =>
    rw [story_append, story_cons_none rfl, story_top ht, List.append_nil]
    obtain ⟨x', hx', hmoves⟩ := hb.matched_moves hd hm hnew hid hx
    obtain ⟨k, hk, hdata, -⟩ := hb.of_rested hm hz hroom hidx hrest
    rw [hdata]
    exact ⟨x', hx'.insert hk hid.symm, hmoves⟩

theorem Valid.applied_course (hb : Valid c b Q) (h : Applied b seq tsNs o b' evs)
    (hnew : RestsAt (dataOf b.arena) ⟨seq⟩ none) :
    ∃ x, RestsAt (dataOf b'.arena) ⟨seq⟩ x ∧
      Course (∃ rej, EngineEvent.rejected rej ∈ evs) o.qty.raw.toNat (story ⟨seq⟩ evs) x := by
  have hnot : ∀ {b₁ left evs} {b₂ : OrderBook M K} {e top}, Matched b seq tsNs o b₁ left evs →
      b₂.bookTopEvent seq o.symbol = some top → (∀ rej, e ≠ EngineEvent.rejected rej) →
      ¬ ∃ rej, EngineEvent.rejected rej ∈ evs ++ [e, top] := by
    rintro b₁ left evs b₂ e top hm ht he ⟨rej, hin⟩
    rcases List.mem_append.mp hin with hin | hin
    · exact (hb.matched_events hm).1 rej hin
    · exact forall_mem_tail (P := fun e' => e' ≠ .rejected rej) ht (he rej) (fun x h => by cases h) _ hin rfl
  cases h with
  | refused _ rej => exact ⟨none, hnew, .refused ⟨rej, List.mem_cons_self⟩ (show [].sum = 0 from rfl)⟩
  | filled hm hz ht =>
    obtain ⟨hnone, ns, hs, hsum⟩ := hb.matched_taker hm hnew
    rw [story_append, story_top ht, List.append_nil, hs]
    rw [hz, UInt64.toNat_zero, Nat.add_zero] at hsum
    exact ⟨none, hnone, .filled hsum⟩
  | @cancelled b₁ left evs top hm hz hlt ht =>
    obtain ⟨hnone, ns, hs, hsum⟩ := hb.matched_taker hm hnew
    have hpos : left.raw.toNat ≠ 0 := fun e => hz (UInt64.toNat_inj.mp e)
    rw [story_append, story_cons_some (note_cancelled_self _ _), story_top ht, hs]
    exact ⟨none, hnone, .cancelled (hnot hm ht fun rej h => (by cases h)) (by omega)⟩
  | @unmatched b₁ left evs top hm hz hle rej ht =>
    obtain ⟨hnone, ns, hs, hsum⟩ := hb.matched_taker hm hnew
    have hle := UInt64.le_iff_toNat_le.mp (UInt64.not_lt.mp hle)
    rw [story_append, story_cons_none rfl, story_top ht, List.append_nil, hs]
    exact ⟨none, hnone, .refused ⟨rej, List.mem_append_right _ List.mem_cons_self⟩ (by omega)⟩
  | @full b₁ left evs hm hz hrests hfull rej =>
    obtain ⟨rfl, rfl⟩ := hb.full_idle hm hz hfull
    exact ⟨none, hnew, .refused ⟨rej, List.mem_cons_self⟩ (show [].sum = 0 from rfl)⟩
  | @rested b₁ _ left evs top i hm hz hrests hroom hidx hrest ht =>
    obtain ⟨hnone, ns, hs, hsum⟩ := hb.matched_taker hm hnew
    have hpos : left.raw.toNat ≠ 0 := fun e => hz (UInt64.toNat_inj.mp e)
    obtain ⟨k, -, hdata, -⟩ := hb.of_rested hm hz hroom hidx hrest
    rw [story_append, story_cons_none rfl, story_top ht, List.append_nil, hs, hdata]
    exact ⟨some left.raw.toNat, ⟨k, o.resting seq left, Function.update_self _ _ _, rfl, rfl⟩,
      .resting (hnot hm ht fun rej h => (by cases h)) hsum hpos⟩

theorem Valid.applied_tradeAdds (hb : Valid c b Q) (hd : DistinctIds (dataOf b.arena)) (h : Applied b seq tsNs o b' evs)
    (hnew : RestsAt (dataOf b.arena) ⟨seq⟩ none) {cmds : List SequencedCommand} {before : List EngineEvent}
    (hmaker : ∀ k x, dataOf b.arena k = some x → OrderOf cmds x.id x.account (x.qty.raw.toNat + tradedOf x.id before))
    (htaker : OrderOf cmds ⟨seq⟩ o.account (o.qty.raw.toNat + tradedOf ⟨seq⟩ before)) :
    AllTrades (TradeAdds cmds) before evs := by
  have hmatched : ∀ {b₁ left evs}, Matched b seq tsNs o b₁ left evs → AllTrades (TradeAdds cmds) before evs := by
    intro b₁ left evs hm
    obtain ⟨Q₁, os, hb₁, hw, -⟩ := hb.of_matched hm
    refine hw.tradeAdds (hb.nodup_queued_ids hd _) (fun y hy => ?_) (fun y hy => ?_) htaker
    all_goals obtain ⟨-, k, hk⟩ := hb.mem_queued_iff.mp hy
    · exact hnew k y hk
    · exact hmaker k y hk
  have htail : ∀ {b₂ : OrderBook M K} {e top : EngineEvent}, (∀ t, e ≠ .trade t) →
      b₂.bookTopEvent seq o.symbol = some top → ∀ e' ∈ [e, top], ∀ t, e' ≠ EngineEvent.trade t :=
    fun he ht => forall_mem_tail ht he fun x t h => by cases h
  cases h with
  | refused => exact ⟨fun t e => (by cases e), trivial⟩
  | filled hm hz ht =>
    obtain ⟨x, rfl⟩ := isBookTop_of_eq ht
    exact allTrades_append.mpr ⟨hmatched hm, fun t e => (by cases e), trivial⟩
  | cancelled hm hz hlt ht =>
    exact allTrades_append.mpr ⟨hmatched hm, allTrades_of_none (htail (fun t e => by cases e) ht)⟩
  | unmatched hm hz hle rej ht =>
    exact allTrades_append.mpr ⟨hmatched hm, allTrades_of_none (htail (fun t e => by cases e) ht)⟩
  | full hm => exact allTrades_append.mpr ⟨hmatched hm, fun t e => (by cases e), trivial⟩
  | rested hm hz hrests hroom hidx hrest ht =>
    exact allTrades_append.mpr ⟨hmatched hm, allTrades_of_none (htail (fun t e => by cases e) ht)⟩

/-- Where the orders come from that rest after a new order. -/
theorem Valid.applied_live (hb : Valid c b Q) (h : Applied b seq tsNs o b' evs) {k : K} {x : RefOrder}
    (hx : dataOf b'.arena k = some x) :
    (∃ j y, dataOf b.arena j = some y ∧ x.IsRestOf y) ∨ x = o.resting seq x.qty := by
  have hmatched : ∀ {b₁ left evs}, Matched b seq tsNs o b₁ left evs → ∀ {k x}, dataOf b₁.arena k = some x →
      ∃ j y, dataOf b.arena j = some y ∧ x.IsRestOf y := by
    intro b₁ left evs hm k x hx
    obtain ⟨Q₁, os, -, -, -, hrest⟩ := hb.of_matched hm
    exact ⟨k, hrest k x hx⟩
  cases h with
  | refused => exact .inl ⟨k, x, hx, rfl⟩
  | filled hm => exact .inl (hmatched hm hx)
  | cancelled hm => exact .inl (hmatched hm hx)
  | unmatched hm => exact .inl (hmatched hm hx)
  | full hm => exact .inl (hmatched hm hx)
  | rested hm hz hrests hroom hidx hrest ht =>
    obtain ⟨k', -, hdata, -⟩ := hb.of_rested hm hz hroom hidx hrest
    rw [hdata] at hx
    rcases update_some_eq_some.mp hx with ⟨-, rfl⟩ | ⟨-, hx⟩
    · exact .inr rfl
    · exact .inl (hmatched hm hx)

variable {cmd : SequencedCommand}

/-- A command does to an older order what it notes about it. -/
theorem Valid.effect_moves (hb : Valid c b Q) (hd : DistinctIds (dataOf b.arena)) (h : Effect b cmd b' evs)
    (hnew : ∀ seq ∈ cmd.newOrderSeq, RestsAt (dataOf b.arena) ⟨seq⟩ none)
    (hid : ∀ seq ∈ cmd.newOrderSeq, id ≠ ⟨seq⟩) {x : Option Nat} (hx : RestsAt (dataOf b.arena) id x) :
    ∃ x', RestsAt (dataOf b'.arena) id x' ∧ Moves (story id evs) x x' := by
  cases h with
  | newOrder hc h =>
    have hseq := newOrderSeq_of_newOrder hc
    exact hb.applied_moves hd h (hnew cmd.seq hseq) (hid cmd.seq hseq) hx
  | notCancelled => exact ⟨x, hx, .same x⟩
  | @cancelled id' k ro hc hk hro _ hcancel =>
    obtain ⟨i, as, bs, -, -, -, -, hdata, -⟩ := hb.of_cancelled hk hro hcancel
    obtain ⟨y, hy, hyid⟩ := hb.ids id' k hk
    rw [hdata]
    by_cases e : id' = id
    · obtain rfl := hx.eq_of_live hd hy (hyid.trans e)
      refine ⟨none, fun j z hz hzid => ?_, ?_⟩
      · obtain ⟨hj, hz⟩ := update_none_eq_some.mp hz
        exact hj (hd hz hy (hzid.trans (hyid.trans e).symm))
      · rw [e, story_cons_some (note_cancelled_self _ _)]
        exact .cancel _
    · rw [story_cons_none (note_cancelled_ne e _)]
      exact ⟨x, hx.erase hy (fun e' => e (hyid.symm.trans e')), .same x⟩
  | idle => exact ⟨x, hx, .same x⟩

/-- Where the orders come from that rest after a command. -/
theorem Valid.effect_live (hb : Valid c b Q) (h : Effect b cmd b' evs) {k : K} {x : RefOrder}
    (hx : dataOf b'.arena k = some x) :
    (∃ j y, dataOf b.arena j = some y ∧ x.IsRestOf y) ∨ ∃ o, cmd.cmd = .newOrder o ∧ x = o.resting cmd.seq x.qty := by
  cases h with
  | newOrder hc h => exact (hb.applied_live h hx).imp_right fun hx => ⟨_, hc, hx⟩
  | notCancelled => exact .inl ⟨k, x, hx, rfl⟩
  | cancelled hc hk hro hcancel =>
    obtain ⟨i, as, bs, -, -, -, -, hdata, -⟩ := hb.of_cancelled hk hro hcancel
    rw [hdata] at hx
    exact .inl ⟨k, x, (update_none_eq_some.mp hx).2, rfl⟩
  | idle => exact .inl ⟨k, x, hx, rfl⟩

/-! ## Runs -/

/-- What is true of the orders that commands bring, whatever is left of them, is
true of those that rest. -/
theorem Valid.run_live {P : RefOrder → Prop} (hP : ∀ {x y : RefOrder}, x.IsRestOf y → P y → P x) (hb : Valid c b Q)
    (h : ∀ k x, dataOf b.arena k = some x → P x) {cmds : List SequencedCommand} {evss : List (List EngineEvent)}
    (hrun : b.run cmds = some (b', evss))
    (hcmds : ∀ cmd ∈ cmds, ∀ o qty, cmd.cmd = .newOrder o → P (o.resting cmd.seq qty)) :
    ∀ k x, dataOf b'.arena k = some x → P x := by
  induction cmds generalizing b Q evss with
  | nil =>
    cases hrun
    exact h
  | cons cmd cmds ih =>
    obtain ⟨hcmd, hcmds⟩ := List.forall_mem_cons.mp hcmds
    obtain ⟨⟨b₁, evs⟩, happly, hrest⟩ := Option.bind_eq_some_iff.mp hrun
    obtain ⟨⟨b₂, evss₂⟩, hrun₂, e⟩ := Option.bind_eq_some_iff.mp hrest
    cases e
    obtain ⟨heff, Q₁, hb₁⟩ := hb.effect happly
    refine ih hb₁ (fun k x hx => ?_) hrun₂ hcmds
    rcases hb.effect_live heff hx with ⟨j, y, hy, hrest⟩ | ⟨o, hc, hx⟩
    · exact hP hrest (h j y hy)
    · rw [hx]
      exact hcmd o _ hc

/-- The book after the commands `cmds` with the events `evss`: what has become
of every order. -/
structure Lives (b : OrderBook M K) (cmds : List SequencedCommand) (evss : List (List EngineEvent)) : Prop where
  length : cmds.length = evss.length
  known (k : K) (x : RefOrder) : dataOf b.arena k = some x → ∃ cmd own o, (cmd, own) ∈ cmds.zip evss ∧
    cmd.cmd = .newOrder o ∧ x.id = ⟨cmd.seq⟩ ∧ x.account = o.account
  named (id : OrderId) : story id evss.flatten ≠ [] → ∃ cmd ∈ cmds, ∃ seq ∈ cmd.newOrderSeq, id = ⟨seq⟩
  course (cmd : SequencedCommand) (own : List EngineEvent) (o : InboundNewOrder) : (cmd, own) ∈ cmds.zip evss →
    cmd.cmd = .newOrder o → ∃ x, RestsAt (dataOf b.arena) ⟨cmd.seq⟩ x ∧
      Course (∃ rej, EngineEvent.rejected rej ∈ own) o.qty.raw.toNat (story ⟨cmd.seq⟩ evss.flatten) x
  trades : AllTrades (TradeAdds cmds) [] evss.flatten

variable {cmds : List SequencedCommand} {evss : List (List EngineEvent)}

/-- What a resting order has traded and what is left of it. -/
theorem Lives.orderOf (h : Lives b cmds evss) (hd : DistinctIds (dataOf b.arena)) {k : K} {x : RefOrder}
    (hx : dataOf b.arena k = some x) : OrderOf cmds x.id x.account (x.qty.raw.toNat + tradedOf x.id evss.flatten) := by
  obtain ⟨cmd, own, o, hin, hc, hid, hacct⟩ := h.known k x hx
  obtain ⟨y, hy, hcourse⟩ := h.course cmd own o hin hc
  obtain rfl := hy.eq_of_live hd hx hid
  refine ⟨cmd, (List.of_mem_zip hin).1, o, hc, hid, hacct.symm, ?_⟩
  generalize hs : story ⟨cmd.seq⟩ evss.flatten = notes at hcourse
  cases hcourse with
  | resting hr hsum hz =>
    rw [hid, tradedOf_of_fills hs]
    omega

theorem OrderOf.mono {id : OrderId} {account : AccountId} {q : Nat} (h : OrderOf cmds id account q)
    (cmds' : List SequencedCommand) : OrderOf (cmds ++ cmds') id account q := by
  obtain ⟨cmd, hin, h⟩ := h
  exact ⟨cmd, List.mem_append_left _ hin, h⟩

theorem Increasing.lt_last (h : Increasing (cmds ++ [cmd])) {cmd₀ : SequencedCommand} (h₀ : cmd₀ ∈ cmds) {m n : UInt64}
    (hm : m ∈ cmd₀.newOrderSeq) (hn : n ∈ cmd.newOrderSeq) : m < n := by
  rw [Increasing, List.filterMap_append] at h
  refine (List.pairwise_append.mp h).2.2 m (List.mem_filterMap.mpr ⟨cmd₀, h₀, hm⟩) n ?_
  exact List.mem_filterMap.mpr ⟨cmd, List.mem_singleton_self cmd, hn⟩

theorem Increasing.init (h : Increasing (cmds ++ [cmd])) : Increasing cmds := by
  rw [Increasing, List.filterMap_append] at h
  exact (List.pairwise_append.mp h).1

/-- The order that comes with the last command is younger than every other. -/
theorem Increasing.ne_last (h : Increasing (cmds ++ [cmd])) {cmd₀ : SequencedCommand} (h₀ : cmd₀ ∈ cmds) {m : UInt64}
    (hm : m ∈ cmd₀.newOrderSeq) : ∀ seq ∈ cmd.newOrderSeq, (⟨m⟩ : OrderId) ≠ ⟨seq⟩ := by
  intro seq hseq e
  have hlt := Increasing.lt_last h h₀ hm hseq
  rw [OrderId.mk.inj e] at hlt
  exact UInt64.lt_irrefl _ hlt

section Step

variable (h : Lives b cmds evss) (hinc : Increasing (cmds ++ [cmd]))

include h hinc

theorem Lives.not_yet : ∀ seq ∈ cmd.newOrderSeq, RestsAt (dataOf b.arena) ⟨seq⟩ none := by
  intro seq hseq k x hx
  obtain ⟨cmd₀, own, o, hin, hc, hid, -⟩ := h.known k x hx
  rw [hid]
  exact Increasing.ne_last hinc (List.of_mem_zip hin).1 (newOrderSeq_of_newOrder hc) seq hseq

theorem Lives.not_told : ∀ seq ∈ cmd.newOrderSeq, story ⟨seq⟩ evss.flatten = [] := by
  intro seq hseq
  by_contra hne
  obtain ⟨cmd₀, h₀, m, hm, e⟩ := h.named _ hne
  exact Increasing.ne_last hinc h₀ hm seq hseq e.symm

/-- A command tells nothing about an order that has not come yet. -/
theorem Lives.named_step (hb : Valid c b Q) (hd : DistinctIds (dataOf b.arena)) (heff : Effect b cmd b' evs)
    (hid : story id (evss.flatten ++ evs) ≠ []) : ∃ cmd₀ ∈ cmds ++ [cmd], ∃ seq ∈ cmd₀.newOrderSeq, id = ⟨seq⟩ := by
  rw [story_append] at hid
  by_cases hold : story id evss.flatten = []
  · by_contra hno
    have hother : ∀ seq ∈ cmd.newOrderSeq, id ≠ ⟨seq⟩ := fun seq hs e =>
      hno ⟨cmd, List.mem_append_right _ List.mem_cons_self, seq, hs, e⟩
    have hgone : RestsAt (dataOf b.arena) id none := fun k x hx e => by
      obtain ⟨cmd₀, own, o, hin, hc, hid', -⟩ := h.known k x hx
      exact hno ⟨cmd₀, List.mem_append_left _ (List.of_mem_zip hin).1, _, newOrderSeq_of_newOrder hc, e.symm.trans hid'⟩
    obtain ⟨x', -, hmoves⟩ := hb.effect_moves hd heff (h.not_yet hinc) hother hgone
    rw [hold, List.nil_append] at hid
    cases hs : story id evs with
    | nil => exact hid hs
    | cons n ns =>
      rw [hs] at hmoves
      cases hmoves
  · obtain ⟨cmd₀, h₀, hm⟩ := h.named id hold
    exact ⟨cmd₀, List.mem_append_left _ h₀, hm⟩

theorem Lives.course_new (hb : Valid c b Q) (heff : Effect b cmd b' evs) (hc : cmd.cmd = .newOrder o) :
    ∃ x, RestsAt (dataOf b'.arena) ⟨cmd.seq⟩ x ∧ Course (∃ rej, EngineEvent.rejected rej ∈ evs) o.qty.raw.toNat
      (story ⟨cmd.seq⟩ (evss.flatten ++ evs)) x := by
  rw [story_append, h.not_told hinc cmd.seq (newOrderSeq_of_newOrder hc), List.nil_append]
  exact hb.applied_course (heff.applied hc) (h.not_yet hinc cmd.seq (newOrderSeq_of_newOrder hc))

theorem Lives.trades_step (hb : Valid c b Q) (hd : DistinctIds (dataOf b.arena)) (heff : Effect b cmd b' evs) :
    AllTrades (TradeAdds (cmds ++ [cmd])) [] (evss.flatten ++ evs) := by
  refine allTrades_append.mpr ⟨h.trades.mono fun pre t ht => ⟨ht.1, OrderOf.mono ht.2.1 _, OrderOf.mono ht.2.2 _⟩, ?_⟩
  rw [List.nil_append]
  cases heff with
  | newOrder hc ha =>
    have hseq := newOrderSeq_of_newOrder hc
    refine hb.applied_tradeAdds hd ha (h.not_yet hinc cmd.seq hseq) (fun k x hx => OrderOf.mono (h.orderOf hd hx) _) ?_
    refine ⟨cmd, List.mem_append_right _ List.mem_cons_self, _, hc, rfl, rfl, ?_⟩
    rw [tradedOf_of_fills (show story _ _ = fills [] from h.not_told hinc cmd.seq hseq)]
    rfl
  | notCancelled => exact ⟨fun t e => (by cases e), trivial⟩
  | cancelled => exact ⟨fun t e => (by cases e), trivial⟩
  | idle => exact trivial

theorem Lives.step (hb : Valid c b Q) (hd : DistinctIds (dataOf b.arena)) (heff : Effect b cmd b' evs) :
    Lives b' (cmds ++ [cmd]) (evss ++ [evs]) := by
  have hflat : (evss ++ [evs]).flatten = evss.flatten ++ evs := by rw [List.flatten_concat]
  have hzip : (cmds ++ [cmd]).zip (evss ++ [evs]) = cmds.zip evss ++ [(cmd, evs)] := List.zip_append h.length
  refine ⟨?_, fun k x hx => ?_, fun id hid => ?_, fun cmd₀ own o hin hc => ?_, ?_⟩
  · rw [List.length_append, List.length_append, h.length]
    rfl
  · rw [hzip]
    rcases hb.effect_live heff hx with ⟨j, y, hy, hrest⟩ | ⟨o, hc, hrest⟩
    · obtain ⟨cmd₀, own, o, hin, hc, hid, hacct⟩ := h.known j y hy
      rw [hrest]
      exact ⟨cmd₀, own, o, List.mem_append_left _ hin, hc, hid, hacct⟩
    · rw [hrest]
      exact ⟨cmd, evs, o, List.mem_append_right _ List.mem_cons_self, hc, rfl, rfl⟩
  · rw [hflat] at hid
    exact h.named_step hinc hb hd heff hid
  · rw [hflat]
    rw [hzip, List.mem_append] at hin
    rcases hin with hin | hin
    · obtain ⟨x, hx, hcourse⟩ := h.course cmd₀ own o hin hc
      have hother := Increasing.ne_last hinc (List.of_mem_zip hin).1 (newOrderSeq_of_newOrder hc)
      obtain ⟨x', hx', hmoves⟩ := hb.effect_moves hd heff (h.not_yet hinc) hother hx
      rw [story_append]
      exact ⟨x', hx', hcourse.step hmoves⟩
    · cases List.mem_singleton.mp hin
      exact h.course_new hinc hb heff hc
  · rw [hflat]
    exact h.trades_step hinc hb hd heff

end Step

variable {cfg : BookConfig} {b₀ : OrderBook M K}

theorem lives (hnew : OrderBook.new cfg = some b₀) (hinc : Increasing cmds) :
    ∃ b evss, b₀.run cmds = some (b, evss) ∧ Lives b cmds evss := by
  induction cmds using List.reverseRecOn with
  | nil =>
    obtain ⟨⟨Q, -, hl⟩, -⟩ := new_ok hnew
    have hnone : ∀ k x, dataOf b₀.arena k ≠ some x := fun k x hx => by
      have hmem := hl.mem.mpr ⟨rfl, k, hx⟩
      cases hs : x.side <;> rw [hs] at hmem <;> cases hmem
    exact ⟨b₀, [], rfl, rfl, fun k x hx => absurd hx (hnone k x), fun id hid => absurd rfl hid,
      fun cmd own o hin => (by cases hin), trivial⟩
  | append_singleton cmds cmd ih =>
    obtain ⟨b, evss, e, h⟩ := ih (Increasing.init hinc)
    obtain ⟨Q₀, hb₀⟩ := new_valid hnew
    obtain ⟨b₁, evss₁, Q, e₁, hb⟩ := hb₀.run cmds
    obtain ⟨b₂, evss₂, r, refs, e₂, -, -, ⟨Q₂, hrep, -⟩, -⟩ :=
      run_ok (new_ok hnew).1 (Increasing.init hinc) fun _ _ s x hx => by cases s <;> cases hx
    rw [e] at e₁ e₂
    cases e₁
    cases e₂
    obtain ⟨b', evs, Q', e', heff, -⟩ := hb.apply cmd
    refine ⟨b', evss ++ [evs], ?_, h.step hinc hb (fun hx hy hid => hrep.ids.inj hx hy hid) heff⟩
    rw [run_concat, e, Option.bind_some, e', Option.map_some]

theorem RestsAt.not_rests {id : OrderId} (h : RestsAt (dataOf b.arena) id none) (ro : RestingOrder K) :
    ¬ b.Rests id ro := fun ⟨⟨k, hk⟩, hid⟩ => h k ro.data (dataOf_of_get? hk) hid

theorem Lives.fate (h : Lives b cmds evss) {own : List EngineEvent} {o : InboundNewOrder}
    (hin : (cmd, own) ∈ cmds.zip evss) (hc : cmd.cmd = .newOrder o) (hq : o.qty.raw ≠ 0) :
    ∃! fate, b.HasFate own evss.flatten ⟨cmd.seq⟩ o.qty fate := by
  obtain ⟨x, hx, hcourse⟩ := h.course cmd own o hin hc
  have hq : o.qty.raw.toNat ≠ 0 := fun e => hq (UInt64.toNat_inj.mp e)
  generalize hs : story ⟨cmd.seq⟩ evss.flatten = notes at hcourse
  cases hcourse with
  | refused hrej hz =>
    have ht := (tradedOf_of_fills hs).trans hz
    refine ⟨.rejected, ⟨hrej, ht, hx.not_rests⟩, fun f hf => ?_⟩
    cases f with
    | rejected => rfl
    | resting => exact absurd hf.choose_spec.1 (hx.not_rests _)
    | filled => exact absurd (ht.symm.trans hf.1).symm hq
    | cancelled =>
      obtain ⟨seq, hin⟩ := hf.2.2.mem
      exact absurd hin (cancelled_notMem_of_fills hs seq)
  | resting hr hsum hpos =>
    have ht := tradedOf_of_fills hs
    obtain ⟨k, y, hy, hid, hn⟩ := hx
    obtain ⟨ro, hro, rfl⟩ := get?_of_dataOf hy
    have hrests : b.Rests ⟨cmd.seq⟩ ro := ⟨⟨k, hro⟩, hid⟩
    have hn : ro.qtyRemaining.raw.toNat = _ := hn
    refine ⟨.resting, ⟨ro, hrests, by omega, by omega⟩, fun f hf => ?_⟩
    cases f with
    | rejected => exact absurd hrests (hf.2.2 ro)
    | resting => rfl
    | filled => exact absurd hrests (hf.2 ro)
    | cancelled => exact absurd hrests (hf.2.1 ro)
  | filled hsum =>
    have ht := (tradedOf_of_fills hs).trans hsum
    refine ⟨.filled, ⟨ht, hx.not_rests⟩, fun f hf => ?_⟩
    cases f with
    | rejected => exact absurd (ht.symm.trans hf.2.1) hq
    | resting => exact absurd hf.choose_spec.1 (hx.not_rests _)
    | filled => rfl
    | cancelled => exact absurd ht (Nat.ne_of_lt hf.1)
  | @cancelled hr ns hsum =>
    have ht : tradedOf ⟨cmd.seq⟩ evss.flatten = ns.sum := by
      rw [tradedOf_eq_used, hs, List.map_append, List.sum_append, sum_used_fills]
      rfl
    rw [← ht] at hsum
    refine ⟨.cancelled, ⟨hsum, hx.not_rests, cancelledOnce_of_story hs⟩, fun f hf => ?_⟩
    cases f with
    | rejected => exact absurd hf.1 hr
    | resting => exact absurd hf.choose_spec.1 (hx.not_rests _)
    | filled => exact absurd hf.1 (Nat.ne_of_lt hsum)
    | cancelled => rfl

/-- After every run whose new orders have increasing sequence numbers, each of
them with a quantity has exactly one fate, and every trade is between two
accounts and says what is left of its two orders. -/
theorem order_life (hnew : OrderBook.new cfg = some b₀) (hinc : Increasing cmds) :
    ∃ b evss, b₀.run cmds = some (b, evss) ∧ evss.length = cmds.length ∧
      (∀ cmd own o, (cmd, own) ∈ cmds.zip evss → cmd.cmd = .newOrder o → o.qty.raw ≠ 0 →
        ∃! fate, b.HasFate own evss.flatten ⟨cmd.seq⟩ o.qty fate) ∧
      ∀ pre t post, evss.flatten = pre ++ .trade t :: post → TradeAdds cmds pre t := by
  obtain ⟨b, evss, e, h⟩ := lives hnew hinc
  exact ⟨b, evss, e, h.length.symm, fun cmd own o => h.fate, fun pre t post => h.trades.at⟩

theorem order_life_demo : ∃ (b₀ b : OrderBook SlotArena SlotKey) (evss : List (List EngineEvent)),
    OrderBook.new demoConfig = some b₀ ∧ b₀.run demoCommands = some (b, evss) ∧
      (∀ cmd own o, (cmd, own) ∈ demoCommands.zip evss → cmd.cmd = .newOrder o → o.qty.raw ≠ 0 →
        ∃! fate, b.HasFate own evss.flatten ⟨cmd.seq⟩ o.qty fate) ∧
      ∀ pre t post, evss.flatten = pre ++ .trade t :: post → TradeAdds demoCommands pre t := by
  obtain ⟨b₀, h₀⟩ := new_demoConfig
  obtain ⟨b, evss, e, -, h⟩ := order_life h₀ (show Increasing demoCommands by decide)
  exact ⟨b₀, b, evss, h₀, e, h⟩

end Proof.Book

end MRE
