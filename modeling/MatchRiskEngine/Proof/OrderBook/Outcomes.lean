import MatchRiskEngine.Proof.OrderBook.Validity

/-!
# Rejected orders and fill-or-kill orders

A command that is rejected leaves the book as it was, unless it cancelled
something on the way (`rejected_unchanged`). A fill-or-kill order is filled
completely or rejected (`fok_all_or_nothing`): the check that comes before the
matching loop agrees with it, and the loop then trades the whole quantity.
-/

namespace MRE

open SlotMap

namespace Proof.Book

variable {M K : Type}

theorem isBookTop_of_eq {b : OrderBook M K} {seq : UInt64} {symbol : Symbol} {top : EngineEvent}
    (h : b.bookTopEvent seq symbol = some top) : ∃ e, top = .bookTop e := by
  unfold OrderBook.bookTopEvent at h
  obtain ⟨bid, -, h⟩ := Option.bind_eq_some_iff.mp h
  obtain ⟨ask, -, h⟩ := Option.bind_eq_some_iff.mp h
  exact ⟨_, (Option.some.inj h).symm⟩

variable [DecidableEq K] [Arena M K]

variable {c : RefConfig} {cfg : BookConfig} {b b₁ b' : OrderBook M K} {Q : Side → Nat → List K} {seq tsNs : UInt64}
  {o : InboundNewOrder} {left : Qty} {evs : List EngineEvent}

/-! ## Rejections -/

theorem Shape.queued_pos (hb : Shape c b Q) (s : Side) :
    ∀ x ∈ (queued c (dataOf b.arena) Q).side s, x.qty.raw ≠ 0 := by
  intro x hx
  obtain ⟨-, k, hx⟩ := hb.mem_queued_iff.mp hx
  exact hb.seated.pos hx

theorem size_setSide (r : RefBook) (s : Side) (os : List RefOrder) :
    (r.setSide s os).size + (r.side s).length = r.size + os.length := by
  cases s
  · show os.length + r.asks.length + r.bids.length = r.bids.length + r.asks.length + os.length
    omega
  · show r.bids.length + os.length + r.asks.length = r.bids.length + r.asks.length + os.length
    omega

/-- If the arena is full after the matching loop, the loop did nothing: all it
can do with an order that it does not fill is to take others away. -/
theorem Valid.full_idle (hb : Valid c b Q) (hm : Matched b seq tsNs o b₁ left evs) (hz : left.raw ≠ 0)
    (hfull : capacity b₁.arena ≤ len b₁.arena) : b₁ = b ∧ evs = [] := by
  obtain ⟨Q₁, os, hb₁, hw, hq, -⟩ := hb.of_matched hm
  rcases hw.nil_or_length_lt hz with rfl | hlt
  · exact ⟨(hb.matched_idle hm).1, rfl⟩
  · have hlen := hb.len_eq
    have hlen₁ := hb₁.len_eq
    rw [hq] at hlen₁
    have hsize := size_setSide (queued c (dataOf b.arena) Q) o.side.opposite os
    have hroom := hb.room
    have hcap := hb₁.capacity_eq
    omega

/-- An order that was not matched at all, and for which nothing was cancelled,
left the book as it was. -/
theorem Valid.unmatched_idle (hb : Valid c b Q) (hm : Matched b seq tsNs o b₁ left evs) (hz : left.raw ≠ 0)
    (hle : ¬ left.raw < o.qty.raw) (hcancel : ∀ seq id, EngineEvent.cancelled seq id ∉ evs) : b₁ = b := by
  obtain ⟨Q₁, os, -, hw, -⟩ := hb.of_matched hm
  obtain rfl := hw.eq_nil (hb.queued_pos _) hz hle hcancel
  exact (hb.matched_idle hm).1

/-- The matching loop rejects nothing and accepts nothing. -/
theorem Valid.matched_events (hb : Valid c b Q) (hm : Matched b seq tsNs o b₁ left evs) :
    (∀ rej, EngineEvent.rejected rej ∉ evs) ∧ ∀ acc, EngineEvent.accepted acc ∉ evs := by
  obtain ⟨Q₁, os, -, hw, -⟩ := hb.of_matched hm
  constructor
  all_goals
    intro x hx
    obtain ⟨t, ht⟩ | ⟨id, ht⟩ := hw.events _ hx <;> cases ht

theorem Valid.applied_unchanged (hb : Valid c b Q) (h : Applied b seq tsNs o b' evs) {rej : EngineEvent.Rejected}
    (hrej : EngineEvent.rejected rej ∈ evs) (hcancel : ∀ seq id, EngineEvent.cancelled seq id ∉ evs) : b' = b := by
  cases h with
  | refused => rfl
  | filled hm hz ht =>
    obtain ⟨e, rfl⟩ := isBookTop_of_eq ht
    rcases List.mem_append.mp hrej with h | h
    · exact absurd h ((hb.matched_events hm).1 rej)
    · cases List.mem_singleton.mp h
  | cancelled => exact absurd (List.mem_append_right _ List.mem_cons_self) (hcancel _ _)
  | unmatched hm hz hle =>
    exact hb.unmatched_idle hm hz hle fun s id h => hcancel s id (List.mem_append_left _ h)
  | full hm hz _ hfull => exact (hb.full_idle hm hz hfull).1
  | rested hm hz _ _ _ _ ht =>
    obtain ⟨e, rfl⟩ := isBookTop_of_eq ht
    rcases List.mem_append.mp hrej with h | h
    · exact absurd h ((hb.matched_events hm).1 rej)
    · rcases List.mem_cons.mp h with h | h
      · cases h
      · cases List.mem_singleton.mp h

/-- A command whose events hold a rejection and no cancellation leaves the book
as it was: the queues and quantities of every level, the best pointers and the
id map. -/
theorem rejected_unchanged (hb : b.Reachable cfg) (cmd : SequencedCommand) :
    ∃ b' evs, b.apply cmd = some (b', evs) ∧ ((∃ rej, EngineEvent.rejected rej ∈ evs) →
      (∀ seq id, EngineEvent.cancelled seq id ∉ evs) → b' = b) := by
  obtain ⟨c, Q, hv, -⟩ := Reachable.valid hb
  obtain ⟨b', evs, Q', e, heff, -⟩ := hv.apply cmd
  refine ⟨b', evs, e, fun ⟨rej, hrej⟩ hcancel => ?_⟩
  cases heff with
  | newOrder hc h => exact hv.applied_unchanged h hrej hcancel
  | notCancelled => rfl
  | cancelled => exact absurd List.mem_cons_self (hcancel _ _)
  | idle => rfl

/-- A cancel of order 1 by an account that does not own it. -/
def wrongCancel : SequencedCommand := { term := 1, seq := 3, tsNs := 0, cmd := .cancel ⟨12⟩ ⟨1⟩ }

theorem apply_wrongCancel : (restingBook.apply wrongCancel).map Prod.snd = some [.rejected
    { seq := 3, orderId := ⟨1⟩, accountId := ⟨12⟩, clientOrderId := ⟨0⟩, reason := .wrongAccount }] := rfl

theorem rejected_unchanged_wrongCancel : ∃ evs, restingBook.apply wrongCancel = some (restingBook, evs) ∧
    (∃ rej, EngineEvent.rejected rej ∈ evs) := by
  obtain ⟨b', evs, e, h⟩ := rejected_unchanged reachable_restingBook wrongCancel
  have hevs := apply_wrongCancel
  rw [e, Option.map_some, Option.some.injEq] at hevs
  have hevs : evs = _ := hevs
  have hrej : ∃ rej, EngineEvent.rejected rej ∈ evs := ⟨_, by rw [hevs]; exact List.mem_cons_self⟩
  refine ⟨evs, ?_, hrej⟩
  rw [h hrej fun seq id hin => ?_] at e
  · exact e
  · rw [hevs] at hin
    cases List.mem_singleton.mp hin

/-! ## Fill or kill -/

/-- Every order of `b'` was already resting in `b`, in the same place. -/
def NothingRested (b b' : OrderBook M K) : Prop :=
  ∀ k x, get? b'.arena k = some x → ∃ y, get? b.arena k = some y ∧ x.data.IsRestOf y.data

theorem Valid.nothingRested (hb : Valid c b Q) (hm : Matched b seq tsNs o b₁ left evs) : NothingRested b b₁ := by
  obtain ⟨Q₁, os, -, -, -, hrest⟩ := hb.of_matched hm
  intro k x hx
  obtain ⟨y, hy, hxy⟩ := hrest k x.data (dataOf_of_get? hx)
  obtain ⟨z, hz, rfl⟩ := get?_of_dataOf hy
  exact ⟨z, hz, hxy⟩

theorem tradedQty_append (evs evs' : List EngineEvent) : tradedQty (evs ++ evs') = tradedQty evs + tradedQty evs' := by
  rw [tradedQty, List.map_append, List.sum_append]
  rfl

theorem Valid.matched_traded (hb : Valid c b Q) (hm : Matched b seq tsNs o b₁ left evs) :
    left.raw.toNat + tradedQty evs = o.qty.raw.toNat := by
  obtain ⟨Q₁, os, -, hw, -⟩ := hb.of_matched hm
  exact hw.traded

/-- The check of a fill-or-kill order, on a ladder that fits, says whether the
matching loop would leave nothing of it. -/
theorem Valid.canFullyFill_iff (hb : Valid c b Q) (hfit : c.LadderFits) (seq tsNs : UInt64) (o : InboundNewOrder) :
    ∃ f b₁ left evs, b.canFullyFill o.side o.price o.qty o.account o.orderType = some f ∧
      b.matchAgainstBook (o.aggressor seq tsNs) o.qty = some (b₁, left, evs) ∧ (f = true ↔ left.raw = 0) := by
  obtain ⟨b₁, Q₁, e, -⟩ := hb.matched (o.aggressor seq tsNs) o.qty
  exact ⟨_, b₁, _, _, hb.toShape.canFullyFill_iff hfit (o.aggressor seq tsNs) o.qty, e, decide_eq_true_iff⟩

/-- A fill-or-kill order trades its whole quantity and rests nothing, or it is
rejected and the book is as it was; the check before the matching loop says
`true` exactly if the loop leaves nothing of the order. -/
theorem fok_all_or_nothing (hfit : cfg.LadderFits) (hb : b.Reachable cfg) {cmd : SequencedCommand} {o : InboundNewOrder}
    (hc : cmd.cmd = .newOrder o) (hfok : o.timeInForce = .fok) :
    (∃ f b₁ left evs, b.canFullyFill o.side o.price o.qty o.account o.orderType = some f ∧
      b.matchAgainstBook (o.aggressor cmd.seq cmd.tsNs) o.qty = some (b₁, left, evs) ∧ (f = true ↔ left.raw = 0)) ∧
    ∃ b' evs, b.apply cmd = some (b', evs) ∧
      (tradedQty evs = o.qty.raw.toNat ∧ NothingRested b b' ∧ (∀ acc, EngineEvent.accepted acc ∉ evs) ∨
        (∃ rej, evs = [.rejected rej]) ∧ b' = b) := by
  obtain ⟨c, Q, hv, hfloor, hticks⟩ := Reachable.valid hb
  have hfit' : c.LadderFits := by rw [RefConfig.LadderFits, hfloor, hticks]; exact hfit
  have hcheck := hv.canFullyFill_iff hfit' cmd.seq cmd.tsNs o
  refine ⟨hcheck, ?_⟩
  obtain ⟨f, b₂, left₂, evs₂, hf, hloop, hiff⟩ := hcheck
  -- Once the check has passed, what the loop leaves is zero.
  have hzero : ∀ {b₁ left evs}, Matched b cmd.seq cmd.tsNs o b₁ left evs → left.raw = 0 := by
    intro b₁ left evs hm
    have he := Option.some.inj (hloop.symm.trans hm.loop)
    have hleft : left₂ = left := congrArg (fun x => x.2.1) he
    rw [← hleft]
    exact hiff.mp (Option.some.inj (hf.symm.trans (hm.fok hfok)))
  obtain ⟨b', evs, Q', e, heff, -⟩ := hv.apply cmd
  refine ⟨b', evs, e, ?_⟩
  cases heff.applied hc with
  | refused _ rej => exact .inr ⟨⟨rej, rfl⟩, rfl⟩
  | filled hm hz ht =>
    obtain ⟨e, rfl⟩ := isBookTop_of_eq ht
    refine .inl ⟨?_, hv.nothingRested hm, fun acc hacc => ?_⟩
    · have htraded := hv.matched_traded hm
      rw [hz, UInt64.toNat_zero, Nat.zero_add] at htraded
      rw [tradedQty_append, htraded]
      rfl
    · rcases List.mem_append.mp hacc with h | h
      · exact (hv.matched_events hm).2 acc h
      · cases List.mem_singleton.mp h
  | cancelled hm hz => exact absurd (hzero hm) hz
  | unmatched hm hz => exact absurd (hzero hm) hz
  | full hm hz => exact absurd (hzero hm) hz
  | rested hm hz => exact absurd (hzero hm) hz

/-- Six to buy at 106, all at once or not at all. -/
def fokBuy : InboundNewOrder :=
  { account := ⟨12⟩, clientOrderId := ⟨3⟩, symbol := ⟨1⟩, side := .buy, price := ⟨106⟩, qty := ⟨6⟩
    orderType := .limit, timeInForce := .fok }

def fokCommand : SequencedCommand := { term := 1, seq := 3, tsNs := 0, cmd := .newOrder fokBuy }

theorem fok_all_or_nothing_fokBuy : ∃ b' evs, restingBook.apply fokCommand = some (b', evs) ∧
    (tradedQty evs = 6 ∧ NothingRested restingBook b' ∧ (∀ acc, EngineEvent.accepted acc ∉ evs) ∨
      (∃ rej, evs = [.rejected rej]) ∧ b' = restingBook) :=
  (fok_all_or_nothing demoConfig_fits reachable_restingBook (show fokCommand.cmd = .newOrder fokBuy from rfl) rfl).2

end Proof.Book

end MRE
