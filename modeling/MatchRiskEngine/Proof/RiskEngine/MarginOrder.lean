import Mathlib.Data.List.Perm.Basic
import MatchRiskEngine.Proof.RiskEngine.Liquidation
import MatchRiskEngine.Spec.Replay

/-!
# When the margin depends on the order of the positions

The margins are too small for their sum to saturate, and add up to the same in
every order (`marginAmounts_orderFree`). The balance need not: each position adds
its realised and its unrealised PnL to it, and each addition saturates. It is the
same in every order if these pairs are order-free, and unless both ends of the
range can be reached only if they are (`sameInEveryOrder_iff`).

Without marks a position adds only what it has realised. If this does not depend
on the order of the positions nothing does (`recomputeMargin_noMarks`).
-/

namespace MRE.Proof.Risk

variable {shard : RiskShard} {markPrices : MarkPrices} {account : AccountId} {iter : IterOrder} {deposit : Int64}
variable {es : List Positions.Entry}

theorem recomputeMargin_orderFree (h : shard.BalanceOrderFree account markPrices) (iter : IterOrder) :
    shard.recomputeMargin iter account markPrices =
      (shard.initialDeposits[shard.localIdx account]?).map fun deposit =>
        ((shard.amountsOf account markPrices).foldl Int64.saturatingAdd deposit,
          ((shard.entriesOf account).map (marginAmount shard markPrices)).foldl Int64.saturatingAdd 0) := by
  unfold RiskShard.BalanceOrderFree at h
  rw [List.getD_eq_getElem?_getD] at h
  cases hdeposit : shard.initialDeposits[shard.localIdx account]? with
  | none => rw [RiskShard.recomputeMargin, hdeposit]; rfl
  | some deposit =>
    rw [hdeposit, Option.getD_some] at h
    have hperm := (orderedEntries_perm iter shard account).symm
    rw [recomputeMargin_eq hdeposit, Option.map_some, h.foldl_eq (hperm.flatMap_right _),
      (marginAmounts_orderFree shard markPrices account).foldl_eq (hperm.map _)]

/-! ## Orders -/

/-- The entries with a property first. -/
def firstWith (p : Positions.Entry → Bool) : IterOrder where
  order es := es.filter p ++ es.filter fun e => !p e
  perm es := List.filter_append_perm p es

/-- Each order of the account's positions is that of some iteration. -/
theorem exists_orderedEntries (h : es.Perm (shard.entriesOf account)) :
    ∃ iter, shard.orderedEntries iter account = es := by
  classical
  let others := shard.positions.entries.filter fun e => !decide (e.1.1 = account)
  refine ⟨⟨fun l => if l = shard.positions.entries then es ++ others else l, fun l => ?_⟩, ?_⟩
  · split
    · rename_i hl
      rw [hl]
      exact (h.append_right others).trans (List.filter_append_perm _ _)
    · exact .refl l
  · have hes : ∀ e ∈ es, decide (e.1.1 = account) = true := fun e he => (List.mem_filter.mp (h.subset he)).2
    have hothers : ∀ e ∈ others, ¬ decide (e.1.1 = account) = true := fun e he => by
      simpa using (List.mem_filter.mp he).2
    simp only [RiskShard.orderedEntries, if_true]
    rw [List.filter_append, List.filter_eq_self.mpr hes, List.filter_eq_nil_iff.mpr hothers, List.append_nil]

theorem toInt_foldl_amounts (markPrices : MarkPrices) (es : List Positions.Entry) (b : Int64) :
    ((es.flatMap fun e => e.amounts markPrices).foldl Int64.saturatingAdd b).toInt =
      (es.map (·.pair markPrices)).foldl (Clip.add (-2 ^ 63) (2 ^ 63 - 1)) b.toInt := by
  induction es generalizing b with
  | nil => rfl
  | cons e es ih =>
    rw [List.flatMap_cons, List.foldl_append, ih, List.map_cons, List.foldl_cons]
    simp only [Positions.Entry.amounts, List.foldl_cons, List.foldl_nil, Int64.toInt_saturatingAdd]
    rfl

/-- The order does not show in the margin, and so shows in the balance if it
shows at all. -/
theorem sameInEveryOrder_iff_foldl (hdeposit : shard.initialDeposits[shard.localIdx account]? = some deposit) :
    shard.SameInEveryOrder account markPrices ↔ ∃ v, ∀ es : List Clip.Amounts,
      es.Perm ((shard.entriesOf account).map (·.pair markPrices)) →
        es.foldl (Clip.add (-2 ^ 63) (2 ^ 63 - 1)) deposit.toInt = v := by
  constructor
  · rintro ⟨sums, hsums⟩
    refine ⟨sums.1.toInt, fun pairs hp => ?_⟩
    -- a permutation of the pairs is one of the positions
    obtain ⟨es, rfl, hes⟩ := (congrFun₂ (List.eq_map_comp_perm (·.pair markPrices)) pairs (shard.entriesOf account)).mpr hp
    obtain ⟨iter, rfl⟩ := exists_orderedEntries hes
    have hmargin := hsums iter
    rw [recomputeMargin_eq hdeposit, Option.some.injEq] at hmargin
    rw [← toInt_foldl_amounts, ← hmargin]
  · rintro ⟨v, hv⟩
    have hbalance : ∀ iter, (((shard.orderedEntries iter account).flatMap fun e => e.amounts markPrices).foldl
        Int64.saturatingAdd deposit) = (shard.amountsOf account markPrices).foldl Int64.saturatingAdd deposit := by
      intro iter
      rw [← Int64.toInt_inj, RiskShard.amountsOf, toInt_foldl_amounts, toInt_foldl_amounts,
        hv _ ((orderedEntries_perm iter shard account).map _), hv _ (.refl _)]
    refine ⟨((shard.amountsOf account markPrices).foldl Int64.saturatingAdd deposit,
      ((shard.entriesOf account).map (marginAmount shard markPrices)).foldl Int64.saturatingAdd 0), fun iter => ?_⟩
    rw [recomputeMargin_eq hdeposit, hbalance, (marginAmounts_orderFree shard markPrices account).foldl_eq
      ((orderedEntries_perm iter shard account).symm.map _)]

/-- The order of the positions does not show, if the deposit and the pairs of
amounts of the positions are order-free. Unless the balance can reach both ends
of its range, it shows otherwise. -/
theorem sameInEveryOrder_iff (shard : RiskShard) (account : AccountId) (howns : shard.owns account = true)
    (markPrices : MarkPrices) :
    (shard.PairsOrderFree account markPrices → shard.SameInEveryOrder account markPrices) ∧
      (shard.OneEnded account markPrices →
        (shard.SameInEveryOrder account markPrices ↔ shard.PairsOrderFree account markPrices)) := by
  obtain ⟨deposit, hdeposit, heq⟩ := deposit_ok howns
  have hlo : -2 ^ 63 ≤ shard.depositOf account := heq ▸ deposit.le_toInt
  have hhi : shard.depositOf account ≤ 2 ^ 63 - 1 := heq ▸ deposit.toInt_le
  rw [sameInEveryOrder_iff_foldl hdeposit, ← heq]
  refine ⟨fun h => ⟨_, fun es => h.foldl_eq hlo hhi⟩, fun hended => ⟨?_, fun h => ⟨_, fun es => h.foldl_eq hlo hhi⟩⟩⟩
  rintro ⟨v, hv⟩
  exact Clip.orderFree_of_same hlo hhi hended hv

/-- One account, which has gained one tick in a symbol and lost one in
another. -/
def evenShard (deposit : Int64) : RiskShard where
  ownedStart := 0
  ownedEnd := 1
  positions := ((∅ : Positions).insert (⟨0⟩, ⟨1⟩) ⟨0, 0, 1⟩).insert (⟨0⟩, ⟨2⟩) ⟨0, 0, -1⟩
  states := []
  initialDeposits := [deposit]
  limits := .default
  length_deposits := rfl

theorem sameInEveryOrder_evenShard : (evenShard 100).owns ⟨0⟩ = true ∧
    (evenShard 100).SameInEveryOrder ⟨0⟩ (fun _ => none) :=
  ⟨by decide, (sameInEveryOrder_iff (evenShard 100) ⟨0⟩ (by decide) fun _ => none).1
    (.inl ⟨.of_gains (by decide), .of_losses (by decide)⟩)⟩

/-- With the largest deposit, the gain is lost if it is added first. -/
theorem evenShard_order_shows : (evenShard Int64.maxValue).owns ⟨0⟩ = true ∧
    (evenShard Int64.maxValue).recomputeMargin (firstWith fun e => decide (e.1.2 = ⟨1⟩)) ⟨0⟩ (fun _ => none) =
      some (9223372036854775806, 0) ∧
    (evenShard Int64.maxValue).recomputeMargin (firstWith fun e => decide (e.1.2 = ⟨2⟩)) ⟨0⟩ (fun _ => none) =
      some (9223372036854775807, 0) ∧
    ¬ (evenShard Int64.maxValue).SameInEveryOrder ⟨0⟩ (fun _ => none) := by
  have hgain : (evenShard Int64.maxValue).recomputeMargin (firstWith fun e => decide (e.1.2 = ⟨1⟩)) ⟨0⟩ (fun _ => none) =
      some (9223372036854775806, 0) := rfl
  have hloss : (evenShard Int64.maxValue).recomputeMargin (firstWith fun e => decide (e.1.2 = ⟨2⟩)) ⟨0⟩ (fun _ => none) =
      some (9223372036854775807, 0) := rfl
  refine ⟨by decide, hgain, hloss, ?_⟩
  rintro ⟨sums, hsums⟩
  have heq := hgain.symm.trans ((hsums _).trans ((hsums _).symm.trans hloss))
  exact absurd heq (by decide)

end MRE.Proof.Risk

namespace MRE.Proof.Risk

variable {shard shard' filled : RiskShard} {markPrices : MarkPrices} {account acct : AccountId} {iter : IterOrder}
  {t : EngineEvent.Trade} {side : Side}

/-! ## An account -/

theorem amounts_noMarks (hmarks : ∀ symbol, markPrices symbol = none) (e : Positions.Entry) :
    e.amounts markPrices = [e.2.realisedPnl, 0] := by
  rw [Positions.Entry.amounts, Positions.Entry.markPrice, hmarks, Option.getD_none]
  simp [Position.unrealisedPnl]

/-- What an entry adds to the used margin, valued at its entry price. -/
def entryMargin (shard : RiskShard) (e : Positions.Entry) : Int64 :=
  if e.2.netQty = 0 then 0 else e.2.marginTerm ⟨e.2.avgEntryPrice⟩ shard.limits.maintenanceMarginFraction

theorem marginAmount_noMarks (hmarks : ∀ symbol, markPrices symbol = none) :
    marginAmount shard markPrices = entryMargin shard := by
  funext e
  rw [marginAmount, Positions.Entry.markPrice, hmarks, Option.getD_none, entryMargin]

theorem balanceOrderFree_noMarks (hmarks : ∀ symbol, markPrices symbol = none) (h : shard.OrderFree account) :
    shard.BalanceOrderFree account markPrices := by
  have hsum : ∀ (f : Int64 → Int) (es : List Positions.Entry), f 0 = 0 →
      ((es.flatMap fun e => e.amounts markPrices).map f).sum = ((es.map fun e => e.2.realisedPnl).map f).sum :=
    fun f es hf => by
      induction es with
      | nil => rfl
      | cons e es ih =>
        have hone : ((e.amounts markPrices).map f).sum = f e.2.realisedPnl := by
          rw [amounts_noMarks hmarks, List.map_cons, List.map_cons, hf, List.sum_cons, List.sum_cons, Int.zero_add]
          exact Int.add_zero _
        rw [List.flatMap_cons, List.map_append, List.sum_append, ih, hone, List.map_cons, List.map_cons, List.sum_cons]
  have hforall : ∀ {p : Int64 → Prop}, p 0 → (∀ x ∈ shard.realisedOf account, p x) →
      ∀ x ∈ shard.amountsOf account markPrices, p x := fun hp hall x hx => by
    obtain ⟨e, he, hx⟩ := List.mem_flatMap.mp hx
    rw [amounts_noMarks hmarks, List.mem_cons, List.mem_singleton] at hx
    rcases hx with rfl | rfl
    · exact hall _ (List.mem_map_of_mem he)
    · exact hp
  obtain ⟨hmax, hmin⟩ := h
  refine ⟨hmax.imp (fun hlt => ?_) (hforall (Int.le_refl 0)), hmin.imp (fun hle => ?_) (hforall (Int.le_refl 0))⟩
  · rwa [RiskShard.amountsOf, hsum _ _ rfl]
  · rwa [RiskShard.amountsOf, hsum _ _ rfl]

theorem foldl_amountsOf_noMarks (hmarks : ∀ symbol, markPrices symbol = none) (deposit : Int64) :
    (shard.amountsOf account markPrices).foldl Int64.saturatingAdd deposit =
      (shard.realisedOf account).foldl Int64.saturatingAdd deposit := by
  rw [RiskShard.amountsOf, RiskShard.realisedOf]
  induction shard.entriesOf account generalizing deposit with
  | nil => rfl
  | cons e es ih =>
    rw [List.flatMap_cons, List.foldl_append, amounts_noMarks hmarks, List.map_cons, List.foldl_cons]
    simp only [List.foldl_cons, List.foldl_nil, Int64.saturatingAdd_zero]
    exact ih _

/-- The balance and the used margin, in every order of the positions. -/
theorem recomputeMargin_noMarks (hmarks : ∀ symbol, markPrices symbol = none) (h : shard.OrderFree account)
    (iter : IterOrder) :
    shard.recomputeMargin iter account markPrices =
      (shard.initialDeposits[shard.localIdx account]?).map fun deposit =>
        ((shard.realisedOf account).foldl Int64.saturatingAdd deposit,
          ((shard.entriesOf account).map (entryMargin shard)).foldl Int64.saturatingAdd 0) := by
  rw [recomputeMargin_orderFree (balanceOrderFree_noMarks hmarks h) iter]
  simp only [foldl_amountsOf_noMarks hmarks, marginAmount_noMarks hmarks]

/-! ## An event -/

theorem settle_orderFree (hmarks : ∀ symbol, markPrices symbol = none) (h : shard.FillsOrderFree t acct side)
    (iter iter' : IterOrder) :
    shard.settle iter t markPrices acct side = shard.settle iter' t markPrices acct side := by
  unfold RiskShard.settle
  by_cases hown : shard.owns acct = false
  · rw [if_pos hown, if_pos hown]
  rw [if_neg hown, if_neg hown]
  cases hpos : ((shard.positions.lookup (acct, t.symbol)).getD .default).applyFill side t.price t.qty with
  | none => rfl
  | some pos =>
    have hfill : shard.fill t acct side =
        some { shard with positions := shard.positions.insert (acct, t.symbol) pos } := by
      rw [RiskShard.fill, if_neg hown, hpos]
      rfl
    have hfree := h (by rw [Bool.not_eq_false] at hown; exact hown) _ hfill
    simp only [Option.bind_eq_bind, Option.bind_some]
    rw [recomputeMargin_noMarks hmarks hfree iter, recomputeMargin_noMarks hmarks hfree iter']

theorem settle_fill {r : RiskShard × List InboundCommand} (h : shard.settle iter t markPrices acct side = some r) :
    ∃ filled, shard.fill t acct side = some filled ∧ r.1 = { filled with states := r.1.states } := by
  obtain ⟨hown, hr⟩ | ⟨hown, pos, balance, usedMargin, s, hpos, -, -, hr⟩ := settle_cases h
  · exact ⟨shard, if_pos hown, by rw [hr]⟩
  · refine ⟨{ shard with positions := shard.positions.insert (acct, t.symbol) pos }, ?_, by rw [hr]⟩
    rw [RiskShard.fill, if_neg (by rw [hown]; decide), hpos]
    rfl

theorem FillsOrderFree.setStates (h : shard.FillsOrderFree t acct side) (states : AccountRiskTable) :
    { shard with states }.FillsOrderFree t acct side := by
  intro hown filled hfilled
  exact h hown { filled with states := shard.states } (fill_setStates hfilled shard.states)

/-- A calm event has the same effect in every order of the positions. -/
theorem processEvent_calm (hmarks : ∀ symbol, markPrices symbol = none) {ev : EngineEvent}
    (h : shard.Calm iter markPrices ev) (iter' : IterOrder) :
    shard.processEvent iter' markPrices ev = shard.processEvent iter markPrices ev := by
  cases ev with
  | trade t =>
    obtain ⟨⟨hmaker, htaker⟩, -⟩ := h
    simp only [RiskShard.processEvent]
    rw [settle_orderFree hmarks hmaker iter' iter]
    cases hsettle : shard.settle iter t markPrices t.makerAcct t.makerSide with
    | none => rfl
    | some r =>
      obtain ⟨filled, hfill, hr⟩ := settle_fill hsettle
      have hfree := FillsOrderFree.setStates (htaker filled hfill) r.1.states
      rw [← hr] at hfree
      simp only [Option.bind_eq_bind, Option.bind_some]
      rw [settle_orderFree hmarks hfree iter' iter]
  | _ => rfl

end MRE.Proof.Risk
