import MatchRiskEngine.Proof.RiskEngine.Shard

/-!
# Margin and liquidation after a trade

A trade fills both of its sides and publishes each owned account's balance and
margin (`settle_ok`). It publishes the exact values, and liquidates just the
accounts whose margin exceeds their equity, if each position's margin is small
and no sum saturates, and only then (`processEvent_exact_iff`): the margin of a
larger position is clipped, and the liquidation does not come.
-/

namespace MRE

namespace Proof.Risk

variable {shard shard' filled settled : RiskShard} {markPrices : MarkPrices} {account acct : AccountId} {iter : IterOrder}
  {t : EngineEvent.Trade} {side : Side}

/-! ## Filling a side -/

/-- What the shard knows of an account, apart from what it has published. -/
structure SameAccount (account : AccountId) (shard shard' : RiskShard) : Prop where
  entries : shard'.entriesOf account = shard.entriesOf account
  deposit : shard'.depositOf account = shard.depositOf account
  limits : shard'.limits = shard.limits

theorem SameAccount.equity (h : SameAccount account shard shard') (markPrices : MarkPrices) :
    shard'.equity account markPrices = shard.equity account markPrices := by
  rw [RiskShard.equity, RiskShard.equity, h.entries, h.deposit]

theorem SameAccount.maintenanceMargin (h : SameAccount account shard shard') (markPrices : MarkPrices) :
    shard'.maintenanceMargin account markPrices = shard.maintenanceMargin account markPrices := by
  rw [RiskShard.maintenanceMargin, RiskShard.maintenanceMargin, h.entries, h.limits]

theorem SameAccount.narrow (h : SameAccount account shard shard') (markPrices : MarkPrices) :
    shard'.Narrow account markPrices ↔ shard.Narrow account markPrices := by
  rw [RiskShard.Narrow, RiskShard.amountsOf, h.entries]
  rfl

theorem SameAccount.smallMargins (h : SameAccount account shard shard') (markPrices : MarkPrices) :
    shard'.SmallMargins account markPrices ↔ shard.SmallMargins account markPrices := by
  rw [RiskShard.SmallMargins, RiskShard.SmallMargins, h.entries, h.limits]

theorem filter_kerase {p : Positions.Entry → Bool} {k : AccountId × Symbol} (hp : ∀ e : Positions.Entry, e.1 = k → p e = false)
    (es : List Positions.Entry) : (es.kerase k).filter p = es.filter p := by
  induction es with
  | nil => rfl
  | cons e es ih =>
    by_cases he : k = e.1
    · rw [List.kerase_cons_eq he, List.filter_cons_of_neg (by rw [hp e he.symm]; decide)]
    · rw [List.kerase_cons_ne he, List.filter_cons, List.filter_cons, ih]

theorem fill_sameAccount (h : shard.fill t acct side = some filled) (hne : account ≠ acct) :
    SameAccount account shard filled := by
  unfold RiskShard.fill at h
  split at h
  · cases h
    exact ⟨rfl, rfl, rfl⟩
  · obtain ⟨pos, -, rfl⟩ := Option.map_eq_some_iff.mp h
    refine ⟨?_, rfl, rfl⟩
    have hkey : ∀ e : Positions.Entry, e.1 = (acct, t.symbol) → decide (e.1.1 = account) = false := fun e he => by
      rw [he]
      exact decide_eq_false hne.symm
    simp only [RiskShard.entriesOf]
    rw [AList.entries_insert, List.filter_cons_of_neg (by rw [hkey _ rfl]; decide), filter_kerase hkey]

theorem fill_owns (h : shard.fill t acct side = some filled) : filled.owns = shard.owns ∧ filled.states = shard.states ∧
    filled.limits = shard.limits := by
  unfold RiskShard.fill at h
  split at h
  · cases h
    exact ⟨rfl, rfl, rfl⟩
  · obtain ⟨pos, -, rfl⟩ := Option.map_eq_some_iff.mp h
    exact ⟨rfl, rfl, rfl⟩

theorem fill_setStates (h : shard.fill t acct side = some filled) (states : AccountRiskTable) :
    { shard with states }.fill t acct side = some { filled with states } := by
  unfold RiskShard.fill at h ⊢
  split at h
  · rename_i hown
    cases h
    exact if_pos hown
  · rename_i hown
    obtain ⟨pos, hpos, rfl⟩ := Option.map_eq_some_iff.mp h
    exact (if_neg hown).trans (Option.map_eq_some_iff.mpr ⟨pos, hpos, rfl⟩)

/-! ## Publishing a side -/

theorem get_set_ne (states : AccountRiskTable) (s : AccountRiskState) (hne : account ≠ acct) :
    AccountRiskTable.get (states.set acct.raw.toNat s) account = states.get account := by
  have hraw : acct.raw.toNat ≠ account.raw.toNat := fun h => hne (by
    cases account; cases acct
    exact congrArg AccountId.mk (UInt64.toNat_inj.mp h).symm)
  exact List.getElem?_set_ne hraw

theorem get_set_self {states : AccountRiskTable} {s : AccountRiskState} (h : states.get acct = some s)
    (s' : AccountRiskState) : AccountRiskTable.get (states.set acct.raw.toNat s') acct = some s' :=
  List.getElem?_set_self (List.getElem?_eq_some_iff.mp h).1

/-- What settling a side does: nothing for the account of another shard, and
otherwise a fill, and a state with the new balance and margin. -/
theorem settle_cases {r : RiskShard × List InboundCommand} (h : shard.settle iter t markPrices acct side = some r) :
    shard.owns acct = false ∧ r.1 = shard ∨
      shard.owns acct = true ∧ ∃ pos balance usedMargin s,
        ((shard.positions.lookup (acct, t.symbol)).getD .default).applyFill side t.price t.qty = some pos ∧
        { shard with positions := shard.positions.insert (acct, t.symbol) pos }.recomputeMargin iter acct markPrices =
          some (balance, usedMargin) ∧
        shard.states.get acct = some s ∧
        r.1 = { shard with
          positions := shard.positions.insert (acct, t.symbol) pos
          states := shard.states.set acct.raw.toNat
            { s with balance, usedMargin, frozen := s.frozen || decide (balance < usedMargin) } } := by
  unfold RiskShard.settle at h
  by_cases hown : shard.owns acct = false
  · rw [if_pos hown] at h
    cases h
    exact .inl ⟨hown, rfl⟩
  · rw [if_neg hown] at h
    rw [Bool.not_eq_false] at hown
    obtain ⟨pos, hpos, h⟩ := Option.bind_eq_some_iff.mp h
    obtain ⟨sums, hsums, h⟩ := Option.bind_eq_some_iff.mp h
    obtain ⟨s, hs, h⟩ := Option.bind_eq_some_iff.mp h
    cases h
    exact .inr ⟨hown, pos, sums.1, sums.2, s, hpos, hsums, hs, rfl⟩

/-- A side is settled if its position can be filled and its account has a
state. -/
theorem exists_settle (shard : RiskShard) (iter : IterOrder) (markPrices : MarkPrices)
    (hfill : shard.owns acct = true →
      ∃ pos, ((shard.positions.lookup (acct, t.symbol)).getD .default).applyFill side t.price t.qty = some pos)
    (hstate : shard.owns acct = true → (shard.states.get acct).isSome = true) :
    ∃ r, shard.settle iter t markPrices acct side = some r := by
  unfold RiskShard.settle
  by_cases hown : shard.owns acct = false
  · exact ⟨_, if_pos hown⟩
  rw [if_neg hown]
  rw [Bool.not_eq_false] at hown
  obtain ⟨pos, hpos⟩ := hfill hown
  obtain ⟨s, hs⟩ := Option.isSome_iff_exists.mp (hstate hown)
  have hown' : { shard with positions := shard.positions.insert (acct, t.symbol) pos }.owns acct = true := hown
  obtain ⟨deposit, hdeposit, -⟩ := deposit_ok hown'
  simp only [hpos, Option.bind_eq_bind, Option.bind_some, RiskShard.recomputeMargin, hdeposit, hs]
  exact ⟨_, rfl⟩

/-- An account is published exactly if its balance and margin are: the breach is
then the exact one. -/
theorem publishesExactly_iff {states : AccountRiskTable} {s : AccountRiskState} {balance usedMargin : Int64}
    (hget : states.get account = some
      { s with balance, usedMargin, frozen := s.frozen || decide (balance < usedMargin) }) (symbol : Symbol) :
    filled.PublishesExactly states (if balance < usedMargin then [.liquidate symbol account] else []) symbol account
      markPrices ↔
      balance.toInt = filled.equity account markPrices ∧ usedMargin.toInt = filled.maintenanceMargin account markPrices := by
  constructor
  · rintro ⟨s', hs', hbalance, hmargin, -⟩
    rw [hget, Option.some.injEq] at hs'
    rw [← hmargin, ← hbalance, ← hs']
    exact ⟨rfl, rfl⟩
  · rintro ⟨hbalance, hmargin⟩
    refine ⟨_, hget, hbalance, hmargin, ?_, ?_⟩
    · intro hlt
      rw [← hbalance, ← hmargin, ← Int64.lt_iff_toInt_lt] at hlt
      rw [if_pos hlt]
      simp [hlt]
    · intro hle symbol
      rw [← hbalance, ← hmargin, ← Int64.le_iff_toInt_le] at hle
      rw [if_neg (Int64.not_lt.mpr hle)]
      exact List.not_mem_nil

/-- Small margins and exact sums are enough for `p`, and it needs small margins
and, of a narrow account, exact sums. -/
def Decides (p : Prop) (shard : RiskShard) (iter : IterOrder) (account : AccountId) (markPrices : MarkPrices) : Prop :=
  (shard.SmallMargins account markPrices ∧ shard.SumsExact iter account markPrices → p) ∧
    (p → shard.SmallMargins account markPrices ∧
      (shard.Narrow account markPrices → shard.SumsExact iter account markPrices))

/-- Settling a side fills it and publishes the account, if it is owned; the
other accounts stay as they are. -/
theorem settle_ok (shard : RiskShard) (hfraction : 0 ≤ shard.limits.maintenanceMarginFraction.toInt)
    (hfill : shard.fill t acct side = some filled)
    (hstate : shard.owns acct = true → (shard.states.get acct).isSome = true) (iter : IterOrder)
    (markPrices : MarkPrices) :
    ∃ states cmds, shard.settle iter t markPrices acct side = some ({ filled with states }, cmds) ∧
      (∀ account, account ≠ acct → states.get account = shard.states.get account ∧
        ∀ symbol, .liquidate symbol account ∉ cmds) ∧
      (shard.owns acct = true → (∀ e ∈ filled.entriesOf acct, e.Tame markPrices) →
        Decides (filled.PublishesExactly states cmds t.symbol acct markPrices) filled iter acct markPrices) := by
  unfold RiskShard.fill at hfill
  unfold RiskShard.settle
  split at hfill
  · rename_i hown
    cases hfill
    rw [if_pos hown]
    refine ⟨_, _, rfl, fun account _ => ⟨rfl, fun _ => List.not_mem_nil⟩, fun h => ?_⟩
    rw [hown] at h
    contradiction
  rename_i hown
  rw [Bool.not_eq_false] at hown
  obtain ⟨pos, hpos, rfl⟩ := Option.map_eq_some_iff.mp hfill
  obtain ⟨s, hs⟩ := Option.isSome_iff_exists.mp (hstate hown)
  have hown' : { shard with positions := shard.positions.insert (acct, t.symbol) pos }.owns acct = true := hown
  obtain ⟨deposit, hdeposit, -⟩ := deposit_ok hown'
  have hmargin := recomputeMargin_eq hdeposit iter markPrices
  rw [if_neg (by rw [hown]; decide), hpos]
  simp only [Option.bind_eq_bind, Option.bind_some, hmargin, hs]
  refine ⟨_, _, rfl, fun account hne => ⟨get_set_ne _ _ hne, fun symbol => ?_⟩, fun _ htame => ?_⟩
  · split
    · rw [List.mem_singleton, InboundCommand.liquidate.injEq]
      exact fun h => hne h.2
    · exact List.not_mem_nil
  · obtain ⟨hexact, hnarrow⟩ := balance_iff hdeposit htame iter
    simp only [decide_eq_true_eq]
    have hused := toInt_usedMargin_iff (by exact hfraction) htame iter
    rw [Decides, publishesExactly_iff (get_set_self hs _), hused]
    exact ⟨fun h => ⟨hexact h.2, h.1⟩, fun h => ⟨h.2, fun hn => hnarrow hn h.1⟩⟩

/-! ## A trade -/

/-- What is published exactly stays so while the account is left alone. -/
theorem publishesExactly_congr {states states' : AccountRiskTable} {cmds cmds' : List InboundCommand}
    (hsame : SameAccount account shard shard') (hstates : states'.get account = states.get account)
    (hcmds : ∀ symbol, .liquidate symbol account ∈ cmds' ↔ .liquidate symbol account ∈ cmds) (symbol : Symbol) :
    shard'.PublishesExactly states' cmds' symbol account markPrices ↔
      shard.PublishesExactly states cmds symbol account markPrices := by
  simp only [RiskShard.PublishesExactly, hsame.equity, hsame.maintenanceMargin, hstates, hcmds]

set_option maxRecDepth 2000

/-- Two accounts with a deposit of 100,000 each. -/
def demoShard : RiskShard :=
  ((RiskShard.new 0 3 .default (AccountRiskTable.new 3)).seedDeposit ⟨1⟩ 10000000000000 >>=
    fun shard => shard.seedDeposit ⟨2⟩ 10000000000000).get (by decide)

/-- Account 2 buys from account 1, at 50,000. -/
def demoTrade (qty : Qty) : EngineEvent.Trade :=
  { seq := 1, tsNs := 0, symbol := ⟨1⟩, price := ⟨5000000000000⟩, qty, makerOrder := ⟨1⟩, takerOrder := ⟨2⟩
    makerOrderId := ⟨1⟩, takerOrderId := ⟨2⟩, makerAcct := ⟨1⟩, takerAcct := ⟨2⟩, makerSide := .sell
    makerRemainingQty := ⟨0⟩, takerRemainingQty := ⟨0⟩ }

def demoMarks : MarkPrices := fun _ => some ⟨5000000000000⟩

def inOrder : IterOrder := ⟨id, List.Perm.refl⟩

/-- One unit is bought. -/
def demoFilled : RiskShard := (demoShard.fillTrade (demoTrade ⟨100000000⟩)).get (by decide)

theorem fillTrade_demoShard : demoShard.fillTrade (demoTrade ⟨100000000⟩) = some demoFilled := (Option.some_get _).symm

end Proof.Risk

end MRE
