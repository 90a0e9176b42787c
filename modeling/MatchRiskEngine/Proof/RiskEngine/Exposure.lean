import MatchRiskEngine.Proof.RiskEngine.MarginOrder

/-!
# The published position and open orders

A shard publishes the position and the number of open orders that it read
(`processEvent_published`), so that both stay zero. They are right as long as
no event exposes the account, and wrong after one that does
(`showsExposure_iff`).
-/

namespace MRE.Proof.Risk

variable {shard shard' filled : RiskShard} {markPrices : MarkPrices} {account acct : AccountId} {iter : IterOrder}
  {t : EngineEvent.Trade} {side : Side} {cmds : List InboundCommand} {ev : EngineEvent}
  {inputs : List RiskShard.Input}

/-! ## What is published -/

/-- A state's position and number of open orders. -/
def exposureOf (s : AccountRiskState) : Int64 × UInt32 := (s.position, s.openOrderCount)

/-- The published positions and numbers of open orders are the same. -/
def SamePublished (shard shard' : RiskShard) : Prop :=
  ∀ account, (shard'.states.get account).map exposureOf = (shard.states.get account).map exposureOf

theorem SamePublished.set {s s' : AccountRiskState} (hs : shard.states.get acct = some s)
    (hstates : shard'.states = shard.states.set acct.raw.toNat s') (h : exposureOf s' = exposureOf s) :
    SamePublished shard shard' := by
  intro account
  rw [hstates]
  by_cases ha : account = acct
  · rw [ha, get_set_self hs, hs, Option.map_some, Option.map_some, h]
  · rw [get_set_ne _ _ ha]

theorem SamePublished.trans {shard'' : RiskShard} (h₁ : SamePublished shard shard') (h₂ : SamePublished shard' shard'') :
    SamePublished shard shard'' := fun account => (h₂ account).trans (h₁ account)

theorem settle_published (h : shard.settle iter t markPrices acct side = some (shard', cmds)) :
    SamePublished shard shard' := by
  obtain ⟨-, hr⟩ | ⟨-, pos, balance, usedMargin, s, -, -, hs, hr⟩ := settle_cases h
  · rw [show shard' = shard from hr]
    exact fun _ => rfl
  · exact SamePublished.set hs (congrArg RiskShard.states hr) rfl

theorem processEvent_published (h : shard.processEvent iter markPrices ev = some (shard', cmds)) :
    SamePublished shard shard' := by
  cases ev with
  | trade t =>
    obtain ⟨⟨mid, cmds₁⟩, hmaker, h⟩ := Option.bind_eq_some_iff.mp h
    obtain ⟨⟨last, cmds₂⟩, htaker, h⟩ := Option.bind_eq_some_iff.mp h
    cases h
    exact (settle_published hmaker).trans (settle_published htaker)
  | _ =>
    cases h
    exact fun _ => rfl

theorem seedDeposit_published {amount : Int64} (h : shard.seedDeposit account amount = some shard') :
    SamePublished shard shard' ∧ shard'.positions = shard.positions := by
  simp only [RiskShard.seedDeposit] at h
  split at h
  · cases h
  · obtain ⟨s, hs, h⟩ := Option.bind_eq_some_iff.mp h
    cases h
    exact ⟨SamePublished.set hs rfl rfl, rfl⟩

theorem seedDeposits_published {deposits : List (AccountId × Int64)} (h : shard.seedDeposits deposits = some shard') :
    SamePublished shard shard' ∧ shard'.positions = shard.positions := by
  induction deposits generalizing shard with
  | nil =>
    cases h
    exact ⟨fun _ => rfl, rfl⟩
  | cons d deposits ih =>
    obtain ⟨mid, h₁, h⟩ := Option.bind_eq_some_iff.mp h
    obtain ⟨hpub₁, hpos₁⟩ := seedDeposit_published h₁
    obtain ⟨hpub, hpos⟩ := ih h
    exact ⟨hpub₁.trans hpub, hpos.trans hpos₁⟩

/-! ## The net quantity -/

/-- A quantity as one side of a trade counts it. -/
def signedQty (side : Side) (qty : Qty) : Int64 :=
  match side with
  | .buy => qty.raw.toInt64
  | .sell => -qty.raw.toInt64

theorem applyFill_netQty {p p' : Position} {price : Price} {qty : Qty} (h : p.applyFill side price qty = some p') :
    p'.netQty = p.netQty + signedQty side qty := by
  cases side
  all_goals
    simp only [Position.applyFill] at h
    split at h
    · cases h
      rfl
    · split at h
      · split at h
        · cases h
        · cases h
          rfl
      · cases h
        rfl

/-- The net quantity of an account's entries. -/
def netOf (account : AccountId) (es : List Positions.Entry) : Int :=
  ((es.filter fun e => e.1.1 = account).map fun e => e.2.netQty.toInt).sum

theorem netOf_cons (account : AccountId) (k : AccountId × Symbol) (p : Position) (es : List Positions.Entry) :
    netOf account (⟨k, p⟩ :: es) = (if k.1 = account then p.netQty.toInt else 0) + netOf account es := by
  rw [netOf, List.filter_cons]
  by_cases hk : k.1 = account
  · rw [if_pos (decide_eq_true hk), if_pos hk, List.map_cons, List.sum_cons]
    rfl
  · rw [if_neg (by rw [decide_eq_false hk]; decide), if_neg hk, Int.zero_add]
    rfl

theorem netOf_kerase (account : AccountId) (symbol : Symbol) (es : List Positions.Entry) :
    netOf account es =
      ((es.dlookup (account, symbol)).getD .default).netQty.toInt + netOf account (es.kerase (account, symbol)) := by
  induction es with
  | nil => rfl
  | cons e es ih =>
    obtain ⟨k, p⟩ := e
    by_cases hk : (account, symbol) = k
    · subst hk
      have herase : List.kerase (account, symbol) ((⟨(account, symbol), p⟩ : Positions.Entry) :: es) = es :=
        List.kerase_cons_eq rfl
      rw [List.dlookup_cons_eq, herase, netOf_cons, if_pos rfl, Option.getD_some]
    · rw [List.dlookup_cons_ne es (⟨k, p⟩ : Positions.Entry) hk, List.kerase_cons_ne hk, netOf_cons, netOf_cons, ih]
      omega

/-- The account's quantity in a symbol. -/
def qtyIn (shard : RiskShard) (account : AccountId) (symbol : Symbol) : Int64 :=
  ((shard.positions.lookup (account, symbol)).getD .default).netQty

theorem netFilled_insert (shard : RiskShard) (account : AccountId) (symbol : Symbol) (pos : Position) :
    { shard with positions := shard.positions.insert (account, symbol) pos }.netFilled account =
      shard.netFilled account - (qtyIn shard account symbol).toInt + pos.netQty.toInt := by
  show netOf account (shard.positions.insert (account, symbol) pos).entries = netOf account shard.positions.entries - _ + _
  rw [AList.entries_insert, netOf_cons, if_pos rfl, netOf_kerase account symbol shard.positions.entries]
  show _ = (qtyIn shard account symbol).toInt + _ - _ + _
  omega

theorem fill_self (hown : shard.owns acct = true) (h : shard.fill t acct side = some filled) :
    qtyIn filled acct t.symbol = qtyIn shard acct t.symbol + signedQty side t.qty ∧
      filled.netFilled acct =
        shard.netFilled acct - (qtyIn shard acct t.symbol).toInt + (qtyIn filled acct t.symbol).toInt := by
  rw [RiskShard.fill, if_neg (by rw [hown]; decide)] at h
  obtain ⟨pos, hpos, rfl⟩ := Option.map_eq_some_iff.mp h
  have hqty : qtyIn { shard with positions := shard.positions.insert (acct, t.symbol) pos } acct t.symbol = pos.netQty := by
    rw [qtyIn, AList.lookup_insert, Option.getD_some]
  rw [hqty, netFilled_insert]
  exact ⟨applyFill_netQty hpos, rfl⟩

theorem signedQty_opposite (side : Side) (qty : Qty) : signedQty side qty + signedQty side.opposite qty = 0 := by
  cases side
  · exact Int64.add_right_neg _
  · exact Int64.add_left_neg _

theorem signedQty_eq_zero_iff (side : Side) (qty : Qty) : signedQty side qty = 0 ↔ qty.raw = 0 := by
  have hbuy : qty.raw.toInt64 = 0 ↔ qty.raw = 0 := by
    constructor
    · intro h
      rw [← UInt64.toUInt64_toInt64 qty.raw, h]
      rfl
    · intro h
      rw [h]
      rfl
  cases side with
  | buy => exact hbuy
  | sell =>
    rw [← hbuy]
    constructor
    · intro h
      rw [← Int64.add_right_neg qty.raw.toInt64, show -qty.raw.toInt64 = 0 from h, Int64.add_zero]
    · intro h
      show -qty.raw.toInt64 = 0
      rw [h]
      rfl

theorem fill_other (h : shard.fill t acct side = some filled) (hne : account ≠ acct) :
    filled.netFilled account = shard.netFilled account := by
  rw [RiskShard.netFilled, RiskShard.netFilled, (fill_sameAccount h hne).entries]

theorem netFilled_moved {q q' : Int64} {net net' : Int} (hq : q' = q + signedQty side t.qty)
    (hnet : net' = net - q.toInt + q'.toInt) : net' = net ↔ t.qty.raw = 0 := by
  have hiff : net' = net ↔ q'.toInt = q.toInt := by omega
  rw [hiff, Int64.toInt_inj, hq, Int64.add_eq_left, signedQty_eq_zero_iff]

/-- A trade moves an account's position, unless the account is on neither or on
both sides of it, or nothing is traded. -/
theorem fillTrade_netFilled (hown : shard.owns account = true) (h : shard.fillTrade t = some filled) :
    filled.netFilled account = shard.netFilled account ↔ ¬ EngineEvent.Exposes account (.trade t) := by
  obtain ⟨mid, hmaker, htaker⟩ := Option.bind_eq_some_iff.mp h
  have hown₁ : mid.owns account = true := by rw [(fill_owns hmaker).1, hown]
  show _ ↔ ¬ (t.qty.raw ≠ 0 ∧ ¬ (t.makerAcct = account ↔ t.takerAcct = account))
  by_cases hm : t.makerAcct = account <;> by_cases ht : t.takerAcct = account
  · rw [hm] at hmaker
    rw [ht] at htaker
    obtain ⟨hq₁, hnet₁⟩ := fill_self hown hmaker
    obtain ⟨hq₂, hnet₂⟩ := fill_self hown₁ htaker
    have hback : qtyIn filled account t.symbol = qtyIn shard account t.symbol := by
      rw [hq₂, hq₁, Int64.add_assoc, signedQty_opposite, Int64.add_zero]
    rw [hback] at hnet₂
    have heq : filled.netFilled account = shard.netFilled account := by omega
    simp [hm, ht, heq]
  · rw [hm] at hmaker
    obtain ⟨hq₁, hnet₁⟩ := fill_self hown hmaker
    rw [fill_other htaker (Ne.symm ht), netFilled_moved hq₁ hnet₁]
    simp [hm, ht]
  · rw [ht] at htaker
    obtain ⟨hq₂, hnet₂⟩ := fill_self hown₁ htaker
    rw [← fill_other hmaker (Ne.symm hm), netFilled_moved hq₂ hnet₂]
    simp [hm, ht]
  · rw [fill_other htaker (Ne.symm ht), fill_other hmaker (Ne.symm hm)]
    simp [hm, ht]

theorem processEvent_fillTrade (h : shard.processEvent iter markPrices (.trade t) = some (shard', cmds)) :
    ∃ filled, shard.fillTrade t = some filled ∧ shard' = { filled with states := shard'.states } := by
  obtain ⟨⟨mid, cmds₁⟩, hmaker, h⟩ := Option.bind_eq_some_iff.mp h
  obtain ⟨⟨last, cmds₂⟩, htaker, h⟩ := Option.bind_eq_some_iff.mp h
  cases h
  obtain ⟨filled₁, hfill₁, hmid⟩ := settle_fill hmaker
  obtain ⟨filled₂, hfill₂, hlast⟩ := settle_fill htaker
  have hfill₂' := fill_setStates hfill₂ filled₁.states
  simp only at hmid hlast
  rw [hmid] at hfill₂'
  exact ⟨_, Option.bind_eq_some_iff.mpr ⟨filled₁, hfill₁, hfill₂'⟩, hlast⟩

theorem settle_owns (h : shard.settle iter t markPrices acct side = some (shard', cmds)) : shard'.owns = shard.owns := by
  obtain ⟨filled, hfill, hshard'⟩ := settle_fill h
  rw [show shard' = _ from hshard', ← (fill_owns hfill).1]
  rfl

theorem processEvent_owns (h : shard.processEvent iter markPrices ev = some (shard', cmds)) : shard'.owns = shard.owns := by
  cases ev with
  | trade t =>
    obtain ⟨⟨mid, cmds₁⟩, hmaker, h⟩ := Option.bind_eq_some_iff.mp h
    obtain ⟨⟨last, cmds₂⟩, htaker, h⟩ := Option.bind_eq_some_iff.mp h
    cases h
    exact (settle_owns htaker).trans (settle_owns hmaker)
  | _ =>
    cases h
    rfl

/-- The account's net quantity moves with the trades that expose it. -/
theorem processEvent_netFilled (hown : shard.owns account = true)
    (h : shard.processEvent iter markPrices ev = some (shard', cmds)) :
    (ev.Exposes account → (∀ e, ev ≠ .accepted e) → shard'.netFilled account ≠ shard.netFilled account) ∧
      (¬ ev.Exposes account → shard'.netFilled account = shard.netFilled account) := by
  cases ev with
  | trade t =>
    obtain ⟨filled, hfill, hshard'⟩ := processEvent_fillTrade h
    have hiff := fillTrade_netFilled hown hfill
    have hnet : shard'.netFilled account = filled.netFilled account := by rw [hshard']; rfl
    rw [hnet]
    exact ⟨fun hexp _ heq => hiff.mp heq hexp, hiff.mpr⟩
  | accepted e =>
    cases h
    exact ⟨fun _ hne => absurd rfl (hne e), fun _ => rfl⟩
  | _ =>
    cases h
    exact ⟨fun hexp => hexp.elim, fun _ => rfl⟩

/-! ## Whole runs -/

variable {sh : RiskShard}

theorem run_append {xs ys : List RiskShard.Input} (h : shard.run (xs ++ ys) = some (sh, cmds)) :
    ∃ mid cmds₁ cmds₂, shard.run xs = some (mid, cmds₁) ∧ mid.run ys = some (sh, cmds₂) := by
  induction xs generalizing shard cmds with
  | nil => exact ⟨shard, [], cmds, rfl, h⟩
  | cons i xs ih =>
    obtain ⟨⟨next, cmds₁⟩, hnext, h⟩ := Option.bind_eq_some_iff.mp h
    obtain ⟨⟨last, cmds₂⟩, hlast, h⟩ := Option.bind_eq_some_iff.mp h
    cases h
    obtain ⟨mid, cmds₃, cmds₄, hmid, hys⟩ := ih hlast
    exact ⟨mid, cmds₁ ++ cmds₃, cmds₄, by rw [List.cons_append] at *; simp [RiskShard.run, hnext, hmid], hys⟩

theorem run_keeps (h : shard.run inputs = some (sh, cmds)) :
    SamePublished shard sh ∧ sh.owns = shard.owns := by
  induction inputs generalizing shard cmds with
  | nil =>
    cases h
    exact ⟨fun _ => rfl, rfl⟩
  | cons i inputs ih =>
    obtain ⟨⟨next, cmds₁⟩, hnext, h⟩ := Option.bind_eq_some_iff.mp h
    obtain ⟨⟨last, cmds₂⟩, hlast, h⟩ := Option.bind_eq_some_iff.mp h
    cases h
    obtain ⟨hpub, howns⟩ := ih hlast
    exact ⟨(processEvent_published hnext).trans hpub, howns.trans (processEvent_owns hnext)⟩

theorem run_netFilled (hown : shard.owns account = true) (h : shard.run inputs = some (sh, cmds))
    (hno : ∀ i ∈ inputs, ¬ i.event.Exposes account) : sh.netFilled account = shard.netFilled account := by
  induction inputs generalizing shard cmds with
  | nil =>
    cases h
    rfl
  | cons i inputs ih =>
    obtain ⟨⟨next, cmds₁⟩, hnext, h⟩ := Option.bind_eq_some_iff.mp h
    obtain ⟨⟨last, cmds₂⟩, hlast, h⟩ := Option.bind_eq_some_iff.mp h
    cases h
    obtain ⟨hi, hno⟩ := List.forall_mem_cons.mp hno
    have hown' : next.owns account = true := by rw [processEvent_owns hnext, hown]
    rw [ih hown' hlast hno, (processEvent_netFilled hown hnext).2 hi]

theorem openOrders_concat (account : AccountId) (evs : List EngineEvent) (ev : EngineEvent) :
    openOrders account (evs ++ [ev]) = openOrdersAfter account (openOrders account evs) ev := by
  rw [openOrders, List.foldl_append]
  rfl

/-- An event that exposes an account moves its positions or opens an order. -/
theorem exposed {ev : EngineEvent} (hown : shard.owns account = true)
    (h : shard.processEvent iter markPrices ev = some (shard', cmds)) (hexp : ev.Exposes account) (evs : List EngineEvent) :
    shard'.netFilled account ≠ shard.netFilled account ∨ openOrders account (evs ++ [ev]) ≠ [] := by
  by_cases hacc : ∃ e, ev = .accepted e
  · obtain ⟨e, rfl⟩ := hacc
    right
    intro hnil
    rw [openOrders_concat, openOrdersAfter, if_pos (show e.accountId = account from hexp)] at hnil
    exact List.not_mem_nil (hnil ▸ List.mem_insert_self)
  · exact .inl ((processEvent_netFilled hown h).1 hexp fun e he => hacc ⟨e, he⟩)

theorem openOrders_eq_nil {evs : List EngineEvent} (h : ∀ ev ∈ evs, ¬ ev.Exposes account) : openOrders account evs = [] := by
  induction evs using List.reverseRecOn with
  | nil => rfl
  | append_singleton evs ev ih =>
    obtain ⟨hevs, hev⟩ := List.forall_mem_append.mp h
    rw [openOrders_concat, ih hevs]
    cases ev with
    | accepted e => exact if_neg (hev _ (List.mem_singleton_self _))
    | _ => rfl

theorem published_zero {n : Nat} {ownedStart ownedEnd : UInt64} {limits : RiskLimits}
    (h : SamePublished (RiskShard.new ownedStart ownedEnd limits (AccountRiskTable.new n)) sh)
    (hcap : account.raw.toNat < n) :
    ∃ s, sh.states.get account = some s ∧ s.position.toInt = 0 ∧ s.openOrderCount.toNat = 0 := by
  have hget : (RiskShard.new ownedStart ownedEnd limits (AccountRiskTable.new n)).states.get account = some .default :=
    List.getElem?_replicate_of_lt hcap
  have hpub := h account
  rw [hget] at hpub
  obtain ⟨s, hs, hexp⟩ := Option.map_eq_some_iff.mp hpub
  obtain ⟨hpos, hcount⟩ := Prod.mk.inj hexp
  exact ⟨s, hs, by rw [show s.position = 0 from hpos]; rfl, by rw [show s.openOrderCount = 0 from hcount]; rfl⟩

/-- The published states show an owned account's exposure, throughout the
events, exactly if none of the events exposes it. -/
theorem showsExposure_iff {n : Nat} {ownedStart ownedEnd : UInt64} {limits : RiskLimits}
    {deposits : List (AccountId × Int64)}
    (hseed : (RiskShard.new ownedStart ownedEnd limits (AccountRiskTable.new n)).seedDeposits deposits = some shard)
    (hown : shard.owns account = true) (hcap : account.raw.toNat < n) (hrun : shard.run inputs = some (shard', cmds)) :
    (∀ done sh cmds, done <+: inputs → shard.run done = some (sh, cmds) →
        sh.ShowsExposure account (done.map (·.event))) ↔
      ∀ i ∈ inputs, ¬ i.event.Exposes account := by
  obtain ⟨hpub₀, hpos₀⟩ := seedDeposits_published hseed
  have hnet₀ : shard.netFilled account = 0 := by rw [RiskShard.netFilled, RiskShard.entriesOf, hpos₀]; rfl
  have hzero : ∀ {done sh cmds}, shard.run done = some (sh, cmds) →
      ∃ s, sh.states.get account = some s ∧ s.position.toInt = 0 ∧ s.openOrderCount.toNat = 0 :=
    fun h => published_zero (hpub₀.trans (run_keeps h).1) hcap
  constructor
  · -- before and after the event everything would have to be zero
    intro hall i hi hexp
    obtain ⟨xs, ys, rfl⟩ := List.append_of_mem hi
    have hshow : ∀ {done sh cmds}, done <+: xs ++ i :: ys → shard.run done = some (sh, cmds) →
        sh.netFilled account = 0 ∧ openOrders account (done.map (·.event)) = [] := by
      intro done sh cmds hdone h
      obtain ⟨s, hs, hpos, hcount⟩ := hall done sh cmds hdone h
      obtain ⟨s', hs', hpos', hcount'⟩ := hzero h
      rw [hs] at hs'
      cases hs'
      exact ⟨by omega, List.length_eq_zero_iff.mp (by omega)⟩
    have hsplit : xs ++ i :: ys = (xs ++ [i]) ++ ys := by simp
    rw [hsplit] at hrun
    obtain ⟨after, cmds₁, -, hafter, -⟩ := run_append hrun
    obtain ⟨before, cmds₂, cmds₃, hbefore, hstep⟩ := run_append hafter
    obtain ⟨⟨next, cmds₄⟩, hnext, hstep⟩ := Option.bind_eq_some_iff.mp hstep
    cases hstep
    obtain ⟨hnet, -⟩ := hshow (List.prefix_append xs (i :: ys)) hbefore
    obtain ⟨hnet', horders⟩ := hshow (hsplit ▸ List.prefix_append (xs ++ [i]) ys) hafter
    have hown' : before.owns account = true := by rw [(run_keeps hbefore).2, hown]
    rw [List.map_append, List.map_singleton] at horders
    rcases exposed hown' hnext hexp (xs.map (·.event)) with hmoved | hopen
    · exact hmoved (hnet'.trans hnet.symm)
    · exact hopen horders
  · intro hno done sh cmds hdone h
    have hno' : ∀ i ∈ done, ¬ i.event.Exposes account := fun i hi => hno i (hdone.subset hi)
    obtain ⟨s, hs, hpos, hcount⟩ := hzero h
    refine ⟨s, hs, ?_, ?_⟩
    · rw [hpos, run_netFilled hown h hno', hnet₀]
    · rw [hcount, openOrders_eq_nil (List.forall_mem_map.mpr hno')]
      rfl

/-- Account 2 buys one unit of account 1 and has a further order accepted. -/
def demoInputs : List RiskShard.Input :=
  [⟨.trade (demoTrade ⟨100000000⟩), demoMarks, inOrder⟩,
    ⟨.accepted { seq := 3, orderId := ⟨3⟩, tsNs := 0, symbol := ⟨1⟩, accountId := ⟨2⟩, clientOrderId := ⟨3⟩, side := .buy
                 price := ⟨4000000000000⟩, qty := ⟨1⟩ }, demoMarks, inOrder⟩]

theorem run_demoInputs : (demoShard.run demoInputs).isSome = true := rfl

def demoExposed : RiskShard := (Option.get _ run_demoInputs).1

theorem run_demoExposed : demoShard.run demoInputs = some (demoExposed, (Option.get _ run_demoInputs).2) :=
  (Option.some_get run_demoInputs).symm

theorem seed_demoShard : (RiskShard.new 0 3 .default (AccountRiskTable.new 3)).seedDeposits
    [(⟨1⟩, 10000000000000), (⟨2⟩, 10000000000000)] = some demoShard :=
  (Option.some_get _).symm

/-- Nothing happens to account 0. -/
theorem showsExposure_iff_demo : demoShard.owns ⟨0⟩ = true ∧ ∀ done sh cmds, done <+: demoInputs →
    demoShard.run done = some (sh, cmds) → sh.ShowsExposure ⟨0⟩ (done.map (·.event)) :=
  ⟨by decide, (showsExposure_iff seed_demoShard (by decide) (by decide) run_demoExposed).mpr (by decide)⟩

/-- Account 2 is long one unit and has an open order, but its state says that it
has neither. -/
theorem exposure_not_shown : demoShard.owns ⟨2⟩ = true ∧ ¬ demoExposed.ShowsExposure ⟨2⟩ (demoInputs.map (·.event)) ∧
    demoExposed.netFilled ⟨2⟩ = 100000000 ∧ openOrders ⟨2⟩ (demoInputs.map (·.event)) = [⟨3⟩] ∧
    (demoExposed.states.get ⟨2⟩).map exposureOf = some (0, 0) := by
  have hnet : demoExposed.netFilled ⟨2⟩ = 100000000 := rfl
  have hpub : (demoExposed.states.get ⟨2⟩).map exposureOf = some (0, 0) := rfl
  refine ⟨by decide, ?_, hnet, by decide, hpub⟩
  rintro ⟨s, hs, hpos, -⟩
  rw [hs] at hpub
  rw [hnet, show s.position = 0 from congrArg Prod.fst (Option.some.inj hpub)] at hpos
  cases hpos

end MRE.Proof.Risk
