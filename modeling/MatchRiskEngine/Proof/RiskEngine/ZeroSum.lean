import MatchRiskEngine.Proof.RiskEngine.CashFlow

/-!
# Trading is zero-sum

A shard follows what is traded (`Follows`): it has a position for each of its own
accounts that trades, with the net quantity up to multiples of `2^64`. So the
quantities of all shards together add up to what the trades move, which is
nothing (`trading_zeroSum`).
-/

namespace MRE.Proof.Risk

open Position

variable {shard shard' filled : RiskShard} {markPrices : MarkPrices} {account acct : AccountId} {iter : IterOrder}
  {t : EngineEvent.Trade} {side : Side} {cmds : List InboundCommand} {ev : EngineEvent} {symbol : Symbol}
  {ps : List ((AccountId × Symbol) × Int)} {inputs : List RiskShard.Input}

/-! ## One side of a trade -/

theorem signedQty_eq (f : Position.Fill) : signedQty f.side f.qty = Int64.ofInt f.signedQty := by
  have hbuy : f.qty.raw.toInt64 = Int64.ofInt f.qty.raw.toNat :=
    Int64.toInt_inj.mp ((BitVec.toInt_eq_toNat_bmod f.qty.raw.toBitVec).trans Int64.toInt_ofInt.symm)
  unfold signedQty Fill.signedQty
  cases f.side with
  | buy => exact hbuy
  | sell =>
    show -f.qty.raw.toInt64 = _
    rw [hbuy, Int64.ofInt_neg]

/-- The shard has the positions of its own accounts that the postings are on, and
no others. -/
structure Follows (shard : RiskShard) (ps : List ((AccountId × Symbol) × Int)) : Prop where
  owned : ∀ k ∈ shard.positions, shard.owns k.1 = true
  kept : ∀ x ∈ ps, shard.owns x.1.1 = true → x.1 ∈ shard.positions
  qty : ∀ account symbol, shard.owns account = true →
    qtyIn shard account symbol = Int64.ofInt (Postings.net (account, symbol) ps)

theorem Follows.empty (h : shard.positions = ∅) : Follows shard [] where
  owned k hk := by
    rw [h] at hk
    exact absurd hk (AList.notMem_empty k)
  kept x hx := absurd hx List.not_mem_nil
  qty account symbol _ := by
    rw [qtyIn, h]
    rfl

theorem Follows.fill (h : Follows shard ps) (hfill : shard.fill t acct side = some filled) :
    Follows filled (ps ++ [((acct, t.symbol), Fill.signedQty ⟨side, t.price, t.qty⟩)]) := by
  unfold RiskShard.fill at hfill
  split at hfill
  · rename_i hown
    cases hfill
    have hne : ∀ {account symbol}, shard.owns account = true → (acct, t.symbol) ≠ (account, symbol) := by
      intro account symbol hacct he
      cases he
      rw [hown] at hacct
      cases hacct
    refine ⟨h.owned, fun x hx hacct => ?_, fun account symbol hacct => ?_⟩
    · rcases List.mem_append.mp hx with hx | hx
      · exact h.kept x hx hacct
      · cases List.mem_singleton.mp hx
        exact absurd rfl (hne hacct)
    · rw [h.qty account symbol hacct, Postings.net_concat, if_neg (hne hacct), Int.add_zero]
  · rename_i hown
    rw [Bool.not_eq_false] at hown
    obtain ⟨pos, hpos, rfl⟩ := Option.map_eq_some_iff.mp hfill
    refine ⟨fun k hk => ?_, fun x hx hacct => ?_, fun account symbol hacct => ?_⟩
    · rcases (AList.mem_insert _).mp hk with rfl | hk
      · exact hown
      · exact h.owned k hk
    · rcases List.mem_append.mp hx with hx | hx
      · exact (AList.mem_insert _).mpr (.inr (h.kept x hx hacct))
      · cases List.mem_singleton.mp hx
        exact (AList.mem_insert _).mpr (.inl rfl)
    · rw [Postings.net_concat]
      by_cases hk : (acct, t.symbol) = (account, symbol)
      · cases hk
        rw [if_pos rfl, Int64.ofInt_add, ← signedQty_eq, ← h.qty acct t.symbol hown, qtyIn, AList.lookup_insert,
          Option.getD_some]
        exact applyFill_netQty hpos
      · rw [if_neg hk, Int.add_zero, ← h.qty account symbol hacct, qtyIn, AList.lookup_insert_ne (Ne.symm hk)]
        rfl

/-! ## Events -/

theorem Follows.setStates (h : Follows shard ps) (states : AccountRiskTable) : Follows { shard with states } ps :=
  ⟨h.owned, h.kept, h.qty⟩

theorem Follows.processEvent (h : Follows shard ps)
    (hev : shard.processEvent iter markPrices ev = some (shard', cmds)) : Follows shard' (ps ++ ev.moves) := by
  cases ev with
  | trade t =>
    obtain ⟨filled, hfill, hshard'⟩ := processEvent_fillTrade hev
    obtain ⟨mid, hmaker, htaker⟩ := Option.bind_eq_some_iff.mp hfill
    have hboth := (h.fill hmaker).fill htaker
    rw [List.append_assoc] at hboth
    rw [hshard']
    exact hboth.setStates shard'.states
  | _ =>
    cases hev
    show Follows shard (ps ++ [])
    rw [List.append_nil]
    exact h

theorem Follows.run (h : Follows shard ps) (hrun : shard.run inputs = some (shard', cmds)) :
    Follows shard' (ps ++ (inputs.map (·.event)).flatMap EngineEvent.moves) := by
  induction inputs generalizing shard ps cmds with
  | nil =>
    cases hrun
    rw [List.map_nil, List.flatMap_nil, List.append_nil]
    exact h
  | cons i inputs ih =>
    obtain ⟨⟨next, cmds₁⟩, hnext, hrun⟩ := Option.bind_eq_some_iff.mp hrun
    obtain ⟨⟨last, cmds₂⟩, hlast, hrun⟩ := Option.bind_eq_some_iff.mp hrun
    cases hrun
    rw [List.map_cons, List.flatMap_cons, ← List.append_assoc]
    exact ih (h.processEvent hnext) hlast

/-! ## No panic -/

theorem applyFill_returns (p : Position) (f : Position.Fill) (hqty : f.qty.raw.toNat < 2 ^ 63) :
    (p.applyFill f.side f.price f.qty).isSome = true := by
  have hsigned : -2 ^ 63 < (signedQty f.side f.qty).toInt := by
    have habs := natAbs_signedQty f
    rw [toInt_signedQty ⟨by omega, by omega⟩]
    omega
  by_cases hnet : p.netQty = 0
  · rw [applyFill_open hnet, Option.isSome_some]
  by_cases hsign : decide (0 < p.netQty) = decide (0 < signedQty f.side f.qty)
  · have hnew := Int64.abs_ne_zero (Int64.add_ne_zero_of_sameSign hnet hsigned hsign)
    rw [applyFill_increase hnet hsign hnew, Option.isSome_some]
  · rw [applyFill_reduce hnet hsign, Option.isSome_some]

theorem settle_returns (shard : RiskShard) (iter : IterOrder) (markPrices : MarkPrices) (side : Side)
    (hqty : t.qty.raw.toNat < 2 ^ 63) (hstate : shard.owns acct = true → (shard.states.get acct).isSome = true) :
    ∃ shard' cmds, shard.settle iter t markPrices acct side = some (shard', cmds) := by
  obtain ⟨r, hr⟩ := exists_settle shard iter markPrices (fun _ => Option.isSome_iff_exists.mp
    (applyFill_returns ((shard.positions.lookup (acct, t.symbol)).getD .default) ⟨side, t.price, t.qty⟩ hqty)) hstate
  exact ⟨r.1, r.2, hr⟩

theorem SamePublished.isSome (h : SamePublished shard shard') (account : AccountId) :
    (shard'.states.get account).isSome = (shard.states.get account).isSome := by
  rw [← Option.isSome_map (f := exposureOf), h account, Option.isSome_map]

theorem processEvent_returns (hqty : t.qty.raw.toNat < 2 ^ 63) (hcovers : shard.Covers t) (iter : IterOrder)
    (markPrices : MarkPrices) : ∃ shard' cmds, shard.processEvent iter markPrices (.trade t) = some (shard', cmds) := by
  obtain ⟨mid, cmds₁, hmaker⟩ := settle_returns shard iter markPrices t.makerSide hqty (hcovers _ (.inl rfl))
  have hstate : mid.owns t.takerAcct = true → (mid.states.get t.takerAcct).isSome = true := by
    rw [settle_owns hmaker, (settle_published hmaker).isSome]
    exact hcovers _ (.inr rfl)
  obtain ⟨last, cmds₂, htaker⟩ := settle_returns mid iter markPrices t.makerSide.opposite hqty hstate
  refine ⟨last, cmds₁ ++ cmds₂, ?_⟩
  rw [RiskShard.processEvent, hmaker]
  simp only [Option.bind_eq_bind, Option.bind_some, htaker]

theorem run_returns (hqty : ∀ t, .trade t ∈ inputs.map (·.event) → t.qty.raw.toNat < 2 ^ 63)
    (hcovers : ∀ t, .trade t ∈ inputs.map (·.event) → shard.Covers t) :
    ∃ shard' cmds, shard.run inputs = some (shard', cmds) := by
  induction inputs generalizing shard with
  | nil => exact ⟨shard, [], rfl⟩
  | cons i inputs ih =>
    have hstep : ∃ next cmds, shard.processEvent i.iter i.markPrices i.event = some (next, cmds) := by
      cases hev : i.event with
      | trade t =>
        have hmem : .trade t ∈ (i :: inputs).map (·.event) := List.mem_map.mpr ⟨i, List.mem_cons_self, hev⟩
        exact processEvent_returns (hqty t hmem) (hcovers t hmem) i.iter i.markPrices
      | _ => exact ⟨shard, [], rfl⟩
    obtain ⟨next, cmds₁, hnext⟩ := hstep
    obtain ⟨last, cmds₂, hlast⟩ := ih (fun t ht => hqty t (List.mem_cons_of_mem _ ht)) (fun t ht acct hacct hown => by
      rw [(processEvent_published hnext).isSome]
      rw [processEvent_owns hnext] at hown
      exact hcovers t (List.mem_cons_of_mem _ ht) acct hacct hown)
    refine ⟨last, cmds₁ ++ cmds₂, ?_⟩
    rw [RiskShard.run, hnext]
    simp only [Option.bind_eq_bind, Option.bind_some, hlast]

/-! ## Sums of net quantities -/

theorem Follows.netQty_eq (h : Follows shard ps) (hown : shard.owns account = true)
    (hfits : (Postings.net (account, symbol) ps).natAbs < 2 ^ 63) :
    shard.netQty account symbol = Postings.net (account, symbol) ps := by
  show (qtyIn shard account symbol).toInt = _
  rw [h.qty account symbol hown, Int64.toInt_ofInt]
  exact Int64.bmod_of_range (by omega) (by omega)

theorem Follows.netQtyIn_eq (h : Follows shard ps) (hfits : ∀ k, (Postings.net k ps).natAbs < 2 ^ 63) (symbol : Symbol) :
    shard.netQtyIn symbol = Postings.total (fun k => shard.owns k.1 && decide (k.2 = symbol)) ps := by
  have hentry : ∀ e ∈ shard.positions.entries, e.2.netQty.toInt = Postings.net e.1 ps := by
    intro e he
    have hlookup : shard.positions.lookup e.1 = some e.2 := AList.mem_lookup_iff.mpr he
    rw [← h.netQty_eq (h.owned e.1 (AList.lookup_isSome.mp (by rw [hlookup]; rfl))) (hfits e.1), RiskShard.netQty, hlookup]
    rfl
  have hkeys : shard.netQtyIn symbol =
      ((shard.positions.keys.filter fun k => decide (k.2 = symbol)).map fun k => Postings.net k ps).sum := by
    rw [AList.keys, List.keys, List.filter_map, List.map_map]
    exact congrArg List.sum (List.map_congr_left fun e he => hentry e (List.mem_of_mem_filter he))
  rw [hkeys]
  refine Postings.sum_net (shard.positions.keys_nodup.filter _) fun x hx => ?_
  rw [List.mem_filter, Bool.and_eq_true, decide_eq_true_iff]
  exact and_congr_left fun _ => ⟨h.owned x.1, h.kept x hx⟩

theorem total_moves (symbol : Symbol) (ev : EngineEvent) :
    Postings.total (fun k : AccountId × Symbol => decide (k.2 = symbol)) ev.moves = 0 := by
  cases ev with
  | trade t =>
    have hsum : Fill.signedQty ⟨t.makerSide, t.price, t.qty⟩ + Fill.signedQty ⟨t.makerSide.opposite, t.price, t.qty⟩ = 0 := by
      cases t.makerSide
      · exact Int.add_right_neg _
      · exact Int.add_left_neg _
    rw [EngineEvent.moves, Postings.total_cons, Postings.total_cons, Postings.total_nil, Int.add_zero]
    dsimp only
    split
    · exact hsum
    · rfl
  | _ => rfl

/-! ## Several shards -/

variable {shards shards' : List RiskShard} {evs : List EngineEvent}

theorem processes_follows (hempty : shard.positions = ∅) (h : shard.Processes evs shard') :
    Follows shard' (evs.flatMap EngineEvent.moves) ∧ shard'.owns = shard.owns := by
  obtain ⟨inputs, cmds, rfl, hrun⟩ := h
  exact ⟨(Follows.empty hempty).run hrun, (run_keeps hrun).2⟩

theorem all_follow (hempty : ∀ shard ∈ shards, shard.positions = ∅)
    (h : List.Forall₂ (RiskShard.Processes evs) shards shards') :
    (∀ shard ∈ shards', Follows shard (evs.flatMap EngineEvent.moves)) ∧
      shards'.map RiskShard.owns = shards.map RiskShard.owns := by
  induction h with
  | nil => exact ⟨fun shard hs => absurd hs List.not_mem_nil, rfl⟩
  | cons hone _ ih =>
    obtain ⟨hempty₁, hempty⟩ := List.forall_mem_cons.mp hempty
    obtain ⟨hfollows, howns⟩ := processes_follows hempty₁ hone
    obtain ⟨ihfollows, ihowns⟩ := ih hempty
    exact ⟨List.forall_mem_cons.mpr ⟨hfollows, ihfollows⟩, by rw [List.map_cons, List.map_cons, howns, ihowns]⟩

theorem countP_part {shards : List RiskShard} {k : AccountId × Symbol} (h : shards.countP (·.owns k.1) = 1) (symbol : Symbol) :
    shards.countP (fun shard => shard.owns k.1 && decide (k.2 = symbol)) = if decide (k.2 = symbol) then 1 else 0 := by
  by_cases hk : k.2 = symbol
  · simp [hk, h]
  · simp [hk]

/-- The shards that own the traded accounts have the net quantities that are
traded, and in each symbol these add up to zero. -/
theorem trading_zeroSum (hempty : ∀ shard ∈ shards, shard.positions = ∅) (hpart : RiskShard.Partition shards evs)
    (hqty : ∀ t, .trade t ∈ evs → t.qty.raw.toNat < 2 ^ 63)
    (hnet : ∀ account symbol, (netTraded evs account symbol).natAbs < 2 ^ 63) :
    (∀ shard ∈ shards, (∀ t, .trade t ∈ evs → shard.Covers t) → ∀ inputs : List RiskShard.Input,
      inputs.map (·.event) = evs → ∃ shard' cmds, shard.run inputs = some (shard', cmds)) ∧
    ∀ shards', List.Forall₂ (RiskShard.Processes evs) shards shards' →
      (∀ symbol, (shards'.map (·.netQtyIn symbol)).sum = 0) ∧
      ∀ shard ∈ shards', ∀ account symbol, shard.owns account = true →
        shard.netQty account symbol = netTraded evs account symbol := by
  refine ⟨fun shard _ hcovers inputs hev => ?_, fun shards' h => ?_⟩
  · subst hev
    exact run_returns hqty hcovers
  obtain ⟨hfollows, howns⟩ := all_follow hempty h
  refine ⟨fun symbol => ?_, fun shard hs account symbol hown => (hfollows shard hs).netQty_eq hown (hnet account symbol)⟩
  calc (shards'.map (·.netQtyIn symbol)).sum
    _ = (shards'.map fun shard => Postings.total (fun k => shard.owns k.1 && decide (k.2 = symbol))
          (evs.flatMap EngineEvent.moves)).sum :=
      congrArg List.sum (List.map_congr_left fun shard hs => (hfollows shard hs).netQtyIn_eq (fun k => hnet k.1 k.2) symbol)
    _ = Postings.total (fun k => decide (k.2 = symbol)) (evs.flatMap EngineEvent.moves) := by
      refine Postings.sum_total fun x hx => countP_part ?_ symbol
      have hcount : ∀ shards : List RiskShard, shards.countP (·.owns x.1.1) = (shards.map RiskShard.owns).countP (· x.1.1) :=
        fun shards => by rw [List.countP_map]; rfl
      rw [hcount, howns, ← hcount]
      exact hpart x hx
    _ = 0 := Postings.total_flatMap_eq_zero fun ev _ => total_moves symbol ev

/-- Accounts 0 and 1, and account 2. -/
def demoShards : List RiskShard :=
  [RiskShard.new 0 2 .default (AccountRiskTable.new 3), RiskShard.new 2 3 .default (AccountRiskTable.new 3)]

/-- Account 2 buys from account 1, and again from account 1. -/
def demoTrades : List EngineEvent := [.trade (demoTrade ⟨100000000⟩), .trade (demoTrade ⟨300000000⟩)]

theorem trading_zeroSum_demo : (∃ shards', List.Forall₂ (RiskShard.Processes demoTrades) demoShards shards') ∧
    ∀ shards', List.Forall₂ (RiskShard.Processes demoTrades) demoShards shards' →
      ∀ symbol, (shards'.map (·.netQtyIn symbol)).sum = 0 := by
  have hall := @trading_zeroSum demoShards demoTrades (by simp [demoShards, RiskShard.new]) (by decide)
    (by simp [demoTrades, demoTrade]) (by
      intro account symbol
      simp only [netTraded, demoTrades, List.flatMap_cons, List.flatMap_nil, EngineEvent.moves, demoTrade, Postings.net,
        List.cons_append, List.nil_append, Postings.total_cons, Postings.total_nil]
      split <;> split <;> decide)
  have hcovers : ∀ shard ∈ demoShards, ∀ t, .trade t ∈ demoTrades → shard.Covers t := by
    intro shard hs t ht acct hacct _
    have hstates : shard.states = AccountRiskTable.new 3 := by
      rcases List.mem_pair.mp hs with rfl | rfl <;> rfl
    rw [hstates]
    rcases List.mem_pair.mp ht with ht | ht <;> cases ht <;> rcases hacct with rfl | rfl <;> rfl
  have hruns : ∀ shard ∈ demoShards, ∃ shard', shard.Processes demoTrades shard' := by
    intro shard hs
    obtain ⟨shard', cmds, hrun⟩ := hall.1 shard hs (hcovers shard hs)
      (demoTrades.map fun ev => { event := ev, markPrices := demoMarks, iter := inOrder }) rfl
    exact ⟨shard', _, cmds, rfl, hrun⟩
  obtain ⟨shard₁, h₁⟩ := hruns _ (List.mem_pair.mpr (.inl rfl))
  obtain ⟨shard₂, h₂⟩ := hruns _ (List.mem_pair.mpr (.inr rfl))
  exact ⟨⟨[shard₁, shard₂], .cons h₁ (.cons h₂ .nil)⟩, fun shards' h => (hall.2 shards' h).1⟩

end MRE.Proof.Risk
