import MatchRiskEngine.Proof.RiskEngine.Exposure
import MatchRiskEngine.Spec.CashFlow

/-!
# Interleavings do not show

A position depends only on the fills of its own account and symbol, in their
order (`runLegs_lookup`), and so does whether a run ends (`runLegs_isSome_iff`).
What is published about an account is its balance and margin after its last
fill, and nothing changes its positions afterwards (`runLegs_shows`). So two
interleavings of the same streams come to the same
(`interleaving_sameRisk`).
-/

namespace MRE.Proof.Risk

open Position

variable {shard shard' final : RiskShard} {markPrices : MarkPrices} {account : AccountId} {l : Leg} {ls : List Leg}
  {r : RiskShard × List InboundCommand}

/-! ## Legs -/

/-- Settle some legs, one after the other. -/
def runLegs (markPrices : MarkPrices) : RiskShard → List Leg → Option RiskShard
  | shard, [] => some shard
  | shard, l :: ls => (shard.settle l.iter l.trade markPrices l.account l.side).bind fun r => runLegs markPrices r.1 ls

theorem runLegs_append (shard : RiskShard) (ls ls' : List Leg) :
    runLegs markPrices shard (ls ++ ls') = (runLegs markPrices shard ls).bind fun s => runLegs markPrices s ls' := by
  induction ls generalizing shard with
  | nil => rfl
  | cons l ls ih =>
    simp only [List.cons_append, runLegs, Option.bind_assoc]
    exact congrArg _ (funext fun r => ih r.1)

theorem run_eq_runLegs (markPrices : MarkPrices) (shard : RiskShard) (steps : List (EngineEvent.Trade × IterOrder)) :
    (shard.run (RiskShard.tradeInputs markPrices steps)).map Prod.fst =
      runLegs markPrices shard (steps.flatMap legsOf) := by
  induction steps generalizing shard with
  | nil => rfl
  | cons s steps ih =>
    rw [List.flatMap_cons, runLegs_append]
    simp only [RiskShard.tradeInputs, List.map_cons, RiskShard.run, RiskShard.processEvent, legsOf, runLegs,
      Option.bind_eq_bind]
    cases shard.settle s.2 s.1 markPrices s.1.makerAcct s.1.makerSide with
    | none => rfl
    | some r₁ =>
      simp only [Option.bind_some]
      cases r₁.1.settle s.2 s.1 markPrices s.1.takerAcct s.1.makerSide.opposite with
      | none => rfl
      | some r₂ =>
        simp only [Option.bind_some, ← ih, RiskShard.tradeInputs]
        cases r₂.1.run _ <;> rfl

/-! ## What a leg changes -/

theorem settle_frame (h : shard.settle l.iter l.trade markPrices l.account l.side = some r) :
    r.1 = { shard with positions := r.1.positions, states := r.1.states } := by
  obtain ⟨-, hr⟩ | ⟨-, pos, balance, usedMargin, s, -, -, -, hr⟩ := settle_cases h
  · rw [hr]
  · rw [hr]

theorem runLegs_frame (h : runLegs markPrices shard ls = some final) :
    final = { shard with positions := final.positions, states := final.states } := by
  induction ls generalizing shard with
  | nil =>
    cases h
    rfl
  | cons l ls ih =>
    obtain ⟨r, hr, h⟩ := Option.bind_eq_some_iff.mp h
    rw [ih h, settle_frame hr]

theorem settle_isSome_get (h : shard.settle l.iter l.trade markPrices l.account l.side = some r) (account : AccountId) :
    (r.1.states.get account).isSome = (shard.states.get account).isSome := by
  have hpub := settle_published h account
  rw [← Option.isSome_map, hpub, Option.isSome_map]

/-! ## Positions -/

def Leg.key (l : Leg) : AccountId × Symbol := (l.account, l.trade.symbol)

def Leg.fill (l : Leg) : Position.Fill := ⟨l.side, l.trade.price, l.trade.qty⟩

/-- The fills of one position. -/
def fillsOf (key : AccountId × Symbol) (ls : List Leg) : List Position.Fill :=
  (ls.filter fun l => Leg.key l = key).map Leg.fill

/-- A position after some fills, which may be its first. -/
def fillAll : Option Position → List Position.Fill → Option (Option Position)
  | pos, [] => some pos
  | pos, f :: fs => ((pos.getD .default).applyFill f.side f.price f.qty).bind fun p => fillAll (some p) fs

@[simp] theorem fillsOf_cons_self (l : Leg) (ls : List Leg) :
    fillsOf (Leg.key l) (l :: ls) = Leg.fill l :: fillsOf (Leg.key l) ls := by
  rw [fillsOf, List.filter_cons_of_pos (by simp), List.map_cons, fillsOf]

variable {key : AccountId × Symbol}

theorem fillsOf_cons_ne (hne : Leg.key l ≠ key) (ls : List Leg) :
    fillsOf key (l :: ls) = fillsOf key ls := by
  rw [fillsOf, List.filter_cons_of_neg (by simpa using hne), fillsOf]

theorem settle_fillAll (h : shard.settle l.iter l.trade markPrices l.account l.side = some r)
    (howns : shard.owns key.1 = true) (ls : List Leg) :
    fillAll (shard.positions.lookup key) (fillsOf key (l :: ls)) = fillAll (r.1.positions.lookup key) (fillsOf key ls) := by
  obtain ⟨hown, hr⟩ | ⟨-, pos, balance, usedMargin, s, hpos, -, -, hr⟩ := settle_cases h
  · have hne : Leg.key l ≠ key := by
      rintro rfl
      rw [show shard.owns l.account = true from howns] at hown
      contradiction
    rw [fillsOf_cons_ne hne, hr]
  · rw [hr]
    by_cases hkey : Leg.key l = key
    · subst hkey
      rw [fillsOf_cons_self, fillAll]
      show _ = fillAll ((shard.positions.insert (Leg.key l) pos).lookup (Leg.key l)) _
      rw [AList.lookup_insert]
      exact (congrArg (Option.bind · _) hpos).trans (Option.bind_some _ _)
    · rw [fillsOf_cons_ne hkey]
      show _ = fillAll ((shard.positions.insert (Leg.key l) pos).lookup key) _
      rw [AList.lookup_insert_ne (Ne.symm hkey)]

/-- The positions of other shards' accounts stay as they are. -/
theorem settle_lookup_unowned (h : shard.settle l.iter l.trade markPrices l.account l.side = some r)
    (howns : shard.owns key.1 = false) :
    r.1.positions.lookup key = shard.positions.lookup key := by
  obtain ⟨-, hr⟩ | ⟨hown, pos, balance, usedMargin, s, -, -, -, hr⟩ := settle_cases h
  · rw [hr]
  · rw [hr]
    refine AList.lookup_insert_ne fun hkey => ?_
    rw [hkey, hown] at howns
    contradiction

theorem settle_owns_leg (h : shard.settle l.iter l.trade markPrices l.account l.side = some r) : r.1.owns = shard.owns :=
  settle_owns h

theorem runLegs_lookup (h : runLegs markPrices shard ls = some final) (key : AccountId × Symbol) :
    if shard.owns key.1 = true then fillAll (shard.positions.lookup key) (fillsOf key ls) = some (final.positions.lookup key)
    else final.positions.lookup key = shard.positions.lookup key := by
  induction ls generalizing shard with
  | nil =>
    cases h
    split <;> rfl
  | cons l ls ih =>
    obtain ⟨r, hr, h⟩ := Option.bind_eq_some_iff.mp h
    have hrest := ih h
    rw [settle_owns_leg hr] at hrest
    split at hrest
    · rename_i howns
      rw [if_pos howns, settle_fillAll hr howns]
      exact hrest
    · rename_i howns
      rw [if_neg howns, hrest]
      exact settle_lookup_unowned hr (Bool.not_eq_true _ ▸ howns)

/-! ## No panic -/

/-- Every position can be filled, and every owned account has a state. -/
structure Ready (shard : RiskShard) (ls : List Leg) : Prop where
  fills : ∀ key : AccountId × Symbol, shard.owns key.1 = true →
    (fillAll (shard.positions.lookup key) (fillsOf key ls)).isSome = true
  states : ∀ l ∈ ls, shard.owns l.account = true → (shard.states.get l.account).isSome = true

/-- A leg can be settled if its account can be filled and has a state. -/
theorem Ready.settle (h : Ready shard (l :: ls)) (markPrices : MarkPrices) :
    ∃ r, shard.settle l.iter l.trade markPrices l.account l.side = some r := by
  refine exists_settle shard l.iter markPrices (fun hown => ?_) (h.states l List.mem_cons_self)
  have hfills := h.fills (Leg.key l) hown
  rw [fillsOf_cons_self, fillAll] at hfills
  obtain ⟨last, hlast⟩ := Option.isSome_iff_exists.mp hfills
  obtain ⟨pos, hpos, -⟩ := Option.bind_eq_some_iff.mp hlast
  exact ⟨pos, hpos⟩

theorem ready_cons_iff (h : shard.settle l.iter l.trade markPrices l.account l.side = some r) :
    Ready shard (l :: ls) ↔ Ready r.1 ls := by
  have howns := settle_owns_leg h
  have hstate : shard.owns l.account = true → (shard.states.get l.account).isSome = true := fun hown => by
    obtain ⟨hnot, -⟩ | ⟨-, pos, balance, usedMargin, s, -, -, hs, -⟩ := settle_cases h
    · rw [hown] at hnot
      contradiction
    · rw [hs, Option.isSome_some]
  constructor
  · rintro ⟨hfills, hstates⟩
    refine ⟨fun key hkey => ?_, fun l' hl' hown => ?_⟩
    · rw [howns] at hkey
      rw [← settle_fillAll h hkey]
      exact hfills key hkey
    · rw [howns] at hown
      rw [settle_isSome_get h]
      exact hstates l' (List.mem_cons_of_mem _ hl') hown
  · rintro ⟨hfills, hstates⟩
    refine ⟨fun key hkey => ?_, List.forall_mem_cons.mpr ⟨hstate, fun l' hl' hown => ?_⟩⟩
    · rw [settle_fillAll h hkey]
      exact hfills key (by rw [howns]; exact hkey)
    · rw [← settle_isSome_get h]
      exact hstates l' hl' (by rw [howns]; exact hown)

theorem runLegs_isSome_iff (markPrices : MarkPrices) (shard : RiskShard) (ls : List Leg) :
    (runLegs markPrices shard ls).isSome = true ↔ Ready shard ls := by
  induction ls generalizing shard with
  | nil => exact iff_of_true rfl ⟨fun _ _ => rfl, fun _ h => absurd h List.not_mem_nil⟩
  | cons l ls ih =>
    rw [runLegs]
    cases hr : shard.settle l.iter l.trade markPrices l.account l.side with
    | none =>
      refine iff_of_false (by simp) fun hready => ?_
      obtain ⟨r, h⟩ := hready.settle markPrices
      rw [hr] at h
      cases h
    | some r => rw [Option.bind_some, ih, ready_cons_iff hr]

/-! ## What is published -/

/-- The account's state has the balance and the margin of its positions. -/
def Shows (markPrices : MarkPrices) (account : AccountId) (shard : RiskShard) : Prop :=
  ∃ s, shard.states.get account = some s ∧
    s.balance.toInt = shard.depositOf account + ((shard.amountsOf account markPrices).map Int64.toInt).sum ∧
    s.usedMargin = ((shard.entriesOf account).map (marginAmount shard markPrices)).foldl Int64.saturatingAdd 0

theorem settle_shows (h : shard.settle l.iter l.trade markPrices l.account l.side = some r)
    (howns : shard.owns l.account = true) (hexact : r.1.SumsExact l.iter l.account markPrices) :
    Shows markPrices l.account r.1 := by
  obtain ⟨hnot, -⟩ | ⟨-, pos, balance, usedMargin, s, -, hsums, hs, hr⟩ := settle_cases h
  · rw [howns] at hnot
    contradiction
  have howns' : r.1.owns l.account = true := by
    rw [settle_owns_leg h]
    exact howns
  obtain ⟨deposit, hdeposit, hvalue⟩ := deposit_ok howns'
  -- the margin does not look at what is published
  have hmargin : r.1.recomputeMargin l.iter l.account markPrices = some (balance, usedMargin) := by
    rw [hr]
    exact hsums
  have hperm := orderedEntries_perm l.iter r.1 l.account
  rw [recomputeMargin_eq hdeposit, Option.some.injEq, Prod.mk.injEq] at hmargin
  refine ⟨_, by rw [hr]; exact get_set_self hs _, ?_, ?_⟩
  · rw [RiskShard.SumsExact, List.getD_eq_getElem?_getD, hdeposit, Option.getD_some] at hexact
    have hsum := ((hperm.flatMap_right fun e => e.amounts markPrices).map Int64.toInt).sum_eq
    show balance.toInt = _
    rw [← hmargin.1, hexact.toInt_foldl, hvalue, hsum]
    rfl
  · show usedMargin = _
    rw [← hmargin.2]
    exact ((marginAmounts_orderFree r.1 markPrices l.account).foldl_eq (hperm.symm.map _)).symm

theorem settle_other (h : shard.settle l.iter l.trade markPrices l.account l.side = some r) (hne : account ≠ l.account) :
    SameAccount account shard r.1 ∧ r.1.states.get account = shard.states.get account := by
  constructor
  · obtain ⟨filled, hfill, hr⟩ := settle_fill h
    have hsame := fill_sameAccount hfill hne
    rw [hr]
    exact ⟨hsame.entries, hsame.deposit, hsame.limits⟩
  · obtain ⟨-, hr⟩ | ⟨-, pos, balance, usedMargin, s, -, -, -, hr⟩ := settle_cases h
    · rw [hr]
    · rw [hr]
      exact get_set_ne _ _ hne

theorem Shows.other (h : Shows markPrices account shard) (hsame : SameAccount account shard shard')
    (hget : shard'.states.get account = shard.states.get account) : Shows markPrices account shard' := by
  obtain ⟨s, hs, hbalance, hmargin⟩ := h
  have hamount : marginAmount shard' markPrices = marginAmount shard markPrices := by
    funext e
    rw [marginAmount, marginAmount, hsame.limits]
  refine ⟨s, hget.trans hs, ?_, ?_⟩
  · rw [RiskShard.amountsOf, hsame.entries, hsame.deposit]
    exact hbalance
  · rw [hsame.entries, hamount]
    exact hmargin

/-- What a run publishes about an account: its balance and margin at the end,
if it has traded, and nothing otherwise. -/
theorem runLegs_shows (howns : shard.owns account = true) (hsat : shard.Unsaturated markPrices ls)
    (h : runLegs markPrices shard ls = some final) :
    ((∃ l ∈ ls, l.account = account) ∨ Shows markPrices account shard → Shows markPrices account final) ∧
      ((∀ l ∈ ls, l.account ≠ account) → final.states.get account = shard.states.get account) := by
  induction ls generalizing shard with
  | nil =>
    cases h
    exact ⟨fun hor => hor.resolve_left fun ⟨l, hl, _⟩ => absurd hl List.not_mem_nil, fun _ => rfl⟩
  | cons l ls ih =>
    obtain ⟨r, hr, h⟩ := Option.bind_eq_some_iff.mp h
    obtain ⟨hexact, hrest⟩ := hsat r hr
    obtain ⟨hshows, hkeeps⟩ := ih (by rw [settle_owns_leg hr]; exact howns) hrest h
    by_cases hl : l.account = account
    · subst hl
      exact ⟨fun _ => hshows (.inr (settle_shows hr howns (hexact howns))),
        fun hnone => absurd rfl (hnone l List.mem_cons_self)⟩
    · obtain ⟨hsame, hget⟩ := settle_other hr (Ne.symm hl)
      constructor
      · rintro (⟨l', hl', hacct⟩ | hbefore)
        · rcases List.mem_cons.mp hl' with rfl | hl'
          · exact absurd hacct hl
          · exact hshows (.inl ⟨l', hl', hacct⟩)
        · exact hshows (.inr (hbefore.other hsame hget))
      · exact fun hnone => (hkeeps fun l' hl' => hnone l' (List.mem_cons_of_mem _ hl')).trans hget

theorem entriesOf_perm (h : ∀ key, shard.positions.lookup key = shard'.positions.lookup key) (account : AccountId) :
    (shard.entriesOf account).Perm (shard'.entriesOf account) :=
  (List.lookup_ext shard.positions.nodupKeys shard'.positions.nodupKeys fun key pos => by
    rw [show shard.positions.entries.dlookup key = shard'.positions.entries.dlookup key from h key]).filter _

theorem Shows.publishedOf_eq (h : Shows markPrices account shard) (h' : Shows markPrices account shard')
    (hperm : (shard.entriesOf account).Perm (shard'.entriesOf account))
    (hdeposit : shard.depositOf account = shard'.depositOf account) (hlimits : shard.limits = shard'.limits) :
    shard.publishedOf account = shard'.publishedOf account := by
  obtain ⟨s, hs, hbalance, hmargin⟩ := h
  obtain ⟨s', hs', hbalance', hmargin'⟩ := h'
  have hamount : marginAmount shard' markPrices = marginAmount shard markPrices := by
    funext e
    rw [marginAmount, marginAmount, hlimits]
  have hsum := ((hperm.flatMap_right fun e => e.amounts markPrices).map Int64.toInt).sum_eq
  have heq : s.balance = s'.balance := by
    rw [← Int64.toInt_inj, hbalance, hbalance', hdeposit, RiskShard.amountsOf, hsum, RiskShard.amountsOf]
  have heq' : s.usedMargin = s'.usedMargin := by
    rw [hmargin, hmargin', hamount]
    exact (marginAmounts_orderFree shard markPrices account).foldl_eq (hperm.map _)
  rw [RiskShard.publishedOf, RiskShard.publishedOf, hs, hs', Option.map_some, Option.map_some, heq, heq']

/-! ## Interleavings -/

/-- The fills of an account in a trade. -/
def sidesOf (account : AccountId) (t : EngineEvent.Trade) : List Position.Fill :=
  (if t.makerAcct = account then [⟨t.makerSide, t.price, t.qty⟩] else []) ++
    if t.takerAcct = account then [⟨t.makerSide.opposite, t.price, t.qty⟩] else []

theorem fillsOf_legsOf (key : AccountId × Symbol) (s : EngineEvent.Trade × IterOrder) :
    fillsOf key (legsOf s) = if s.1.symbol = key.2 then sidesOf key.1 s.1 else [] := by
  obtain ⟨a, symbol⟩ := key
  simp only [fillsOf, legsOf, Leg.key, sidesOf, List.filter_cons, List.filter_nil, Prod.mk.injEq, decide_eq_true_eq]
  by_cases hsymbol : s.1.symbol = symbol
  · simp only [hsymbol, and_true]
    split <;> split <;> simp_all [Leg.fill]
  · simp [hsymbol]

/-- The fills of a position come from the stream of its symbol. -/
theorem fillsOf_flatMap (key : AccountId × Symbol) (steps : List (EngineEvent.Trade × IterOrder)) :
    fillsOf key (steps.flatMap legsOf) =
      ((steps.map Prod.fst).filter fun t => t.symbol = key.2).flatMap (sidesOf key.1) := by
  induction steps with
  | nil => rfl
  | cons s steps ih =>
    have happend : fillsOf key (legsOf s ++ steps.flatMap legsOf) =
        fillsOf key (legsOf s) ++ fillsOf key (steps.flatMap legsOf) := by
      rw [fillsOf, List.filter_append, List.map_append]
      rfl
    rw [List.flatMap_cons, happend, fillsOf_legsOf, ih, List.map_cons, List.filter_cons]
    by_cases hsymbol : s.1.symbol = key.2
    · rw [if_pos hsymbol, if_pos (decide_eq_true hsymbol), List.flatMap_cons]
    · rw [if_neg hsymbol, if_neg (by simpa using hsymbol), List.nil_append]

theorem exists_leg_iff {steps : List (EngineEvent.Trade × IterOrder)} :
    (∃ l ∈ steps.flatMap legsOf, l.account = account) ↔
      ∃ t ∈ steps.map Prod.fst, t.makerAcct = account ∨ t.takerAcct = account := by
  constructor
  · rintro ⟨l, hl, hacct⟩
    obtain ⟨s, hs, hl⟩ := List.mem_flatMap.mp hl
    refine ⟨s.1, List.mem_map_of_mem hs, ?_⟩
    rw [legsOf, List.mem_cons, List.mem_singleton] at hl
    rcases hl with rfl | rfl
    · exact .inl hacct
    · exact .inr hacct
  · rintro ⟨t, ht, hacct⟩
    obtain ⟨s, hs, rfl⟩ := List.mem_map.mp ht
    rcases hacct with hacct | hacct
    · exact ⟨_, List.mem_flatMap.mpr ⟨s, hs, List.mem_cons_self⟩, hacct⟩
    · exact ⟨_, List.mem_flatMap.mpr ⟨s, hs, List.mem_cons_of_mem _ List.mem_cons_self⟩, hacct⟩

section

variable {streams : Symbol → List EngineEvent.Trade} {steps steps' : List (EngineEvent.Trade × IterOrder)}
  (h : Interleaves streams (steps.map Prod.fst)) (h' : Interleaves streams (steps'.map Prod.fst))

include h h'

theorem Interleaves.fillsOf_eq (key : AccountId × Symbol) :
    fillsOf key (steps.flatMap legsOf) = fillsOf key (steps'.flatMap legsOf) := by
  rw [fillsOf_flatMap, fillsOf_flatMap, h, h']

theorem Interleaves.exists_leg (hl : ∃ l ∈ steps.flatMap legsOf, l.account = account) :
    ∃ l ∈ steps'.flatMap legsOf, l.account = account := by
  obtain ⟨t, ht, hacct⟩ := exists_leg_iff.mp hl
  have hmem : t ∈ (steps.map Prod.fst).filter fun t' => t'.symbol = t.symbol :=
    List.mem_filter.mpr ⟨ht, decide_eq_true rfl⟩
  rw [h, ← h'] at hmem
  exact exists_leg_iff.mpr ⟨t, (List.mem_filter.mp hmem).1, hacct⟩

theorem Interleaves.ready (hready : Ready shard (steps.flatMap legsOf)) : Ready shard (steps'.flatMap legsOf) := by
  refine ⟨fun key howns => ?_, fun l hl howns => ?_⟩
  · rw [← Interleaves.fillsOf_eq h h']
    exact hready.fills key howns
  · obtain ⟨l', hl', hacct⟩ := Interleaves.exists_leg h' h ⟨l, hl, rfl⟩
    rw [← hacct] at howns ⊢
    exact hready.states l' hl' howns

end

/-- Two interleavings of the same streams end with the same positions, and have
published the same balance and used margin for each account. -/
theorem interleaving_sameRisk (shard : RiskShard) (markPrices : MarkPrices) (streams : Symbol → List EngineEvent.Trade)
    (steps steps' : List (EngineEvent.Trade × IterOrder)) (h : Interleaves streams (steps.map Prod.fst))
    (h' : Interleaves streams (steps'.map Prod.fst)) (hsat : shard.Unsaturated markPrices (steps.flatMap legsOf))
    (hsat' : shard.Unsaturated markPrices (steps'.flatMap legsOf)) (r : RiskShard × List InboundCommand)
    (hrun : shard.run (RiskShard.tradeInputs markPrices steps) = some r) :
    ∃ r', shard.run (RiskShard.tradeInputs markPrices steps') = some r' ∧ r.1.SameRisk r'.1 := by
  have hlegs : runLegs markPrices shard (steps.flatMap legsOf) = some r.1 := by
    rw [← run_eq_runLegs, hrun, Option.map_some]
  have hready := Interleaves.ready h h' ((runLegs_isSome_iff markPrices shard _).mp (Option.isSome_iff_exists.mpr ⟨_, hlegs⟩))
  obtain ⟨final, hlegs'⟩ := Option.isSome_iff_exists.mp ((runLegs_isSome_iff markPrices shard _).mpr hready)
  obtain ⟨r', hrun', hfinal⟩ := Option.map_eq_some_iff.mp ((run_eq_runLegs markPrices shard steps').trans hlegs')
  refine ⟨r', hrun', ?_⟩
  rw [hfinal]
  have hpositions : ∀ key, r.1.positions.lookup key = final.positions.lookup key := fun key => by
    have hlookup := runLegs_lookup hlegs key
    have hlookup' := runLegs_lookup hlegs' key
    rw [← Interleaves.fillsOf_eq h h'] at hlookup'
    split at hlookup
    · rename_i howns
      rw [if_pos howns, hlookup, Option.some.injEq] at hlookup'
      exact hlookup'
    · rename_i howns
      rw [if_neg howns] at hlookup'
      rw [hlookup, hlookup']
  have hframe := runLegs_frame hlegs
  have hframe' := runLegs_frame hlegs'
  have howner : r.1.owns = shard.owns := by rw [hframe]; rfl
  refine ⟨hpositions, fun account howns => ?_⟩
  rw [howner] at howns
  obtain ⟨hshows, hkeeps⟩ := runLegs_shows howns hsat hlegs
  obtain ⟨hshows', hkeeps'⟩ := runLegs_shows howns hsat' hlegs'
  by_cases htrades : ∃ l ∈ steps.flatMap legsOf, l.account = account
  · refine (hshows (.inl htrades)).publishedOf_eq (hshows' (.inl (Interleaves.exists_leg h h' htrades)))
      (entriesOf_perm hpositions account) ?_ ?_
    · rw [hframe, hframe']
      rfl
    · rw [hframe, hframe']
  · have hnone : ∀ l ∈ steps.flatMap legsOf, l.account ≠ account := fun l hl hacct => htrades ⟨l, hl, hacct⟩
    have hnone' : ∀ l ∈ steps'.flatMap legsOf, l.account ≠ account := fun l hl hacct =>
      htrades (Interleaves.exists_leg h' h ⟨l, hl, hacct⟩)
    rw [RiskShard.publishedOf, RiskShard.publishedOf, hkeeps hnone, hkeeps' hnone']

/-- Two trades in one symbol. -/
def firstStream : List EngineEvent.Trade := [demoTrade ⟨100000000⟩, demoTrade ⟨30000000⟩]

/-- A trade in another one. -/
def secondTrade : EngineEvent.Trade := { demoTrade ⟨50000000⟩ with symbol := ⟨2⟩, price := ⟨4900000000000⟩ }

def demoStreams (symbol : Symbol) : List EngineEvent.Trade :=
  if symbol = ⟨1⟩ then firstStream else if symbol = ⟨2⟩ then [secondTrade] else []

/-- The second stream comes last, and then in between, with the positions in
another order. -/
def lastSteps : List (EngineEvent.Trade × IterOrder) :=
  [(demoTrade ⟨100000000⟩, inOrder), (demoTrade ⟨30000000⟩, inOrder), (secondTrade, inOrder)]

def betweenSteps : List (EngineEvent.Trade × IterOrder) :=
  let iter := firstWith fun e => decide (e.1.2 = ⟨2⟩)
  [(demoTrade ⟨100000000⟩, iter), (secondTrade, iter), (demoTrade ⟨30000000⟩, iter)]

theorem lastSteps_interleaves : Interleaves demoStreams (lastSteps.map Prod.fst) := by
  intro symbol
  by_cases h₁ : symbol = ⟨1⟩
  · rw [h₁]
    rfl
  by_cases h₂ : symbol = ⟨2⟩
  · rw [h₂]
    rfl
  simp [lastSteps, demoStreams, demoTrade, secondTrade, h₁, h₂, Ne.symm h₁, Ne.symm h₂]

theorem betweenSteps_interleaves : Interleaves demoStreams (betweenSteps.map Prod.fst) := by
  intro symbol
  by_cases h₁ : symbol = ⟨1⟩
  · rw [h₁]
    rfl
  by_cases h₂ : symbol = ⟨2⟩
  · rw [h₂]
    rfl
  simp [betweenSteps, demoStreams, demoTrade, secondTrade, h₁, h₂, Ne.symm h₁, Ne.symm h₂]

theorem interleaving_sameRisk_demo :
    Interleaves demoStreams (lastSteps.map Prod.fst) ∧ Interleaves demoStreams (betweenSteps.map Prod.fst) ∧
    demoShard.Unsaturated demoMarks (lastSteps.flatMap legsOf) ∧
    demoShard.Unsaturated demoMarks (betweenSteps.flatMap legsOf) ∧
    ∃ r r', demoShard.run (RiskShard.tradeInputs demoMarks lastSteps) = some r ∧
      demoShard.run (RiskShard.tradeInputs demoMarks betweenSteps) = some r' ∧ r.1.SameRisk r'.1 := by
  have hsat : demoShard.Unsaturated demoMarks (lastSteps.flatMap legsOf) := by decide
  have hsat' : demoShard.Unsaturated demoMarks (betweenSteps.flatMap legsOf) := by decide
  obtain ⟨r, hr⟩ : ∃ r, demoShard.run (RiskShard.tradeInputs demoMarks lastSteps) = some r :=
    Option.isSome_iff_exists.mp rfl
  obtain ⟨r', hr', hsame⟩ := interleaving_sameRisk demoShard demoMarks demoStreams lastSteps betweenSteps
    lastSteps_interleaves betweenSteps_interleaves hsat hsat' r hr
  exact ⟨lastSteps_interleaves, betweenSteps_interleaves, hsat, hsat', r, r', hr, hr', hsame⟩

end MRE.Proof.Risk
