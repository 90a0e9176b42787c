import MatchRiskEngine.Proof.RiskEngine.Freeze

/-!
# What a shard makes of one account

The calls of a shard as operations on one account each (`AccountOp`). An
operation depends on what the shard knows of this account only
(`applyOp_view`), and changes nothing else (`applyOp_frame`). So a shard that
owns some of the accounts of another one follows it on these
(`runOps_part`), and fails if the other one fails on one of them
(`runOps_none`).
-/

namespace MRE

/-- What a call of a shard does to one account. -/
inductive AccountOp where
  | seed (account : AccountId) (amount : Int64)
  | settle (t : EngineEvent.Trade) (markPrices : MarkPrices) (account : AccountId) (side : Side)

def AccountOp.account : AccountOp → AccountId
  | .seed account _ => account
  | .settle _ _ account _ => account

/-- The operations of a call. -/
def ShardTask.ops : ShardTask → List AccountOp
  | .seed account amount => [.seed account amount]
  | .event (.trade t) markPrices =>
    [.settle t markPrices t.makerAcct t.makerSide, .settle t markPrices t.takerAcct t.makerSide.opposite]
  | .event _ _ => []

namespace RiskShard

/-- An operation up to the read of the account's state. -/
def opRead (shard : RiskShard) (iter : IterOrder) : AccountOp → Option (RiskShard × AccountRiskState × List InboundCommand)
  | .seed account amount => (shard.seedRead account amount).map fun r => (r.1, r.2, [])
  | .settle t markPrices account side => shard.settleRead iter t markPrices account side

/-- An operation, if the shard owns the account. -/
def applyOp (shard : RiskShard) (iter : IterOrder) (op : AccountOp) : Option (RiskShard × List InboundCommand) :=
  if shard.owns op.account = false then some (shard, [])
  else (shard.opRead iter op).map fun r => (r.1.update op.account r.2.1, r.2.2)

/-- Operations one after the other, with the liquidations so far. -/
def runOps (iter : IterOrder) (r : RiskShard × List InboundCommand) (ops : List AccountOp) :
    Option (RiskShard × List InboundCommand) :=
  ops.foldlM (fun r op => (r.1.applyOp iter op).map fun r' => (r'.1, r.2 ++ r'.2)) r

end RiskShard

namespace Proof.Sharding

open MRE.Proof.Risk MRE.Proof.Freeze

variable {shard shard' whole whole' part part' : RiskShard} {account a : AccountId} {iter iter' : IterOrder} {op : AccountOp}
  {ops : List AccountOp} {cmds cmds' : List InboundCommand} {r r' : RiskShard × List InboundCommand}

/-! ## What a shard knows of an account -/

structure SameView (a : AccountId) (shard shard' : RiskShard) : Prop where
  entries : shard.entriesOf a = shard'.entriesOf a
  deposit : shard.initialDeposits[shard.localIdx a]? = shard'.initialDeposits[shard'.localIdx a]?
  state : shard.states.get a = shard'.states.get a
  limits : shard.limits = shard'.limits

theorem SameView.refl (a : AccountId) (shard : RiskShard) : SameView a shard shard := ⟨rfl, rfl, rfl, rfl⟩

theorem SameView.symm (h : SameView a shard shard') : SameView a shard' shard :=
  ⟨h.entries.symm, h.deposit.symm, h.state.symm, h.limits.symm⟩

theorem SameView.trans {shard'' : RiskShard} (h : SameView a shard shard') (h' : SameView a shard' shard'') :
    SameView a shard shard'' :=
  ⟨h.entries.trans h'.entries, h.deposit.trans h'.deposit, h.state.trans h'.state, h.limits.trans h'.limits⟩

theorem dlookup_filter (a : AccountId) (symbol : Symbol) (es : List Positions.Entry) :
    (es.filter fun e => e.1.1 = a).dlookup (a, symbol) = es.dlookup (a, symbol) := by
  induction es with
  | nil => rfl
  | cons e es ih =>
    obtain ⟨k, p⟩ := e
    by_cases hk : (a, symbol) = k
    · subst hk
      rw [List.filter_cons_of_pos (by simp), List.dlookup_cons_eq, List.dlookup_cons_eq]
    · rw [List.dlookup_cons_ne es (⟨k, p⟩ : Positions.Entry) hk, ← ih, List.filter_cons]
      split
      · exact List.dlookup_cons_ne _ (⟨k, p⟩ : Positions.Entry) hk
      · rfl

theorem filter_kerase_of_pos {p : Positions.Entry → Bool} {k : AccountId × Symbol}
    (hp : ∀ e : Positions.Entry, e.1 = k → p e = true) (es : List Positions.Entry) :
    (es.kerase k).filter p = (es.filter p).kerase k := by
  induction es with
  | nil => rfl
  | cons e es ih =>
    by_cases he : k = e.1
    · rw [List.kerase_cons_eq he, List.filter_cons_of_pos (hp e he.symm), List.kerase_cons_eq he]
    · rw [List.kerase_cons_ne he, List.filter_cons, List.filter_cons, ih]
      split
      · rw [List.kerase_cons_ne he]
      · rfl

theorem SameView.lookup (h : SameView a shard shard') (symbol : Symbol) :
    shard.positions.lookup (a, symbol) = shard'.positions.lookup (a, symbol) := by
  show shard.positions.entries.dlookup _ = shard'.positions.entries.dlookup _
  rw [← dlookup_filter, ← dlookup_filter a symbol shard'.positions.entries]
  exact congrArg _ h.entries

theorem SameView.insert (h : SameView a shard shard') (symbol : Symbol) (pos : Position) :
    SameView a { shard with positions := shard.positions.insert (a, symbol) pos }
      { shard' with positions := shard'.positions.insert (a, symbol) pos } := by
  have hkey : ∀ e : Positions.Entry, e.1 = (a, symbol) → decide (e.1.1 = a) = true := fun e he => by
    rw [he]
    exact decide_eq_true rfl
  refine ⟨?_, h.deposit, h.state, h.limits⟩
  simp only [RiskShard.entriesOf]
  rw [AList.entries_insert, AList.entries_insert, List.filter_cons_of_pos (by simp), List.filter_cons_of_pos (by simp),
    filter_kerase_of_pos hkey, filter_kerase_of_pos hkey]
  exact congrArg (fun es => _ :: List.kerase _ es) h.entries

theorem SameView.recomputeMargin (h : SameView a shard shard') (hiter : iter.Agree iter') (markPrices : MarkPrices) :
    shard.recomputeMargin iter a markPrices = shard'.recomputeMargin iter' a markPrices := by
  have hfold : ∀ (shard : RiskShard) (es : List Positions.Entry) (sums : Int64 × Int64),
      es.foldl (fun sums e => if e.1.1 = a then shard.addPosition markPrices sums e else sums) sums =
        (es.filter fun e => e.1.1 = a).foldl (shard.addPosition markPrices) sums := fun shard es sums => by
    rw [List.foldl_filter]
    simp only [decide_eq_true_eq]
  have hadd : shard.addPosition markPrices = shard'.addPosition markPrices := by
    funext sums e
    rw [RiskShard.addPosition, RiskShard.addPosition, h.limits]
  unfold RiskShard.recomputeMargin
  rw [h.deposit]
  simp only [hfold]
  rw [hiter _ _ a h.entries, hadd]

/-! ## One operation -/

theorem update_view (h : SameView a shard shard') (s : AccountRiskState) :
    SameView a (shard.update a s) (shard'.update a s) := by
  refine ⟨h.entries, h.deposit, ?_, h.limits⟩
  have hstate := h.state
  unfold AccountRiskTable.get at hstate
  show (shard.states.set a.raw.toNat s)[a.raw.toNat]? = (shard'.states.set a.raw.toNat s)[a.raw.toNat]?
  rw [List.getElem?_set_self', List.getElem?_set_self', hstate]

theorem update_ne (hne : a ≠ account) (shard : RiskShard) (s : AccountRiskState) :
    SameView a shard (shard.update account s) :=
  ⟨rfl, rfl, (get_set_ne shard.states s hne).symm, rfl⟩

theorem settleRead_view {t : EngineEvent.Trade} {markPrices : MarkPrices} {side : Side}
    {r : RiskShard × AccountRiskState × List InboundCommand} (h : SameView a shard shard') (hiter : iter.Agree iter')
    (hr : shard.settleRead iter t markPrices a side = some r) :
    ∃ next, shard'.settleRead iter' t markPrices a side = some (next, r.2) ∧ SameView a r.1 next := by
  obtain ⟨pos, hpos, hr⟩ := Option.bind_eq_some_iff.mp hr
  obtain ⟨sums, hsums, hr⟩ := Option.bind_eq_some_iff.mp hr
  obtain ⟨s, hs, hr⟩ := Option.bind_eq_some_iff.mp hr
  cases hr
  have hfilled := h.insert t.symbol pos
  rw [h.lookup] at hpos
  rw [hfilled.recomputeMargin hiter] at hsums
  refine ⟨_, ?_, hfilled⟩
  simp only [RiskShard.settleRead, hpos, Option.bind_eq_bind, Option.bind_some, hsums]
  exact Option.bind_eq_some_iff.mpr ⟨s, h.state ▸ hs, rfl⟩

theorem localIdx_lt (howns : shard.owns a = true) : shard.localIdx a < shard.initialDeposits.length := by
  obtain ⟨deposit, hget, -⟩ := deposit_ok howns
  exact (List.getElem?_eq_some_iff.mp hget).1

theorem seedRead_eq (howns : shard.owns a = true) (amount : Int64) :
    shard.seedRead a amount = (shard.states.get a).map fun s =>
      ({ shard with
          initialDeposits := shard.initialDeposits.set (shard.localIdx a) amount
          length_deposits := shard.length_set_deposits (shard.localIdx a) amount },
        { s with balance := amount, usedMargin := 0 }) := by
  simp only [RiskShard.seedRead]
  rw [if_neg (Nat.not_le.mpr (localIdx_lt howns))]
  cases shard.states.get a <;> rfl

theorem seedRead_view {amount : Int64} {r : RiskShard × AccountRiskState} (h : SameView a shard shard')
    (howns : shard.owns a = true) (howns' : shard'.owns a = true) (hr : shard.seedRead a amount = some r) :
    ∃ next, shard'.seedRead a amount = some (next, r.2) ∧ SameView a r.1 next := by
  rw [seedRead_eq howns] at hr
  obtain ⟨s, hs, rfl⟩ := Option.map_eq_some_iff.mp hr
  have hnext := seedRead_eq howns' amount
  rw [← h.state, hs, Option.map_some] at hnext
  refine ⟨_, hnext, h.entries, ?_, h.state, h.limits⟩
  show (shard.initialDeposits.set (shard.localIdx a) amount)[shard.localIdx a]? =
    (shard'.initialDeposits.set (shard'.localIdx a) amount)[shard'.localIdx a]?
  rw [List.getElem?_set_self (localIdx_lt howns), List.getElem?_set_self (localIdx_lt howns')]

theorem applyOp_unowned (howns : shard.owns op.account = false) : shard.applyOp iter op = some (shard, []) := if_pos howns

theorem applyOp_owned (howns : shard.owns op.account = true) :
    shard.applyOp iter op = (shard.opRead iter op).map fun r => (r.1.update op.account r.2.1, r.2.2) :=
  if_neg (by rw [howns]; decide)

/-- An operation depends on what the shard knows of the account. -/
theorem applyOp_view (h : SameView op.account shard shard') (hiter : iter.Agree iter')
    (howns : shard.owns op.account = true) (howns' : shard'.owns op.account = true) (hr : shard.applyOp iter op = some r) :
    ∃ next, shard'.applyOp iter' op = some (next, r.2) ∧ SameView op.account r.1 next := by
  rw [applyOp_owned howns] at hr
  obtain ⟨x, hx, rfl⟩ := Option.map_eq_some_iff.mp hr
  have hread : ∃ next, shard'.opRead iter' op = some (next, x.2) ∧ SameView op.account x.1 next := by
    cases op with
    | seed account amount =>
      obtain ⟨y, hy, rfl⟩ := Option.map_eq_some_iff.mp hx
      obtain ⟨next, hnext, hview⟩ := seedRead_view h howns howns' hy
      exact ⟨next, Option.map_eq_some_iff.mpr ⟨_, hnext, rfl⟩, hview⟩
    | settle t markPrices account side => exact settleRead_view h hiter hx
  obtain ⟨next, hnext, hview⟩ := hread
  refine ⟨next.update op.account x.2.1, ?_, update_view hview _⟩
  rw [applyOp_owned howns', hnext]
  rfl

/-- All positions are of accounts that the shard owns. -/
def OnlyOwned (shard : RiskShard) : Prop := ∀ e ∈ shard.positions.entries, shard.owns e.1.1 = true

/-- What an operation leaves alone. -/
structure Frame (account : AccountId) (shard shard' : RiskShard) (cmds : List InboundCommand) : Prop where
  owns : shard'.owns = shard.owns
  view : ∀ a, a ≠ account → SameView a shard shard'
  onlyOwned : shard.owns account = true → OnlyOwned shard → OnlyOwned shard'
  cmds : ∀ a, a ≠ account → cmds.filter (·.liquidates a) = []

theorem settleRead_frame {t : EngineEvent.Trade} {markPrices : MarkPrices} {side : Side}
    {r : RiskShard × AccountRiskState × List InboundCommand}
    (hr : shard.settleRead iter t markPrices account side = some r) : Frame account shard r.1 r.2.2 := by
  obtain ⟨pos, hpos, hr⟩ := Option.bind_eq_some_iff.mp hr
  obtain ⟨sums, hsums, hr⟩ := Option.bind_eq_some_iff.mp hr
  obtain ⟨s, hs, hr⟩ := Option.bind_eq_some_iff.mp hr
  cases hr
  refine ⟨rfl, fun a hne => ⟨?_, rfl, rfl, rfl⟩, fun howns honly e he => ?_, fun a hne => ?_⟩
  · have hkey : ∀ e : Positions.Entry, e.1 = (account, t.symbol) → decide (e.1.1 = a) = false := fun e he => by
      rw [he]
      exact decide_eq_false hne.symm
    simp only [RiskShard.entriesOf]
    rw [AList.entries_insert, List.filter_cons_of_neg (by rw [hkey _ rfl]; decide), filter_kerase hkey]
  · rw [AList.entries_insert] at he
    rcases List.mem_cons.mp he with rfl | he
    · exact howns
    · exact honly e ((List.kerase_sublist _ _).subset he)
  · dsimp only
    split
    · exact List.filter_cons_of_neg (by simp [InboundCommand.liquidates, hne.symm])
    · rfl

theorem seedRead_frame {amount : Int64} {r : RiskShard × AccountRiskState} (howns : shard.owns account = true)
    (hr : shard.seedRead account amount = some r) : Frame account shard r.1 [] := by
  rw [seedRead_eq howns] at hr
  obtain ⟨s, hs, rfl⟩ := Option.map_eq_some_iff.mp hr
  refine ⟨rfl, fun a hne => ⟨rfl, ?_, rfl, rfl⟩, fun _ honly => honly, fun _ _ => rfl⟩
  have hidx : shard.localIdx account ≠ shard.localIdx a := fun h => hne (by
    obtain ⟨x⟩ := a
    obtain ⟨y⟩ := account
    have hraw : y = x := by
      have := UInt64.toNat_inj.mp h
      simpa using this
    rw [hraw])
  exact (List.getElem?_set_ne hidx).symm

theorem applyOp_frame (hr : shard.applyOp iter op = some r) : Frame op.account shard r.1 r.2 := by
  unfold RiskShard.applyOp at hr
  split at hr
  · cases hr
    exact ⟨rfl, fun a _ => .refl a shard, fun _ honly => honly, fun _ _ => rfl⟩
  rename_i howns
  rw [Bool.not_eq_false] at howns
  obtain ⟨x, hx, rfl⟩ := Option.map_eq_some_iff.mp hr
  have hread : Frame op.account shard x.1 x.2.2 := by
    cases op with
    | seed account amount =>
      obtain ⟨y, hy, rfl⟩ := Option.map_eq_some_iff.mp hx
      exact seedRead_frame howns hy
    | settle t markPrices account side => exact settleRead_frame hx
  exact ⟨hread.owns, fun a hne => (hread.view a hne).trans (update_ne hne _ _), hread.onlyOwned, hread.cmds⟩

theorem applyOp_owns (hr : shard.applyOp iter op = some r) : r.1.owns = shard.owns := (applyOp_frame hr).owns

theorem applyOp_onlyOwned (hr : shard.applyOp iter op = some r) (honly : OnlyOwned shard) : OnlyOwned r.1 := by
  cases howns : shard.owns op.account with
  | false =>
    rw [applyOp_unowned howns] at hr
    cases hr
    exact honly
  | true => exact (applyOp_frame hr).onlyOwned howns honly

/-! ## Parts of a shard -/

/-- The accounts of `part` are of `whole`, which knows the same of them. -/
structure Part (whole part : RiskShard) : Prop where
  owns : ∀ a, part.owns a = true → whole.owns a = true
  view : ∀ a, part.owns a = true → SameView a whole part

/-- An operation of the whole shard is followed by its part. -/
theorem applyOp_part (hiter : iter.Agree iter) (h : Part whole part) (hr : whole.applyOp iter op = some (whole', cmds)) :
    ∃ part' cmds', part.applyOp iter op = some (part', cmds') ∧ Part whole' part' ∧
      ∀ a, part.owns a = true → cmds.filter (·.liquidates a) = cmds'.filter (·.liquidates a) := by
  have hwhole := applyOp_frame hr
  have hnext : ∃ part' cmds', part.applyOp iter op = some (part', cmds') ∧
      (part.owns op.account = true → SameView op.account whole' part' ∧ cmds = cmds') := by
    cases howns : part.owns op.account with
    | false => exact ⟨part, [], applyOp_unowned howns, fun h => nomatch h⟩
    | true =>
      obtain ⟨part', hpart, hview⟩ := applyOp_view (h.view _ howns) hiter (h.owns _ howns) howns hr
      exact ⟨part', cmds, hpart, fun _ => ⟨hview, rfl⟩⟩
  obtain ⟨part', cmds', hpart, hop⟩ := hnext
  have hframe := applyOp_frame hpart
  refine ⟨part', cmds', hpart, ⟨fun a ha => ?_, fun a ha => ?_⟩, fun a ha => ?_⟩
  · rw [hframe.owns] at ha
    rw [hwhole.owns]
    exact h.owns a ha
  · rw [hframe.owns] at ha
    by_cases hne : a = op.account
    · subst hne
      exact (hop ha).1
    · exact (hwhole.view a hne).symm.trans ((h.view a ha).trans (hframe.view a hne))
  · by_cases hne : a = op.account
    · subst hne
      rw [(hop ha).2]
    · rw [hwhole.cmds a hne, hframe.cmds a hne]

/-- If an operation fails, it does so in every part that owns the account. -/
theorem applyOp_none (hiter : iter.Agree iter) (hr : whole.applyOp iter op = none) :
    whole.owns op.account = true ∧ ∀ part, Part whole part → part.owns op.account = true → part.applyOp iter op = none := by
  constructor
  · by_contra howns
    rw [Bool.not_eq_true] at howns
    rw [applyOp_unowned howns] at hr
    cases hr
  · intro part h howns
    by_contra hpart
    obtain ⟨r, hpart⟩ := Option.ne_none_iff_exists'.mp hpart
    obtain ⟨whole', hwhole, -⟩ := applyOp_view (h.view _ howns).symm hiter howns (h.owns _ howns) hpart
    rw [hwhole] at hr
    cases hr

/-! ## Operations one after the other -/

theorem runOps_cons (iter : IterOrder) (r : RiskShard × List InboundCommand) (op : AccountOp) (ops : List AccountOp) :
    RiskShard.runOps iter r (op :: ops) =
      (r.1.applyOp iter op).bind fun r' => RiskShard.runOps iter (r'.1, r.2 ++ r'.2) ops := by
  unfold RiskShard.runOps
  rw [List.foldlM_cons, Option.bind_eq_bind, Option.bind_map]
  rfl

theorem runOps_append (iter : IterOrder) (r : RiskShard × List InboundCommand) (ops ops' : List AccountOp) :
    RiskShard.runOps iter r (ops ++ ops') = (RiskShard.runOps iter r ops).bind (RiskShard.runOps iter · ops') :=
  List.foldlM_append

theorem runOps_keeps (h : RiskShard.runOps iter r ops = some r') :
    r'.1.owns = r.1.owns ∧ (OnlyOwned r.1 → OnlyOwned r'.1) ∧
      ∀ a, r.1.owns a = false → SameView a r.1 r'.1 ∧ r'.2.filter (·.liquidates a) = r.2.filter (·.liquidates a) := by
  induction ops generalizing r with
  | nil =>
    cases h
    exact ⟨rfl, id, fun a _ => ⟨.refl a _, rfl⟩⟩
  | cons op ops ih =>
    rw [runOps_cons] at h
    obtain ⟨next, hnext, h⟩ := Option.bind_eq_some_iff.mp h
    obtain ⟨howns, honly, hview⟩ := ih h
    have howns₁ := applyOp_owns hnext
    refine ⟨howns.trans howns₁, fun h => honly (show OnlyOwned next.1 from applyOp_onlyOwned hnext h), fun a ha => ?_⟩
    obtain ⟨hview, hcmds⟩ := hview a (by rw [howns₁]; exact ha)
    have hone : SameView a r.1 next.1 ∧ next.2.filter (·.liquidates a) = [] := by
      by_cases hne : a = op.account
      · subst hne
        rw [applyOp_unowned ha] at hnext
        cases hnext
        exact ⟨.refl _ _, rfl⟩
      · exact ⟨(applyOp_frame hnext).view a hne, (applyOp_frame hnext).cmds a hne⟩
    refine ⟨hone.1.trans hview, hcmds.trans ?_⟩
    rw [List.filter_append, hone.2, List.append_nil]

theorem runOps_part (hiter : iter.Agree iter) (h : Part whole part)
    (hcmds : ∀ a, part.owns a = true → cmds.filter (·.liquidates a) = cmds'.filter (·.liquidates a))
    (hr : RiskShard.runOps iter (whole, cmds) ops = some r) :
    ∃ r', RiskShard.runOps iter (part, cmds') ops = some r' ∧ Part r.1 r'.1 ∧
      ∀ a, part.owns a = true → r.2.filter (·.liquidates a) = r'.2.filter (·.liquidates a) := by
  induction ops generalizing whole part cmds cmds' with
  | nil =>
    cases hr
    exact ⟨_, rfl, h, hcmds⟩
  | cons op ops ih =>
    rw [runOps_cons] at hr
    obtain ⟨next, hnext, hr⟩ := Option.bind_eq_some_iff.mp hr
    obtain ⟨part', new, hpart, h', hnew⟩ := applyOp_part hiter h hnext
    have howns := applyOp_owns hpart
    have hall : ∀ a, part'.owns a = true →
        (cmds ++ next.2).filter (·.liquidates a) = (cmds' ++ new).filter (·.liquidates a) := fun a ha => by
      rw [howns] at ha
      rw [List.filter_append, List.filter_append, hcmds a ha, hnew a ha]
    obtain ⟨r', hr', hres⟩ := ih h' hall hr
    rw [howns] at hres
    refine ⟨r', ?_, hres⟩
    rw [runOps_cons, hpart]
    exact hr'

/-- If operations fail, they do so in every part that owns a certain account. -/
theorem runOps_none (hiter : iter.Agree iter) (hr : RiskShard.runOps iter r ops = none) :
    ∃ a, r.1.owns a = true ∧
      ∀ part cmds', Part r.1 part → part.owns a = true → RiskShard.runOps iter (part, cmds') ops = none := by
  induction ops generalizing r with
  | nil => cases hr
  | cons op ops ih =>
    rw [runOps_cons] at hr
    cases hnext : r.1.applyOp iter op with
    | none =>
      obtain ⟨howns, hparts⟩ := applyOp_none hiter hnext
      refine ⟨op.account, howns, fun part cmds' h hpart => ?_⟩
      rw [runOps_cons, hparts part h hpart]
      rfl
    | some next =>
      rw [hnext] at hr
      obtain ⟨a, howns, hparts⟩ := ih hr
      rw [applyOp_owns hnext] at howns
      refine ⟨a, howns, fun part cmds' h hpart => ?_⟩
      obtain ⟨part', new, hpart', h', -⟩ := applyOp_part hiter h hnext
      rw [runOps_cons, hpart']
      exact hparts part' _ h' (by rw [applyOp_owns hpart']; exact hpart)

end Proof.Sharding

end MRE
