import MatchRiskEngine.Proof.RiskEngine.Fill

/-!
# Realised profit and the average price

As long as no signed 64-bit number overflows, wraps or saturates, a fill does to
a position what `CostBasis.fill` does (`applyFill_exact`). So the realised profit
is the cash flow with the position at its average price, up to one remainder for
each fill (`realisedPnl_bound`), and the average lies between the prices that were
paid (`avgEntryPrice_between`).

Numbers that are representable may still not be stored (`storesExactly_iff`): the
mean is divided by the absolute value of the quantity, which is negative for the
least number (`increase_exact_iff`), and a profit is narrowed before it is added
(`reduce_exact_iff`).
-/

namespace MRE.Proof.Risk

open Position

variable {p : Position} {f : Position.Fill}

/-! ## One fill -/

theorem FillExact.prevQtyAbs (h : p.FillExact f) : Int64.Fits p.netQty.toInt.natAbs := by
  by_cases hnet : p.netQty.toInt = 0
  · rw [hnet]
    decide
  by_cases hsame : 0 < p.netQty.toInt ↔ 0 < f.signedQty
  · exact (h.increase hnet hsame).prevQtyAbs
  · exact (h.reduce hnet hsame).prevQtyAbs

theorem FillExact.newQtyAbs (h : p.FillExact f) : Int64.Fits (p.netQty.toInt + f.signedQty).natAbs := by
  by_cases hnet : p.netQty.toInt = 0
  · rw [hnet, Int.zero_add, natAbs_signedQty]
    exact h.qty
  by_cases hsame : 0 < p.netQty.toInt ↔ 0 < f.signedQty
  · exact (h.increase hnet hsame).newQtyAbs
  · have h₁ := (h.reduce hnet hsame).signedQtyAbs.2
    have h₂ := (h.reduce hnet hsame).prevQtyAbs.2
    exact ⟨by omega, by omega⟩

theorem applyFill_realisedPnl {p' : Position} (h : p.FillExact f) (hfill : p.applyFill f.side f.price f.qty = some p') :
    p'.realisedPnl.toInt = (p.filled f).pnl := by
  unfold Position.filled
  by_cases hnet : p.netQty.toInt = 0
  · rw [applyFill_open ((Int64.eq_zero_iff _).mpr hnet) f] at hfill
    cases hfill
    rw [CostBasis.fill_open (show p.exact.net = 0 from hnet)]
    rfl
  have hne := mt (Int64.eq_zero_iff _).mp hnet
  by_cases hsame : 0 < p.netQty.toInt ↔ 0 < f.signedQty
  · have hnewAbs : ¬ (p.netQty + signedQty f.side f.qty).abs = 0 := by
      refine Int64.abs_ne_zero fun hzero => ?_
      rw [Int64.eq_zero_iff, toInt_newQty h.newQty] at hzero
      omega
    rw [applyFill_increase hne ((sameSign_iff h.qty).mpr hsame) hnewAbs] at hfill
    cases hfill
    rw [CostBasis.fill_increase (show p.exact.net ≠ 0 from hnet) hsame]
    rfl
  · obtain ⟨-, hprev, -, hunit, hdelta, hpnl⟩ := h.reduce hnet hsame
    rw [applyFill_reduce hne (mt (sameSign_iff h.qty).mp hsame)] at hfill
    cases hfill
    rw [CostBasis.fill_reduce (show p.exact.net ≠ 0 from hnet) hsame]
    rw [toInt_realisedPnl h.qty hprev hnet hunit, Int64.bmod_of_range hdelta.1 hdelta.2]
    exact Int64.clamp_of_range hpnl.1 hpnl.2

/-- An exact fill does what it does over unbounded integers. -/
theorem applyFill_exact (h : p.FillExact f) : ∃ p', p.applyFill f.side f.price f.qty = some p' ∧
    p'.exact = p.exact.fill 100000000 f.signedQty f.price.raw.toInt := by
  obtain ⟨p', hfill, hnet, havg⟩ := applyFill_netAvg h.qty (FillExact.prevQtyAbs h) (FillExact.newQtyAbs h)
  refine ⟨p', hfill, ?_⟩
  rw [Position.exact, hnet, havg, applyFill_realisedPnl h hfill]
  rfl

/-! ## Many fills -/

/-- The fill, over unbounded integers. -/
def exactFill (f : Position.Fill) : Int × Int := (f.signedQty, f.price.raw.toInt)

theorem trail_exact {fs : List Position.Fill} (h : p.FillsExact fs) : ∃ ps, p.trail fs = some ps ∧
    ps.map Position.exact = p.exact.trail 100000000 (fs.map exactFill) := by
  induction fs generalizing p with
  | nil => exact ⟨[], rfl, rfl⟩
  | cons f fs ih =>
    obtain ⟨p', hfill, hexact⟩ := applyFill_exact h.1
    obtain ⟨ps, hps, htrail⟩ := ih (h.2 p' hfill)
    refine ⟨p' :: ps, by simp only [Position.trail, hfill, hps, Option.bind_eq_bind, Option.bind_some], ?_⟩
    rw [List.map_cons, List.map_cons, CostBasis.trail, htrail, hexact]
    rfl

/-- The realised profit is the cash flow with the position at its average entry
price, up to one remainder for each fill: of the division by the position, or of
the one by the scale. -/
theorem realisedPnl_bound (fs : List Position.Fill) (h : Position.default.FillsExact fs) :
    ∃ ps, Position.default.trail fs = some ps ∧
      (100000000 * (ps.getLastD .default).realisedPnl.toInt - (cashFlow fs +
        (ps.getLastD .default).netQty.toInt * (ps.getLastD .default).avgEntryPrice.toInt)).natAbs ≤
          (ps.map fun p => max p.netQty.toInt.natAbs 100000000).sum := by
  obtain ⟨ps, hps, htrail⟩ := trail_exact h
  refine ⟨ps, hps, ?_⟩
  have hbound := CostBasis.imbalance_trail (by decide : (100000000 : Int) ≠ 0) Position.default.exact (fs.map exactFill) 0
  have hlast : (ps.map Position.exact).getLastD Position.default.exact = (ps.getLastD .default).exact :=
    List.getLastD_map
  have hcash : CostBasis.cashFlow (fs.map exactFill) = cashFlow fs := by
    rw [CostBasis.cashFlow, cashFlow, List.map_map]
    rfl
  have hstart : Position.default.exact.imbalance 100000000 0 = 0 := rfl
  rw [← htrail, hlast, hcash, List.map_map, Int.zero_add, hstart, Int.sub_zero] at hbound
  exact hbound

/-- Buy, buy more, sell some, and sell through zero. -/
def demoFills : List Position.Fill :=
  [⟨.buy, ⟨10000000000⟩, ⟨300000000⟩⟩, ⟨.buy, ⟨10100000001⟩, ⟨400000000⟩⟩, ⟨.sell, ⟨11000000007⟩, ⟨100000001⟩⟩,
    ⟨.sell, ⟨9000000000⟩, ⟨900000000⟩⟩]

theorem realisedPnl_bound_demo : Position.default.FillsExact demoFills ∧
    ∃ ps, Position.default.trail demoFills = some ps ∧
      (100000000 * (ps.getLastD .default).realisedPnl.toInt - (cashFlow demoFills +
        (ps.getLastD .default).netQty.toInt * (ps.getLastD .default).avgEntryPrice.toInt)).natAbs ≤
          (ps.map fun p => max p.netQty.toInt.natAbs 100000000).sum :=
  ⟨by decide, realisedPnl_bound demoFills (by decide)⟩

/-! ## The average entry price -/

/-- A position's net quantity and average price. -/
def netAvg (p : Position) : Int × Int := (p.netQty.toInt, p.avgEntryPrice.toInt)

/-- The same over unbounded integers. -/
def exactNetAvg (p : CostBasis) : Int × Int := (p.net, p.avg)

theorem exactNetAvg_fill {p q : CostBasis} (h : exactNetAvg p = exactNetAvg q) (scale qty price : Int) :
    exactNetAvg (p.fill scale qty price) = exactNetAvg (q.fill scale qty price) := by
  obtain ⟨hnet, havg⟩ := Prod.mk.inj h
  unfold CostBasis.fill
  rw [hnet, havg]
  split
  · rfl
  · split <;> rfl

theorem trail_netAvg {fs : List Position.Fill} {p : Position} {q : CostBasis} (hpq : netAvg p = exactNetAvg q)
    (hqty : ∀ f ∈ fs, f.qty.raw.toNat < 2 ^ 63)
    (hnet : ∀ n, (p.netQty.toInt + netAfter (fs.take n)).natAbs < 2 ^ 63) :
    ∃ ps, p.trail fs = some ps ∧ ps.map netAvg = (q.trail 100000000 (fs.map exactFill)).map exactNetAvg := by
  induction fs generalizing p q with
  | nil => exact ⟨[], rfl, rfl⟩
  | cons f fs ih =>
    have hfits : ∀ {n : Nat}, n < 2 ^ 63 → Int64.Fits n := fun h => ⟨by omega, by omega⟩
    have hprev : p.netQty.toInt.natAbs < 2 ^ 63 := by
      have := hnet 0
      rwa [List.take_zero, netAfter, List.map_nil, List.sum_nil, Int.add_zero] at this
    have hsum : ∀ n, netAfter ((f :: fs).take (n + 1)) = f.signedQty + netAfter (fs.take n) := fun n => by
      rw [List.take_succ_cons, netAfter, List.map_cons, List.sum_cons, ← netAfter]
    have hnew : (p.netQty.toInt + f.signedQty).natAbs < 2 ^ 63 := by
      have := hnet 1
      rwa [hsum, List.take_zero, netAfter, List.map_nil, List.sum_nil, Int.add_zero] at this
    obtain ⟨p', hfill, hnet', havg'⟩ := applyFill_netAvg (hfits (hqty f List.mem_cons_self)) (hfits hprev) (hfits hnew)
    have hstep : netAvg p' = exactNetAvg (q.fill 100000000 f.signedQty f.price.raw.toInt) := by
      rw [← exactNetAvg_fill (show exactNetAvg p.exact = exactNetAvg q from hpq)]
      exact Prod.ext hnet' havg'
    have hnets : ∀ n, (p'.netQty.toInt + netAfter (fs.take n)).natAbs < 2 ^ 63 := fun n => by
      have h := hnet (n + 1)
      rwa [hsum, ← Int.add_assoc, ← show p'.netQty.toInt = p.netQty.toInt + f.signedQty from
        hnet'.trans (CostBasis.net_fill _ _ _ _)] at h
    obtain ⟨ps, hps, hmap⟩ := ih hstep (fun f' hf' => hqty f' (List.mem_cons_of_mem _ hf')) hnets
    refine ⟨p' :: ps, by simp only [Position.trail, hfill, hps, Option.bind_eq_bind, Option.bind_some], ?_⟩
    rw [List.map_cons, List.map_cons, CostBasis.trail, List.map_cons, hstep, hmap]
    rfl

theorem Between.min_max {x : Int} {prices : List Int} (h : CostBasis.Between x prices) :
    ∃ lo hi, prices.min? = some lo ∧ prices.max? = some hi ∧ lo ≤ x ∧ x ≤ hi := by
  obtain ⟨lo, hlo, hi, hhi, h₁, h₂⟩ := h
  obtain ⟨least, hleast⟩ := Option.ne_none_iff_exists'.mp fun h => List.ne_nil_of_mem hlo (List.min?_eq_none_iff.mp h)
  obtain ⟨most, hmost⟩ := Option.ne_none_iff_exists'.mp fun h => List.ne_nil_of_mem hhi (List.max?_eq_none_iff.mp h)
  refine ⟨least, most, hleast, hmost, ?_, ?_⟩
  · exact Int.le_trans ((List.min?_eq_some_iff.mp hleast).2 lo hlo) h₁
  · exact Int.le_trans h₂ ((List.max?_eq_some_iff.mp hmost).2 hi hhi)

/-- The average entry price of an open position lies between the lowest and the
highest price of the fills that opened or increased it, and is the one over
unbounded integers. -/
theorem avgEntryPrice_between (fs : List Position.Fill) (h : Moderate fs) :
    ∃ ps, Position.default.trail fs = some ps ∧
      ps.map netAvg = (Position.default.exact.trail 100000000 (fs.map exactFill)).map exactNetAvg ∧
      ((ps.getLastD .default).netQty ≠ 0 →
        ∃ lo hi, (entryPrices fs).min? = some lo ∧ (entryPrices fs).max? = some hi ∧
          lo ≤ (ps.getLastD .default).avgEntryPrice.toInt ∧ (ps.getLastD .default).avgEntryPrice.toInt ≤ hi) := by
  have hstart : netAvg Position.default = exactNetAvg Position.default.exact := rfl
  obtain ⟨ps, hps, hmap⟩ := trail_netAvg hstart h.qty fun n => by
    rw [show Position.default.netQty.toInt = 0 from rfl, Int.zero_add]
    exact h.netQty n
  refine ⟨ps, hps, hmap, fun hnet => ?_⟩
  have hlast : netAvg (ps.getLastD .default) =
      exactNetAvg ((Position.default.exact.trail 100000000 (fs.map exactFill)).getLastD Position.default.exact) := by
    have h₁ : (ps.map netAvg).getLastD (netAvg .default) = netAvg (ps.getLastD .default) := List.getLastD_map
    rw [← h₁, hmap, hstart]
    exact List.getLastD_map
  obtain ⟨hnet', havg'⟩ := Prod.mk.inj hlast
  have hempty : Position.default.exact.net ≠ 0 → CostBasis.Between Position.default.exact.avg [] :=
    fun hne => absurd rfl hne
  have hbetween := CostBasis.between_trail 100000000 (fs.map exactFill) Position.default.exact hempty
    (by rw [← hnet']; exact mt (Int64.eq_zero_iff _).mpr hnet)
  rw [← havg'] at hbetween
  exact Between.min_max hbetween

/-- Sell at two negative prices, buy some back, and buy through zero twice. -/
def negativeFills : List Position.Fill :=
  [⟨.sell, ⟨-7⟩, ⟨3⟩⟩, ⟨.sell, ⟨-12⟩, ⟨4⟩⟩, ⟨.buy, ⟨100⟩, ⟨2⟩⟩, ⟨.buy, ⟨-3⟩, ⟨9⟩⟩, ⟨.buy, ⟨-4⟩, ⟨1⟩⟩]

theorem moderate_negativeFills : Moderate negativeFills where
  qty := by decide
  netQty n := by
    have hshort : ∀ n < 5, (netAfter (negativeFills.take n)).natAbs < 2 ^ 63 := by decide
    rcases Nat.lt_or_ge n 5 with hn | hn
    · exact hshort n hn
    · rw [List.take_of_length_le hn]
      decide

theorem avgEntryPrice_between_negative : Moderate negativeFills ∧
    ∃ ps, Position.default.trail negativeFills = some ps ∧
      ps.map netAvg = (Position.default.exact.trail 100000000 (negativeFills.map exactFill)).map exactNetAvg ∧
      ((ps.getLastD .default).netQty ≠ 0 →
        ∃ lo hi, (entryPrices negativeFills).min? = some lo ∧ (entryPrices negativeFills).max? = some hi ∧
          lo ≤ (ps.getLastD .default).avgEntryPrice.toInt ∧ (ps.getLastD .default).avgEntryPrice.toInt ≤ hi) :=
  ⟨moderate_negativeFills, avgEntryPrice_between negativeFills moderate_negativeFills⟩

/-- They are the prices of the last two fills. -/
example : entryPrices negativeFills = [-3, -4] := by decide

/-! ## What a fill stores -/

theorem storesExactly_iff_exact {p' : Position} (h : p.applyFill f.side f.price f.qty = some p') :
    p.StoresExactly f ↔ p'.exact = p.filled f := by
  constructor
  · rintro ⟨q, hq, hexact⟩
    rw [h] at hq
    cases hq
    exact hexact
  · exact fun hexact => ⟨p', h, hexact⟩

theorem open_exact (hnet : p.netQty.toInt = 0) (h : p.Representable f) : p.StoresExactly f := by
  refine ⟨_, applyFill_open ((Int64.eq_zero_iff _).mpr hnet) f, ?_⟩
  have hfits := h.netQty
  rw [Position.filled, CostBasis.fill_open (show p.exact.net = 0 from hnet)] at hfits ⊢
  rw [Position.exact, toInt_newQty hfits]
  rfl

/-! ## Increasing -/

theorem increase_moderate (hqty : 0 < f.qty.raw.toNat) (hnew : Int64.Fits (p.netQty.toInt + f.signedQty))
    (h : p.Increases f) : Int64.Fits f.qty.raw.toNat ∧ Int64.Fits p.netQty.toInt.natAbs := by
  obtain ⟨hnet, hsame⟩ := h
  obtain ⟨h₁, h₂⟩ := hnew
  have habs := natAbs_signedQty f
  exact ⟨⟨by omega, by omega⟩, ⟨by omega, by omega⟩⟩

theorem filled_increase (h : p.Increases f) :
    p.filled f = { net := p.netQty.toInt + f.signedQty, avg := vwap p f, pnl := p.realisedPnl.toInt } :=
  CostBasis.fill_increase (show p.exact.net ≠ 0 from h.1) h.2 _

theorem increase_exact_iff (hqty : 0 < f.qty.raw.toNat) (h : p.Representable f) (hinc : p.Increases f) :
    p.StoresExactly f ↔ p.netQty.toInt + f.signedQty ≠ -2 ^ 63 ∨ (p.filled f).avg = 0 ∨ (p.filled f).avg = -2 ^ 63 := by
  have hfilled := filled_increase hinc
  have hnew : Int64.Fits (p.netQty.toInt + f.signedQty) := by
    have := h.netQty
    rwa [hfilled] at this
  obtain ⟨hfits, hprev⟩ := increase_moderate hqty hnew hinc
  obtain ⟨hnet, hsame⟩ := hinc
  have hval := toInt_newQty hnew
  have hmean := vwap_fits hnet hsame
  have hnewAbs : ¬ (p.netQty + signedQty f.side f.qty).abs = 0 := by
    refine Int64.abs_ne_zero fun hzero => ?_
    rw [Int64.eq_zero_iff, hval] at hzero
    omega
  rw [storesExactly_iff_exact (applyFill_increase (mt (Int64.eq_zero_iff _).mp hnet) ((sameSign_iff hfits).mpr hsame)
    hnewAbs), hfilled, Position.exact, numerator_eq hfits hprev, hval, CostBasis.mk.injEq]
  simp only [true_and, and_true]
  by_cases hleast : p.netQty.toInt + f.signedQty = -2 ^ 63
  · have hdiv : (p.avgEntryPrice.toInt * p.netQty.toInt.natAbs + f.price.raw.toInt * f.signedQty.natAbs).tdiv (-2 ^ 63) =
        -vwap p f := by
      rw [vwap, hleast, ← Int.tdiv_neg]
      rfl
    rw [Int64.toInt_abs_least (hval.trans hleast), hdiv, Int64.toInt_ofInt_neg_iff hmean]
    simp only [hleast, ne_eq, not_true_eq_false, false_or]
  · have habs : (p.netQty + signedQty f.side f.qty).abs.toInt = (p.netQty.toInt + f.signedQty).natAbs := by
      obtain ⟨h₁, h₂⟩ := hnew
      rw [Int64.toInt_abs_of_fits (by rw [hval]; exact ⟨by omega, by omega⟩), hval]
    rw [habs]
    exact iff_of_true (Int64.toInt_ofInt_of_range hmean.1 hmean.2) (.inl hleast)

/-! ## Reducing -/

theorem filled_reduce (h : p.Reduces f) :
    p.filled f =
      { net := p.netQty.toInt + f.signedQty
        avg :=
          if p.netQty.toInt + f.signedQty = 0 then 0
          else if 0 < p.netQty.toInt + f.signedQty ↔ 0 < p.netQty.toInt then p.avgEntryPrice.toInt
          else f.price.raw.toInt
        pnl := p.realisedPnl.toInt + p.pnlDelta f } :=
  CostBasis.fill_reduce (show p.exact.net ≠ 0 from h.1) h.2 _

theorem reduce_exact_iff (h : p.Representable f) (hred : p.Reduces f) (hwraps : ¬ p.WrapsPnl f) :
    p.StoresExactly f ↔ Int64.Fits (p.pnlDelta f) := by
  have hfilled := filled_reduce hred
  obtain ⟨hfits, hleast, hunit⟩ : Int64.Fits f.qty.raw.toNat ∧ p.netQty.toInt ≠ -2 ^ 63 ∧ Int64.Fits (p.pnlPerUnit f) := by
    have hnot := not_and.mp hwraps hred
    rw [not_or, not_or, not_not] at hnot
    exact ⟨⟨by omega, by omega⟩, hnot.2⟩
  have hprev : Int64.Fits p.netQty.toInt.natAbs := by
    have h₁ := p.netQty.le_toInt
    have h₂ := p.netQty.toInt_lt
    exact ⟨by omega, by omega⟩
  have hnew : Int64.Fits (p.netQty.toInt + f.signedQty) := by
    have := h.netQty
    rwa [hfilled] at this
  have hpnl : Int64.Fits (p.realisedPnl.toInt + p.pnlDelta f) := by
    have := h.realisedPnl
    rwa [hfilled] at this
  have hnet := hred.1
  rw [storesExactly_iff_exact (applyFill_reduce (mt (Int64.eq_zero_iff _).mp hnet) (mt (sameSign_iff hfits).mp hred.2)),
    hfilled, Position.exact, toInt_newQty hnew, toInt_avgEntryPrice hnew, toInt_realisedPnl hfits hprev hnet hunit,
    CostBasis.mk.injEq, ← Int64.clamp_add_bmod_iff hpnl]
  simp only [true_and]

/-! ## All fills -/

/-- What a fill is to store is stored, if the profit is not computed from a
number that wrapped: unless the position is increased to the least number with
an average price other than zero, or the profit itself does not fit. -/
theorem storesExactly_iff (p : Position) (f : Position.Fill) (hqty : 0 < f.qty.raw.toNat) (h : p.Representable f)
    (hwraps : ¬ p.WrapsPnl f) :
    p.StoresExactly f ↔
      (p.Increases f → p.netQty.toInt + f.signedQty ≠ -2 ^ 63 ∨ (p.filled f).avg = 0 ∨ (p.filled f).avg = -2 ^ 63) ∧
        (p.Reduces f → Int64.Fits (p.pnlDelta f)) := by
  by_cases hnet : p.netQty.toInt = 0
  · exact iff_of_true (open_exact hnet h) ⟨fun hinc => absurd hnet hinc.1, fun hred => absurd hnet hred.1⟩
  by_cases hsame : 0 < p.netQty.toInt ↔ 0 < f.signedQty
  · rw [increase_exact_iff hqty h ⟨hnet, hsame⟩]
    exact ⟨fun hstores => ⟨fun _ => hstores, fun hred => absurd hsame hred.2⟩, fun hcond => hcond.1 ⟨hnet, hsame⟩⟩
  · rw [reduce_exact_iff h ⟨hnet, hsame⟩ hwraps]
    exact ⟨fun hfits => ⟨fun hinc => absurd hinc.2 hsame, fun _ => hfits⟩, fun hcond => hcond.2 ⟨hnet, hsame⟩⟩

/-- A long position, with some of it sold at a loss. -/
def heldLong : Position := { netQty := 700000000, avgEntryPrice := 10000000000, realisedPnl := 5 }

def sellSome : Position.Fill := ⟨.sell, ⟨9900000000⟩, ⟨300000000⟩⟩

theorem storesExactly_heldLong : 0 < sellSome.qty.raw.toNat ∧ heldLong.Representable sellSome ∧
    ¬ heldLong.WrapsPnl sellSome ∧ heldLong.StoresExactly sellSome := by
  have hrep : heldLong.Representable sellSome := ⟨by decide, by decide, by decide⟩
  have hwraps : ¬ heldLong.WrapsPnl sellSome := by decide
  exact ⟨by decide, hrep, hwraps, (storesExactly_iff heldLong sellSome (by decide) hrep hwraps).mpr (by decide)⟩

/-- A short position of `2^62`, and a buy of `2^63`. -/
def heldShort : Position := { netQty := -4611686018427387904, avgEntryPrice := 10000000000, realisedPnl := 0 }

def buyThrough : Position.Fill := ⟨.buy, ⟨10100000000⟩, ⟨9223372036854775808⟩⟩

/-- The quantity counts as negative, and the flip as an increase: no loss is
realised, and the average price is three times too high. -/
theorem buyThrough_not_exact : 0 < buyThrough.qty.raw.toNat ∧ heldShort.Representable buyThrough ∧
    ¬ heldShort.StoresExactly buyThrough ∧
    heldShort.filled buyThrough = { net := 4611686018427387904, avg := 10100000000, pnl := -4611686018427387904 } ∧
    heldShort.applyFill buyThrough.side buyThrough.price buyThrough.qty =
      some { netQty := 4611686018427387904, avgEntryPrice := 30200000000, realisedPnl := 0 } := by
  have hfill : heldShort.applyFill buyThrough.side buyThrough.price buyThrough.qty =
      some { netQty := 4611686018427387904, avgEntryPrice := 30200000000, realisedPnl := 0 } := rfl
  refine ⟨by decide, ⟨by decide, by decide, by decide⟩, ?_, rfl, hfill⟩
  rw [storesExactly_iff_exact hfill]
  decide

end MRE.Proof.Risk
