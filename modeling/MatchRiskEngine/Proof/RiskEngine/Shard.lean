import Mathlib.Algebra.BigOperators.Group.List.Basic
import Mathlib.Algebra.Order.BigOperators.Group.List
import Mathlib.Algebra.Order.Group.Int
import Mathlib.Data.Fintype.Basic
import Mathlib.Data.Fintype.Card
import MatchRiskEngine.Spec.Margin

/-!
# Equity and margin of an account

The shard's 64-bit arithmetic on a position agrees with the exact one in the margin
if and only if it is small (`SmallMargin`). A larger margin is clipped by the
saturating product before it is divided, and comes out too small (`marginTerm_le`).

`recomputeMargin` adds up two lists of amounts, in the order of the positions. The
sum of the margins is exact if and only if each of them is
(`toInt_usedMargin_iff`); the balance is the equity if no sum on the way to it
saturates, and otherwise only if it goes from one end of the range to the other
(`balance_iff`).
-/

namespace MRE

/-- The margin of a position before it is added up. -/
def Position.marginTerm (p : Position) (mark : Price) (fraction : Int64) : Int64 :=
  (p.notional mark).saturatingMul fraction / 1000000

namespace Proof.Risk

open Position (maxMarginTerm)

variable {p : Position} {mark : Price} {fraction : Int64}

/-- The PnL is exact if the price difference and the PnL fit. -/
theorem unrealisedPnl_ok (hqty : p.netQty ≠ Int64.minValue)
    (hdiff : -2 ^ 63 ≤ mark.raw.toInt - p.avgEntryPrice.toInt ∧ mark.raw.toInt - p.avgEntryPrice.toInt < 2 ^ 63)
    (hpnl : Int64.Fits (p.exactPnl mark.raw.toInt)) : (p.unrealisedPnl mark).toInt = p.exactPnl mark.raw.toInt := by
  unfold Position.unrealisedPnl
  unfold Position.exactPnl at hpnl ⊢
  split
  · rename_i hz
    rw [hz]
    simp
  rename_i hz
  have hz : p.netQty.toInt ≠ 0 := fun e => hz (Int64.toInt_inj.mp e)
  -- the direction is the sign of the quantity
  have hdir : (if 0 < p.netQty then (1 : Int64) else -1).toInt = p.netQty.toInt.sign := by
    rcases Int.lt_or_gt_of_ne hz with hneg | hpos
    · rw [if_neg fun h => absurd ((Int64.pos_iff _).mp h) (Int.not_lt.mpr (Int.le_of_lt hneg)),
        Int.sign_eq_neg_one_of_neg hneg]
      rfl
    · rw [if_pos ((Int64.pos_iff _).mpr hpos), Int.sign_eq_one_of_pos hpos]
      rfl
  dsimp only
  rw [Int64.toInt_mul, hdir, Int64.toInt_ofInt, show Int64.size = 2 ^ 64 from rfl, Int.bmod_mul_bmod, Int64.toInt_sub,
    Int64.bmod_of_range hdiff.1 hdiff.2, Int64.toInt_abs hqty, Int.mul_comm, Int64.bmod_of_range hpnl.1 hpnl.2]

theorem notional_eq (hqty : p.netQty ≠ Int64.minValue) (hmark : 0 ≤ mark.raw.toInt) :
    (p.notional mark).toInt = (p.exactNotional mark.raw.toInt).bmod (2 ^ 64) := by
  rw [Position.notional, Int64.toInt_ofInt, show Int64.size = 2 ^ 64 from rfl, Int64.toInt_abs hqty,
    Int.tdiv_eq_ediv_of_nonneg (Int.mul_nonneg hmark (Int.natCast_nonneg _)), Position.exactNotional, Int.mul_comm]

theorem exactNotional_nonneg (p : Position) (hmark : 0 ≤ mark.raw.toInt) : 0 ≤ p.exactNotional mark.raw.toInt :=
  Int.ediv_nonneg (Int.mul_nonneg (Int.natCast_nonneg _) hmark) (by decide)

theorem toInt_marginTerm (p : Position) (mark : Price) (fraction : Int64) :
    (p.marginTerm mark fraction).toInt = (Int64.clamp ((p.notional mark).toInt * fraction.toInt)).tdiv 1000000 := by
  rw [Position.marginTerm, Int64.toInt_div_of_pos _ (by decide), Int64.toInt_saturatingMul]
  rfl

theorem tdiv_million_le {x : Int} (h : x < 2 ^ 63) : x.tdiv 1000000 ≤ maxMarginTerm := by
  rw [maxMarginTerm]
  rcases Int.le_total 0 x with hx | hx
  · rw [Int.tdiv_eq_ediv_of_nonneg hx]
    omega
  · have hneg := Int.tdiv_nonneg (b := 1000000) (Int.neg_nonneg_of_nonpos hx) (by decide)
    rw [Int.neg_tdiv] at hneg
    omega

/-- A product that is clipped, where the first factor fits. -/
theorem clip_of_lt {n f : Int} (hn : 0 ≤ n) (hn' : n < 2 ^ 63) (hf : 0 ≤ f) :
    (Int64.clamp (n.bmod (2 ^ 64) * f)).tdiv 1000000 = min (n * f / 1000000) maxMarginTerm := by
  rw [Int64.bmod_of_range (by omega) hn']
  exact Int64.clamp_tdiv_of_nonneg (Int.mul_nonneg hn hf) (by decide)

/-- A product whose first factor has wrapped is smaller than the exact one. -/
theorem clip_lt_of_le {n f : Int} (hn : 2 ^ 63 ≤ n) (hf : 0 < f) :
    (Int64.clamp (n.bmod (2 ^ 64) * f)).tdiv 1000000 < n * f / 1000000 := by
  have hbound : (Int64.clamp (n.bmod (2 ^ 64) * f)).tdiv 1000000 ≤ maxMarginTerm :=
    tdiv_million_le (by have := Int64.clamp_le (n.bmod (2 ^ 64) * f); omega)
  by_cases hbig : maxMarginTerm < n * f / 1000000
  · exact Int.lt_of_le_of_lt hbound hbig
  -- the exact value is at most the bound: the fraction is one, and the notional wraps to a negative number
  have hf1 : f = 1 := by
    by_contra hne
    have h2 : 2 ^ 63 * 2 ≤ n * f := Int.mul_le_mul hn (by omega) (by omega) (by omega)
    rw [maxMarginTerm] at hbig
    omega
  rw [hf1, Int.mul_one, maxMarginTerm] at hbig
  rw [hf1, Int.mul_one, Int.mul_one]
  have hwrap : n.bmod (2 ^ 64) = n - 2 ^ 64 := by
    rw [Int.bmod_def]
    split <;> omega
  have hneg : Int64.clamp (n.bmod (2 ^ 64)) ≤ 0 := by
    rw [hwrap]
    unfold Int64.clamp
    omega
  have := Int.tdiv_nonneg (b := 1000000) (Int.neg_nonneg_of_nonpos hneg) (by decide)
  rw [Int.neg_tdiv] at this
  omega

/-- The computed margin is exact for a small margin, and too small
otherwise. -/
theorem marginTerm_le (hqty : p.netQty ≠ Int64.minValue) (hmark : 0 ≤ mark.raw.toInt) (fraction : Int64)
    (hfraction : 0 ≤ fraction.toInt) :
    (p.marginTerm mark fraction).toInt ≤ p.exactMargin mark.raw.toInt fraction.toInt ∧
      ((p.marginTerm mark fraction).toInt = p.exactMargin mark.raw.toInt fraction.toInt ↔
        p.SmallMargin mark.raw.toInt fraction.toInt) := by
  rw [toInt_marginTerm, notional_eq hqty hmark, Position.exactMargin, Position.SmallMargin, Position.exactMargin]
  have hn := exactNotional_nonneg p hmark
  generalize p.exactNotional mark.raw.toInt = n at hn ⊢
  generalize fraction.toInt = f at hfraction ⊢
  rcases Int.lt_or_le n (2 ^ 63) with hlt | hge
  · rw [clip_of_lt hn hlt hfraction]
    omega
  · rcases Int.lt_or_eq_of_le hfraction with hpos | rfl
    · have := clip_lt_of_le hge hpos
      omega
    · simp [Int64.clamp, maxMarginTerm]

end Proof.Risk

end MRE

namespace MRE.Proof.Risk

variable {shard : RiskShard} {markPrices : MarkPrices} {e : Positions.Entry} {account : AccountId} {iter : IterOrder}
  {deposit : Int64}

/-! ## One position -/

theorem exactPnl_zero {p : Position} (h : p.netQty = 0) (mark : Int) : p.exactPnl mark = 0 := by
  rw [Position.exactPnl, h]
  exact Int.zero_mul _

theorem exactNotional_zero {p : Position} (h : p.netQty = 0) (mark : Int) : p.exactNotional mark = 0 := by
  rw [Position.exactNotional, h]
  simp

theorem toInt_unrealisedPnl (he : e.Tame markPrices) :
    (e.2.unrealisedPnl (e.markPrice markPrices)).toInt = e.2.exactPnl (e.mark markPrices) := by
  by_cases hz : e.2.netQty = 0
  · rw [exactPnl_zero hz, Position.unrealisedPnl, if_pos hz]
    rfl
  · have hmark := he.mark hz
    have hdiff := he.diff hz
    have havg := Int64.toInt_lt e.2.avgEntryPrice
    unfold Positions.Entry.mark at hmark hdiff
    exact unrealisedPnl_ok he.qty (by omega) he.pnl

/-- What an entry adds to the used margin. -/
def marginAmount (shard : RiskShard) (markPrices : MarkPrices) (e : Positions.Entry) : Int64 :=
  if e.2.netQty = 0 then 0 else e.2.marginTerm (e.markPrice markPrices) shard.limits.maintenanceMarginFraction

theorem addPosition_eq (shard : RiskShard) (markPrices : MarkPrices) (b u : Int64) (e : Positions.Entry) :
    shard.addPosition markPrices (b, u) e =
      ((e.amounts markPrices).foldl Int64.saturatingAdd b, u.saturatingAdd (marginAmount shard markPrices e)) := by
  unfold RiskShard.addPosition marginAmount
  simp only [Positions.Entry.amounts, List.foldl_cons, List.foldl_nil]
  by_cases hqty : e.2.netQty = 0
  · have hpnl : e.2.unrealisedPnl (e.markPrice markPrices) = 0 := if_pos hqty
    rw [if_pos hqty, if_pos hqty, hpnl, Int64.saturatingAdd_zero, Int64.saturatingAdd_zero]
  · rw [if_neg hqty, if_neg hqty]
    rfl

/-- `i64::MIN / 1_000_000` is the largest amount of a margin. -/
theorem natAbs_marginAmount_le (shard : RiskShard) (markPrices : MarkPrices) (e : Positions.Entry) :
    (marginAmount shard markPrices e).toInt.natAbs ≤ 9223372036854 := by
  unfold marginAmount
  split
  · exact Nat.zero_le _
  · rw [toInt_marginTerm, Int.natAbs_tdiv]
    have hclamp : (Int64.clamp ((e.2.notional (e.markPrice markPrices)).toInt *
        shard.limits.maintenanceMarginFraction.toInt)).natAbs ≤ 2 ^ 63 := by
      unfold Int64.clamp
      omega
    exact Nat.div_le_div_right hclamp

/-- What a tame position adds to the used margin is at most its exact margin,
and is its exact margin if that is small. -/
theorem toInt_marginAmount (hfraction : 0 ≤ shard.limits.maintenanceMarginFraction.toInt) (he : e.Tame markPrices) :
    (marginAmount shard markPrices e).toInt ≤ e.margin markPrices shard.limits.maintenanceMarginFraction.toInt ∧
      ((marginAmount shard markPrices e).toInt = e.margin markPrices shard.limits.maintenanceMarginFraction.toInt ↔
        e.2.SmallMargin (e.mark markPrices) shard.limits.maintenanceMarginFraction.toInt) := by
  unfold marginAmount Positions.Entry.margin
  split
  · rename_i hz
    have hmargin : e.2.exactMargin (e.mark markPrices) shard.limits.maintenanceMarginFraction.toInt = 0 := by
      rw [Position.exactMargin, exactNotional_zero hz]
      simp
    rw [Position.SmallMargin, hmargin, exactNotional_zero hz]
    exact ⟨Int.le_refl 0, iff_of_true rfl ⟨.inr (by decide), by decide⟩⟩
  · rename_i hz
    exact marginTerm_le he.qty (he.mark hz) _ hfraction

/-! ## An account -/

theorem deposit_ok (howns : shard.owns account = true) :
    ∃ deposit, shard.initialDeposits[shard.localIdx account]? = some deposit ∧
      shard.depositOf account = deposit.toInt := by
  obtain ⟨h₁, h₂⟩ := of_decide_eq_true howns
  have hlt : shard.localIdx account < shard.initialDeposits.length := by
    rw [RiskShard.localIdx, shard.length_deposits, UInt64.toNat_sub_of_le _ _ h₁]
    rw [UInt64.le_iff_toNat_le] at h₁
    rw [UInt64.lt_iff_toNat_lt] at h₂
    omega
  refine ⟨_, List.getElem?_eq_getElem hlt, ?_⟩
  rw [RiskShard.depositOf, List.getD_eq_getElem?_getD, List.getElem?_eq_getElem hlt, Option.getD_some]

theorem foldl_addPosition (shard : RiskShard) (markPrices : MarkPrices) (es : List Positions.Entry) (b u : Int64) :
    es.foldl (shard.addPosition markPrices) (b, u) =
      ((es.flatMap fun e => e.amounts markPrices).foldl Int64.saturatingAdd b,
        (es.map (marginAmount shard markPrices)).foldl Int64.saturatingAdd u) := by
  induction es generalizing b u with
  | nil => rfl
  | cons e es ih =>
    rw [List.foldl_cons, addPosition_eq, ih, List.flatMap_cons, List.foldl_append, List.map_cons, List.foldl_cons]

theorem orderedEntries_perm (iter : IterOrder) (shard : RiskShard) (account : AccountId) :
    (shard.orderedEntries iter account).Perm (shard.entriesOf account) := (iter.perm _).filter _

theorem recomputeMargin_eq (hdeposit : shard.initialDeposits[shard.localIdx account]? = some deposit) (iter : IterOrder)
    (markPrices : MarkPrices) :
    shard.recomputeMargin iter account markPrices =
      some (((shard.orderedEntries iter account).flatMap fun e => e.amounts markPrices).foldl Int64.saturatingAdd deposit,
        ((shard.orderedEntries iter account).map (marginAmount shard markPrices)).foldl Int64.saturatingAdd 0) := by
  rw [RiskShard.recomputeMargin, hdeposit, ← foldl_addPosition, RiskShard.orderedEntries, List.foldl_filter]
  simp only [Option.bind_eq_bind, Option.bind_some, decide_eq_true_eq]

theorem length_entriesOf_le (shard : RiskShard) (account : AccountId) : (shard.entriesOf account).length ≤ 65536 := by
  have hnodup : ((shard.entriesOf account).map Sigma.fst).Nodup :=
    List.NodupKeys.sublist List.filter_sublist shard.positions.nodupKeys
  have hsymbols : (((shard.entriesOf account).map Sigma.fst).map fun k => k.2.raw.toFin).Nodup := by
    refine hnodup.map_on fun k hk k' hk' h => ?_
    have haccount : ∀ k ∈ (shard.entriesOf account).map Sigma.fst, k.1 = account := fun k hk => by
      obtain ⟨e, he, rfl⟩ := List.mem_map.mp hk
      exact of_decide_eq_true (List.mem_filter.mp he).2
    obtain ⟨a, ⟨s⟩⟩ := k
    obtain ⟨a', ⟨s'⟩⟩ := k'
    rw [show a = account from haccount _ hk, show a' = account from haccount _ hk', show s = s' from UInt16.toFin_inj.mp h]
  have hle := hsymbols.length_le_card
  rwa [List.length_map, List.length_map, Fintype.card_fin] at hle

theorem marginAmounts_small (shard : RiskShard) (markPrices : MarkPrices) (account : AccountId) :
    Int64.toInt 0 + (((shard.entriesOf account).map (marginAmount shard markPrices)).map fun x => max x.toInt 0).sum <
        2 ^ 63 ∧
      -2 ^ 63 ≤
        Int64.toInt 0 + (((shard.entriesOf account).map (marginAmount shard markPrices)).map fun x => min x.toInt 0).sum := by
  refine Int64.sums_of_small 9223372036854 (fun x hx => ?_) ?_
  · obtain ⟨e, _, rfl⟩ := List.mem_map.mp hx
    exact natAbs_marginAmount_le shard markPrices e
  · rw [List.length_map]
    have := length_entriesOf_le shard account
    omega

theorem marginAmounts_orderFree (shard : RiskShard) (markPrices : MarkPrices) (account : AccountId) :
    Int64.OrderFree 0 ((shard.entriesOf account).map (marginAmount shard markPrices)) :=
  ⟨.inl (marginAmounts_small shard markPrices account).1, .inl (marginAmounts_small shard markPrices account).2⟩

/-- The used margin is the maintenance margin if and only if each position's
margin is small. -/
theorem toInt_usedMargin_iff (hfraction : 0 ≤ shard.limits.maintenanceMarginFraction.toInt)
    (htame : ∀ e ∈ shard.entriesOf account, e.Tame markPrices) (iter : IterOrder) :
    (((shard.orderedEntries iter account).map (marginAmount shard markPrices)).foldl Int64.saturatingAdd 0).toInt =
      shard.maintenanceMargin account markPrices ↔ shard.SmallMargins account markPrices := by
  have hterm := fun e he => toInt_marginAmount hfraction (htame e he)
  obtain ⟨hmax, hmin⟩ := marginAmounts_small shard markPrices account
  rw [← (marginAmounts_orderFree shard markPrices account).foldl_eq ((orderedEntries_perm iter shard account).symm.map _),
    Int64.toInt_foldl_saturatingAdd hmax hmin, Int64.toInt_zero, Int.zero_add, List.map_map,
    RiskShard.maintenanceMargin]
  constructor
  · intro heq e he
    refine (hterm e he).2.mp (Int.le_antisymm (hterm e he).1 (Int.not_lt.mp fun hlt => ?_))
    exact absurd heq (ne_of_lt (List.sum_lt_sum _ _ (fun e he => (hterm e he).1) ⟨e, he, hlt⟩))
  · intro hsmall
    exact congrArg List.sum (List.map_congr_left fun e he => (hterm e he).2.mpr (hsmall e he))

/-- The balance is the equity if its sums are exact, and unless it can go from
one end of the range to the other only then. -/
theorem balance_iff (hdeposit : shard.initialDeposits[shard.localIdx account]? = some deposit)
    (htame : ∀ e ∈ shard.entriesOf account, e.Tame markPrices) (iter : IterOrder) :
    (shard.SumsExact iter account markPrices →
        (((shard.orderedEntries iter account).flatMap fun e => e.amounts markPrices).foldl Int64.saturatingAdd
          deposit).toInt = shard.equity account markPrices) ∧
      (shard.Narrow account markPrices →
        (((shard.orderedEntries iter account).flatMap fun e => e.amounts markPrices).foldl Int64.saturatingAdd
          deposit).toInt = shard.equity account markPrices → shard.SumsExact iter account markPrices) := by
  have hperm := orderedEntries_perm iter shard account
  have hflat : ∀ es : List Positions.Entry, (∀ e ∈ es, e.Tame markPrices) →
      ((es.flatMap fun e => e.amounts markPrices).map Int64.toInt).sum = (es.map (·.pnl markPrices)).sum := by
    intro es hes
    induction es with
    | nil => rfl
    | cons e es ih =>
      obtain ⟨he, hes⟩ := List.forall_mem_cons.mp hes
      rw [List.flatMap_cons, List.map_append, List.sum_append, ih hes, List.map_cons, List.sum_cons]
      simp [Positions.Entry.amounts, Positions.Entry.pnl, toInt_unrealisedPnl he]
  have hequity : shard.equity account markPrices =
      deposit.toInt + (((shard.orderedEntries iter account).flatMap fun e => e.amounts markPrices).map Int64.toInt).sum := by
    rw [hflat _ fun e he => htame e (hperm.subset he), (hperm.map (·.pnl markPrices)).sum_eq, RiskShard.equity,
      RiskShard.depositOf, List.getD_eq_getElem?_getD, hdeposit, Option.getD_some]
  rw [RiskShard.SumsExact, List.getD_eq_getElem?_getD, hdeposit, Option.getD_some, hequity]
  refine ⟨Int64.SumsFit.toInt_foldl, fun hnarrow => Int64.sumsFit_of_toInt_foldl ?_⟩
  have hamounts := hperm.flatMap_right fun e => e.amounts markPrices
  rw [Int64.Narrow, (hamounts.map fun x => max x.toInt 0).sum_eq, (hamounts.map fun x => min x.toInt 0).sum_eq]
  exact hnarrow

end MRE.Proof.Risk
