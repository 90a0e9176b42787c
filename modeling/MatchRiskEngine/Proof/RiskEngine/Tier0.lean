import MatchRiskEngine.Spec.Admission

/-!
# The gateway's check

The check looks at clipped amounts (`check_eq_ok_iff`), so it is sound in exact
arithmetic if and only if they show when a live order is over a limit
(`check_sound_iff`). Under limits below the clipping points they always do
(`limitsShown_of_small`).
-/

namespace MRE

namespace Tier0

/-- The notional, clipped at `maxNotional`; a quantity from `2^63` on counts as
negative. -/
def clippedNotional (price : Price) (qty : Qty) : Int :=
  if qty.raw.toNat < 2 ^ 63 then min (exactNotional price qty) maxNotional
  else -(min (price.raw.toInt * (2 ^ 64 - qty.raw.toNat)) (2 ^ 63) / 100000000)

/-- The margin of the clipped notional, clipped at `maxMargin`. -/
def clippedMargin (limits : RiskLimits) (price : Price) (qty : Qty) : Int :=
  if qty.raw.toNat < 2 ^ 63 then
    min (clippedNotional price qty * limits.initialMarginFraction.toInt / 1000000) maxMargin
  else -credit limits price qty

end Tier0

namespace Proof.Risk

open Tier0

variable {snapshot : AccountRiskState} {limits : RiskLimits} {price : Price} {qty : Qty}

/-! ## The amounts -/

theorem toInt_orderNotional (hprice : 0 < price.raw.toInt) :
    (price.raw.saturatingMul qty.raw.toInt64 / 100000000).toInt = clippedNotional price qty := by
  have hlt := qty.raw.toNat_lt
  rw [Int64.toInt_div_of_pos _ (by decide), Int64.toInt_saturatingMul, UInt64.toInt_toInt64, clippedNotional,
    exactNotional]
  split
  · exact Int64.clamp_tdiv_of_nonneg (Int.mul_nonneg (Int.le_of_lt hprice) (Int.natCast_nonneg _)) (by decide)
  · have hneg : price.raw.toInt * (qty.raw.toNat - 2 ^ 64) ≤ 0 :=
      Int.mul_nonpos_of_nonneg_of_nonpos (Int.le_of_lt hprice) (by omega)
    refine (Int64.clamp_tdiv_of_nonpos hneg _).trans ?_
    rw [← Int.mul_neg, Int.neg_sub]
    rfl

theorem clippedNotional_nonneg (hprice : 0 < price.raw.toInt) (hqty : qty.raw.toNat < 2 ^ 63) :
    0 ≤ clippedNotional price qty := by
  have hpos := Int.mul_nonneg (Int.le_of_lt hprice) (Int.natCast_nonneg qty.raw.toNat)
  rw [clippedNotional, if_pos hqty, exactNotional, maxNotional]
  omega

theorem clippedNotional_nonpos (hprice : 0 < price.raw.toInt) (hqty : ¬ qty.raw.toNat < 2 ^ 63) :
    clippedNotional price qty ≤ 0 := by
  have hlt := qty.raw.toNat_lt
  have hpos : 0 ≤ price.raw.toInt * (2 ^ 64 - qty.raw.toNat) := Int.mul_nonneg (Int.le_of_lt hprice) (by omega)
  rw [clippedNotional, if_neg hqty]
  omega

theorem toInt_requiredMargin (hlimits : limits.Nonneg) (hprice : 0 < price.raw.toInt) :
    ((price.raw.saturatingMul qty.raw.toInt64 / 100000000).saturatingMul limits.initialMarginFraction /
      1000000).toInt = clippedMargin limits price qty := by
  rw [Int64.toInt_div_of_pos _ (by decide), Int64.toInt_saturatingMul, toInt_orderNotional hprice, clippedMargin]
  have hfraction := hlimits.initialMarginFraction
  split
  · rename_i hqty
    exact Int64.clamp_tdiv_of_nonneg (Int.mul_nonneg (clippedNotional_nonneg hprice hqty) hfraction) (by decide)
  · rename_i hqty
    have hneg := Int.mul_nonpos_of_nonpos_of_nonneg (clippedNotional_nonpos hprice hqty) hfraction
    refine (Int64.clamp_tdiv_of_nonpos hneg _).trans ?_
    rw [← Int.neg_mul, clippedNotional, if_neg hqty, Int.neg_neg]
    rfl

theorem clippedMargin_range (hlimits : limits.Nonneg) (hprice : 0 < price.raw.toInt) (qty : Qty) :
    -2 ^ 63 < clippedMargin limits price qty ∧ clippedMargin limits price qty < 2 ^ 63 := by
  have hfraction := hlimits.initialMarginFraction
  rw [clippedMargin]
  split
  · rename_i hqty
    have hpos := Int.mul_nonneg (clippedNotional_nonneg hprice hqty) hfraction
    rw [maxMargin]
    omega
  · rename_i hqty
    have hneg := Int.mul_nonpos_of_nonpos_of_nonneg (clippedNotional_nonpos hprice hqty) hfraction
    rw [clippedNotional, if_neg hqty, Int.neg_mul] at hneg
    rw [credit]
    omega

/-- Clipping the available margin does not change what it suffices for. -/
theorem availableMargin_lt_iff (hlimits : limits.Nonneg) (hprice : 0 < price.raw.toInt) (snapshot : AccountRiskState)
    (qty : Qty) : snapshot.balance.saturatingSub snapshot.usedMargin <
        (price.raw.saturatingMul qty.raw.toInt64 / 100000000).saturatingMul limits.initialMarginFraction / 1000000 ↔
      snapshot.available < clippedMargin limits price qty := by
  have hrange := clippedMargin_range hlimits hprice qty
  rw [Int64.lt_iff_toInt_lt, Int64.toInt_saturatingSub, toInt_requiredMargin hlimits hprice, Int64.clamp,
    AccountRiskState.available]
  omega

/-! ## The check -/

theorem orderCheck_eq_ok_iff :
    orderCheck price qty limits = .ok () ↔ qty.raw.toNat ≠ 0 ∧ 0 < price.raw.toInt ∧
      clippedNotional price qty ≤ limits.maxOrderNotional.toInt := by
  have hqty : qty.raw = 0 ↔ qty.raw.toNat = 0 := UInt64.toNat_inj.symm
  have hprice : price.raw ≤ 0 ↔ price.raw.toInt ≤ 0 := Int64.le_iff_toInt_le
  unfold orderCheck
  dsimp only
  split
  · rename_i hbig
    refine iff_of_false nofun fun h => ?_
    rw [Int64.lt_iff_toInt_lt, toInt_orderNotional h.2.1] at hbig
    omega
  rename_i hbig
  split
  · rename_i hz
    exact iff_of_false nofun fun h => h.1 (hqty.mp hz)
  rename_i hz
  split
  · rename_i hneg
    exact iff_of_false nofun fun h => absurd (hprice.mp hneg) (Int.not_le.mpr h.2.1)
  · rename_i hneg
    have hpos := Int.not_le.mp fun h => hneg (hprice.mpr h)
    rw [Int64.lt_iff_toInt_lt, toInt_orderNotional hpos] at hbig
    exact iff_of_true rfl ⟨fun h => hz (hqty.mpr h), hpos, Int.not_lt.mp hbig⟩

theorem check_eq_ok_iff (hlimits : limits.Nonneg) :
    check snapshot limits price qty = .ok () ↔ Live snapshot price qty ∧
      clippedNotional price qty ≤ limits.maxOrderNotional.toInt ∧
      clippedMargin limits price qty ≤ snapshot.available := by
  unfold check
  cases hfrozen : snapshot.frozen with
  | true =>
    refine iff_of_false nofun fun h => ?_
    rw [h.1.frozen] at hfrozen
    contradiction
  | false =>
    cases horder : orderCheck price qty limits with
    | error reason =>
      refine iff_of_false nofun fun ⟨hlive, hnotional, _⟩ => ?_
      have hok : orderCheck price qty limits = .ok () :=
        orderCheck_eq_ok_iff.mpr ⟨Nat.ne_of_gt hlive.qty_pos, hlive.price_pos, hnotional⟩
      rw [horder] at hok
      contradiction
    | ok u =>
      obtain ⟨hqty, hprice, hnotional⟩ := orderCheck_eq_ok_iff.mp horder
      have hlive : Live snapshot price qty := ⟨hfrozen, Nat.pos_of_ne_zero hqty, hprice⟩
      have hiff := availableMargin_lt_iff hlimits hprice snapshot qty
      simp only [Bool.false_eq_true, if_false, bind, Except.bind, pure, Except.pure]
      split
      · rename_i hlt
        exact iff_of_false nofun fun h => Int.not_le.mpr (hiff.mp hlt) h.2.2
      · rename_i hge
        exact iff_of_true rfl ⟨hlive, hnotional, Int.not_lt.mp (mt hiff.mpr hge)⟩

/-- The clipped amounts are over a limit if the exact ones are, if and only if
the limits show it. -/
theorem limitsShown_iff (hlimits : limits.Nonneg) (hprice : 0 < price.raw.toInt) :
    LimitsShown snapshot limits price qty ↔
      (clippedNotional price qty ≤ limits.maxOrderNotional.toInt →
        clippedMargin limits price qty ≤ snapshot.available → Within snapshot limits price qty) := by
  have hmax := hlimits.maxOrderNotional
  by_cases hqty : qty.raw.toNat < 2 ^ 63
  · have hnot : ¬ 2 ^ 63 ≤ qty.raw.toNat := Nat.not_le.mpr hqty
    rw [clippedMargin, clippedNotional, if_pos hqty, if_pos hqty]
    rcases Int.lt_or_le maxNotional (exactNotional price qty) with hlarge | hsmall
    · rw [min_eq_right (Int.le_of_lt hlarge)]
      constructor
      · intro h h₁ h₂
        exact ((h.large hqty hlarge).resolve_left (Int.not_lt.mpr h₁)).resolve_left (Int.not_lt.mpr h₂)
      · intro h
        refine ⟨fun _ hle => absurd hle (Int.not_le.mpr hlarge), fun _ _ => ?_, fun hle => absurd hle hnot⟩
        simpa only [or_iff_not_imp_left, Int.not_lt] using h
    · rw [min_eq_left hsmall]
      constructor
      · intro h h₁ h₂
        have := h.small hqty hsmall
        exact ⟨h₁, by rw [exactMargin] at this ⊢; omega⟩
      · intro h
        refine ⟨fun _ _ => ?_, fun _ hlt => absurd hsmall (Int.not_le.mpr hlt), fun hle => absurd hle hnot⟩
        by_contra hcon
        simp only [not_or, Int.not_lt, Int.not_le] at hcon
        have := (h hcon.1 (Int.le_trans (min_le_right _ _) hcon.2.1)).2
        omega
  · have hnotional := Int.le_trans (clippedNotional_nonpos hprice hqty) hmax
    rw [clippedMargin, if_neg hqty]
    constructor
    · intro h _ h₂
      exact (h.negative (Nat.not_lt.mp hqty)).resolve_left (Int.not_lt.mpr h₂)
    · intro h
      refine ⟨fun hlt => absurd hlt hqty, fun hlt => absurd hlt hqty, fun _ => ?_⟩
      simpa only [or_iff_not_imp_left, Int.not_lt] using h hnotional

/-- What passes the check is admissible if and only if, for a live order, the
limits show when it is over one of them. -/
theorem check_sound_iff (snapshot : AccountRiskState) (limits : RiskLimits) (hlimits : limits.Nonneg) (price : Price)
    (qty : Qty) :
    (check snapshot limits price qty = .ok () → Admissible snapshot limits price qty) ↔
      (Live snapshot price qty → LimitsShown snapshot limits price qty) := by
  rw [check_eq_ok_iff hlimits]
  constructor
  · intro h hlive
    refine (limitsShown_iff hlimits hlive.price_pos).mpr fun hnotional hmargin => ?_
    have hadmissible := h ⟨hlive, hnotional, hmargin⟩
    exact ⟨hadmissible.notional, hadmissible.margin⟩
  · rintro h ⟨hlive, hnotional, hmargin⟩
    have hwithin := (limitsShown_iff hlimits hlive.price_pos).mp (h hlive) hnotional hmargin
    exact ⟨hlive, hwithin.1, hwithin.2⟩

theorem limitsShown_of_small (hqty : qty.raw.toNat < 2 ^ 63) (hmax : limits.maxOrderNotional.toInt < maxNotional)
    (havailable : snapshot.available < maxMargin) : LimitsShown snapshot limits price qty :=
  ⟨fun _ _ => .inr (.inl havailable), fun _ _ => .inl hmax, fun h => absurd hqty (Nat.not_lt.mpr h)⟩

/-- An order for a thousandth at 50,000, with 10,000 available. -/
theorem check_sound_iff_demo :
    check { AccountRiskState.default with balance := 1000000000000 } .default ⟨5000000000000⟩ ⟨100000⟩ = .ok () ∧
      Admissible { AccountRiskState.default with balance := 1000000000000 } .default ⟨5000000000000⟩ ⟨100000⟩ :=
  ⟨rfl, (check_sound_iff _ _ ⟨by decide, by decide, by decide, by decide, by decide⟩ _ _).mpr
    (fun _ => limitsShown_of_small (by decide) (by decide) (by decide)) rfl⟩

/-- An empty account orders `2^63` at the lowest price. The notional counts as
negative and the check passes, although it is over the limit. -/
theorem huge_order_admitted :
    check .default .default ⟨1⟩ ⟨9223372036854775808⟩ = .ok () ∧
      ¬ Admissible .default .default ⟨1⟩ ⟨9223372036854775808⟩ :=
  ⟨rfl, fun h => absurd h.notional (by decide)⟩

end Proof.Risk

end MRE
