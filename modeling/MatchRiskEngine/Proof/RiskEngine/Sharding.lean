import MatchRiskEngine.Proof.RiskEngine.Exposure
import MatchRiskEngine.Proof.RiskEngine.Views

/-!
# Sharding does not show

Shards on one table only touch the states of their own accounts
(`shardOwnership`), so that in an interleaving each of them does what it does
alone. What it still does then is a list of operations, which the steps of the
thread take one after the other (`finish_step`). The shard that owns all
accounts takes the same ones, and each other shard is a part of it
(`sharding_transparent`).
-/

namespace MRE

open SharedRisk

/-! ## What remains to be done -/

/-- The operations that remain of a trade. -/
def SharedRisk.TradeLoop.ops (l : TradeLoop) : List AccountOp :=
  l.todo.map fun x => .settle l.trade l.markPrices x.1 x.2

namespace ShardThread

/-- The operations of the calls that are left. -/
def ops (t : ShardThread) : List AccountOp := t.todo.flatMap ShardTask.ops

/-- What the thread ends with, if it goes on alone. -/
def finish (order : IterOrder) (t : ShardThread) : Option (RiskShard × List InboundCommand) :=
  match t.system.shardPc with
  | .idle => RiskShard.runOps order (t.system.shard, t.system.liquidations) t.ops
  | .loop l => RiskShard.runOps order (t.system.shard, t.system.liquidations ++ l.liquidateCmds) (l.ops ++ t.ops)
  | .updateState account s none =>
    RiskShard.runOps order (t.system.shard.update account s, t.system.liquidations) t.ops
  | .updateState account s (some l) =>
    RiskShard.runOps order (t.system.shard.update account s, t.system.liquidations ++ l.liquidateCmds) (l.ops ++ t.ops)
  | .stopped => none

/-- The number of steps that are left, at most. -/
def left (t : ShardThread) : Nat :=
  match t.system.shardPc with
  | .idle => 6 * t.todo.length
  | .loop l => 2 * l.todo.length + 1 + 6 * t.todo.length
  | .updateState _ _ none => 1 + 6 * t.todo.length
  | .updateState _ _ (some l) => 2 * l.todo.length + 2 + 6 * t.todo.length
  | .stopped => 0

end ShardThread

namespace Proof.Sharding

open MRE.Proof.Risk MRE.Proof.Freeze

variable {shard : RiskShard} {iter order : IterOrder} {t : ShardThread} {owner : AccountId → Nat} {i j : Nat}
  {s s' : AccountRiskTable} {a account : AccountId}

theorem settleRead_agree (h : order.Agree iter) (shard : RiskShard) (t : EngineEvent.Trade) (markPrices : MarkPrices)
    (account : AccountId) (side : Side) :
    shard.settleRead order t markPrices account side = shard.settleRead iter t markPrices account side := by
  have hsums : ∀ shard : RiskShard, shard.recomputeMargin order account markPrices =
      shard.recomputeMargin iter account markPrices := fun shard => (SameView.refl account shard).recomputeMargin h markPrices
  simp only [RiskShard.settleRead, hsums]

theorem finish_step (h : order.Agree iter) (t : ShardThread)
    (hseeds : ∀ a amount, ShardTask.seed a amount ∈ t.todo → t.system.shard.owns a = true) :
    (t.step iter).finish order = t.finish order := by
  obtain ⟨⟨engines, shard, pc, published, liquidations⟩, todo⟩ := t
  cases pc with
  | idle =>
    cases todo with
    | nil => rfl
    | cons task todo =>
      cases task with
      | seed account amount =>
        have howns : shard.owns (AccountOp.seed account amount).account = true := hseeds account amount List.mem_cons_self
        show _ = RiskShard.runOps order (shard, liquidations) (.seed account amount :: todo.flatMap ShardTask.ops)
        rw [runOps_cons, applyOp_owned howns]
        simp only [ShardThread.step, System.seed, RiskShard.opRead]
        cases shard.seedRead account amount with
        | none => rfl
        | some r => simp [ShardThread.finish, ShardThread.ops, AccountOp.account]
      | event ev markPrices =>
        cases ev with
        | trade t => simp [ShardThread.step, System.event, ShardThread.finish, ShardThread.ops, TradeLoop.ops, ShardTask.ops]
        | _ => rfl
  | loop l =>
    obtain ⟨trade, markPrices, sides, cmds⟩ := l
    cases sides with
    | nil => rfl
    | cons x sides =>
      obtain ⟨account, side⟩ := x
      show _ = RiskShard.runOps order (shard, liquidations ++ cmds)
        (.settle trade markPrices account side :: (_ ++ todo.flatMap ShardTask.ops))
      rw [runOps_cons, RiskShard.applyOp]
      simp only [ShardThread.step, System.stepShard, AccountOp.account, RiskShard.opRead, settleRead_agree h]
      split
      · simp [ShardThread.finish, ShardThread.ops, TradeLoop.ops]
      · cases shard.settleRead iter trade markPrices account side with
        | none => rfl
        | some r => simp [ShardThread.finish, ShardThread.ops, TradeLoop.ops]
  | updateState account st l => cases l <;> rfl
  | stopped => rfl

theorem finish_idle (hpc : t.system.shardPc = .idle) (htodo : t.todo = []) :
    t.finish order = some (t.system.shard, t.system.liquidations) := by
  rw [ShardThread.finish, hpc, ShardThread.ops, htodo]
  rfl

theorem finish_stopped (hpc : t.system.shardPc = .stopped) : t.finish order = none := by
  rw [ShardThread.finish, hpc]

theorem left_step (t : ShardThread) (iter : IterOrder) : (t.step iter).left ≤ t.left - 1 := by
  obtain ⟨⟨engines, shard, pc, published, liquidations⟩, todo⟩ := t
  cases pc with
  | idle =>
    cases todo with
    | nil => exact Nat.zero_le _
    | cons task todo =>
      cases task with
      | seed account amount =>
        simp only [ShardThread.step, System.seed]
        split <;> simp only [ShardThread.left, List.length_cons] <;> omega
      | event ev markPrices =>
        cases ev <;> simp only [ShardThread.step, System.event, ShardThread.left, List.length_cons, List.length_nil] <;> omega
  | loop l =>
    obtain ⟨trade, markPrices, sides, cmds⟩ := l
    cases sides with
    | nil => simp only [ShardThread.step, System.stepShard, ShardThread.left, List.length_nil]; omega
    | cons x sides =>
      simp only [ShardThread.step, System.stepShard]
      repeat' split
      all_goals simp only [ShardThread.left, List.length_cons]; omega
  | updateState account st l => cases l <;> simp only [ShardThread.step, System.stepShard, ShardThread.left] <;> omega
  | stopped => exact Nat.zero_le _

theorem left_alone (t : ShardThread) (s : AccountRiskTable) (steps : List IterOrder) :
    (Threads.alone ShardThread.next t s steps).1.left ≤ t.left - steps.length := by
  induction steps generalizing t s with
  | nil => exact Nat.le_refl _
  | cons iter steps ih =>
    have hstep : ((t.onTable s).step iter).left ≤ t.left - 1 := left_step (t.onTable s) iter
    have hrest : (Threads.alone ShardThread.next t s (iter :: steps)).1.left ≤ ((t.onTable s).step iter).left - steps.length :=
      ih _ _
    rw [List.length_cons]
    omega

theorem done_of_left (h : t.left = 0) : t.Done := by
  unfold ShardThread.left at h
  split at h
  · rename_i hpc
    exact .inl ⟨hpc, List.length_eq_zero_iff.mp (by omega)⟩
  · omega
  · omega
  · omega
  · rename_i hpc
    exact .inr hpc

/-! ## The thread's own accounts -/

/-- The thread `i` owns what `owner` says, and keeps to it. -/
structure ThreadWf (owner : AccountId → Nat) (i : Nat) (t : ShardThread) : Prop where
  owns : ∀ a, t.system.shard.owns a = true ↔ owner a = i
  pending : ∀ a s l, t.system.shardPc = .updateState a s l → owner a = i
  seeds : ∀ a amount, .seed a amount ∈ t.todo → owner a = i

theorem seedRead_keeps {amount : Int64} {r : RiskShard × AccountRiskState} (h : shard.seedRead account amount = some r) :
    r.1.owns = shard.owns ∧ r.1.states = shard.states := by
  simp only [RiskShard.seedRead] at h
  split at h
  · cases h
  · obtain ⟨st, -, h⟩ := Option.bind_eq_some_iff.mp h
    cases h
    exact ⟨rfl, rfl⟩

theorem settleRead_keeps {trade : EngineEvent.Trade} {markPrices : MarkPrices} {side : Side}
    {r : RiskShard × AccountRiskState × List InboundCommand}
    (h : shard.settleRead iter trade markPrices account side = some r) :
    r.1.owns = shard.owns ∧ r.1.states = shard.states := by
  obtain ⟨pos, -, h⟩ := Option.bind_eq_some_iff.mp h
  obtain ⟨sums, -, h⟩ := Option.bind_eq_some_iff.mp h
  obtain ⟨st, -, h⟩ := Option.bind_eq_some_iff.mp h
  cases h
  exact ⟨rfl, rfl⟩

/-- What a step does to the table and the pending update. -/
inductive Effect (t t' : ShardThread) : Prop where
  /-- No update, and if one becomes pending the account is owned or the next to
  be seeded. -/
  | quiet (states : t'.system.states = t.system.states)
      (pending : ∀ a st l, t'.system.shardPc = .updateState a st l →
        t.system.shard.owns a = true ∨ ∃ amount, .seed a amount ∈ t.todo)
  | writes {a : AccountId} {st : AccountRiskState} {l : Option TradeLoop} (pc : t.system.shardPc = .updateState a st l)
      (states : t'.system.states = t.system.states.set a.raw.toNat st)
      (pending : ∀ a st l, t'.system.shardPc ≠ .updateState a st l)

/-- An update is pending. -/
def updates : ShardPc → Bool
  | .updateState .. => true
  | _ => false

theorem not_updates {pc : ShardPc} (h : updates pc = false) (a : AccountId) (st : AccountRiskState) (l : Option TradeLoop) :
    pc ≠ .updateState a st l := by
  rintro rfl
  cases h

theorem Effect.still {t' : ShardThread} (hstates : t'.system.states = t.system.states)
    (hpc : updates t'.system.shardPc = false) : Effect t t' :=
  .quiet hstates fun a st l h => absurd h (not_updates hpc a st l)

theorem step_effect (t : ShardThread) (iter : IterOrder) :
    Effect t (t.step iter) ∧ (t.step iter).system.shard.owns = t.system.shard.owns ∧ (t.step iter).todo ⊆ t.todo := by
  obtain ⟨⟨engines, shard, pc, published, liquidations⟩, todo⟩ := t
  cases pc with
  | idle =>
    cases todo with
    | nil => exact ⟨.still rfl rfl, rfl, List.Subset.refl _⟩
    | cons task todo =>
      cases task with
      | seed account amount =>
        simp only [ShardThread.step, System.seed]
        cases hr : shard.seedRead account amount with
        | none => exact ⟨.still rfl rfl, rfl, List.subset_cons_self _ _⟩
        | some r =>
          obtain ⟨howns, hstates⟩ := seedRead_keeps hr
          refine ⟨.quiet hstates fun a st l h => ?_, howns, List.subset_cons_self _ _⟩
          cases h
          exact .inr ⟨amount, List.mem_cons_self⟩
      | event ev markPrices =>
        cases ev with
        | _ => exact ⟨.still rfl rfl, rfl, List.subset_cons_self _ _⟩
  | loop l =>
    obtain ⟨trade, markPrices, sides, cmds⟩ := l
    cases sides with
    | nil => exact ⟨.still rfl rfl, rfl, List.Subset.refl _⟩
    | cons x sides =>
      obtain ⟨account, side⟩ := x
      simp only [ShardThread.step, System.stepShard]
      split
      · exact ⟨.still rfl rfl, rfl, List.Subset.refl _⟩
      rename_i hown
      rw [Bool.not_eq_false] at hown
      cases hr : shard.settleRead iter trade markPrices account side with
      | none => exact ⟨.still rfl rfl, rfl, List.Subset.refl _⟩
      | some r =>
        obtain ⟨howns, hstates⟩ := settleRead_keeps hr
        refine ⟨.quiet hstates fun a st l h => ?_, howns, List.Subset.refl _⟩
        cases h
        exact .inl hown
  | updateState account st l =>
    cases l with
    | none => exact ⟨.writes rfl rfl (not_updates rfl), rfl, List.Subset.refl _⟩
    | some l => exact ⟨.writes rfl rfl (not_updates rfl), rfl, List.Subset.refl _⟩
  | stopped => exact ⟨.still rfl rfl, rfl, List.Subset.refl _⟩

theorem step_wf (h : ThreadWf owner i t) (iter : IterOrder) : ThreadWf owner i (t.step iter) := by
  obtain ⟨heffect, howns, htodo⟩ := step_effect t iter
  refine ⟨fun a => by rw [howns]; exact h.owns a, fun a st l hpc => ?_, fun a amount hmem => h.seeds a amount (htodo hmem)⟩
  cases heffect with
  | quiet _ hpending =>
    rcases hpending a st l hpc with hown | ⟨amount, hseed⟩
    · exact (h.owns a).mp hown
    · exact h.seeds a amount hseed
  | writes _ _ hpending => exact absurd hpc (hpending a st l)

/-- The shard with another table. -/
def withTable (shard : RiskShard) (states : AccountRiskTable) : RiskShard := { shard with states }

theorem seedRead_table (shard : RiskShard) (amount : Int64) (h : s.get account = s'.get account) :
    (withTable shard s').seedRead account amount =
      ((withTable shard s).seedRead account amount).map fun r => (withTable r.1 s', r.2) := by
  have hlen : ∀ s, (withTable shard s).initialDeposits.length ≤ (withTable shard s).localIdx account ↔
      shard.initialDeposits.length ≤ shard.localIdx account := fun _ => Iff.rfl
  have hget : (withTable shard s).states.get account = (withTable shard s').states.get account := h
  simp only [RiskShard.seedRead, hlen, hget]
  by_cases hidx : shard.initialDeposits.length ≤ shard.localIdx account
  · rw [if_pos hidx, if_pos hidx, Option.map_none]
  · rw [if_neg hidx, if_neg hidx]
    cases (withTable shard s').states.get account <;> rfl

theorem settleRead_table (iter : IterOrder) (shard : RiskShard) (trade : EngineEvent.Trade) (markPrices : MarkPrices)
    (side : Side) (h : s.get account = s'.get account) :
    (withTable shard s').settleRead iter trade markPrices account side =
      ((withTable shard s).settleRead iter trade markPrices account side).map fun r => (withTable r.1 s', r.2) := by
  have hsums : ∀ (positions : Positions) (states : AccountRiskTable),
      { shard with positions, states }.recomputeMargin iter account markPrices =
        { shard with positions }.recomputeMargin iter account markPrices := fun _ _ => rfl
  simp only [RiskShard.settleRead, withTable, hsums, h, Option.bind_eq_bind]
  cases ((shard.positions.lookup (account, trade.symbol)).getD .default).applyFill side trade.price trade.qty with
  | none => rfl
  | some pos =>
    simp only [Option.bind_some]
    cases { shard with positions := shard.positions.insert (account, trade.symbol) pos }.recomputeMargin iter account
        markPrices with
    | none => rfl
    | some sums => cases s'.get account <;> rfl

theorem step_same (h : ThreadWf owner i t) (hagree : ∀ a, owner a = i → s.get a = s'.get a) (iter : IterOrder) :
    ∃ s'', (t.onTable s').step iter = ((t.onTable s).step iter).onTable s'' ∧
      ∀ a, owner a = i → ((t.onTable s).step iter).system.states.get a = s''.get a := by
  obtain ⟨⟨engines, shard, pc, published, liquidations⟩, todo⟩ := t
  cases pc with
  | idle =>
    cases todo with
    | nil => exact ⟨s', rfl, hagree⟩
    | cons task todo =>
      cases task with
      | seed account amount =>
        have hread := seedRead_table shard amount (hagree account (h.seeds account amount List.mem_cons_self))
        have hkeeps := @seedRead_keeps (withTable shard s) account amount
        unfold withTable at hread hkeeps
        cases hr : { shard with states := s }.seedRead account amount with
        | none =>
          simp only [ShardThread.step, ShardThread.onTable, System.seed, hread, hr, Option.map_none]
          exact ⟨s', rfl, hagree⟩
        | some r =>
          simp only [ShardThread.step, ShardThread.onTable, System.seed, hread, hr, Option.map_some]
          exact ⟨s', rfl, fun a ha => by rw [System.states, (hkeeps hr).2]; exact hagree a ha⟩
      | event ev markPrices =>
        cases ev with
        | _ => exact ⟨s', rfl, hagree⟩
  | loop l =>
    obtain ⟨trade, markPrices, sides, cmds⟩ := l
    cases sides with
    | nil => exact ⟨s', rfl, hagree⟩
    | cons x sides =>
      obtain ⟨account, side⟩ := x
      have hown : ∀ s, { shard with states := s }.owns account = shard.owns account := fun _ => rfl
      cases howns : shard.owns account with
      | false =>
        simp only [ShardThread.step, ShardThread.onTable, System.stepShard, hown, howns, if_true]
        exact ⟨s', rfl, hagree⟩
      | true =>
        have hread := settleRead_table iter shard trade markPrices side
          (hagree account ((h.owns account).mp howns))
        have hkeeps := @settleRead_keeps (withTable shard s) iter account trade markPrices side
        unfold withTable at hread hkeeps
        cases hr : { shard with states := s }.settleRead iter trade markPrices account side with
        | none =>
          simp only [ShardThread.step, ShardThread.onTable, System.stepShard, hown, howns, Bool.true_eq_false, if_false,
            hread, hr, Option.map_none]
          exact ⟨s', rfl, hagree⟩
        | some r =>
          simp only [ShardThread.step, ShardThread.onTable, System.stepShard, hown, howns, Bool.true_eq_false, if_false,
            hread, hr, Option.map_some]
          exact ⟨s', rfl, fun a ha => by rw [System.states, (hkeeps hr).2]; exact hagree a ha⟩
  | updateState account st l =>
    have hset : ∀ a, owner a = i → AccountRiskTable.get (s.set account.raw.toNat st) a =
        AccountRiskTable.get (s'.set account.raw.toNat st) a := fun a ha => by
      have hget := hagree a ha
      unfold AccountRiskTable.get at hget ⊢
      rw [List.getElem?_set', List.getElem?_set', hget]
    cases l with
    | none => exact ⟨_, rfl, hset⟩
    | some l => exact ⟨_, rfl, hset⟩
  | stopped => exact ⟨s', rfl, hagree⟩

/-- The steps of shards, each of which owns the accounts that `owner` gives
it. -/
def shardOwnership (owner : AccountId → Nat) : Ownership IterOrder ShardThread AccountRiskTable where
  next := ShardThread.next
  Wf := ThreadWf owner
  Same t t' := ∃ s, t' = t.onTable s
  Agree i s s' := ∀ a, owner a = i → s.get a = s'.get a
  next_wf {i iter t s} h := step_wf (t := t.onTable s) ⟨h.owns, h.pending, h.seeds⟩ iter
  next_same {i iter t t' s s'} h hsame hagree := by
    obtain ⟨s₀, rfl⟩ := hsame
    obtain ⟨s'', hstep, hagree'⟩ := step_same h hagree iter
    show (∃ s₁, (t.onTable s').step iter = ((t.onTable s).step iter).onTable s₁) ∧
      ∀ a, owner a = i → ((t.onTable s).step iter).system.states.get a = ((t.onTable s').step iter).system.states.get a
    rw [hstep]
    exact ⟨⟨s'', rfl⟩, hagree'⟩
  next_agree {i j iter t s s'} h hij hagree := by
    intro a ha
    show ((t.onTable s).step iter).system.states.get a = s'.get a
    rw [← hagree a ha]
    cases (step_effect (t.onTable s) iter).1 with
    | quiet hstates _ => rw [hstates]; rfl
    | writes hpc hstates _ =>
      rw [hstates]
      refine get_set_ne s _ fun hne => hij ?_
      rw [← ha, hne]
      exact h.pending _ _ _ hpc

/-- A thread that goes on alone ends with what remains to be done. -/
theorem finish_alone {steps : List IterOrder} (hsteps : ∀ iter ∈ steps, order.Agree iter) (h : ThreadWf owner i t)
    (s : AccountRiskTable) :
    ((Threads.alone ShardThread.next t s steps).1.onTable (Threads.alone ShardThread.next t s steps).2).finish order =
      (t.onTable s).finish order := by
  induction steps generalizing t s with
  | nil => rfl
  | cons iter steps ih =>
    obtain ⟨hiter, hsteps⟩ := List.forall_mem_cons.mp hsteps
    have hwf : ThreadWf owner i (t.onTable s) := ⟨h.owns, h.pending, h.seeds⟩
    have hstep := finish_step hiter (t.onTable s) fun a amount hmem => (h.owns a).mpr (h.seeds a amount hmem)
    exact (ih hsteps (step_wf hwf iter) _).trans hstep

/-! ## The ranges -/

/-- The number of the account's range, or of ranges if it has none. -/
def ownerOf (ranges : List (UInt64 × UInt64)) (a : AccountId) : Nat :=
  ranges.findIdx fun r => decide (r.1 ≤ a.raw ∧ a.raw < r.2)

section

variable {ranges : List (UInt64 × UInt64)} {r : UInt64 × UInt64} {lo hi : UInt64}

theorem Contiguous.le (h : Contiguous lo ranges hi) : lo ≤ hi := by
  induction ranges generalizing lo with
  | nil => exact UInt64.le_of_eq h
  | cons r ranges ih =>
    obtain ⟨rfl, hle, h⟩ := h
    exact UInt64.le_trans hle (ih h)

theorem Contiguous.bounds (h : Contiguous lo ranges hi) (hr : r ∈ ranges) : lo ≤ r.1 ∧ r.2 ≤ hi := by
  induction ranges generalizing lo with
  | nil => cases hr
  | cons r₀ ranges ih =>
    obtain ⟨rfl, hle, h⟩ := h
    rcases List.mem_cons.mp hr with rfl | hr
    · exact ⟨UInt64.le_refl _, Contiguous.le h⟩
    · exact ⟨UInt64.le_trans hle (ih h hr).1, (ih h hr).2⟩

theorem ownerOf_eq_iff (h : Contiguous lo ranges hi) (hr : ranges[i]? = some r) :
    r.1 ≤ a.raw ∧ a.raw < r.2 ↔ ownerOf ranges a = i := by
  induction ranges generalizing lo i with
  | nil => cases hr
  | cons r₀ ranges ih =>
    obtain ⟨rfl, hle, h⟩ := h
    rw [ownerOf, List.findIdx_cons]
    cases i with
    | zero =>
      cases hr
      by_cases hin : r.1 ≤ a.raw ∧ a.raw < r.2 <;> simp [hin]
    | succ i =>
      have hr : ranges[i]? = some r := hr
      have hlo := (Contiguous.bounds h (List.mem_of_getElem? hr)).1
      by_cases hin : r₀.1 ≤ a.raw ∧ a.raw < r₀.2
      · -- the range before ends where this one has not begun
        have hout : ¬ (r.1 ≤ a.raw ∧ a.raw < r.2) := fun h =>
          UInt64.lt_irrefl _ (UInt64.lt_of_lt_of_le hin.2 (UInt64.le_trans hlo h.1))
        simp [hin, hout]
      · rw [ih h hr, ownerOf]
        simp [hin]

theorem ownerOf_lt_iff (h : Contiguous lo ranges hi) : ownerOf ranges a < ranges.length ↔ lo ≤ a.raw ∧ a.raw < hi := by
  rw [ownerOf, List.findIdx_lt_length]
  constructor
  · rintro ⟨r, hr, hin⟩
    obtain ⟨hlo, hhi⟩ := Contiguous.bounds h hr
    obtain ⟨h₁, h₂⟩ := of_decide_eq_true hin
    exact ⟨UInt64.le_trans hlo h₁, UInt64.lt_of_lt_of_le h₂ hhi⟩
  · rintro ⟨h₁, h₂⟩
    induction ranges generalizing lo with
    | nil =>
      cases h
      exact absurd h₂ (UInt64.not_lt.mpr h₁)
    | cons r₀ ranges ih =>
      obtain ⟨rfl, hle, h⟩ := h
      by_cases hin : a.raw < r₀.2
      · exact ⟨r₀, List.mem_cons_self, decide_eq_true ⟨h₁, hin⟩⟩
      · obtain ⟨r, hr, hin⟩ := ih h (UInt64.not_lt.mp hin)
        exact ⟨r, List.mem_cons_of_mem _ hr, hin⟩

end

/-! ## The shard that owns all accounts -/

theorem settle_applyOp (h : order.Agree iter) (shard : RiskShard) (trade : EngineEvent.Trade) (markPrices : MarkPrices)
    (account : AccountId) (side : Side) :
    shard.settle iter trade markPrices account side = shard.applyOp order (.settle trade markPrices account side) := by
  cases howns : shard.owns account with
  | false =>
    rw [applyOp_unowned howns]
    exact if_pos howns
  | true =>
    rw [applyOp_owned howns, settle_eq shard iter trade markPrices howns, RiskShard.opRead, settleRead_agree h]
    rfl

variable {deposits : List (AccountId × Int64)}

theorem runOps_seeds (hown : ∀ d ∈ deposits, shard.owns d.1 = true) (cmds : List InboundCommand) :
    RiskShard.runOps order (shard, cmds) (deposits.map fun d => .seed d.1 d.2) =
      (shard.seedDeposits deposits).map fun shard => (shard, cmds) := by
  induction deposits generalizing shard with
  | nil => rfl
  | cons d deposits ih =>
    obtain ⟨hd, hown⟩ := List.forall_mem_cons.mp hown
    have hop : shard.applyOp order (.seed d.1 d.2) = (shard.seedDeposit d.1 d.2).map fun shard => (shard, []) := by
      rw [applyOp_owned hd, seedDeposit_eq, RiskShard.opRead, Option.map_map, Option.map_map]
      rfl
    rw [List.map_cons, runOps_cons, hop, RiskShard.seedDeposits, List.foldlM_cons]
    cases hseed : shard.seedDeposit d.1 d.2 with
    | none => rfl
    | some next =>
      have howns : next.owns = shard.owns := by
        rw [hseed] at hop
        exact applyOp_owns hop
      simp only [Option.map_some, Option.bind_some, List.append_nil]
      exact ih fun d hd => by rw [howns]; exact hown d hd

variable {inputs : List RiskShard.Input}

theorem runOps_events (h : ∀ i ∈ inputs, order.Agree i.iter) (shard : RiskShard) (cmds : List InboundCommand) :
    RiskShard.runOps order (shard, cmds) (inputs.flatMap fun i => (ShardTask.event i.event i.markPrices).ops) =
      (shard.run inputs).map fun r => (r.1, cmds ++ r.2) := by
  induction inputs generalizing shard cmds with
  | nil => simp [RiskShard.runOps, RiskShard.run]
  | cons i inputs ih =>
    obtain ⟨hi, h⟩ := List.forall_mem_cons.mp h
    have hevent : RiskShard.runOps order (shard, cmds) (ShardTask.event i.event i.markPrices).ops =
        (shard.processEvent i.iter i.markPrices i.event).map fun r => (r.1, cmds ++ r.2) := by
      cases i.event with
      | trade t =>
        simp only [ShardTask.ops, RiskShard.processEvent, runOps_cons, settle_applyOp hi, Option.bind_eq_bind,
          Option.map_bind, Function.comp_def, Option.map_some]
        simp [RiskShard.runOps]
      | _ => simp [RiskShard.runOps, RiskShard.processEvent, ShardTask.ops]
    rw [List.flatMap_cons, runOps_append, hevent, RiskShard.run]
    simp only [Option.bind_map, Option.bind_eq_bind, Option.map_bind, Function.comp_def, ih h, Option.map_some]
    simp [Option.map_eq_bind]

theorem sole_eq {n : UInt64} {limits : RiskLimits} {states : AccountRiskTable}
    (hdeposits : ∀ d ∈ deposits, d.1.raw < n) (hinputs : ∀ i ∈ inputs, order.Agree i.iter) :
    ((RiskShard.new 0 n limits states).seedDeposits deposits).bind (·.run inputs) =
      RiskShard.runOps order (RiskShard.new 0 n limits states, []) ((shardTasks deposits inputs).flatMap ShardTask.ops) := by
  have hown : ∀ d ∈ deposits, (RiskShard.new 0 n limits states).owns d.1 = true := fun d hd =>
    decide_eq_true ⟨UInt64.zero_le, hdeposits d hd⟩
  have hseeds : (deposits.map fun d => ShardTask.seed d.1 d.2).flatMap ShardTask.ops =
      deposits.map fun d => .seed d.1 d.2 := by
    rw [List.flatMap_map]
    exact (List.map_eq_flatMap ..).symm
  rw [shardTasks, List.flatMap_append, runOps_append, hseeds, runOps_seeds hown, List.flatMap_map, Option.bind_map]
  refine congrArg (Option.bind _) (funext fun shard => ?_)
  rw [Function.comp_apply, runOps_events hinputs]
  simp

/-! ## The shards -/

theorem runOps_filter {r : RiskShard × List InboundCommand} (h : r.1.owns = shard.owns) (tasks : List ShardTask) :
    RiskShard.runOps order r ((tasks.filter (ShardTask.concerns shard)).flatMap ShardTask.ops) =
      RiskShard.runOps order r (tasks.flatMap ShardTask.ops) := by
  induction tasks generalizing r with
  | nil => rfl
  | cons task tasks ih =>
    rw [List.flatMap_cons, runOps_append]
    cases htask : task.concerns shard with
    | true =>
      rw [List.filter_cons_of_pos htask, List.flatMap_cons, runOps_append]
      refine Option.bind_congr fun r' hr' => ih ?_
      rw [(runOps_keeps hr').1, h]
    | false =>
      rw [List.filter_cons_of_neg (by rw [htask]; decide), ih h]
      cases task with
      | seed account amount =>
        have hown : r.1.owns (AccountOp.seed account amount).account = false := by rw [h]; exact htask
        simp [ShardTask.ops, applyOp_unowned hown, RiskShard.runOps]
      | event ev markPrices => cases htask

section

variable {limits : RiskLimits} {states : AccountRiskTable} {ranges : List (UInt64 × UInt64)} {tasks : List ShardTask}
  {n : UInt64} {actions : List (Nat × IterOrder)} {r : UInt64 × UInt64}

/-- A new shard is a part of the one that owns all accounts. -/
theorem part_new (h : Contiguous 0 ranges n) (hr : ranges[i]? = some r) :
    Part (RiskShard.new 0 n limits states) (RiskShard.new r.1 r.2 limits states) := by
  have hle := (Contiguous.bounds h (List.mem_of_getElem? hr)).2
  have howns : ∀ a, (RiskShard.new r.1 r.2 limits states).owns a = true → (RiskShard.new 0 n limits states).owns a = true :=
    fun a ha => decide_eq_true ⟨UInt64.zero_le, UInt64.lt_of_lt_of_le (of_decide_eq_true ha).2 hle⟩
  have hzero : ∀ (lo hi : UInt64) a, (RiskShard.new lo hi limits states).owns a = true →
      (RiskShard.new lo hi limits states).initialDeposits[(RiskShard.new lo hi limits states).localIdx a]? = some 0 :=
    fun lo hi a ha => List.getElem?_replicate_of_lt (by
      have hlt := localIdx_lt ha
      rwa [RiskShard.length_deposits] at hlt)
  exact ⟨howns, fun a ha => ⟨rfl, (hzero _ _ a (howns a ha)).trans (hzero _ _ a ha).symm, rfl, rfl⟩⟩

theorem new_threads (hr : ranges[i]? = some r) : (RiskShards.new limits states ranges tasks).threads[i]? =
    some (ShardThread.new (RiskShard.new r.1 r.2 limits states) tasks) := by
  rw [RiskShards.new, List.getElem?_map, hr]
  rfl

variable (limits states tasks) in
theorem new_wf (h : Contiguous 0 ranges n) (hr : ranges[i]? = some r) :
    ThreadWf (ownerOf ranges) i (ShardThread.new (RiskShard.new r.1 r.2 limits states) tasks) := by
  have howns : ∀ a, (RiskShard.new r.1 r.2 limits states).owns a = true ↔ ownerOf ranges a = i := fun a => by
    rw [← ownerOf_eq_iff h hr]
    exact decide_eq_true_iff
  exact ⟨howns, fun _ _ _ hpc => (nomatch hpc), fun a amount hmem => (howns a).mp (List.mem_filter.mp hmem).2⟩

theorem new_allWf (h : Contiguous 0 ranges n) :
    (shardOwnership (ownerOf ranges)).AllWf (RiskShards.new limits states ranges tasks) := by
  intro j t ht
  cases hr : ranges[j]? with
  | none => rw [RiskShards.new, List.getElem?_map, hr] at ht; cases ht
  | some r =>
    rw [new_threads hr] at ht
    cases ht
    exact new_wf limits states tasks h hr

variable (limits states tasks actions) in
theorem thread_alone (h : Contiguous 0 ranges n) (hr : ranges[i]? = some r) :
    ∃ u s₀, ((RiskShards.new limits states ranges tasks).run ShardThread.next actions).threads[i]? = some u ∧
      (Threads.alone ShardThread.next (ShardThread.new (RiskShard.new r.1 r.2 limits states) tasks) states
        (Threads.stepsOf i actions)).1 = u.onTable s₀ ∧
      ∀ a, ownerOf ranges a = i →
        ((RiskShards.new limits states ranges tasks).run ShardThread.next actions).store.get a =
          (Threads.alone ShardThread.next (ShardThread.new (RiskShard.new r.1 r.2 limits states) tasks) states
            (Threads.stepsOf i actions)).2.get a := by
  have hself : (shardOwnership (ownerOf ranges)).Same (ShardThread.new (RiskShard.new r.1 r.2 limits states) tasks)
      (ShardThread.new (RiskShard.new r.1 r.2 limits states) tasks) := ⟨states, rfl⟩
  obtain ⟨u, hu, -, ⟨s₀, hsame⟩, hagree⟩ := Ownership.run_alone (new_allWf h) (new_threads hr) hself
    (show ∀ a, ownerOf ranges a = i → states.get a = states.get a from fun _ _ => rfl) actions
  exact ⟨u, s₀, hu, hsame, hagree⟩

/-- Enough steps of a shard's thread bring it to its end. -/
theorem thread_done (h : Contiguous 0 ranges n) (hr : ranges[i]? = some r)
    (hsteps : 6 * tasks.length ≤ (Threads.stepsOf i actions).length) {u : ShardThread}
    (hu : ((RiskShards.new limits states ranges tasks).run ShardThread.next actions).threads[i]? = some u) : u.Done := by
  obtain ⟨u', s₀, hu', hsame, -⟩ := thread_alone limits states tasks actions h hr
  rw [hu] at hu'
  cases hu'
  have hleft := left_alone (ShardThread.new (RiskShard.new r.1 r.2 limits states) tasks) states (Threads.stepsOf i actions)
  have hstart : (ShardThread.new (RiskShard.new r.1 r.2 limits states) tasks).left ≤ 6 * tasks.length :=
    Nat.mul_le_mul_left 6 (List.length_filter_le _ _)
  rw [hsame, show (u.onTable s₀).left = u.left from rfl] at hleft
  exact done_of_left (by omega)

/-- A shard ends as if it were alone, on a table that has the states of its
accounts. -/
theorem thread_result (h : Contiguous 0 ranges n) (hactions : ∀ a ∈ actions, order.Agree a.2)
    (hdone : ∀ t ∈ ((RiskShards.new limits states ranges tasks).run ShardThread.next actions).threads, t.Done)
    (hr : ranges[i]? = some r) :
    ∃ u s, ((RiskShards.new limits states ranges tasks).run ShardThread.next actions).threads[i]? = some u ∧
      (∀ a, ownerOf ranges a = i →
        ((RiskShards.new limits states ranges tasks).run ShardThread.next actions).store.get a = s.get a) ∧
      (u.system.shardPc = .stopped ∧
          RiskShard.runOps order (RiskShard.new r.1 r.2 limits states, []) (tasks.flatMap ShardTask.ops) = none ∨
        u.system.shardPc = .idle ∧
          RiskShard.runOps order (RiskShard.new r.1 r.2 limits states, []) (tasks.flatMap ShardTask.ops) =
            some (withTable u.system.shard s, u.system.liquidations)) := by
  obtain ⟨u, s₀, hu, hsame, hagree⟩ := thread_alone limits states tasks actions h hr
  have hsteps : ∀ iter ∈ Threads.stepsOf i actions, order.Agree iter := fun iter hiter => by
    obtain ⟨x, hx, rfl⟩ := List.mem_map.mp hiter
    exact hactions x (List.mem_filter.mp hx).1
  have hfinish := finish_alone hsteps (new_wf limits states tasks h hr) states
  rw [hsame] at hfinish
  have hstart : (ShardThread.new (RiskShard.new r.1 r.2 limits states) tasks).finish order =
      RiskShard.runOps order (RiskShard.new r.1 r.2 limits states, []) (tasks.flatMap ShardTask.ops) := runOps_filter rfl tasks
  refine ⟨u, _, hu, hagree, ?_⟩
  rw [← hstart]
  rcases hdone u (List.mem_of_getElem? hu) with ⟨hpc, htodo⟩ | hpc
  · exact .inr ⟨hpc, hfinish.symm.trans (finish_idle (t := (u.onTable s₀).onTable _) hpc htodo)⟩
  · exact .inl ⟨hpc, hfinish.symm.trans (finish_stopped (t := (u.onTable s₀).onTable _) hpc)⟩

theorem unowned_state (h : Contiguous 0 ranges n) (ha : ranges.length ≤ ownerOf ranges a) :
    ((RiskShards.new limits states ranges tasks).run ShardThread.next actions).store.get a = states.get a := by
  have hlen : (RiskShards.new limits states ranges tasks).threads.length ≤ ownerOf ranges a := by
    rw [RiskShards.new, List.length_map]
    exact ha
  exact Ownership.run_unowned (new_allWf h) hlen
    (show ∀ b, ownerOf ranges b = ownerOf ranges a → states.get b = states.get b from fun _ _ => rfl) actions a rfl

theorem thread_range {u : ShardThread}
    (hu : ((RiskShards.new limits states ranges tasks).run ShardThread.next actions).threads[i]? = some u) :
    ∃ r, ranges[i]? = some r := by
  have hlt := (List.getElem?_eq_some_iff.mp hu).1
  rw [Threads.length_run, RiskShards.new, List.length_map] at hlt
  exact ⟨_, List.getElem?_eq_getElem hlt⟩

/-- The orders in which the shards find their positions, if they agree, are
like one order that depends on the account's positions only. -/
theorem exists_order (iters : List IterOrder) (h : ∀ iter ∈ iters, ∀ iter' ∈ iters, iter.Agree iter') :
    ∃ order : IterOrder, order.Agree order ∧ ∀ iter ∈ iters, order.Agree iter := by
  cases iters with
  | nil => exact ⟨inOrder, fun _ _ _ hes => hes, fun _ h => nomatch h⟩
  | cons iter iters => exact ⟨iter, h iter List.mem_cons_self iter List.mem_cons_self, h iter List.mem_cons_self⟩

/-- What a thread and the table have at the end, where the shard that owns all
accounts ends with `shard` and `cmds`. -/
structure Follows (ranges : List (UInt64 × UInt64)) (shard : RiskShard) (cmds : List InboundCommand)
    (store : AccountRiskTable) (i : Nat) (u : ShardThread) : Prop where
  running : u.system.shardPc ≠ .stopped
  owned : ∀ key pos, u.system.shard.positions.lookup key = some pos → ownerOf ranges key.1 = i
  lookup : ∀ key, ownerOf ranges key.1 = i → shard.positions.lookup key = u.system.shard.positions.lookup key
  state : ∀ a, ownerOf ranges a = i → store.get a = shard.states.get a
  liquidations : ∀ a, ownerOf ranges a = i →
    u.system.liquidations.filter (·.liquidates a) = cmds.filter (·.liquidates a)
  others : ∀ a, ownerOf ranges a ≠ i → u.system.liquidations.filter (·.liquidates a) = []

theorem onlyOwned_new (lo hi : UInt64) : OnlyOwned (RiskShard.new lo hi limits states) := fun _ he => nomatch he

theorem OnlyOwned.lookup {key : AccountId × Symbol} {pos : Position} (h : OnlyOwned shard)
    (hpos : shard.positions.lookup key = some pos) : shard.owns key.1 = true :=
  h ⟨key, pos⟩ (AList.mem_lookup_iff.mp hpos)

theorem thread_follows {cmds : List InboundCommand} {u : ShardThread} (hranges : Contiguous 0 ranges n)
    (hself : order.Agree order) (hactions : ∀ a ∈ actions, order.Agree a.2)
    (hdone : ∀ t ∈ ((RiskShards.new limits states ranges tasks).run ShardThread.next actions).threads, t.Done)
    (hsole : RiskShard.runOps order (RiskShard.new 0 n limits states, []) (tasks.flatMap ShardTask.ops) = some (shard, cmds))
    (hu : ((RiskShards.new limits states ranges tasks).run ShardThread.next actions).threads[i]? = some u) :
    Follows ranges shard cmds ((RiskShards.new limits states ranges tasks).run ShardThread.next actions).store i u := by
  obtain ⟨r, hr⟩ := thread_range hu
  obtain ⟨u', s, hu', hstore, hres⟩ := thread_result hranges hactions hdone hr
  rw [hu] at hu'
  cases hu'
  obtain ⟨r', hok, hpart', hcmds⟩ := runOps_part hself (part_new hranges hr) (fun _ _ => rfl) hsole
  obtain ⟨hpc, hres⟩ : u.system.shardPc = .idle ∧ r' = (withTable u.system.shard s, u.system.liquidations) := by
    rcases hres with ⟨-, hres⟩ | ⟨hpc, hres⟩
    · rw [hok] at hres
      cases hres
    · rw [hok] at hres
      exact ⟨hpc, Option.some.inj hres⟩
  subst hres
  obtain ⟨howns, honly, hunowned⟩ := runOps_keeps hok
  have howner : ∀ a, (RiskShard.new r.1 r.2 limits states).owns a = true ↔ ownerOf ranges a = i := fun a => by
    rw [← ownerOf_eq_iff hranges hr]
    exact decide_eq_true_iff
  have hview : ∀ a, ownerOf ranges a = i → SameView a shard (withTable u.system.shard s) := fun a ha =>
    hpart'.view a (by rw [howns]; exact (howner a).mpr ha)
  refine ⟨by rw [hpc]; exact fun h => (nomatch h), fun key pos hpos => ?_, fun key hkey => (hview key.1 hkey).lookup key.2,
    fun a ha => (hstore a ha).trans (hview a ha).state.symm, fun a ha => (hcmds a ((howner a).mpr ha)).symm, fun a ha => ?_⟩
  · rw [← howner, ← howns]
    exact OnlyOwned.lookup (honly (onlyOwned_new r.1 r.2)) hpos
  · have hfalse : (RiskShard.new r.1 r.2 limits states).owns a = false :=
      Bool.not_eq_true _ ▸ fun h => ha ((howner a).mp h)
    exact (hunowned a hfalse).2

theorem sameAs_of_follows {x : RiskShards} {ops : List AccountOp} {cmds : List InboundCommand}
    (hranges : Contiguous 0 ranges n) (hlength : x.threads.length = ranges.length)
    (hstate : ∀ a, ranges.length ≤ ownerOf ranges a → x.store.get a = states.get a)
    (hfollows : ∀ {i u}, x.threads[i]? = some u → Follows ranges shard cmds x.store i u)
    (hsole : RiskShard.runOps order (RiskShard.new 0 n limits states, []) ops = some (shard, cmds)) :
    x.SameAs shard cmds := by
  obtain ⟨howns, honly, hunowned⟩ := runOps_keeps hsole
  -- an account has a thread, or no shard owns it
  have hthread : ∀ a, (∃ u, x.threads[ownerOf ranges a]? = some u) ∨
      ranges.length ≤ ownerOf ranges a ∧ (RiskShard.new 0 n limits states).owns a = false := fun a => by
    by_cases hlt : ownerOf ranges a < ranges.length
    · exact .inl ⟨_, List.getElem?_eq_getElem (hlength.symm ▸ hlt)⟩
    · refine .inr ⟨Nat.not_lt.mp hlt, ?_⟩
      rw [ownerOf_lt_iff hranges] at hlt
      exact decide_eq_false hlt
  refine ⟨fun t ht => ?_, fun a => ?_, fun key pos => ⟨fun hpos => ?_, ?_⟩, fun a => ?_⟩
  · obtain ⟨i, hi⟩ := List.getElem?_of_mem ht
    exact (hfollows hi).running
  · rcases hthread a with ⟨u, hu⟩ | ⟨hlen, hfalse⟩
    · exact (hfollows hu).state a rfl
    · exact (hstate a hlen).trans (hunowned a hfalse).1.state
  · have hown := OnlyOwned.lookup (honly (onlyOwned_new 0 n)) hpos
    rw [howns] at hown
    rcases hthread key.1 with ⟨u, hu⟩ | ⟨-, hfalse⟩
    · exact ⟨u, List.mem_of_getElem? hu, (hfollows hu).lookup key rfl ▸ hpos⟩
    · rw [hfalse] at hown
      cases hown
  · rintro ⟨t, ht, hpos⟩
    obtain ⟨i, hi⟩ := List.getElem?_of_mem ht
    rw [(hfollows hi).lookup key ((hfollows hi).owned key pos hpos)]
    exact hpos
  · rcases hthread a with ⟨u, hu⟩ | ⟨hlen, hfalse⟩
    · rw [← (hfollows hu).liquidations a rfl]
      exact List.flatMap_eq_of_unique hu fun j y hy hj => (hfollows hy).others a (Ne.symm hj)
    · rw [(hunowned a hfalse).2]
      refine List.flatMap_eq_nil_iff.mpr fun t ht => ?_
      obtain ⟨i, hi⟩ := List.getElem?_of_mem ht
      have hlt := (List.getElem?_eq_some_iff.mp hi).1
      exact (hfollows hi).others a (by omega)

/-- Shards of contiguous ranges end after enough steps, and do together what a
shard that owns all accounts does: they end with the same states, positions and
liquidations of each account, and if that shard panics so does one of them. -/
theorem sharding_transparent (hranges : Contiguous 0 ranges n) (hdeposits : ∀ d ∈ deposits, d.1.raw < n)
    (hiters : ∀ iter ∈ inputs.map (·.iter) ++ actions.map Prod.snd,
      ∀ iter' ∈ inputs.map (·.iter) ++ actions.map Prod.snd, iter.Agree iter') :
    ((∀ i < ranges.length, 6 * (shardTasks deposits inputs).length ≤ (Threads.stepsOf i actions).length) →
        ∀ t ∈ ((RiskShards.new limits states ranges (shardTasks deposits inputs)).run ShardThread.next actions).threads,
          t.Done) ∧
      ((∀ t ∈ ((RiskShards.new limits states ranges (shardTasks deposits inputs)).run ShardThread.next actions).threads,
          t.Done) →
        (∀ shard cmds, ((RiskShard.new 0 n limits states).seedDeposits deposits).bind (·.run inputs) = some (shard, cmds) →
          RiskShards.SameAs ((RiskShards.new limits states ranges (shardTasks deposits inputs)).run ShardThread.next actions)
            shard cmds) ∧
        (((RiskShard.new 0 n limits states).seedDeposits deposits).bind (·.run inputs) = none →
          ∃ t ∈ ((RiskShards.new limits states ranges (shardTasks deposits inputs)).run ShardThread.next actions).threads,
            t.system.shardPc = .stopped)) := by
  obtain ⟨order, hself, horder⟩ := exists_order _ hiters
  obtain ⟨hinputs, hactions⟩ := List.forall_mem_append.mp horder
  rw [List.forall_mem_map] at hinputs hactions
  rw [sole_eq hdeposits hinputs]
  generalize shardTasks deposits inputs = tasks
  refine ⟨fun hsteps t ht => ?_, fun hdone => ⟨?_, ?_⟩⟩
  · obtain ⟨i, hi⟩ := List.getElem?_of_mem ht
    obtain ⟨r, hr⟩ := thread_range hi
    exact thread_done hranges hr (hsteps i (List.getElem?_eq_some_iff.mp hr).1) hi
  · intro shard cmds hsole
    have hlength : ((RiskShards.new limits states ranges tasks).run ShardThread.next actions).threads.length =
        ranges.length := by
      rw [Threads.length_run, RiskShards.new, List.length_map]
    exact sameAs_of_follows hranges hlength (fun a ha => unowned_state hranges ha)
      (thread_follows hranges hself hactions hdone hsole) hsole
  · intro hsole
    obtain ⟨a, howns, hnone⟩ := runOps_none hself hsole
    have hr := List.getElem?_eq_getElem ((ownerOf_lt_iff hranges).mpr (of_decide_eq_true howns))
    have hfail := hnone _ [] (part_new hranges hr) (decide_eq_true ((ownerOf_eq_iff hranges hr).mpr rfl))
    obtain ⟨u, s, hu, -, ⟨hpc, -⟩ | ⟨-, hok⟩⟩ := thread_result hranges hactions hdone hr
    · exact ⟨u, List.mem_of_getElem? hu, hpc⟩
    · rw [hfail] at hok
      cases hok

end

/-! ## A trade between two shards -/

def demoDeposits : List (AccountId × Int64) := [(⟨1⟩, 10000000000000), (⟨2⟩, 10000000000000)]

/-- Account 1 is of the first shard and account 2 of the second one. -/
def demoShards : RiskShards :=
  RiskShards.new .default (AccountRiskTable.new 3) [(0, 2), (2, 3)] (shardTasks demoDeposits demoInputs)

/-- The shards take turns. -/
def demoTurns : List (Nat × IterOrder) := (List.range 48).map fun k => (k % 2, inOrder)

theorem demoIters : ∀ iter ∈ demoInputs.map (·.iter) ++ demoTurns.map Prod.snd, iter = inOrder := by
  intro iter h
  rcases List.mem_append.mp h with h | h
  · simpa [demoInputs] using h
  · obtain ⟨x, hx, rfl⟩ := List.mem_map.mp h
    obtain ⟨k, -, rfl⟩ := List.mem_map.mp hx
    rfl

theorem sharding_transparent_demo :
    ((RiskShard.new 0 3 .default (AccountRiskTable.new 3)).seedDeposits demoDeposits).bind (·.run demoInputs) =
        some (demoExposed, (Option.get _ run_demoInputs).2) ∧
      RiskShards.SameAs (demoShards.run ShardThread.next demoTurns) demoExposed (Option.get _ run_demoInputs).2 := by
  have hrun : ((RiskShard.new 0 3 .default (AccountRiskTable.new 3)).seedDeposits demoDeposits).bind (·.run demoInputs) =
      some (demoExposed, (Option.get _ run_demoInputs).2) := by
    rw [demoDeposits, seed_demoShard]
    exact run_demoExposed
  have hranges : Contiguous 0 [(0, 2), (2, 3)] 3 := by decide
  have hiters : ∀ iter ∈ demoInputs.map (·.iter) ++ demoTurns.map Prod.snd,
      ∀ iter' ∈ demoInputs.map (·.iter) ++ demoTurns.map Prod.snd, iter.Agree iter' := fun iter h iter' h' => by
    rw [demoIters iter h, demoIters iter' h']
    exact fun _ _ _ hes => hes
  have hdeposits : ∀ d ∈ demoDeposits, d.1.raw < 3 := by decide
  exact ⟨hrun, ((sharding_transparent hranges hdeposits hiters).2
    ((sharding_transparent hranges hdeposits hiters).1 (by decide))).1 _ _ hrun⟩

end Proof.Sharding

end MRE
