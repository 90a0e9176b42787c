import MatchRiskEngine.Proof.OrderBook.Commands
import MatchRiskEngine.Spec.OrderBook

/-!
# Runs of the book

From an empty book, a run of commands whose new orders have increasing
sequence numbers never panics. After it the book is well formed
(`run_wellFormed`), and where the ladder fits its events are those of the
reference book (`run_refines`).

`RefBook.RunIf` is a run of the reference book in which the decisions on
fill-or-kill orders are left open; every run of the book is one
(`run_ok`).
-/

namespace MRE

open SlotMap

/-- The new orders of a run have increasing sequence numbers. -/
def Increasing (cmds : List SequencedCommand) : Prop :=
  (cmds.filterMap SequencedCommand.newOrderSeq).Pairwise (· < ·)

instance (cmds : List SequencedCommand) : Decidable (Increasing cmds) :=
  inferInstanceAs (Decidable ((cmds.filterMap SequencedCommand.newOrderSeq).Pairwise (· < ·)))

/-- A run of the reference book with any decisions on fill-or-kill orders. -/
inductive RefBook.RunIf (c : RefConfig) : RefBook → List SequencedCommand → RefBook → List (List EngineEvent) → Prop
  | nil (r : RefBook) : RunIf c r [] r []
  | cons {r : RefBook} {cmd : SequencedCommand} (f : Bool) {cmds : List SequencedCommand} {r' : RefBook}
      {evss : List (List EngineEvent)} (h : RunIf c (r.applyIf c cmd f).1 cmds r' evss) :
      RunIf c r (cmd :: cmds) r' ((r.applyIf c cmd f).2 :: evss)

namespace Proof.Book

/-- The new orders of a run are younger than every live order. -/
def Fresh (r : RefBook) (cmds : List SequencedCommand) : Prop :=
  ∀ n ∈ cmds.filterMap SequencedCommand.newOrderSeq, Below r n

variable {cmds : List SequencedCommand} {cmd : SequencedCommand}

theorem Fresh.head {r : RefBook} (h : Fresh r (cmd :: cmds)) :
    ∀ n ∈ cmd.newOrderSeq, Below r n :=
  fun n hn => h n (List.mem_filterMap.mpr ⟨cmd, List.mem_cons_self, hn⟩)

/-- A command after which whatever rests is as old as before, or came with the
command. -/
theorem Fresh.step {r r' : RefBook} (h : Fresh r (cmd :: cmds)) (hinc : Increasing (cmd :: cmds))
    (hstep : ∀ n, Below r n → (∀ seq ∈ cmd.newOrderSeq, seq < n) → Below r' n) : Fresh r' cmds := by
  intro n hn
  obtain ⟨cmd', hcmd', hn'⟩ := List.mem_filterMap.mp hn
  refine hstep n (h n (List.mem_filterMap.mpr ⟨cmd', List.mem_cons_of_mem cmd hcmd', hn'⟩)) fun m hm => ?_
  rw [Increasing, List.filterMap_cons_some hm] at hinc
  exact (List.pairwise_cons.mp hinc).1 n hn

theorem Fresh.tail {r : RefBook} (h : Fresh r (cmd :: cmds))
    (hinc : Increasing (cmd :: cmds)) (c : RefConfig) (f : Bool) : Fresh (r.applyIf c cmd f).1 cmds :=
  h.step hinc fun _ hn hcmd => hn.applyIf cmd f hcmd

theorem newOrderSeq_eq {c : SequencedCommand} {seq : UInt64} (h : c.newOrderSeq = some seq) : seq = c.seq := by
  rw [SequencedCommand.newOrderSeq] at h
  split at h
  · exact (Option.some.inj h).symm
  · cases h

theorem Increasing.tail (h : Increasing (cmd :: cmds)) :
    Increasing cmds := by
  unfold Increasing at *
  rw [List.filterMap_cons] at h
  split at h
  · exact h
  · exact (List.pairwise_cons.mp h).2

variable {M K : Type} [DecidableEq K] [Arena M K]

variable {c : RefConfig} {b b₀ : OrderBook M K} {r : RefBook} {cfg : BookConfig}

theorem run_ok (h : Sim c b r) (hinc : Increasing cmds) (hfresh : Fresh r cmds) :
    ∃ b' evss r' refs, b.run cmds = some (b', evss) ∧ r.RunIf c cmds r' refs ∧
      List.Forall₂ TopsAfter refs evss ∧ Sim c b' r' ∧ (c.LadderFits → r.run c cmds = (r', refs)) := by
  induction cmds generalizing b r with
  | nil => exact ⟨b, [], r, [], rfl, .nil r, .nil, h, fun _ => rfl⟩
  | cons cmd cmds ih =>
    obtain ⟨b₁, evs, f, e₁, htops, h₁, hfit₁, -⟩ := apply_ok h cmd hfresh.head
    obtain ⟨b', evss, r', refs, e', hrun, htops', h', hfit'⟩ := ih h₁ (Increasing.tail hinc) (hfresh.tail hinc c f)
    refine ⟨b', evs :: evss, r', _, ?_, .cons f hrun, .cons htops htops', h', fun hfit => ?_⟩
    · rw [OrderBook.run, e₁, Option.bind_eq_bind, Option.bind_some]
      simp only [e', Option.bind_eq_bind, Option.bind_some]
    · simp only [RefBook.run, ← hfit₁ hfit, hfit' hfit]

theorem run_append (b : OrderBook M K) (cmds cmds' : List SequencedCommand) :
    b.run (cmds ++ cmds') = (b.run cmds).bind fun r => (r.1.run cmds').map fun r' => (r'.1, r.2 ++ r'.2) := by
  induction cmds generalizing b with
  | nil =>
    simp only [List.nil_append, OrderBook.run, Option.bind_some]
    cases b.run cmds' <;> rfl
  | cons c cmds ih =>
    simp only [List.cons_append, OrderBook.run, Option.bind_eq_bind, ih]
    cases b.apply c with
    | none => rfl
    | some r =>
      simp only [Option.bind_some]
      cases r.1.run cmds with
      | none => rfl
      | some r' =>
        simp only [Option.bind_some, List.cons_append]
        cases r'.1.run cmds' <;> rfl

theorem run_singleton (b : OrderBook M K) (cmd : SequencedCommand) :
    b.run [cmd] = (b.apply cmd).map fun r => (r.1, [r.2]) := by
  simp only [OrderBook.run, Option.bind_eq_bind, Option.bind_some]
  cases b.apply cmd <;> rfl

theorem run_concat (b : OrderBook M K) (cmds : List SequencedCommand) (cmd : SequencedCommand) :
    b.run (cmds ++ [cmd]) = (b.run cmds).bind fun r => (r.1.apply cmd).map fun r' => (r'.1, r.2 ++ [r'.2]) := by
  rw [run_append]
  refine congrArg (Option.bind _) (funext fun r => ?_)
  rw [run_singleton, Option.map_map]
  rfl

theorem new_ok (h : OrderBook.new cfg = some b₀) :
    Sim b₀.refConfig b₀ RefBook.empty ∧ b₀.tickFloor = cfg.tickFloor ∧ b₀.bids.length = cfg.numTicks := by
  unfold OrderBook.new at h
  split at h
  · cases h
  rename_i hfit
  cases h
  refine ⟨⟨fun _ _ => [], ?_, ?_⟩, rfl, List.length_replicate⟩
  all_goals
    have hnone : ∀ k, dataOf (SlotMap.remove (SlotMap.insert (withCapacity cfg.arenaCapacity : M)
        (RestingOrder.new ⟨0⟩ ⟨0⟩ ⟨0⟩ .buy cfg.tickFloor 0)).2 (SlotMap.insert (withCapacity cfg.arenaCapacity : M)
        (RestingOrder.new ⟨0⟩ ⟨0⟩ ⟨0⟩ .buy cfg.tickFloor 0)).1).2 k = none := fun k => by
      rw [dataOf, get?_remove, get?_insert, get?_withCapacity]
      split <;> rfl
  · have hslot : ∀ (s : Side) (i : Nat) (l : PriceLevel K), (List.replicate cfg.numTicks (none : Option (PriceLevel K)))[i]? ≠
        some (some l) := fun s i l => by
      rw [List.getElem?_replicate]; split <;> simp
    refine ⟨⟨⟨rfl, ?_, fun s => ?_, fun {s i l} hl => ?_, fun {s i l} hl => ?_, fun h => absurd rfl h,
      (Placed.of_none hnone).toSeated⟩, fun s => ?_⟩, .of_none hnone, fun id k => ?_⟩
    · show (List.replicate cfg.numTicks none).length < 2 ^ 63
      rw [List.length_replicate]; exact Nat.lt_of_not_le hfit
    · cases s <;> rfl
    · cases s <;> exact absurd hl (hslot .buy i l)
    · cases s <;> exact absurd hl (hslot .buy i l)
    · cases s <;> exact fun _ h => h rfl
    · simp only [hnone, reduceCtorEq, false_and, exists_false]
  · refine ⟨fun s => by cases s <;> exact .nil, fun {s o} => ?_⟩
    simp only [hnone, reduceCtorEq, exists_false, and_false, iff_false]
    cases s <;> exact List.not_mem_nil

/-! ## The invariant -/

theorem queueQty_eq (arena : M) (ks : List K) :
    queueQty (dataOf arena) ks = ((ks.filterMap (get? arena)).map fun o => o.qtyRemaining.raw.toNat).sum := by
  induction ks with
  | nil => rfl
  | cons k ks ih =>
    rw [queueQty_cons, ih]
    cases hk : get? arena k with
    | none => rw [List.filterMap_cons_none hk, qtyAt, dataOf, hk]; exact Nat.zero_add _
    | some o => rw [List.filterMap_cons_some hk, qtyAt_of_get? hk, List.map_cons, List.sum_cons]

theorem Shape.occupied_iff {Q : Side → Nat → List K} (hb : Shape c b Q) {s : Side} {i : Nat} :
    b.Occupied s i ↔ Q s i ≠ [] := by
  refine ⟨fun ⟨l, hl, he⟩ hq => ?_, fun hq => ?_⟩
  · rw [(hb.level hl).isEmpty, hq] at he
    cases he
  · obtain ⟨l, hl⟩ := hb.occupied hq
    refine ⟨l, hl, ?_⟩
    rw [(hb.level hl).isEmpty, List.isEmpty_eq_false_iff]
    exact hq

theorem isBest_iff {s : Side} {occ : Nat → Prop} {best : Option Nat} (h : IsBest s occ best) {i : Nat} :
    best = some i ↔ occ i ∧ ∀ j, occ j → ¬ s.beats j i := by
  refine ⟨fun e => by rw [e] at h; exact h, fun ⟨hi, hbest⟩ => ?_⟩
  cases best with
  | none => exact absurd hi (h i)
  | some j =>
    have h₁ := hbest j h.1
    have h₂ := h.2 i hi
    cases s <;> exact congrArg some (Nat.le_antisymm (Nat.not_lt.mp ‹_›) (Nat.not_lt.mp ‹_›))

theorem isBest_none_iff {s : Side} {occ : Nat → Prop} {best : Option Nat} (h : IsBest s occ best) :
    best = none ↔ ∀ i, ¬ occ i := by
  refine ⟨fun e => by rw [e] at h; exact h, fun hno => ?_⟩
  cases best with
  | none => rfl
  | some j => exact absurd h.1 (hno j)

theorem Rep.wellFormed {Q : Side → Nat → List K} (hb : Rep c b Q) : b.WellFormed Q := by
  have hbest : ∀ s, IsBest s (fun i => b.Occupied s i) (b.best s) := fun s => by
    have := hb.best s
    simpa only [hb.occupied_iff] using this
  have hfloor : b.tickFloor = c.tickFloor := congrArg RefConfig.tickFloor hb.config
  refine ⟨fun hl => (hb.level hl).links, fun hv => ?_, fun {k} hk => ?_, fun h h' => hb.placed.unique h h',
    fun {s i k} hk => ?_, fun s i => ?_, fun hl => ?_, fun {id k} => ?_, ?_, isBest_none_iff (hbest .buy), ?_,
    isBest_none_iff (hbest .sell)⟩
  · by_contra hne
    obtain ⟨l, hl⟩ := hb.occupied hne
    exact hv l hl
  · rw [← dataOf_isSome, Option.isSome_iff_exists] at hk
    obtain ⟨o, ho⟩ := hk
    obtain ⟨i, -, hi⟩ := hb.placed.mem_queue ho
    exact ⟨o.side, i, hi⟩
  · obtain ⟨o, ho, hs, hi⟩ := hb.placed.mem.mp hk
    have hpos := hb.placed.pos ho
    obtain ⟨ro, hro, rfl⟩ := get?_of_dataOf ho
    refine ⟨ro, hro, hs, ?_, ?_⟩
    · rw [hfloor]; exact (RefConfig.index?_eq_some.mp hi).1
    · exact UInt64.pos_iff_ne_zero.mpr hpos
  · refine (hb.placed.fifo s i).imp ?_
    intro j k h x y hx hy
    exact h x.data y.data (dataOf_of_get? hx) (dataOf_of_get? hy)
  · rw [← queueQty_eq]; exact (hb.level hl).total
  · rw [hb.ids id k]
    refine ⟨fun ⟨o, ho, e⟩ => ?_, fun ⟨ro, hro, e⟩ => ⟨ro.data, dataOf_of_get? hro, e⟩⟩
    obtain ⟨ro, hro, rfl⟩ := get?_of_dataOf ho
    exact ⟨ro, hro, e⟩
  · intro i
    rw [show b.bestBidIdx = b.best .buy from rfl, isBest_iff (hbest .buy)]
    exact and_congr_right fun _ => forall₂_congr fun j _ => Nat.not_lt
  · intro i
    rw [show b.bestAskIdx = b.best .sell from rfl, isBest_iff (hbest .sell)]
    exact and_congr_right fun _ => forall₂_congr fun j _ => Nat.not_lt

/-- After every run of a new book whose new orders have increasing sequence
numbers, the book is well formed. -/
theorem run_wellFormed (hnew : OrderBook.new cfg = some b₀) (hinc : Increasing cmds) :
    ∃ b evss Q, b₀.run cmds = some (b, evss) ∧ b.WellFormed Q := by
  obtain ⟨b, evss, r', refs, e, -, -, ⟨Q, hb, -⟩, -⟩ := run_ok (new_ok hnew).1 hinc fun _ _ s x hx => by
    cases s <;> cases hx
  exact ⟨b, evss, Q, e, hb.wellFormed⟩

/-- A ladder of twenty prices from 100 on. -/
def demoConfig : BookConfig := { symbol := ⟨1⟩, tickFloor := ⟨100⟩, numTicks := 20, arenaCapacity := 4 }

/-- Two sellers, a buyer who takes the first and part of the second, and a
cancel. -/
def demoCommands : List SequencedCommand :=
  let order (seq : UInt64) (account : UInt64) (side : Side) (price : Int64) (qty : UInt64) : SequencedCommand :=
    { term := 1, seq, tsNs := 0
      cmd := .newOrder { account := ⟨account⟩, clientOrderId := ⟨seq⟩, symbol := ⟨1⟩, side, price := ⟨price⟩
                         qty := ⟨qty⟩, orderType := .limit, timeInForce := .gtc } }
  [order 1 10 .sell 105 5, order 2 11 .sell 106 3, order 3 12 .buy 106 6,
    { term := 1, seq := 4, tsNs := 0, cmd := .cancel ⟨11⟩ ⟨2⟩ }]

theorem new_demoConfig :
    ∃ b₀ : OrderBook SlotArena SlotKey, OrderBook.new demoConfig = some b₀ :=
  Option.isSome_iff_exists.mp rfl

theorem run_wellFormed_demo : ∃ (b₀ b : OrderBook SlotArena SlotKey)
    (evss : List (List EngineEvent)) (Q : Side → Nat → List SlotKey),
    OrderBook.new demoConfig = some b₀ ∧ b₀.run demoCommands = some (b, evss) ∧ b.WellFormed Q := by
  obtain ⟨b₀, h₀⟩ := new_demoConfig
  obtain ⟨b, evss, Q, h⟩ := run_wellFormed h₀ (show Increasing demoCommands by decide)
  exact ⟨b₀, b, evss, Q, h₀, h⟩

/-! ## The refinement -/

/-- The events other than updates of the top of the book. -/
def dropTops (evs : List EngineEvent) : List EngineEvent := evs.filter fun e => !e.isBookTop

theorem noTops_append {evs evs' : List EngineEvent} (h : ∀ e ∈ evs, e.isBookTop = false)
    (h' : ∀ e ∈ evs', e.isBookTop = false) : ∀ e ∈ evs ++ evs', e.isBookTop = false :=
  fun e he => (List.mem_append.mp he).elim (h e) (h' e)

theorem noTops_singleton {e : EngineEvent} (h : e.isBookTop = false) : ∀ e' ∈ [e], e'.isBookTop = false :=
  List.forall_mem_singleton.mpr h

theorem newOrderIf_noTops (c : RefConfig) (r : RefBook) (seq tsNs : UInt64) (o : InboundNewOrder) (f : Bool) :
    ∀ e ∈ (r.newOrderIf c seq tsNs o f).2, e.isBookTop = false := by
  have hout := newOrderIf_outcome c r seq tsNs o f
  generalize r.newOrderIf c seq tsNs o f = res at hout ⊢
  rcases hout with rej | hw | ⟨hw, ⟨rej, rfl⟩ | rfl⟩ | ⟨hw, he⟩
  · exact noTops_singleton rfl
  · exact hw.noTops
  · exact noTops_append hw.noTops (noTops_singleton rfl)
  · exact noTops_append hw.noTops (noTops_singleton rfl)
  · exact noTops_append hw.noTops (noTops_singleton rfl)

/-- The reference book says nothing of the top of the book. -/
theorem applyIf_noTops (c : RefConfig) (r : RefBook) (cmd : SequencedCommand) (f : Bool) :
    ∀ e ∈ (r.applyIf c cmd f).2, e.isBookTop = false := by
  unfold RefBook.applyIf
  split
  · exact newOrderIf_noTops c r _ _ _ f
  · unfold RefBook.cancel
    repeat' split
    all_goals exact noTops_singleton rfl
  · exact fun e he => nomatch he
  · exact fun e he => nomatch he

theorem TopsAfter.dropTops {ref evs : List EngineEvent} (h : TopsAfter ref evs) (href : ∀ e ∈ ref, e.isBookTop = false) :
    dropTops evs = ref := by
  obtain ⟨tops, rfl, htops⟩ := h
  rw [Book.dropTops, List.filter_append, List.filter_eq_self.mpr fun e he => by rw [href e he]; rfl,
    List.filter_eq_nil_iff.mpr fun e he => by rw [htops e he]; simp, List.append_nil]

theorem RunIf.dropTops {r' : RefBook} {refs evss : List (List EngineEvent)}
    (h : r.RunIf c cmds r' refs) (htops : List.Forall₂ TopsAfter refs evss) : evss.map Book.dropTops = refs := by
  induction h generalizing evss with
  | nil => cases htops; rfl
  | cons f _ ih =>
    rcases htops with _ | ⟨h₁, h₂⟩
    rw [List.map_cons, ih h₂, h₁.dropTops (applyIf_noTops c _ _ f)]

/-- The resting orders of a book are those of a reference book. -/
def SameOrders (b : OrderBook M K) (r : RefBook) : Prop :=
  ∀ s o, o ∈ r.side s ↔ o.side = s ∧ ∃ k ro, get? b.arena k = some ro ∧ ro.data = o

/-- Command by command, the book emits the trades, acceptances, cancellations
and rejections of the reference book, and it holds the same orders. -/
theorem run_refines (hnew : OrderBook.new cfg = some b₀) (hfit : cfg.LadderFits) (hinc : Increasing cmds) :
    ∃ b evss, b₀.run cmds = some (b, evss) ∧
      evss.map dropTops = (RefBook.empty.run b₀.refConfig cmds).2 ∧
      SameOrders b (RefBook.empty.run b₀.refConfig cmds).1 := by
  obtain ⟨b, evss, r', refs, e, hrun, htops, ⟨Q, hb, hl⟩, href⟩ := run_ok (new_ok hnew).1 hinc fun _ _ s x hx => by
    cases s <;> cases hx
  have hfit₀ : b₀.refConfig.LadderFits := by
    show b₀.tickFloor.raw.toInt + b₀.bids.length ≤ 2 ^ 63
    rw [(new_ok hnew).2.1, (new_ok hnew).2.2]
    exact hfit
  rw [href hfit₀]
  refine ⟨b, evss, e, RunIf.dropTops hrun htops, fun s o => ?_⟩
  rw [hl.mem]
  exact and_congr_right fun _ => exists_congr fun k => Option.map_eq_some_iff

theorem run_refines_demo : ∃ (b₀ b : OrderBook SlotArena SlotKey)
    (evss : List (List EngineEvent)), OrderBook.new demoConfig = some b₀ ∧ b₀.run demoCommands = some (b, evss) ∧
    evss.map dropTops = (RefBook.empty.run b₀.refConfig demoCommands).2 ∧
    SameOrders b (RefBook.empty.run b₀.refConfig demoCommands).1 := by
  obtain ⟨b₀, h₀⟩ := new_demoConfig
  obtain ⟨b, evss, h⟩ := run_refines h₀ (show (100 : Int) + 20 ≤ 2 ^ 63 by decide) (show Increasing demoCommands by decide)
  exact ⟨b₀, b, evss, h₀, h⟩

end Proof.Book

end MRE
