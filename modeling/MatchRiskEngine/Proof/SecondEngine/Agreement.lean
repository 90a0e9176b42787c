import MatchRiskEngine.Framework.Maps
import MatchRiskEngine.Proof.MatchingEngine.EventSourcing
import MatchRiskEngine.Proof.OrderBook.Moves
import MatchRiskEngine.Spec.SecondEngine

/-!
# The two engines side by side

Both engines do to a book what `applyToBook` says (`applyEscalated_books`),
except that the primary leaves the book alone if the inline risk check refuses a
new order (`handleCommand_refused`); the second engine has no such check. So they
agree on the commands on which the check does not matter (`agrees_iff`).
-/

namespace MRE.Proof.SecondEngine

open MRE.SecondEngine

section Books

variable {M K : Type} {books books' : Books M K} {symbol : Symbol} {b b' : OrderBook M K}

theorem lookup_broadcast {f : OrderBook M K → Option (OrderBook M K)} (h : books.updateAll f books.keys = some books')
    (s : Symbol) : books'.lookup s = (books.lookup s).bind f := by
  by_cases hs : s ∈ books.keys
  · exact AList.lookup_updateAll h books.keys_nodup hs
  · have hnone : books.lookup s = none := AList.lookup_eq_none.mpr fun hm => hs (AList.mem_keys.mp hm)
    rw [AList.lookup_updateAll_notMem h hs, hnone]
    rfl

/-- Where one book is updated, the others are left alone. -/
theorem lookup_replace_bind {f : Symbol → OrderBook M K → Option (OrderBook M K)} (hb : books.lookup symbol = some b)
    (hf : f symbol b = some b') (hothers : ∀ s b, s ≠ symbol → f s b = some b) (s : Symbol) :
    (books.replace symbol b').lookup s = (books.lookup s).bind (f s) := by
  by_cases hs : s = symbol
  · rw [hs, AList.lookup_replace_self hb, hb, Option.bind_some, hf]
  · rw [AList.lookup_replace_ne hs]
    cases hlookup : books.lookup s with
    | none => rfl
    | some b₁ => rw [Option.bind_some, hothers s b₁ hs]

theorem lookup_bind_of_none {f : Symbol → OrderBook M K → Option (OrderBook M K)} (hnone : books.lookup symbol = none)
    (hothers : ∀ s b, s ≠ symbol → f s b = some b) (s : Symbol) : books.lookup s = (books.lookup s).bind (f s) := by
  by_cases hs : s = symbol
  · rw [hs, hnone]
    rfl
  · cases hlookup : books.lookup s with
    | none => rfl
    | some b₁ => rw [Option.bind_some, hothers s b₁ hs]

end Books

variable {M K : Type} [DecidableEq K] [Arena M K] {entry : LogEntry} {books books' : Books M K}
  {symbol : Symbol} {account : AccountId} {o : InboundNewOrder} {b b' : OrderBook M K}

/-! ## Each command on its own -/

theorem applyToBook_newOrder (h : entry.cmd = .newOrder o) (symbol : Symbol) (b : OrderBook M K) :
    applyToBook entry.command symbol b =
      if o.symbol = symbol then (b.apply entry.command).map Prod.fst else some b := by
  rw [applyToBook, show entry.command.cmd = .newOrder o from h]

theorem applyToBook_liquidate (h : entry.cmd = .liquidate symbol account) (s : Symbol) (b : OrderBook M K) :
    applyToBook entry.command s b =
      if symbol = s then b.cancelOrders entry.command account (b.openOrderIdsForAccount account) else some b := by
  rw [applyToBook, show entry.command.cmd = .liquidate symbol account from h]

theorem applyToBook_cancel {id : OrderId} (h : entry.cmd = .cancel account id) (s : Symbol) :
    applyToBook entry.command s = fun b : OrderBook M K => (b.apply entry.command).map Prod.fst := by
  funext b
  rw [applyToBook, show entry.command.cmd = .cancel account id from h]

theorem applyToBook_freeze (h : entry.cmd = .freezeAccount account) (s : Symbol) (b : OrderBook M K) :
    applyToBook entry.command s b = some b := by
  rw [applyToBook, show entry.command.cmd = .freezeAccount account from h]

theorem applyEscalated_newOrder_unknown (h : entry.cmd = .newOrder o) (hb : books.lookup o.symbol = none) :
    applyEscalated entry books = some (books, 0, 0, false) := by
  simp only [applyEscalated, h, hb]

theorem applyEscalated_newOrder (h : entry.cmd = .newOrder o) (hb : books.lookup o.symbol = some b) :
    applyEscalated entry books = (b.apply entry.command).map fun r =>
      (books.replace o.symbol r.1, (accumulateFill r.2 ⟨entry.seq⟩).1, (accumulateFill r.2 ⟨entry.seq⟩).2, true) := by
  simp only [applyEscalated, LogEntry.command, h, hb]
  exact (Option.map_eq_bind ..).symm

theorem applyEscalated_liquidate_unknown (h : entry.cmd = .liquidate symbol account) (hb : books.lookup symbol = none) :
    applyEscalated entry books = some (books, 0, 0, false) := by
  simp only [applyEscalated, h, hb]

theorem applyEscalated_liquidate (h : entry.cmd = .liquidate symbol account) (hb : books.lookup symbol = some b) :
    applyEscalated entry books =
      (b.cancelOrders entry.command account (b.openOrderIdsForAccount account)).map fun b' =>
        (books.replace symbol b', 0, 0, true) := by
  simp only [applyEscalated, OrderBook.cancelOrders, LogEntry.command, h, hb]
  exact (Option.map_eq_bind ..).symm

theorem applyEscalated_cancel {id : OrderId} (h : entry.cmd = .cancel account id) :
    applyEscalated entry books =
      (books.updateAll (fun b : OrderBook M K => (b.apply entry.command).map Prod.fst) books.keys).map fun books =>
        (books, 0, 0, true) := by
  rw [applyEscalated, h, Option.map_eq_bind]
  refine congrArg (Option.bind · _) (congrArg (fun f => List.foldlM f books books.keys) ?_)
  funext books s
  rw [AList.update, LogEntry.command, h]
  refine congrArg (Option.bind (books.lookup s)) (funext fun b => ?_)
  show (b.apply _).bind _ = ((b.apply _).map Prod.fst).bind _
  cases b.apply { term := entry.term, seq := entry.seq, tsNs := entry.timestampIn, cmd := .cancel account id } <;> rfl

theorem applyEscalated_freeze (h : entry.cmd = .freezeAccount account) :
    applyEscalated entry books = some (books, 0, 0, true) := by
  simp only [applyEscalated, h]

/-! ## All commands -/

theorem applyEscalated_books {r : UInt64 × UInt64 × Bool} (h : applyEscalated entry books = some (books', r)) (s : Symbol) :
    books'.lookup s = (books.lookup s).bind (applyToBook entry.command s) := by
  cases hcmd : entry.cmd with
  | newOrder o =>
    have hothers : ∀ s b, s ≠ o.symbol → applyToBook entry.command s b = some (b : OrderBook M K) := fun s b hs => by
      rw [applyToBook_newOrder hcmd, if_neg (Ne.symm hs)]
    cases hb : books.lookup o.symbol with
    | none =>
      rw [applyEscalated_newOrder_unknown hcmd hb] at h
      cases h
      exact lookup_bind_of_none hb hothers s
    | some b =>
      rw [applyEscalated_newOrder hcmd hb] at h
      obtain ⟨r', happly, h⟩ := Option.map_eq_some_iff.mp h
      cases h
      refine lookup_replace_bind hb ?_ hothers s
      rw [applyToBook_newOrder hcmd, if_pos rfl, happly]
      rfl
  | liquidate symbol account =>
    have hothers : ∀ s b, s ≠ symbol → applyToBook entry.command s b = some (b : OrderBook M K) := fun s b hs => by
      rw [applyToBook_liquidate hcmd, if_neg (Ne.symm hs)]
    cases hb : books.lookup symbol with
    | none =>
      rw [applyEscalated_liquidate_unknown hcmd hb] at h
      cases h
      exact lookup_bind_of_none hb hothers s
    | some b =>
      rw [applyEscalated_liquidate hcmd hb] at h
      obtain ⟨b', hcancel, h⟩ := Option.map_eq_some_iff.mp h
      cases h
      refine lookup_replace_bind hb ?_ hothers s
      rw [applyToBook_liquidate hcmd, if_pos rfl, hcancel]
  | cancel account id =>
    rw [applyEscalated_cancel hcmd] at h
    obtain ⟨books₁, hall, h⟩ := Option.map_eq_some_iff.mp h
    cases h
    rw [applyToBook_cancel hcmd]
    exact lookup_broadcast hall s
  | freezeAccount account =>
    rw [applyEscalated_freeze hcmd] at h
    cases h
    cases books.lookup s with
    | none => rfl
    | some b => rw [Option.bind_some, applyToBook_freeze hcmd]

theorem applyEscalated_isSome
    (h : ∀ s b, books.lookup s = some b → (applyToBook entry.command s b).isSome) :
    ∃ r, applyEscalated entry books = some r := by
  cases hcmd : entry.cmd with
  | newOrder o =>
    cases hb : books.lookup o.symbol with
    | none => exact ⟨_, applyEscalated_newOrder_unknown hcmd hb⟩
    | some b =>
      have hsome := h o.symbol b hb
      rw [applyToBook_newOrder hcmd, if_pos rfl, Option.isSome_map] at hsome
      obtain ⟨r, hr⟩ := Option.isSome_iff_exists.mp hsome
      exact ⟨_, by rw [applyEscalated_newOrder hcmd hb, hr]; rfl⟩
  | liquidate symbol account =>
    cases hb : books.lookup symbol with
    | none => exact ⟨_, applyEscalated_liquidate_unknown hcmd hb⟩
    | some b =>
      have hsome := h symbol b hb
      rw [applyToBook_liquidate hcmd, if_pos rfl] at hsome
      obtain ⟨b', hb'⟩ := Option.isSome_iff_exists.mp hsome
      exact ⟨_, by rw [applyEscalated_liquidate hcmd hb, hb']; rfl⟩
  | cancel account id =>
    have hall : ∀ s ∈ books.keys,
        ((books.lookup s).bind fun b => (b.apply entry.command).map Prod.fst).isSome := fun s hs => by
      obtain ⟨b, hb⟩ := Option.isSome_iff_exists.mp (AList.lookup_isSome.mpr (AList.mem_keys.mpr hs))
      have hsome := h s b hb
      rw [applyToBook_cancel hcmd] at hsome
      rw [hb]
      exact hsome
    obtain ⟨books', h'⟩ := AList.updateAll_isSome books.keys_nodup hall
    exact ⟨_, by rw [applyEscalated_cancel hcmd, h']; rfl⟩
  | freezeAccount account => exact ⟨_, applyEscalated_freeze hcmd⟩

end MRE.Proof.SecondEngine

namespace MRE

namespace Proof.SecondEngine

open MRE.SecondEngine OrderBook Engine

section Primary

variable {M K : Type} [DecidableEq K] [Arena M K] {env : Env} {e : MatchingEngine M K}
  {cmd : SequencedCommand}

theorem handleCommand_book (hterm : ¬ cmd.term < e.highestTermSeen) {symbol : Symbol} (hroute : cmd.cmd.RoutedTo symbol)
    (hrisk : ∀ o, cmd.cmd = .newOrder o → e.riskResult o = .ok ()) :
    (e.handleCommand env cmd).map MatchingEngine.book = applyToBook cmd symbol e.book := by
  rw [MatchingEngine.handleCommand, if_neg hterm, applyToBook]
  cases hcmd : cmd.cmd with
  | newOrder o =>
    rw [hcmd] at hroute
    simp only [hrisk o hcmd, show o.symbol = symbol from hroute, if_pos]
    cases e.book.apply cmd with
    | none => rfl
    | some r => exact congrArg some (Quiet.foldl (quiet_trackPrice_publishEvent env) { e with book := r.1 } r.2).book
  | cancel account id => exact applyAndPublish_book env e cmd
  | liquidate s account =>
    rw [hcmd] at hroute
    simp only [show s = symbol from hroute, if_pos]
    exact cancelAll_book env cmd account e _
  | freezeAccount account => rfl

theorem handleCommand_refused (hterm : ¬ cmd.term < e.highestTermSeen) {o : InboundNewOrder} (hcmd : cmd.cmd = .newOrder o)
    {reason : RiskRejectReason} (hrisk : e.riskResult o = .error reason) :
    (e.handleCommand env cmd).map MatchingEngine.book = some e.book := by
  rw [MatchingEngine.handleCommand, if_neg hterm]
  simp only [hcmd, hrisk]
  exact congrArg some (quiet_publishAndLog env e _).book

end Primary

variable {M K : Type} [DecidableEq K] [Arena M K] {entry : LogEntry} {books : Books M K}
  {symbol : Symbol} {b : OrderBook M K}

/-- The book of a symbol after an entry, if the entry can be applied to the
other books. -/
theorem applyEscalated_book (hb : books.lookup symbol = some b) (hroute : entry.cmd.RoutedTo symbol)
    (hothers : ∀ s b', s ≠ symbol → books.lookup s = some b' → (b'.apply entry.command).isSome) :
    ((applyEscalated entry books).bind fun r => r.1.lookup symbol) = applyToBook entry.command symbol b := by
  cases hesc : applyEscalated entry books with
  | some r => rw [Option.bind_some, applyEscalated_books hesc, hb, Option.bind_some]
  | none =>
    rw [Option.bind_none]
    by_contra hne
    -- nothing else can have gone wrong
    have hall : ∀ s b', books.lookup s = some b' → (applyToBook entry.command s b').isSome := by
      intro s b' hb'
      by_cases hs : s = symbol
      · rw [hs, hb] at hb'
        cases hb'
        rw [hs]
        exact Option.isSome_iff_ne_none.mpr (Ne.symm hne)
      · rw [applyToBook]
        split
        · rename_i o hcmd
          rw [show entry.cmd = .newOrder o from hcmd] at hroute
          rw [if_neg fun h => hs (h.symm.trans hroute)]
          rfl
        · rename_i s' account hcmd
          rw [show entry.cmd = .liquidate s' account from hcmd] at hroute
          rw [if_neg fun h => hs (h.symm.trans hroute)]
          rfl
        · rw [Option.isSome_map]
          exact hothers s b' hs hb'
        · rfl
    obtain ⟨r, hr⟩ := applyEscalated_isSome hall
    rw [hesc] at hr
    cases hr

theorem SameOpenOrders.rel_refl (x : Option (OrderBook M K)) : Option.Rel SameOpenOrders x x := by
  cases x with
  | none => exact .none
  | some b => exact .some fun _ _ => rfl

/-- What a new order leaves in a book that commands have led to. -/
theorem apply_rel_iff {cfg : BookConfig} (hb : b.Reachable cfg) {cmd : SequencedCommand} {o : InboundNewOrder}
    (hcmd : cmd.cmd = .newOrder o) : Option.Rel SameOpenOrders ((b.apply cmd).map Prod.fst) (some b) ↔ b.Spares o := by
  obtain ⟨c, Q, hv, -⟩ := Book.Reachable.valid hb
  obtain ⟨b', evs, -, e, heff, -⟩ := hv.apply cmd
  rw [e, Option.map_some, Option.rel_some_some]
  exact hv.sameOpenOrders_iff (heff.applied hcmd)

/-- The engines leave the same open orders exactly if the command is not a new
order that the inline risk check refuses and that the book would not leave its
open orders as they are: it would if it refuses the order too, or the order meets
no other and does not come to rest. -/
theorem agrees_iff (env : Env) (limits : Tier0Limits) (risk : AccountRiskTable) (hb : books.lookup symbol = some b)
    (hroute : entry.cmd.RoutedTo symbol)
    (hothers : ∀ s b', s ≠ symbol → books.lookup s = some b' → (b'.apply entry.command).isSome) :
    (Option.Rel SameOpenOrders ((applyEscalated entry books).bind fun r => r.1.lookup symbol)
        (((MatchingEngine.new limits b risk).handleCommand env entry.command).map MatchingEngine.book) ↔
      ∀ o, entry.cmd = .newOrder o → (MatchingEngine.new limits b risk).riskResult o = .ok () ∨
        Option.Rel SameOpenOrders ((b.apply entry.command).map Prod.fst) (some b)) ∧
    ∀ cfg, b.Reachable cfg → ∀ o, entry.cmd = .newOrder o →
      (Option.Rel SameOpenOrders ((b.apply entry.command).map Prod.fst) (some b) ↔ b.Spares o) := by
  refine ⟨?_, fun cfg hreach o hcmd => apply_rel_iff hreach hcmd⟩
  have hterm : ¬ entry.command.term < (MatchingEngine.new limits b risk).highestTermSeen := UInt64.not_lt_zero
  rw [applyEscalated_book hb hroute hothers]
  by_cases hrisk : ∀ o, entry.cmd = .newOrder o → (MatchingEngine.new limits b risk).riskResult o = .ok ()
  · have heq : (((MatchingEngine.new limits b risk).handleCommand env entry.command).map MatchingEngine.book) =
        applyToBook entry.command symbol b := handleCommand_book hterm hroute hrisk
    rw [heq]
    exact iff_of_true (SameOpenOrders.rel_refl _) fun o ho => .inl (hrisk o ho)
  · obtain ⟨o, hrisk⟩ := not_forall.mp hrisk
    obtain ⟨hcmd, hne⟩ := Classical.not_imp.mp hrisk
    obtain ⟨reason, hreason⟩ : ∃ reason, (MatchingEngine.new limits b risk).riskResult o = .error reason := by
      cases hres : (MatchingEngine.new limits b risk).riskResult o with
      | ok u => exact absurd hres hne
      | error reason => exact ⟨reason, rfl⟩
    have hbook : applyToBook entry.command symbol b = (b.apply entry.command).map Prod.fst := by
      rw [hcmd] at hroute
      rw [applyToBook_newOrder hcmd, if_pos (show o.symbol = symbol from hroute)]
    rw [handleCommand_refused hterm hcmd hreason, hbook]
    constructor
    · exact fun h o' _ => .inr h
    · exact fun h => (h o hcmd).resolve_left hne

/-- A worker with one book. -/
def demoBooks : Books SlotArena SlotKey := (∅ : Books _ _).insert ⟨1⟩ demoBook

theorem lookup_demoBooks : demoBooks.lookup ⟨1⟩ = some demoBook := AList.lookup_insert ∅

theorem lookup_demoBooks_ne {s : Symbol} (h : s ≠ ⟨1⟩) : demoBooks.lookup s = none :=
  (AList.lookup_insert_ne h).trans (AList.lookup_empty s)

/-- An account's order to sell. -/
def demoEntry (account : UInt64) : LogEntry :=
  .new 1 1 0 (.newOrder { account := ⟨account⟩, clientOrderId := ⟨1⟩, symbol := ⟨1⟩, side := .sell, price := ⟨105⟩
                          qty := ⟨5⟩, orderType := .limit, timeInForce := .gtc })

theorem demoEntry_routed (account : UInt64) : (demoEntry account).cmd.RoutedTo ⟨1⟩ := rfl

theorem riskResult_demo : ∀ o, (demoEntry 10).cmd = .newOrder o → demoEngine.riskResult o = .ok () := by
  intro o ho
  obtain rfl := InboundCommand.newOrder.inj ho
  rfl

theorem agrees_iff_demo : demoBooks.lookup ⟨1⟩ = some demoBook ∧ (demoEntry 10).cmd.RoutedTo ⟨1⟩ ∧
    Option.Rel SameOpenOrders ((applyEscalated (demoEntry 10) demoBooks).bind fun r => r.1.lookup ⟨1⟩)
      ((demoEngine.handleCommand idealEnv (demoEntry 10).command).map MatchingEngine.book) := by
  refine ⟨lookup_demoBooks, demoEntry_routed 10, ?_⟩
  refine (agrees_iff idealEnv .default (AccountRiskTable.new 16) lookup_demoBooks (demoEntry_routed 10) ?_).1.mpr ?_
  · intro s b' hs hb'
    rw [lookup_demoBooks_ne hs] at hb'
    cases hb'
  · exact fun o ho => .inl (riskResult_demo o ho)

/-- The sellers at 105 in the second engine and in the primary, once they have
seen an order of an account that is not in the table. -/
theorem queues_demo :
    ((applyEscalated (demoEntry 99) demoBooks).bind fun r => r.1.lookup ⟨1⟩).map (·.queue .sell 5) =
      some (some [(⟨1⟩, ⟨5⟩)]) ∧
    ((demoEngine.handleCommand idealEnv (demoEntry 99).command).map MatchingEngine.book).map (·.queue .sell 5) =
      some (some []) := by
  decide

theorem SameOpenOrders.queue_eq {x y : Option (OrderBook M K)} (h : Option.Rel SameOpenOrders x y) (side : Side) (idx : Nat) :
    x.map (·.queue side idx) = y.map (·.queue side idx) := by
  cases h with
  | none => rfl
  | some h => exact congrArg some (h side idx)

/-- The second engine lets an account trade that the primary does not know. -/
theorem second_accepts_unknown : demoBooks.lookup ⟨1⟩ = some demoBook ∧ (demoEntry 99).cmd.RoutedTo ⟨1⟩ ∧
    demoEngine.riskStates.get ⟨99⟩ = none ∧
    ¬ Option.Rel SameOpenOrders ((applyEscalated (demoEntry 99) demoBooks).bind fun r => r.1.lookup ⟨1⟩)
      ((demoEngine.handleCommand idealEnv (demoEntry 99).command).map MatchingEngine.book) := by
  refine ⟨lookup_demoBooks, demoEntry_routed 99, rfl, fun h => ?_⟩
  have heq := SameOpenOrders.queue_eq h .sell 5
  rw [queues_demo.1, queues_demo.2] at heq
  cases heq

end Proof.SecondEngine

end MRE
