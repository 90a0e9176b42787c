import MatchRiskEngine.Proof.OrderBook.Ids
import MatchRiskEngine.Proof.OrderBook.Runs
import MatchRiskEngine.Proof.Sequencer.Routing

/-!
# Broadcast cancels

The sequencer pushes a cancel to every engine. A book that does not hold the
order is not changed by it (`apply_unwanted`), and an order is held by one book
at most, since its id is the number of the command it came with
(`idsApart`). So the books end up as if each cancel had reached only the
book that holds the order (`broadcast_run`).

The books take their commands at any speed. What carries the induction is that
each book is what the commands it has applied make of a new one (`Synced`).
-/

namespace MRE.Proof.Sequencing

open MRE.Sequencer MRE.Proof.Book

variable {M K : Type} [DecidableEq K] [Arena M K]

variable {x x' x₀ : Exchange M K} {s s' : Sequencer} {initialSeq : UInt64} {n : Nat}

/-! ## A cancel of an order that is not there -/

variable {cmd : SequencedCommand}

theorem apply_unwanted {b : OrderBook M K} (h : b.wants cmd.cmd = false) :
    ∃ evs, b.apply cmd = some (b, evs) := by
  obtain ⟨term, seq, tsNs, cmd⟩ := cmd
  cases cmd with
  | cancel account id =>
    have hnone : b.idToKey id = none := Option.isNone_iff_eq_none.mp (Option.isSome_eq_false_iff.mp h)
    simp only [OrderBook.apply, OrderBook.applyCancel, hnone]
    exact ⟨_, rfl⟩
  | newOrder o => cases h
  | liquidate symbol account => cases h
  | freezeAccount account => cases h

theorem stepBookRouted_eq (x : Exchange M K) (i : Nat) : x.stepBookRouted i = x.stepBook i := by
  rw [Exchange.stepBookRouted, Exchange.stepBook]
  cases x.next i with
  | none => rfl
  | some r =>
    cases hwants : r.1.book.wants r.2.cmd with
    | true => simp only [hwants, if_true]
    | false =>
      obtain ⟨evs, heq⟩ := apply_unwanted hwants
      simp only [hwants, heq, Bool.false_eq_true, if_false, Option.bind_eq_bind, Option.bind_some]

theorem runRouted_eq (x : Exchange M K) (actions : List Exchange.Action) : x.runRouted actions = x.run actions := by
  induction actions generalizing x with
  | nil => rfl
  | cons a actions ih =>
    have hstep : x.stepRouted a = x.step a := by
      cases a with
      | sequencer a => rfl
      | book i => exact stepBookRouted_eq x i
    simp only [Exchange.runRouted, Exchange.run, hstep, ih]

/-! ## The books -/

/-- Each book is what the commands it has applied make of the book it was. -/
structure Synced (initialSeq : UInt64) (n : Nat) (x₀ x : Exchange M K) : Prop where
  counted : Counted initialSeq n x.sequencer
  book (i : Nat) (t : BookThread M K) : x.books[i]? = some t →
    ∃ t₀ evss, x₀.books[i]? = some t₀ ∧ t.applied ≤ (x.sequencer.routed i).length ∧
      t₀.book.run ((x.sequencer.routed i).take t.applied) = some (t.book, evss)

variable {config : SequencerConfig}

theorem start_synced (h : x₀.Start config initialSeq) :
    Synced initialSeq config.nSymbols x₀ x₀ := by
  obtain ⟨gw, snapshots, hseq⟩ := h.sequencer
  refine ⟨?_, fun i t ht => ?_⟩
  · rw [hseq]
    exact new_counted gw snapshots config initialSeq
  · have happlied := (h.books t (List.mem_of_getElem? ht)).1
    rw [happlied]
    exact ⟨t, [], ht, Nat.zero_le _, rfl⟩

theorem next_some {i : Nat} {t : BookThread M K} (h : Synced initialSeq n x₀ x) (e : x.next i = some (t, cmd)) :
    x.books[i]? = some t ∧ (x.sequencer.routed i)[t.applied]? = some cmd := by
  obtain ⟨t', ht', e⟩ := Option.bind_eq_some_iff.mp e
  obtain ⟨queue, hqueue, e⟩ := Option.bind_eq_some_iff.mp e
  obtain ⟨cmd', hcmd', e⟩ := Option.bind_eq_some_iff.mp e
  rw [meInbound_eq h.counted.toTotalOrder hqueue] at hcmd'
  cases e
  exact ⟨ht', hcmd'⟩

theorem sequencer_synced (h : Synced initialSeq n x₀ x) {a : Sequencer.Action} (e : x.sequencer.step a = some s') :
    Synced initialSeq n x₀ { x with sequencer := s' } := by
  obtain ⟨hcounted, hprefix⟩ := step_counted h.counted e
  refine ⟨hcounted, fun i t ht => ?_⟩
  obtain ⟨t₀, evss, ht₀, hle, hrun⟩ := h.book i t ht
  obtain ⟨more, hmore⟩ := hprefix i
  refine ⟨t₀, evss, ht₀, ?_, ?_⟩
  · show t.applied ≤ (s'.routed i).length
    rw [← hmore, List.length_append]
    omega
  · show t₀.book.run ((s'.routed i).take t.applied) = some (t.book, evss)
    rw [← hmore, List.take_append_of_le_length hle]
    exact hrun

theorem book_synced {i : Nat} {t : BookThread M K} (h : Synced initialSeq n x₀ x)
    (hnext : x.next i = some (t, cmd)) {b : OrderBook M K} {evs : List EngineEvent}
    (e : t.book.apply cmd = some (b, evs)) :
    Synced initialSeq n x₀ { x with books := x.books.set i { book := b, applied := t.applied + 1 } } := by
  obtain ⟨ht, hcmd⟩ := next_some h hnext
  refine ⟨h.counted, fun j t' ht' => ?_⟩
  replace ht' : (x.books.set i { book := b, applied := t.applied + 1 })[j]? = some t' := ht'
  rw [List.getElem?_set] at ht'
  split at ht'
  · rename_i hij
    subst hij
    rw [if_pos (List.getElem?_eq_some_iff.mp ht).1] at ht'
    cases ht'
    obtain ⟨t₀, evss, ht₀, -, hrun⟩ := h.book i t ht
    refine ⟨t₀, evss ++ [evs], ht₀, (List.getElem?_eq_some_iff.mp hcmd).1, ?_⟩
    show t₀.book.run ((x.sequencer.routed i).take (t.applied + 1)) = some (b, evss ++ [evs])
    rw [List.take_add_one, hcmd, Option.toList_some, run_concat, hrun, Option.bind_some, e]
    rfl
  · exact h.book j t' ht'

theorem step_synced (h : Synced initialSeq n x₀ x) {a : Exchange.Action} (e : x.step a = some x') :
    Synced initialSeq n x₀ x' ∧ ∀ i, x.sequencer.routed i <+: x'.sequencer.routed i := by
  cases a with
  | sequencer a =>
    obtain ⟨s', e', rfl⟩ := Option.map_eq_some_iff.mp e
    exact ⟨sequencer_synced h e', (step_counted h.counted e').2⟩
  | book i =>
    rw [Exchange.step, Exchange.stepBook] at e
    split at e
    · rename_i t cmd hnext
      obtain ⟨⟨b, evs⟩, e', e⟩ := Option.bind_eq_some_iff.mp e
      cases e
      exact ⟨book_synced h hnext e', fun j => List.prefix_refl _⟩
    · cases e
      exact ⟨h, fun j => List.prefix_refl _⟩

theorem run_synced {actions : List Exchange.Action} (h : Synced initialSeq n x₀ x) (e : x.run actions = some x') :
    Synced initialSeq n x₀ x' ∧ ∀ i, x.sequencer.routed i <+: x'.sequencer.routed i := by
  induction actions generalizing x with
  | nil =>
    cases e
    exact ⟨h, fun i => List.prefix_refl _⟩
  | cons a actions ih =>
    obtain ⟨x₁, e₁, e⟩ := Option.bind_eq_some_iff.mp e
    obtain ⟨h₁, hgrow₁⟩ := step_synced h e₁
    obtain ⟨h', hgrow⟩ := ih h₁ e
    exact ⟨h', fun i => (hgrow₁ i).trans (hgrow i)⟩

/-! ## Ids -/

theorem dispatched_seq_inj (h : TotalOrder initialSeq n s) (hlt : s.dispatched.length < 2 ^ 64)
    {c c' : SequencedCommand} (hc : c ∈ s.dispatched.map Prod.snd) (hc' : c' ∈ s.dispatched.map Prod.snd)
    (hseq : c.seq = c'.seq) : c = c' := by
  obtain ⟨d, hd, rfl⟩ := List.mem_map.mp hc
  obtain ⟨d', hd', rfl⟩ := List.mem_map.mp hc'
  obtain ⟨k, hk⟩ := List.mem_iff_getElem?.mp hd
  obtain ⟨k', hk'⟩ := List.mem_iff_getElem?.mp hd'
  have hseqs : (s.dispatched.map fun d => d.2.seq).length < 2 ^ 64 := by rw [List.length_map]; exact hlt
  have hx : (s.dispatched.map fun d => d.2.seq)[k]? = some d.2.seq := by rw [List.getElem?_map, hk]; rfl
  have hx' : (s.dispatched.map fun d => d.2.seq)[k']? = some d.2.seq := by rw [List.getElem?_map, hk', hseq]; rfl
  obtain rfl : k = k' := (numbered_seqs h).index_inj hseqs hx hx'
  rw [hk] at hk'
  cases hk'
  rfl

theorem routedTo_unique {c : SequencedCommand} {seq : UInt64} (h : c.newOrderSeq = some seq) {i j : Nat}
    (hi : c.cmd.routedTo i = true) (hj : c.cmd.routedTo j = true) : i = j ∧ c.seq = seq := by
  obtain ⟨term, seq', tsNs, cmd⟩ := c
  cases cmd with
  | newOrder o =>
    cases h
    exact ⟨(of_decide_eq_true hi).symm.trans (of_decide_eq_true hj), rfl⟩
  | cancel account id => cases h
  | liquidate symbol account => cases h
  | freezeAccount account => cases h

/-- The ids in a book come from the new orders of its queue. -/
theorem hasId_routed (h₀ : x₀.Start config initialSeq) (h : Synced initialSeq n x₀ x)
    {i : Nat} {t : BookThread M K} (ht : x.books[i]? = some t) {id : OrderId} (hid : t.book.HasId id) :
    ∃ c ∈ x.sequencer.routed i, c.newOrderSeq = some id.raw := by
  obtain ⟨t₀, evss, ht₀, -, hrun⟩ := h.book i t ht
  obtain ⟨cfg, hnew⟩ := (h₀.books t₀ (List.mem_of_getElem? ht₀)).2
  have hids := run_onlyIds hnew hrun
  have hmem : id.raw ∈ ((x.sequencer.routed i).take t.applied).filterMap SequencedCommand.newOrderSeq := by
    obtain hmap | ⟨k, o, ho, rfl⟩ := hid
    · exact hids.map id hmap
    · exact hids.arena k o ho
  obtain ⟨c, hc, hseq⟩ := List.mem_filterMap.mp hmem
  exact ⟨c, List.mem_of_mem_take hc, hseq⟩

/-- This also holds at different times: the queues only grow. -/
theorem idsApart (h₀ : x₀.Start config initialSeq) (h : Synced initialSeq n x₀ x)
    (h' : Synced initialSeq n x₀ x') (hgrow : ∀ i, x.sequencer.routed i <+: x'.sequencer.routed i)
    (hlt : x'.sequencer.dispatched.length < 2 ^ 64) : x.IdsApart x' := by
  intro i j t t' hij ht ht' id hid hid'
  obtain ⟨c, hc, hseq⟩ := hasId_routed h₀ h ht hid
  obtain ⟨c', hc', hseq'⟩ := hasId_routed h₀ h' ht' hid'
  replace hc := (hgrow i).subset hc
  have hrouted := (List.mem_filter.mp hc).2
  have hrouted' := (List.mem_filter.mp hc').2
  have heq : c.seq = c'.seq := by
    rw [(routedTo_unique hseq hrouted hrouted).2, (routedTo_unique hseq' hrouted' hrouted').2]
  obtain rfl := dispatched_seq_inj h'.counted.toTotalOrder hlt ((routed_sublist _ i).subset hc)
    ((routed_sublist _ j).subset hc') heq
  exact hij (routedTo_unique hseq hrouted hrouted').1

/-! ## Runs -/

/-- Broadcasting the cancels of a run leads to the same books as delivering each
to the book that holds the order. After fewer than 2^64 commands no id is in two
books, even at different times, and a cancel does not change a book without the
order. -/
theorem broadcast_run (h₀ : x₀.Start config initialSeq) (actions : List Exchange.Action) :
    x₀.run actions = x₀.runRouted actions ∧
      ∀ x, x₀.run actions = some x → x.sequencer.dispatched.length < 2 ^ 64 →
        x.IdsDisjoint ∧
        (∀ more x', x.run more = some x' → x'.sequencer.dispatched.length < 2 ^ 64 → x.IdsApart x' ∧ x'.IdsApart x) ∧
        ∀ t ∈ x.books, ∀ (cmd : SequencedCommand) (account : AccountId) (id : OrderId),
          cmd.cmd = .cancel account id → ¬ t.book.HasId id → ∃ evs, t.book.apply cmd = some (t.book, evs) := by
  refine ⟨(runRouted_eq x₀ actions).symm, fun x hx hlt => ⟨?_, fun more x' hx' hlt' => ?_, ?_⟩⟩
  · have h := run_synced (start_synced h₀) hx
    exact idsApart h₀ h.1 h.1 (fun i => List.prefix_refl _) hlt
  · have h := run_synced (start_synced h₀) hx
    have h' := run_synced h.1 hx'
    have happart := idsApart h₀ h.1 h'.1 h'.2 hlt'
    exact ⟨happart, fun i j t t' hij ht ht' id hid hid' => happart j i t' t hij.symm ht' ht id hid' hid⟩
  · intro t _ cmd account id hcancel hid
    refine apply_unwanted ?_
    rw [hcancel]
    exact Bool.eq_false_iff.mpr fun hsome => hid (Or.inl hsome)

/-- An order for each of two symbols, and a cancel of the second. -/
def demoExchange (b : OrderBook SlotArena SlotKey) :
    Exchange SlotArena SlotKey :=
  { sequencer := Sequencer.new [[demoInbound ⟨0⟩, demoInbound ⟨1⟩, .cancel ⟨42⟩ ⟨2⟩]] 1
      { nSymbols := 2, snapshotSchedule := .default } 0
    books := [{ book := b, applied := 0 }, { book := b, applied := 0 }] }

/-- The books take their commands when all have been dispatched. -/
def demoActions : List Exchange.Action :=
  [.sequencer (.iterate demoTick), .sequencer (.iterate demoTick), .sequencer (.iterate demoTick),
    .book 0, .book 1, .book 1, .book 0]

theorem broadcast_run_demo :
    ∃ b x, OrderBook.new demoConfig = some b ∧ (demoExchange b).run demoActions = some x ∧
      (demoExchange b).runRouted demoActions = some x ∧ x.IdsDisjoint := by
  obtain ⟨b, hb⟩ := new_demoConfig
  have h₀ : (demoExchange b).Start { nSymbols := 2, snapshotSchedule := .default } 0 := by
    refine ⟨⟨_, _, rfl⟩, rfl, fun t ht => ?_⟩
    rw [show t = { book := b, applied := 0 } from by
      simpa only [demoExchange, List.mem_cons, List.not_mem_nil, or_false, or_self] using ht]
    exact ⟨rfl, demoConfig, hb⟩
  have hdemo : (OrderBook.new demoConfig).map (fun b => ((demoExchange b).run demoActions).map
      fun x => x.sequencer.dispatched.length) = some (some 3) := by
    rfl
  rw [hb, Option.map_some, Option.some.injEq] at hdemo
  obtain ⟨x, hx, hlen⟩ := Option.map_eq_some_iff.mp hdemo
  obtain ⟨hrouted, hrun⟩ := broadcast_run h₀ demoActions
  exact ⟨b, x, hb, hx, hrouted ▸ hx, (hrun x hx (by rw [hlen]; decide)).1⟩

end MRE.Proof.Sequencing
