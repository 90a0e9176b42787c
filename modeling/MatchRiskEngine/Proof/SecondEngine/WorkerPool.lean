import Mathlib.Algebra.Order.BigOperators.Group.List
import Mathlib.Data.List.Sublists
import MatchRiskEngine.Proof.SecondEngine.Agreement

/-!
# The number of workers

The workers do not share their books, so that what an entry records depends on
the entries that its worker has applied before (`recorded_runTurns`): it is
filled if it meets an order of another account in their books
(`fillAfter_iff`), and not at all on the books that a worker starts with.
So the number of workers does not show if and only if no worker ever fills an
entry (`poolUnobservable_iff`): otherwise the entry may as well be given to a
worker that has seen none of the others.
-/

namespace MRE.Proof.SecondEngine

open MRE.SecondEngine OrderBook Engine Proof.Book

variable {M K : Type} {X : Crossbeam EntryRef} [DecidableEq K] [Arena M K] {books books' : Books M K} {b b' : OrderBook M K}
  {entry : LogEntry} {configs : List BookConfig}

/-! ## No worker panics -/

/-- A book that commands can have led to. -/
def Sane (b : OrderBook M K) : Prop := ∃ c Q, Valid c b Q

def Ready (books : Books M K) : Prop := ∀ s b, books.lookup s = some b → Sane b

theorem Sane.apply (h : Sane b) (cmd : SequencedCommand) : ∃ b' evs, b.apply cmd = some (b', evs) ∧ Sane b' := by
  obtain ⟨c, Q, hb⟩ := h
  obtain ⟨b', evs, Q', e, -, hb'⟩ := hb.apply cmd
  exact ⟨b', evs, e, c, Q', hb'⟩

theorem Sane.cancelOrders (h : Sane b) (cmd : SequencedCommand) (account : AccountId) (ids : List OrderId) :
    ∃ b', b.cancelOrders cmd account ids = some b' ∧ Sane b' := by
  induction ids generalizing b with
  | nil => exact ⟨b, rfl, h⟩
  | cons id ids ih =>
    obtain ⟨b₁, evs, happly, h₁⟩ := h.apply { cmd with cmd := .cancel account id }
    obtain ⟨b', hb', h'⟩ := ih h₁
    refine ⟨b', ?_, h'⟩
    rw [OrderBook.cancelOrders, List.foldlM_cons, happly]
    exact hb'

theorem Sane.applyToBook (h : Sane b) (cmd : SequencedCommand) (symbol : Symbol) :
    ∃ b', applyToBook cmd symbol b = some b' ∧ Sane b' := by
  obtain ⟨b', evs, happly, h'⟩ := h.apply cmd
  unfold MRE.SecondEngine.applyToBook
  split
  · split
    · exact ⟨b', by rw [happly]; rfl, h'⟩
    · exact ⟨b, rfl, h⟩
  · split
    · exact h.cancelOrders cmd _ _
    · exact ⟨b, rfl, h⟩
  · exact ⟨b', by rw [happly]; rfl, h'⟩
  · exact ⟨b, rfl, h⟩

theorem Ready.applyEscalated (h : Ready books) (entry : LogEntry) :
    ∃ r, applyEscalated entry books = some r ∧ Ready r.1 := by
  obtain ⟨r, hr⟩ := applyEscalated_isSome fun s b hb => by
    obtain ⟨b', hb', -⟩ := (h s b hb).applyToBook entry.command s
    rw [hb']
    rfl
  refine ⟨r, hr, fun s b' hb' => ?_⟩
  rw [applyEscalated_books hr] at hb'
  obtain ⟨b, hb, hb'⟩ := Option.bind_eq_some_iff.mp hb'
  obtain ⟨b₁, hb₁, h₁⟩ := (h s b hb).applyToBook entry.command s
  rw [hb'] at hb₁
  cases hb₁
  exact h₁

theorem Ready.applyAll (h : Ready books) (entries : List LogEntry) :
    ∃ books', applyAll books entries = some books' ∧ Ready books' := by
  induction entries generalizing books with
  | nil => exact ⟨books, rfl, h⟩
  | cons e entries ih =>
    obtain ⟨r, hr, hready⟩ := h.applyEscalated e
    obtain ⟨books', hbooks', h'⟩ := ih hready
    refine ⟨books', ?_, h'⟩
    rw [MRE.SecondEngine.applyAll, List.foldlM_cons, hr]
    exact hbooks'

/-! ## Fills -/

section Sweep

variable {a : Aggressor} {os os' : List RefOrder} {qty qty' : Qty} {evs : List EngineEvent}

/-- One event of `accumulateFill`. -/
def fillStep (id : OrderId) (acc : UInt64 × UInt64) : EngineEvent → UInt64 × UInt64
  | .trade t => if t.takerOrderId = id then (t.price.raw.toUInt64, acc.2 + t.qty.raw) else acc
  | _ => acc

theorem accumulateFill_eq (evs : List EngineEvent) (id : OrderId) :
    accumulateFill evs id = evs.foldl (fillStep id) (0, 0) := by
  refine congrArg (fun f => List.foldl f (0, 0) evs) (funext fun acc => funext fun ev => ?_)
  cases ev <;> rfl

theorem foldl_fillStep_noTrades {evs : List EngineEvent} (h : ∀ t, EngineEvent.trade t ∉ evs) (id : OrderId)
    (acc : UInt64 × UInt64) : evs.foldl (fillStep id) acc = acc := by
  induction evs with
  | nil => rfl
  | cons ev evs ih =>
    cases ev with
    | trade t => exact absurd List.mem_cons_self (h t)
    | _ => exact ih fun t ht => h t (List.mem_cons_of_mem _ ht)

/-- What a sweep fills is what it takes off the quantity. -/
theorem foldl_fillStep_swept (h : Swept a os qty os' qty' evs) (acc : UInt64 × UInt64) :
    (evs.foldl (fillStep a.orderId) acc).2 = acc.2 + (qty.raw - qty'.raw) := by
  induction h generalizing acc with
  | nil | stop => simp
  | own _ _ _ _ ih => exact ih acc
  | @full o _ _ qty qty' _ _ _ _ _ _ ih =>
    have hstep : fillStep a.orderId acc (a.tradeWith o qty o.qty) = (o.price.raw.toUInt64, acc.2 + o.qty.raw) := if_pos rfl
    rw [List.foldl_cons, hstep, ih]
    grind
  | @part o _ qty =>
    have hstep : fillStep a.orderId acc (a.tradeWith o qty qty) = (o.price.raw.toUInt64, acc.2 + qty.raw) := if_pos rfl
    rw [List.foldl_cons, hstep]
    simp

theorem maker_of_swept (h : Swept a os qty os' qty' evs) {t : EngineEvent.Trade} (ht : .trade t ∈ evs) :
    ∃ x ∈ os, a.crosses x.price = true ∧ x.account ≠ a.account := by
  induction h with
  | nil | stop => cases ht
  | own _ _ _ _ ih =>
    obtain ⟨x, hx, hmaker⟩ := ih (by simpa using ht)
    exact ⟨x, List.mem_cons_of_mem _ hx, hmaker⟩
  | full _ hx hacct | part _ _ hx hacct => exact ⟨_, List.mem_cons_self, hx, hacct⟩

end Sweep

/-- A new order is refused, or it is matched and then no more trades follow. -/
theorem matched_of_applied {seq tsNs : UInt64} {o : InboundNewOrder} {evs : List EngineEvent}
    (h : Applied b seq tsNs o b' evs) : (b.Refuses o ∧ ∃ rej, evs = [.rejected rej]) ∨
      ∃ b₁ left evs₁ tail, Matched b seq tsNs o b₁ left evs₁ ∧ evs = evs₁ ++ tail ∧ ∀ t, .trade t ∉ tail := by
  cases h with
  | refused hr rej => exact .inl ⟨hr, rej, rfl⟩
  | filled hm _ ht | cancelled hm _ _ ht | unmatched hm _ _ _ ht | rested hm _ _ _ _ _ ht =>
    obtain ⟨e, rfl⟩ := isBookTop_of_eq ht
    exact .inr ⟨_, _, _, _, hm, rfl, by simp [InboundNewOrder.accepted]⟩
  | full hm => exact .inr ⟨_, _, _, _, hm, rfl, by simp⟩

/-- A new order is filled exactly if it is matched and meets an order of another
account. -/
theorem accumulateFill_eq_zero_iff {c : RefConfig} {Q : Side → Nat → List K} (hb : Valid c b Q) {seq tsNs : UInt64}
    {o : InboundNewOrder} {evs : List EngineEvent} (h : Applied b seq tsNs o b' evs) :
    accumulateFill evs ⟨seq⟩ = (0, 0) ↔ ¬ b.Fills o := by
  rw [accumulateFill_eq]
  rcases matched_of_applied h with ⟨hr, rej, rfl⟩ | ⟨b₁, left, evs₁, tail, hm, rfl, htail⟩
  · exact iff_of_true rfl fun h => h.1 hr
  obtain ⟨Q₁, os, -, hw, -⟩ := hb.of_matched hm
  have hmeets {x : RefOrder} := hb.toShape.meets_iff seq tsNs o (x := x)
  rw [List.foldl_append, foldl_fillStep_noTrades htail]
  constructor
  · rintro hzero ⟨-, x, hx, hmeet, hacct⟩
    obtain ⟨hx, hc⟩ := hmeets.mp ⟨hx, hmeet⟩
    -- what the order offers is taken
    have hle := List.le_sum_of_mem (List.mem_map_of_mem (f := (o.aggressor seq tsNs).offered) hx)
    have hpos := UInt64.toNat_pos (hb.queued_pos _ x hx)
    rw [Aggressor.offered_of_crosses hc, if_neg (show x.account ≠ (o.aggressor seq tsNs).account from hacct)] at hle
    have hleft := hw.left (hb.queued_falls (o.aggressor seq tsNs))
    have hqty := UInt64.toNat_pos hm.qty
    have hlt : left.raw < o.qty.raw := UInt64.lt_iff_toNat_lt.mpr (by omega)
    have hfilled := foldl_fillStep_swept hw (0, 0)
    rw [show (o.aggressor seq tsNs).orderId = ⟨seq⟩ from rfl, hzero, UInt64.zero_add] at hfilled
    exact UInt64.sub_ne_zero_of_lt hlt hfilled.symm
  · intro hnot
    refine foldl_fillStep_noTrades (fun t ht => hnot ⟨hm.not_refuses, ?_⟩) ⟨seq⟩ (0, 0)
    obtain ⟨x, hx, hc, hacct⟩ := maker_of_swept hw ht
    obtain ⟨hx, hmeet⟩ := hmeets.mpr ⟨hx, hc⟩
    exact ⟨x, hx, hmeet, hacct⟩

theorem fillAfter_of_some {selection : List LogEntry} {r : Books M K × UInt64 × UInt64 × Bool}
    (h : applyAll books selection = some books') (hr : applyEscalated entry books' = some r) :
    fillAfter books selection entry = (r.2.2.1, r.2.1) := by
  rw [fillAfter, h, Option.bind_some, hr]

theorem applyEscalated_noFill (h : ∀ o, entry.cmd ≠ .newOrder o) {r : Books M K × UInt64 × UInt64 × Bool}
    (hr : applyEscalated entry books = some r) : (r.2.2.1, r.2.1) = (0, 0) := by
  cases hcmd : entry.cmd with
  | newOrder o => exact absurd hcmd (h o)
  | liquidate symbol account =>
    cases hb : books.lookup symbol with
    | none =>
      rw [applyEscalated_liquidate_unknown hcmd hb] at hr
      cases hr
      rfl
    | some b =>
      rw [applyEscalated_liquidate hcmd hb] at hr
      obtain ⟨b', -, rfl⟩ := Option.map_eq_some_iff.mp hr
      rfl
  | cancel account id =>
    rw [applyEscalated_cancel hcmd] at hr
    obtain ⟨books', -, rfl⟩ := Option.map_eq_some_iff.mp hr
    rfl
  | freezeAccount account =>
    rw [applyEscalated_freeze hcmd] at hr
    cases hr
    rfl

/-- An entry is filled exactly if it is a new order that trades. -/
theorem fillAfter_iff (h : Ready books') {selection : List LogEntry} (hbooks' : applyAll books selection = some books')
    (entry : LogEntry) : fillAfter books selection entry = (0, 0) ↔ ¬ FillsIn books' entry := by
  obtain ⟨r, hr, -⟩ := h.applyEscalated entry
  rw [fillAfter_of_some hbooks' hr]
  by_cases hnew : ∃ o, entry.cmd = .newOrder o
  · obtain ⟨o, hcmd⟩ := hnew
    have hfills {o' : InboundNewOrder} (ho : entry.cmd = .newOrder o') : o' = o :=
      InboundCommand.newOrder.inj (ho.symm.trans hcmd)
    cases hb : books'.lookup o.symbol with
    | none =>
      rw [applyEscalated_newOrder_unknown hcmd hb] at hr
      cases hr
      refine iff_of_true rfl ?_
      rintro ⟨o', b, ho, hb', -⟩
      rw [hfills ho, hb] at hb'
      cases hb'
    | some b =>
      obtain ⟨c, Q, hvalid⟩ := h o.symbol b hb
      rw [applyEscalated_newOrder hcmd hb] at hr
      obtain ⟨x, happly, rfl⟩ := Option.map_eq_some_iff.mp hr
      have hiff := accumulateFill_eq_zero_iff hvalid ((hvalid.effect happly).1.applied hcmd)
      rw [Prod.mk.injEq, and_comm, ← Prod.mk.injEq]
      refine Iff.trans hiff (not_congr ⟨fun hf => ⟨o, b, hcmd, hb, hf⟩, ?_⟩)
      rintro ⟨o', b', ho, hb', hf⟩
      rw [hfills ho] at hb' hf
      rw [hb] at hb'
      cases hb'
      exact hf
  · exact iff_of_true (applyEscalated_noFill (fun o ho => hnew ⟨o, ho⟩) hr) fun hf => by
      obtain ⟨o, -, ho, -⟩ := hf
      exact hnew ⟨o, ho⟩

/-! ## The first books -/

/-- The books are sane, and no order rests in them. -/
def AllEmpty (books : Books M K) : Prop := ∀ s b, books.lookup s = some b → Sane b ∧ b.live = []

theorem AllEmpty.insert {cfg : BookConfig} (h : AllEmpty books) (hb : OrderBook.new cfg = some b) :
    AllEmpty (books.insert cfg.symbol b) := by
  intro s b' hb'
  by_cases hs : s = cfg.symbol
  · rw [hs, AList.lookup_insert] at hb'
    cases hb'
    obtain ⟨Q, hvalid⟩ := new_valid hb
    exact ⟨⟨_, Q, hvalid⟩, List.perm_nil.mp ((new_ok hb).1.live_perm .buy)⟩
  · rw [AList.lookup_insert_ne hs] at hb'
    exact h s b' hb'

theorem buildBooks_empty (h : buildBooks configs = some books) : AllEmpty books := by
  have hfold : ∀ start : Books M K, AllEmpty start →
      configs.foldlM (fun books cfg => (OrderBook.new cfg).map (books.insert cfg.symbol)) start = some books →
        AllEmpty books := by
    clear h
    induction configs with
    | nil =>
      intro start hstart h
      cases h
      exact hstart
    | cons cfg configs ih =>
      intro start hstart h
      obtain ⟨next, hnext, h⟩ := Option.bind_eq_some_iff.mp h
      obtain ⟨b, hb, rfl⟩ := Option.map_eq_some_iff.mp hnext
      exact ih _ (hstart.insert hb) h
  exact hfold ∅ (fun s b hb => by rw [AList.lookup_empty] at hb; cases hb) h

theorem AllEmpty.ready (h : AllEmpty books) : Ready books := fun s b hb => (h s b hb).1

theorem AllEmpty.fillAfter (h : AllEmpty books) (entry : LogEntry) : fillAfter books [] entry = (0, 0) := by
  refine (fillAfter_iff h.ready rfl entry).mpr ?_
  rintro ⟨o, b, -, hb, -, x, hx, -⟩
  rw [(h _ b hb).2] at hx
  cases hx

theorem neverFills_iff (h : AllEmpty books) (entries : List LogEntry) : NeverFills books entries ↔
    ∀ selection entry, List.Sublist (selection ++ [entry]) entries → fillAfter books selection entry = (0, 0) := by
  constructor
  · intro hnever selection entry hsub
    obtain ⟨books', hbooks', hready⟩ := h.ready.applyAll selection
    exact (fillAfter_iff hready hbooks' entry).mpr (hnever _ _ _ hsub hbooks')
  · intro hfill selection entry books₁ hsub hbooks₁
    obtain ⟨books', hbooks', hready⟩ := h.ready.applyAll selection
    rw [hbooks₁] at hbooks'
    cases hbooks'
    exact (fillAfter_iff hready hbooks₁ entry).mp (hfill _ _ hsub)

/-! ## A worker's turn -/

variable {p p₀ : Pipeline M K X} {w : Nat} {k : EntryRef} {channel : List EntryRef} {entries : List LogEntry}
  {worker : Worker M K} {r : Books M K × UInt64 × UInt64 × Bool}

/-- The worker `w` of `p₀` has come so far. -/
structure At (p₀ p : Pipeline M K X) (w : Nat) (worker : Worker M K) (channel : List EntryRef) (entries : List LogEntry) :
    Prop where
  workers : p.workers = p₀.workers.set w worker
  channel : X.queued p.channel = channel
  entries : p.entries = entries

theorem At.step (h : At p₀ p w worker channel entries) (hw : w < p₀.workers.length) (nowNs : UInt64) :
    p.step (.worker w nowNs) = p.stepWorker w nowNs worker := by
  have hget : p.workers[w]? = some worker := by rw [h.workers, List.getElem?_set_self hw]
  simp only [Pipeline.step, hget]

omit [DecidableEq K] [Arena M K] in
theorem At.setWorker (h : At p₀ p w worker channel entries) (worker' : Worker M K) :
    At p₀ (p.setWorker w worker') w worker' channel entries :=
  ⟨by rw [Pipeline.setWorker, h.workers, List.set_set], h.channel, h.entries⟩

section

variable (hw : w < p₀.workers.length) (nowNs : UInt64)

include hw

theorem At.recv (h : At p₀ p w ⟨.recv, books⟩ (k :: channel) entries) :
    At p₀ (p.step (.worker w nowNs)) w ⟨.received k, books⟩ channel entries := by
  rw [h.step hw]
  obtain ⟨c, hrecv, hc⟩ := Crossbeam.exists_recv h.channel
  simp only [Pipeline.stepWorker, hrecv]
  exact At.setWorker (p := { p with channel := c }) ⟨h.workers, hc, h.entries⟩ _

theorem At.received (h : At p₀ p w ⟨.received k, books⟩ channel entries) (hentry : entries[k]? = some entry) :
    At p₀ (p.step (.worker w nowNs)) w ⟨.loaded k entry.loadStatus, books⟩ channel entries := by
  rw [h.step hw]
  simp only [Pipeline.stepWorker, h.entries, hentry]
  exact h.setWorker _

theorem At.loaded (h : At p₀ p w ⟨.loaded k .unaddressed, books⟩ channel entries) (hentry : entries[k]? = some entry)
    {claimed : LogEntry} (hclaim : entry.tryClaim .unaddressed .finallyHandled = some claimed) :
    At p₀ (p.step (.worker w nowNs)) w ⟨.claimed k, books⟩ channel (entries.set k claimed) := by
  rw [h.step hw]
  have hp : p.tryClaim k .unaddressed .finallyHandled = some { p with entries := entries.set k claimed } := by
    simp only [Pipeline.tryClaim, h.entries, hentry, hclaim, Option.bind_eq_bind, Option.bind_some]
  simp only [Pipeline.stepWorker, ne_eq, not_true_eq_false, if_false, hp]
  exact At.setWorker (p := { p with entries := entries.set k claimed }) ⟨h.workers, h.channel, rfl⟩ _

theorem At.claimed (h : At p₀ p w ⟨.claimed k, books⟩ channel entries) (hentry : entries[k]? = some entry)
    (hr : applyEscalated entry books = some r) :
    At p₀ (p.step (.worker w nowNs)) w ⟨.applied k nowNs r.2.1 r.2.2.1, r.1⟩ channel entries := by
  rw [h.step hw]
  simp only [Pipeline.stepWorker, h.entries, hentry, hr]
  exact At.setWorker (p := { p with entries, applied := p.applied ++ [k] }) ⟨h.workers, h.channel, rfl⟩ _

theorem At.applied {now price qty : UInt64} (h : At p₀ p w ⟨.applied k now price qty, books⟩ channel entries) :
    At p₀ (p.step (.worker w nowNs)) w ⟨.recorded k, books⟩ channel (entries.modify k (·.recordFill 2 now price qty)) := by
  rw [h.step hw]
  simp only [Pipeline.stepWorker, h.entries]
  exact At.setWorker (p := { p with entries := entries.modify k (·.recordFill 2 now price qty) })
    ⟨h.workers, h.channel, rfl⟩ _

theorem At.recorded (h : At p₀ p w ⟨.recorded k, books⟩ channel entries) (hentry : entries[k]? = some entry) :
    At p₀ (p.step (.worker w nowNs)) w ⟨.recv, books⟩ channel entries := by
  rw [h.step hw]
  simp only [Pipeline.stepWorker, h.entries, hentry]
  exact At.setWorker (p := p.removeEntry entry) ⟨h.workers, h.channel, h.entries⟩ _

end

/-- A worker that waits takes the next entry and is done with it after its
turn. -/
theorem run_turn (hw : p.workers[w]? = some ⟨.recv, books⟩) (hchannel : X.queued p.channel = k :: channel)
    (hentry : p.entries[k]? = some entry) (hstatus : entry.status = OrderStatus.unaddressed.toU8)
    (hr : applyEscalated entry books = some r) (nowNs : UInt64) :
    At p (p.run (Pipeline.turn w nowNs)) w ⟨.recv, r.1⟩ channel
      (p.entries.set k ({ entry with status := OrderStatus.finallyHandled.toU8 }.recordFill 2 nowNs r.2.1 r.2.2.1)) := by
  obtain ⟨hlt, hget⟩ := List.getElem?_eq_some_iff.mp hw
  have hklt := (List.getElem?_eq_some_iff.mp hentry).1
  have hload : entry.loadStatus = .unaddressed := by rw [LogEntry.loadStatus, hstatus]; rfl
  have hstart : At p p w ⟨.recv, books⟩ (k :: channel) p.entries := ⟨by rw [← hget, List.set_getElem_self], hchannel, rfl⟩
  have hreceived := (hstart.recv hlt nowNs).received hlt nowNs hentry
  rw [hload] at hreceived
  have hclaimed := hreceived.loaded hlt nowNs hentry (if_pos hstatus)
  have happlied := hclaimed.claimed hlt nowNs (List.getElem?_set_self hklt)
    (show applyEscalated { entry with status := OrderStatus.finallyHandled.toU8 } books = some r from hr)
  have hrecorded := happlied.applied hlt nowNs
  simp only [List.modify_eq_set_getElem?, List.getElem?_set_self hklt, Option.map_eq_map, Option.map_some, Option.getD_some,
    List.set_set] at hrecorded
  exact hrecorded.recorded hlt nowNs (List.getElem?_set_self hklt)

/-! ## Turn by turn -/

/-- The entries that the worker `w` got, of entries with their turns. -/
def selectionOf (w : Nat) (done : List (LogEntry × Nat × UInt64)) : List LogEntry :=
  (done.filter fun x => x.2.1 = w).map Prod.fst

theorem selectionOf_sublist (w : Nat) (done : List (LogEntry × Nat × UInt64)) :
    List.Sublist (selectionOf w done) (done.map Prod.fst) := List.filter_sublist.map _

theorem selectionOf_concat (done : List (LogEntry × Nat × UInt64)) (x : LogEntry × Nat × UInt64) :
    selectionOf w (done ++ [x]) = if x.2.1 = w then selectionOf w done ++ [x.1] else selectionOf w done := by
  rw [selectionOf, List.filter_append, List.map_append]
  by_cases hx : x.2.1 = w <;> simp [hx, selectionOf]

/-- What the entries record, each after those that its worker got before. -/
def fillsOf (books : Books M K) : List (LogEntry × Nat × UInt64) → List (LogEntry × Nat × UInt64) → List (UInt64 × UInt64)
  | _, [] => []
  | done, x :: todo => fillAfter books (selectionOf x.2.1 done) x.1 :: fillsOf books (done ++ [x]) todo

theorem applyAll_concat (books : Books M K) (selection : List LogEntry) (entry : LogEntry) :
    applyAll books (selection ++ [entry]) =
      (applyAll books selection).bind fun books => (applyEscalated entry books).map Prod.fst := by
  rw [applyAll, List.foldlM_append]
  refine congrArg (Option.bind _) (funext fun books => ?_)
  rw [List.foldlM_cons]
  cases applyEscalated entry books <;> rfl

/-- The entries `done` have had their turns, and record `recs`. -/
structure Progress (n : Nat) (books : Books M K) (done : List (LogEntry × Nat × UInt64)) (todo : List LogEntry)
    (recs : List (UInt64 × UInt64)) (p : Pipeline M K X) : Prop where
  workers : ∀ w < n, ∃ books', p.workers[w]? = some ⟨.recv, books'⟩ ∧ applyAll books (selectionOf w done) = some books'
  channel : X.queued p.channel = List.range' done.length todo.length
  entries : ∃ handled, p.entries = handled ++ todo ∧ handled.length = done.length ∧
    handled.map (fun e => (e.filledQty, e.fillPrice)) = recs

theorem Progress.turn {n : Nat} {done : List (LogEntry × Nat × UInt64)} {todo : List LogEntry}
    {recs : List (UInt64 × UInt64)} (h : Progress n books done (entry :: todo) recs p) (hempty : AllEmpty books)
    (hstatus : entry.status = OrderStatus.unaddressed.toU8) (hw : w < n) (nowNs : UInt64) :
    Progress n books (done ++ [(entry, w, nowNs)]) todo (recs ++ [fillAfter books (selectionOf w done) entry])
      (p.run (Pipeline.turn w nowNs)) := by
  obtain ⟨handled, hentries, hlen, hrecs⟩ := h.entries
  obtain ⟨booksW, hworker, hbooksW⟩ := h.workers w hw
  obtain ⟨books', hbooks', hready⟩ := hempty.ready.applyAll (selectionOf w done)
  rw [hbooksW] at hbooks'
  cases hbooks'
  obtain ⟨r, hr, -⟩ := hready.applyEscalated entry
  have hentry : p.entries[done.length]? = some entry := by
    rw [hentries, ← hlen, List.getElem?_append_right (Nat.le_refl _), Nat.sub_self]
    rfl
  have hat := run_turn hworker (h.channel.trans List.range'_succ) hentry hstatus hr nowNs
  refine ⟨fun w' hw' => ?_, ?_, ?_⟩
  · rw [hat.workers, selectionOf_concat]
    by_cases hne : w = w'
    · subst hne
      rw [List.getElem?_set_self (List.getElem?_eq_some_iff.mp hworker).1, if_pos rfl]
      exact ⟨r.1, rfl, by rw [applyAll_concat, hbooksW, Option.bind_some, hr]; rfl⟩
    · rw [List.getElem?_set_ne hne, if_neg hne]
      exact h.workers w' hw'
  · rw [hat.channel, List.length_append]
    rfl
  · refine ⟨handled ++ [{ entry with status := OrderStatus.finallyHandled.toU8 }.recordFill 2 nowNs r.2.1 r.2.2.1], ?_, ?_, ?_⟩
    · rw [hat.entries, hentries, ← hlen, List.set_append_right _ _ (Nat.le_refl _), Nat.sub_self, List.append_assoc]
      rfl
    · rw [List.length_append, List.length_append, hlen]
      rfl
    · rw [List.map_append, hrecs, fillAfter_of_some hbooksW hr]
      rfl

/-- What the entries record is the fill after those that their workers got
before. -/
theorem Progress.runTurns {n : Nat} {done todo : List (LogEntry × Nat × UInt64)} {recs : List (UInt64 × UInt64)}
    (h : Progress n books done (todo.map Prod.fst) recs p) (hempty : AllEmpty books)
    (hstatus : ∀ x ∈ todo, x.1.status = OrderStatus.unaddressed.toU8) (hw : ∀ x ∈ todo, x.2.1 < n) :
    (p.runTurns (todo.map Prod.snd)).recorded = recs ++ fillsOf books done todo := by
  induction todo generalizing done recs p with
  | nil =>
    obtain ⟨handled, hentries, -, hrecs⟩ := h.entries
    show p.recorded = _
    rw [Pipeline.recorded, hentries, List.map_nil, List.append_nil, hrecs, fillsOf, List.append_nil]
  | cons x todo ih =>
    obtain ⟨hx, hstatus⟩ := List.forall_mem_cons.mp hstatus
    obtain ⟨hxw, hw⟩ := List.forall_mem_cons.mp hw
    have hrest := ih (Progress.turn h hempty hx hxw x.2.2) hstatus hw
    rw [List.append_assoc] at hrest
    refine Eq.trans ?_ hrest
    simp only [Pipeline.runTurns, Pipeline.run, List.map_cons, List.flatMap_cons, List.foldl_append]

theorem recorded_runTurns {n : Nat} {turns : List (Nat × UInt64)} (hempty : AllEmpty books)
    (hstatus : ∀ e ∈ entries, e.status = OrderStatus.unaddressed.toU8) (hturns : Assigns n entries turns)
    (ring : PendingRing X) :
    ((start n books entries ring).runTurns turns).recorded = fillsOf books [] (entries.zip turns) := by
  have hfst : (entries.zip turns).map Prod.fst = entries := List.map_fst_zip (Nat.le_of_eq hturns.length.symm)
  have hsnd : (entries.zip turns).map Prod.snd = turns := List.map_snd_zip (Nat.le_of_eq hturns.length)
  have hstart : Progress n books [] ((entries.zip turns).map Prod.fst) [] (start n books entries ring) := by
    refine ⟨fun w hw => ⟨books, ?_, rfl⟩, ?_, [], ?_, rfl, rfl⟩
    · show ((List.replicate n books).map _)[w]? = _
      rw [List.getElem?_map, List.getElem?_replicate_of_lt hw]
      rfl
    · rw [hfst]
      exact ((Crossbeam.queued_foldl_send _ _).trans (by rw [X.queued_new]; rfl)).trans List.range_eq_range'
    · rw [hfst]
      rfl
  have hrun := Progress.runTurns hstart hempty (fun x hx => hstatus _ (List.of_mem_zip hx).1)
    (fun x hx => hturns.worker _ (List.of_mem_zip hx).2)
  rwa [hsnd, List.nil_append] at hrun

/-! ## Which worker an entry gets -/

theorem fillsOf_zero {done todo : List (LogEntry × Nat × UInt64)} (h : ∀ selection entry,
      List.Sublist (selection ++ [entry]) ((done ++ todo).map Prod.fst) → fillAfter books selection entry = (0, 0)) :
    fillsOf books done todo = List.replicate todo.length (0, 0) := by
  induction todo generalizing done with
  | nil => rfl
  | cons x todo ih =>
    have happend : done ++ x :: todo = (done ++ [x]) ++ todo := by simp
    rw [happend] at h
    have hsub : List.Sublist (selectionOf x.2.1 done ++ [x.1]) (((done ++ [x]) ++ todo).map Prod.fst) := by
      rw [List.map_append, List.map_append]
      exact ((selectionOf_sublist x.2.1 done).append_right [x.1]).trans (List.sublist_append_left _ _)
    rw [fillsOf, h _ _ hsub, ih h, List.length_cons, List.replicate_succ]

theorem getElem?_fillsOf (books : Books M K) (done todo todo' : List (LogEntry × Nat × UInt64)) (x : LogEntry × Nat × UInt64) :
    (fillsOf books done (todo ++ x :: todo'))[todo.length]? =
      some (fillAfter books (selectionOf x.2.1 (done ++ todo)) x.1) := by
  induction todo generalizing done with
  | nil =>
    rw [List.append_nil]
    rfl
  | cons y todo ih =>
    have hrest := ih (done ++ [y])
    rw [List.append_assoc] at hrest
    exact hrest

/-- The turns in which the worker 1 gets the entries with `f`, and the worker 0
the others. -/
def turnsBy (f : LogEntry → Bool) (entries : List LogEntry) : List (Nat × UInt64) :=
  entries.map fun e => (if f e then 1 else 0, 0)

theorem turnsBy_assigns (f : LogEntry → Bool) (entries : List LogEntry) : Assigns 2 entries (turnsBy f entries) := by
  refine ⟨List.length_map _, fun t ht => ?_⟩
  obtain ⟨e, -, rfl⟩ := List.mem_map.mp ht
  dsimp only
  split <;> decide

theorem selectionOf_turnsBy (f : LogEntry → Bool) (entries : List LogEntry) :
    selectionOf 1 (entries.map fun e => (e, (if f e then 1 else 0), 0)) = entries.filter f := by
  induction entries with
  | nil => rfl
  | cons e entries ih =>
    cases hf : f e <;> simp [selectionOf, hf, ← ih]

variable (books entry) in
theorem getElem?_turnsBy (f : LogEntry → Bool) (pre post : List LogEntry) (hf : f entry = true) :
    (fillsOf books [] ((pre ++ entry :: post).zip (turnsBy f (pre ++ entry :: post))))[pre.length]? =
      some (fillAfter books (pre.filter f) entry) := by
  have hzip : ∀ es : List LogEntry, es.zip (turnsBy f es) = es.map fun e => (e, (if f e then 1 else 0), 0) := fun es => by
    induction es with
    | nil => rfl
    | cons e es ih => exact congrArg ((e, (if f e then 1 else 0), 0) :: ·) ih
  have hget := getElem?_fillsOf books [] (pre.map fun e => (e, (if f e then 1 else 0), 0))
    (post.map fun e => (e, (if f e then 1 else 0), 0)) (entry, (if f entry then 1 else 0), 0)
  rw [List.length_map, List.nil_append, if_pos hf, selectionOf_turnsBy] at hget
  rw [hzip, List.map_append, List.map_cons, if_pos hf]
  exact hget

theorem filter_mem_of_sublist {selection entries : List LogEntry} (h : List.Sublist selection entries)
    (hnodup : entries.Nodup) : entries.filter (fun e => decide (e ∈ selection)) = selection := by
  induction h with
  | slnil => rfl
  | cons e hsub ih =>
    obtain ⟨he, hnodup⟩ := List.nodup_cons.mp hnodup
    rw [List.filter_cons_of_neg (by rw [decide_eq_true_eq]; exact fun hmem => he (hsub.subset hmem)), ih hnodup]
  | @cons_cons selection entries e hsub ih =>
    obtain ⟨he, hnodup⟩ := List.nodup_cons.mp hnodup
    have htail : ∀ x ∈ entries, decide (x ∈ e :: selection) = decide (x ∈ selection) := fun x hx => by
      rw [decide_eq_decide, List.mem_cons]
      exact or_iff_right fun hxe => he (hxe ▸ hx)
    rw [List.filter_cons_of_pos (by simp), List.filter_congr htail, ih hnodup]

/-- If the number of workers does not show, it does not matter which of two
workers gets which entries. -/
theorem PoolUnobservable.fillsOf_eq {ring : PendingRing X} (h : PoolUnobservable books entries ring) (hempty : AllEmpty books)
    (hstatus : ∀ e ∈ entries, e.status = OrderStatus.unaddressed.toU8) (f f' : LogEntry → Bool) :
    fillsOf books [] (entries.zip (turnsBy f entries)) = fillsOf books [] (entries.zip (turnsBy f' entries)) := by
  have hsingle : Assigns 1 entries (List.replicate entries.length (0, 0)) :=
    ⟨List.length_replicate, fun t ht => by rw [(List.mem_replicate.mp ht).2]; decide⟩
  rw [← recorded_runTurns hempty hstatus (turnsBy_assigns f entries) ring,
    ← recorded_runTurns hempty hstatus (turnsBy_assigns f' entries) ring,
    h 2 _ _ (by decide) (turnsBy_assigns f entries) hsingle, h 2 _ _ (by decide) (turnsBy_assigns f' entries) hsingle]

/-- An entry whose worker also gets a selection of the entries before it, and
one whose worker gets nothing else. -/
theorem PoolUnobservable.neverFills {ring : PendingRing X} (h : PoolUnobservable books entries ring) (hempty : AllEmpty books)
    (hstatus : ∀ e ∈ entries, e.status = OrderStatus.unaddressed.toU8)
    (hseqs : entries.Pairwise fun e e' => e.seq < e'.seq) : NeverFills books entries := by
  refine (neverFills_iff hempty entries).mpr fun selection entry hsub => ?_
  obtain ⟨front, back, rfl, hfront, hback⟩ := List.append_sublist_iff.mp hsub
  obtain ⟨mid, post, rfl⟩ := List.append_of_mem (hback.subset (List.mem_singleton_self entry))
  rw [← List.append_assoc] at *
  have hnodup : (front ++ mid ++ entry :: post).Nodup :=
    hseqs.imp fun {e e'} (hlt : e.seq < e'.seq) (he : e = e') => UInt64.lt_irrefl _ (he ▸ hlt)
  obtain ⟨hpre, -, hdisjoint⟩ := List.nodup_append.mp hnodup
  have hne : ∀ e ∈ front ++ mid, e ≠ entry := fun e he => hdisjoint e he entry List.mem_cons_self
  have hselection : (front ++ mid).filter (fun e => decide (e ∈ selection ++ [entry])) = selection := by
    refine (List.filter_congr fun e he => ?_).trans
      (filter_mem_of_sublist (hfront.trans (List.sublist_append_left front mid)) hpre)
    rw [decide_eq_decide, List.mem_append]
    exact or_iff_left fun hmem => hne e he (List.mem_singleton.mp hmem)
  have hnil : (front ++ mid).filter (fun e => decide (e = entry)) = [] :=
    List.filter_eq_nil_iff.mpr fun e he => by rw [decide_eq_true_eq]; exact hne e he
  have hselected := getElem?_turnsBy books entry (fun e => decide (e ∈ selection ++ [entry])) (front ++ mid) post (by simp)
  have halone := getElem?_turnsBy books entry (fun e => decide (e = entry)) (front ++ mid) post (by simp)
  rw [PoolUnobservable.fillsOf_eq h hempty hstatus _ (fun e => decide (e = entry)), halone, hselection, hnil,
    AllEmpty.fillAfter hempty] at hselected
  exact (Option.some.inj hselected).symm

/-- The number of workers does not show exactly if no worker ever fills an
entry. -/
theorem poolUnobservable_iff (hbooks : buildBooks configs = some books)
    (hstatus : ∀ e ∈ entries, e.status = OrderStatus.unaddressed.toU8)
    (hseqs : entries.Pairwise fun e e' => e.seq < e'.seq) (ring : PendingRing X) :
    PoolUnobservable books entries ring ↔ NeverFills books entries := by
  have hempty := buildBooks_empty hbooks
  refine ⟨fun h => PoolUnobservable.neverFills h hempty hstatus hseqs, fun h n turns single _ hturns hsingle => ?_⟩
  have hzero : ∀ {n turns}, Assigns n entries turns →
      fillsOf books [] (entries.zip turns) = List.replicate entries.length (0, 0) := by
    intro n turns hturns
    have hfst : (entries.zip turns).map Prod.fst = entries := List.map_fst_zip (Nat.le_of_eq hturns.length.symm)
    rw [fillsOf_zero (by rw [List.nil_append, hfst]; exact (neverFills_iff hempty entries).mp h), List.length_zip,
      hturns.length, Nat.min_self]
  rw [recorded_runTurns hempty hstatus hturns, recorded_runTurns hempty hstatus hsingle, hzero hturns, hzero hsingle]

theorem neverFills_of_sublists (hempty : AllEmpty books)
    (h : ∀ s ∈ entries.sublists, ∀ e ∈ s.getLast?, fillAfter books s.dropLast e = (0, 0)) : NeverFills books entries := by
  refine (neverFills_iff hempty entries).mpr fun selection entry hsub => ?_
  have hlast := h _ (List.mem_sublists.mpr hsub) entry List.getLast?_concat
  rwa [List.dropLast_concat] at hlast

theorem build_demoBooks : buildBooks [demoConfig] = some demoBooks := by
  rw [buildBooks, List.foldlM_cons, new_demoBook]
  rfl

/-- An escalated order at 105. -/
def demoOrder (seq account : UInt64) (side : Side) (qty : UInt64) : LogEntry :=
  { LogEntry.new seq 1 0 (.newOrder { account := ⟨account⟩, clientOrderId := ⟨seq⟩, symbol := ⟨1⟩, side, price := ⟨105⟩
                                      qty := ⟨qty⟩, orderType := .limit, timeInForce := .gtc }) with
    status := OrderStatus.unaddressed.toU8 }

def demoRing : PendingRing (.lists EntryRef) := .new

/-- Two sellers do not trade with each other. -/
theorem poolUnobservable_iff_demo : buildBooks [demoConfig] = some demoBooks ∧
    PoolUnobservable demoBooks [demoOrder 1 10 .sell 5, demoOrder 2 11 .sell 3] demoRing := by
  refine ⟨build_demoBooks, (poolUnobservable_iff build_demoBooks (by decide) (by decide) demoRing).mpr ?_⟩
  exact neverFills_of_sublists (buildBooks_empty build_demoBooks) (by decide)

/-- A buyer finds the seller if one worker gets both, and not if each gets one of
them. -/
theorem pool_observable : buildBooks [demoConfig] = some demoBooks ∧
    ((start 1 demoBooks [demoOrder 1 10 .sell 5, demoOrder 2 11 .buy 5] demoRing).runTurns [(0, 0), (0, 0)]).recorded =
      [(0, 0), (5, 105)] ∧
    ((start 2 demoBooks [demoOrder 1 10 .sell 5, demoOrder 2 11 .buy 5] demoRing).runTurns [(0, 0), (1, 0)]).recorded =
      [(0, 0), (0, 0)] ∧
    ¬ PoolUnobservable demoBooks [demoOrder 1 10 .sell 5, demoOrder 2 11 .buy 5] demoRing := by
  have hone : ((start 1 demoBooks [demoOrder 1 10 .sell 5, demoOrder 2 11 .buy 5] demoRing).runTurns
      [(0, 0), (0, 0)]).recorded = [(0, 0), (5, 105)] := rfl
  have htwo : ((start 2 demoBooks [demoOrder 1 10 .sell 5, demoOrder 2 11 .buy 5] demoRing).runTurns
      [(0, 0), (1, 0)]).recorded = [(0, 0), (0, 0)] := rfl
  refine ⟨build_demoBooks, hone, htwo, fun h => ?_⟩
  have heq := h 2 [(0, 0), (1, 0)] [(0, 0), (0, 0)] (by decide) ⟨rfl, by decide⟩ ⟨rfl, by decide⟩
  rw [hone, htwo] at heq
  exact absurd heq (by decide)

end MRE.Proof.SecondEngine
