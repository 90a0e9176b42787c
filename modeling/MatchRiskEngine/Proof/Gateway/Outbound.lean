import Mathlib.Data.List.Induction
import MatchRiskEngine.Proof.Gateway.MarketData

/-!
# What reaches a client

The frames that a connection has written or has in its queue are items of two
kinds. Its reports are some of those sent since it was accepted (`ReportsOk`).
Its market data of an instrument is a beginning of what was published since the
instrument was subscribed to, and all that its task has received unless the
task or the writer has ended (`DataOk`). Every step of every task keeps this
(`Serves`), and so a client reads no other account's reports, none twice or out
of order, and market data without gaps (`client_reads`).
-/

namespace MRE.Proof.Gateway

open MRE.Gateway

variable {T : Tokio} {acts : List OutAction} {i : Nat} {x : InstrumentId} {account : AccountId} {c : OutConnection T}
  {w q : List Item} {channels channels' : InstrumentId → Option (List MarketDataEvent)} {writerDone : Bool}
  {s : Outbound T}

/-! ## What was sent -/

theorem reported_append (acts acts' : List OutAction) : reported (acts ++ acts') = reported acts ++ reported acts' :=
  List.filterMap_append

theorem published_append (x : InstrumentId) (acts acts' : List OutAction) :
    published x (acts ++ acts') = published x acts ++ published x acts' := by
  rw [published, List.filterMap_append, List.filter_append]
  rfl

theorem published_singleton (x : InstrumentId) (ev : MarketDataEvent) :
    published x [.publish ev] = if ev.instrumentId = x then [ev] else [] := by
  by_cases h : ev.instrumentId = x
  · rw [if_pos h]
    exact List.filter_cons_of_pos (decide_eq_true h)
  · rw [if_neg h]
    exact List.filter_cons_of_neg (by rw [decide_eq_true_eq]; exact h)

theorem mem_published {ev : MarketDataEvent} (h : ev ∈ published x acts) : ev.instrumentId = x :=
  of_decide_eq_true (List.mem_filter.mp h).2

/-! ## A task's part -/

/-- The forwarder of reports has passed on some of the account's events that
were sent since the connection was accepted. -/
def ReportsOk (acts : List OutAction) (account : AccountId) (f : Forwarder T Event) (passed : List Event) : Prop :=
  ∃ (before after : List OutAction) (front : List Event) (h : Option Event), acts = before ++ .accept account :: after ∧
    Received (reported before) (reported after) (T.position f.receiver) front ∧ f.sending = h.map (Item.bytes ∘ Item.report) ∧
    (passed ++ h.toList).Sublist (front.filter (concerns account))

/-- The forwarder of an instrument has passed on a beginning of what was
published since it subscribed, and unless it or the writer has ended all that it
has received. -/
def DataOk (acts : List OutAction) (i : Nat) (x : InstrumentId) (channel : Option (List MarketDataEvent))
    (f : Forwarder T MarketDataEvent) (writerDone : Bool) (passed : List MarketDataEvent) : Prop :=
  ∃ (before after : List OutAction) (old front : List MarketDataEvent) (h : Option MarketDataEvent),
    acts = before ++ .forward i x :: after ∧ channel = some (old ++ published x after) ∧
    Received old (published x after) (T.position f.receiver) front ∧
    f.sending = h.map (Item.bytes ∘ Item.data) ∧ passed <+: front ∧
    (writerDone = true ∨ f.stopped = true ∧ h = none ∨ passed ++ h.toList = front)

theorem ReportsOk.later {f : Forwarder T Event} {passed : List Event} (h : ReportsOk acts account f passed) (a : OutAction) :
    ReportsOk (acts ++ [a]) account f passed := by
  obtain ⟨before, after, front, held, rfl, hrecv, hrest⟩ := h
  exact ⟨before, after ++ [a], front, held, by simp, reported_append after [a] ▸ hrecv.send _, hrest⟩

theorem DataOk.later {channel : Option (List MarketDataEvent)} {f : Forwarder T MarketDataEvent}
    {passed : List MarketDataEvent} (h : DataOk acts i x channel f writerDone passed) (a : OutAction) :
    DataOk (acts ++ [a]) i x (channel.map (· ++ published x [a])) f writerDone passed := by
  obtain ⟨before, after, old, front, held, rfl, rfl, hrecv, hrest⟩ := h
  refine ⟨before, after ++ [a], old, front, held, by simp, ?_, published_append x after [a] ▸ hrecv.send _, hrest⟩
  rw [published_append, ← List.append_assoc]
  rfl

theorem held_eq_none {α : Type} {f : Forwarder T α} {held : Option α} {bytes : α → List UInt8}
    (hidle : ¬ (f.stopped ∨ f.sending.isSome)) (hsending : f.sending = held.map bytes) : held = none :=
  Option.map_eq_none_iff.mp (hsending.symm.trans (Option.not_isSome_iff_eq_none.mp fun h => hidle (.inr h)))

theorem ReportsOk.recv {f : Forwarder T Event} {passed : List Event} (h : ReportsOk acts account f passed)
    {channel : T.Broadcast Event} (hchannel : T.sent channel = reported acts) :
    ReportsOk acts account (f.recvReport account channel) passed := by
  rw [Forwarder.recvReport]
  split
  · exact h
  rename_i hidle
  obtain ⟨before, after, front, held, rfl, hrecv, hsending, hpassed⟩ := h
  obtain rfl := held_eq_none hidle hsending
  rw [Option.toList_none, List.append_nil] at hpassed
  rw [reported_append, show reported (.accept account :: after) = reported after from rfl] at hchannel
  cases hr : T.recv channel f.receiver with
  | mk got receiver =>
    cases got with
    | ok ev =>
      have hnext := hrecv.ok hchannel hr
      simp only [encodeEventFor_nil]
      by_cases hconcerns : concerns account ev = true
      · rw [if_pos hconcerns]
        refine ⟨before, after, front ++ [ev], some ev, rfl, hnext, rfl, ?_⟩
        rw [List.filter_append, List.filter_cons_of_pos hconcerns]
        exact hpassed.append_right [ev]
      · rw [if_neg hconcerns]
        refine ⟨before, after, front ++ [ev], none, rfl, hnext, hsending, ?_⟩
        rw [List.filter_append, List.filter_cons_of_neg hconcerns, Option.toList_none, List.append_nil]
        exact hpassed.trans (List.sublist_append_left _ _)
    | lagged missed =>
      obtain ⟨skipped, hskip⟩ := hrecv.lagged hchannel hr
      refine ⟨before, after, front ++ skipped, none, rfl, hskip, hsending, ?_⟩
      rw [Option.toList_none, List.append_nil, List.filter_append]
      exact hpassed.trans (List.sublist_append_left _ _)
    | pending => exact ⟨before, after, front, none, rfl, hrecv, hsending, by rwa [Option.toList_none, List.append_nil]⟩

theorem DataOk.recv {channel : T.Broadcast MarketDataEvent} {f : Forwarder T MarketDataEvent}
    {passed : List MarketDataEvent} (h : DataOk acts i x (some (T.sent channel)) f writerDone passed) :
    DataOk acts i x (some (T.sent channel)) (f.recvMarketData channel) writerDone passed := by
  rw [Forwarder.recvMarketData]
  split
  · exact h
  rename_i hidle
  obtain ⟨before, after, old, front, held, hacts, hchannel, hrecv, hsending, hpassed, hlive⟩ := h
  have hsent := Option.some.inj hchannel
  obtain rfl := held_eq_none hidle hsending
  cases hr : T.recv channel f.receiver with
  | mk got receiver =>
    cases got with
    | ok ev =>
      simp only [encodeMarketData_nil]
      refine ⟨before, after, old, front ++ [ev], some ev, hacts, hchannel, hrecv.ok hsent hr, rfl, ?_,
        hlive.imp_right fun h => .inr ?_⟩
      · exact hpassed.trans (List.prefix_append _ _)
      · rw [← h.resolve_left fun hs => hidle (.inl hs.1), Option.toList_none, List.append_nil]
        rfl
    | lagged missed =>
      obtain ⟨skipped, hskip⟩ := hrecv.lagged hsent hr
      exact ⟨before, after, old, front ++ skipped, none, hacts, hchannel, hskip, hsending,
        hpassed.trans (List.prefix_append _ _), .inr (.inl ⟨rfl, rfl⟩)⟩
    | pending => exact ⟨before, after, old, front, none, hacts, hchannel, hrecv, hsending, hpassed, hlive⟩

theorem send_cases {α : Type} (f : Forwarder T α) (queue : T.Queue (List UInt8)) (writerDone : Bool) :
    f.send queue writerDone = (f, queue) ∨
      (∃ frame, f.sending = some frame ∧ writerDone = true ∧
        f.send queue writerDone = ({ f with sending := none, stopped := true }, queue)) ∨
      ∃ frame queue', f.sending = some frame ∧ writerDone = false ∧ T.queued queue' = T.queued queue ++ [frame] ∧
        f.send queue writerDone = ({ f with sending := none }, queue') := by
  rw [Forwarder.send]
  cases hsending : f.sending with
  | none => exact .inl rfl
  | some frame =>
    cases writerDone with
    | true => exact .inr (.inl ⟨frame, rfl, rfl, rfl⟩)
    | false =>
      cases hroom : T.trySend queue frame with
      | some queue' =>
        exact .inr (.inr ⟨frame, queue', rfl, rfl, T.queued_trySend hroom, by
          simp only [Bool.false_eq_true, if_false, hroom]⟩)
      | none => exact .inl (by simp only [Bool.false_eq_true, if_false, hroom])

section Update

variable {α : Type} {f : α} {forwarded : InstrumentId → Option α}

theorem forall_update_some {P : InstrumentId → α → Prop} (hf : P x f)
    (h : ∀ y g, y ≠ x → forwarded y = some g → P y g) :
    ∀ y g, Function.update forwarded x (some f) y = some g → P y g := by
  intro y g hg
  by_cases hyx : y = x
  · subst hyx
    rw [Function.update_self] at hg
    exact Option.some.inj hg ▸ hf
  · rw [Function.update_of_ne hyx] at hg
    exact h y g hyx hg

theorem forall_update_none {P : InstrumentId → Prop} (h : ∀ y, y ≠ x → forwarded y = none → P y) :
    ∀ y, Function.update forwarded x (some f) y = none → P y := by
  intro y hy
  by_cases hyx : y = x
  · subst hyx
    rw [Function.update_self] at hy
    cases hy
  · rw [Function.update_of_ne hyx] at hy
    exact h y hyx hy

end Update

/-! ## A connection -/

/-- What a connection has written, `w`, and has still to write, `q`. Once the
writer has ended that is nothing. -/
structure Serves (acts : List OutAction) (i : Nat) (channels : InstrumentId → Option (List MarketDataEvent))
    (c : OutConnection T) (w q : List Item) : Prop where
  written : c.written = w.map Item.bytes
  queue : c.writerDone = false → T.queued c.queue = q.map Item.bytes
  done : c.writerDone = true → q = []
  torn : c.torn = [] ∨ ∃ item : Item, c.torn <+: item.bytes ∧ c.torn.length < item.bytes.length
  reports : ReportsOk acts c.accountId c.reports (eventsOf (w ++ q))
  data : ∀ x f, c.forwarded x = some f → DataOk acts i x (channels x) f c.writerDone (dataOf x (w ++ q))
  noData : ∀ x, c.forwarded x = none → dataOf x (w ++ q) = []

namespace Serves

theorem later (h : Serves acts i channels c w q) (a : OutAction)
    (hchannels : ∀ x sent, channels x = some sent → channels' x = some (sent ++ published x [a])) :
    Serves (acts ++ [a]) i channels' c w q := by
  refine ⟨h.written, h.queue, h.done, h.torn, h.reports.later a, fun x f hf => ?_, h.noData⟩
  have hdata := (h.data x f hf).later a
  obtain ⟨_, _, _, _, _, _, hsome, _⟩ := h.data x f hf
  rw [hsome] at hdata
  rw [hchannels x _ hsome]
  exact hdata

theorem recvReport (h : Serves acts i channels c w q) {channel : T.Broadcast Event}
    (hchannel : T.sent channel = reported acts) :
    Serves acts i channels { c with reports := c.reports.recvReport c.accountId channel } w q :=
  ⟨h.written, h.queue, h.done, h.torn, h.reports.recv hchannel, h.data, h.noData⟩

theorem eventsOf_queued (w q : List Item) (item : Item) :
    eventsOf (w ++ (q ++ [item])) = eventsOf (w ++ q) ++ eventsOf [item] := by
  rw [← List.append_assoc, eventsOf_append]

theorem dataOf_queued (x : InstrumentId) (w q : List Item) (item : Item) :
    dataOf x (w ++ (q ++ [item])) = dataOf x (w ++ q) ++ dataOf x [item] := by
  rw [← List.append_assoc, dataOf_append]

theorem sendReport (h : Serves acts i channels c w q) : ∃ q', Serves acts i channels c.sendReport w q' := by
  rw [OutConnection.sendReport]
  obtain ⟨before, after, front, held, hacts, hrecv, hsending, hpassed⟩ := h.reports
  rcases send_cases c.reports c.queue c.writerDone with
    he | ⟨frame, -, hdone, he⟩ | ⟨frame, queue', hframe, hdone, hqueue', he⟩ <;> rw [he]
  · exact ⟨q, h⟩
  · refine ⟨q, h.written, h.queue, h.done, h.torn, ⟨before, after, front, none, hacts, hrecv, rfl, ?_⟩, h.data, h.noData⟩
    rw [Option.toList_none, List.append_nil]
    exact (List.sublist_append_left _ _).trans hpassed
  · obtain ⟨ev, rfl, rfl⟩ := Option.map_eq_some_iff.mp (hsending.symm.trans hframe)
    have hevents : eventsOf (w ++ (q ++ [.report ev])) = eventsOf (w ++ q) ++ [ev] := eventsOf_queued w q (.report ev)
    have hdata : ∀ x, dataOf x (w ++ (q ++ [.report ev])) = dataOf x (w ++ q) := fun x =>
      (dataOf_queued x w q (.report ev)).trans (List.append_nil _)
    refine ⟨q ++ [.report ev], h.written, fun hd => ?_, fun hd => absurd (hdone.symm.trans hd) Bool.false_ne_true, h.torn,
      ⟨before, after, front, none, hacts, hrecv, rfl, ?_⟩, fun x f hf => hdata x ▸ h.data x f hf,
      fun x hx => hdata x ▸ h.noData x hx⟩
    · rw [List.map_append, ← h.queue hd]
      exact hqueue'
    · rw [hevents, Option.toList_none, List.append_nil]
      exact hpassed

theorem setForwarder (h : Serves acts i channels c w q) {f : Forwarder T MarketDataEvent}
    (hf : DataOk acts i x (channels x) f c.writerDone (dataOf x (w ++ q))) :
    Serves acts i channels { c with forwarded := Function.update c.forwarded x (some f) } w q :=
  ⟨h.written, h.queue, h.done, h.torn, h.reports, forall_update_some hf fun y g _ => h.data y g,
    forall_update_none fun y _ => h.noData y⟩

theorem recvMarketData (h : Serves acts i s.marketData.sentOn c w q) (x : InstrumentId) :
    Serves acts i s.marketData.sentOn (s.recvMarketData x c) w q := by
  rw [Outbound.recvMarketData]
  cases hf : c.forwarded x with
  | none => exact h
  | some f =>
    cases hx : s.marketData.channels x with
    | none => exact h
    | some channel =>
      have hsent : s.marketData.sentOn x = some (T.sent channel) := congrArg (Option.map T.sent) hx
      have hdata := h.data x f hf
      rw [hsent] at hdata
      exact h.setForwarder (hsent ▸ hdata.recv)

theorem sendMarketData (h : Serves acts i channels c w q) (x : InstrumentId) :
    ∃ q', Serves acts i channels (c.sendMarketData x) w q' := by
  rw [OutConnection.sendMarketData]
  cases hf : c.forwarded x with
  | none => exact ⟨q, h⟩
  | some f =>
    obtain ⟨before, after, old, front, held, hacts, hchannel, hrecv, hsending, hpassed, hlive⟩ := h.data x f hf
    rcases send_cases f c.queue c.writerDone with
      he | ⟨frame, -, hdone, he⟩ | ⟨frame, queue', hframe, hdone, hqueue', he⟩ <;> simp only [he]
    · exact ⟨q, h.setForwarder (h.data x f hf)⟩
    · exact ⟨q, h.setForwarder ⟨before, after, old, front, none, hacts, hchannel, hrecv, rfl, hpassed, .inl hdone⟩⟩
    · obtain ⟨ev, rfl, rfl⟩ := Option.map_eq_some_iff.mp (hsending.symm.trans hframe)
      have hfront : dataOf x (w ++ q) ++ [ev] = front := by
        rcases hlive with hd | ⟨-, hnone⟩ | hfront
        · exact absurd (hdone.symm.trans hd) Bool.false_ne_true
        · exact absurd hnone (Option.some_ne_none ev)
        · exact hfront
      have hev : ev.instrumentId = x :=
        mem_published (hrecv.isPrefix.subset (hfront ▸ List.mem_append_right _ List.mem_cons_self))
      have hown : dataOf x (w ++ (q ++ [.data ev])) = front := by
        rw [dataOf_queued, ← hfront]
        exact congrArg (dataOf x (w ++ q) ++ ·) (List.filter_cons_of_pos (decide_eq_true hev))
      have hother : ∀ y, y ≠ x → dataOf y (w ++ (q ++ [.data ev])) = dataOf y (w ++ q) := by
        intro y hy
        have hnot : ¬ decide (ev.instrumentId = y) = true := by
          rw [decide_eq_true_eq, hev]
          exact fun e => hy e.symm
        rw [dataOf_queued]
        exact (congrArg (dataOf y (w ++ q) ++ ·) (List.filter_cons_of_neg hnot)).trans (List.append_nil _)
      have hevents : eventsOf (w ++ (q ++ [.data ev])) = eventsOf (w ++ q) :=
        (eventsOf_queued w q (.data ev)).trans (List.append_nil _)
      refine ⟨q ++ [.data ev], h.written, fun hd => ?_, fun hd => absurd (hdone.symm.trans hd) Bool.false_ne_true, h.torn,
        hevents ▸ h.reports, forall_update_some ?_ fun y g hyx hg => hother y hyx ▸ h.data y g hg,
        forall_update_none fun y hyx hy => hother y hyx ▸ h.noData y hy⟩
      · rw [List.map_append, ← h.queue hd]
        exact hqueue'
      · rw [hown]
        exact ⟨before, after, old, front, none, hacts, hchannel, hrecv, rfl, List.prefix_rfl,
          .inr (.inr (List.append_nil _))⟩

theorem exists_item (h : Serves acts i channels c w q) {frame : List UInt8} {queue : T.Queue (List UInt8)}
    (hqueue : T.take c.queue = some (frame, queue)) (hdone : c.writerDone = false) :
    ∃ item q', q = item :: q' ∧ frame = item.bytes ∧ T.queued queue = q'.map Item.bytes := by
  obtain ⟨item, q', hq, hframe, hrest⟩ := List.map_eq_cons_iff.mp ((h.queue hdone).symm.trans (T.queued_take hqueue))
  exact ⟨item, q', hq, hframe.symm, hrest.symm⟩

theorem write (h : Serves acts i channels c w q) : ∃ w' q', Serves acts i channels c.write w' q' := by
  rw [OutConnection.write]
  cases hqueue : T.take c.queue with
  | none => exact ⟨w, q, h⟩
  | some front =>
    obtain ⟨frame, queue⟩ := front
    by_cases hdone : c.writerDone = true
    · simp only [if_pos hdone]
      exact ⟨w, q, h⟩
    · simp only [if_neg hdone]
      obtain ⟨item, q, rfl, rfl, hrest⟩ := h.exists_item hqueue (Bool.eq_false_iff.mpr hdone)
      have hmove : w ++ [item] ++ q = w ++ item :: q := (List.append_cons w item q).symm
      refine ⟨w ++ [item], q, ?_, fun _ => hrest, fun hd => absurd hd hdone, h.torn, hmove ▸ h.reports, hmove ▸ h.data,
        hmove ▸ h.noData⟩
      show c.written ++ [item.bytes] = _
      rw [h.written, List.map_append]
      rfl

/-- Of the frame at which writing fails, a part is on the socket. -/
theorem failWrite (h : Serves acts i channels c w q) (n : Nat) :
    ∃ q', Serves acts i channels (c.failWrite n) w q' := by
  rw [OutConnection.failWrite]
  cases hqueue : T.take c.queue with
  | none => exact ⟨q, h⟩
  | some front =>
    obtain ⟨frame, queue⟩ := front
    by_cases hdone : c.writerDone = true ∨ frame.length ≤ n
    · simp only [if_pos hdone]
      exact ⟨q, h⟩
    · simp only [if_neg hdone]
      rw [not_or, Bool.not_eq_true, Nat.not_le] at hdone
      obtain ⟨item, q, rfl, rfl, -⟩ := h.exists_item hqueue hdone.1
      refine ⟨[], h.written, fun hd => absurd hd.symm Bool.false_ne_true, fun _ => rfl,
        .inr ⟨item, List.take_prefix _ _, Nat.lt_of_le_of_lt (List.length_take_le _ _) hdone.2⟩, ?_, fun x f hf => ?_,
        fun x hx => ?_⟩
      · obtain ⟨before, after, front, held, hacts, hrecv, hsending, hpassed⟩ := h.reports
        refine ⟨before, after, front, held, hacts, hrecv, hsending, List.Sublist.trans ?_ hpassed⟩
        rw [List.append_nil, eventsOf_append]
        exact (List.sublist_append_left _ _).append_right _
      · obtain ⟨before, after, old, front, held, hacts, hchannel, hrecv, hsending, hpassed, -⟩ := h.data x f hf
        refine ⟨before, after, old, front, held, hacts, hchannel, hrecv, hsending, ?_, .inl rfl⟩
        rw [dataOf_append] at hpassed
        rw [List.append_nil]
        exact (List.prefix_append _ _).trans hpassed
      · have hnone := h.noData x hx
        rw [dataOf_append, List.append_eq_nil_iff] at hnone
        rw [List.append_nil]
        exact hnone.1

end Serves

/-! ## Runs -/

/-- Every connection is served. -/
structure Served (acts : List OutAction) (s : Outbound T) : Prop where
  sent : T.sent s.execReports = reported acts
  serves : ∀ i c, s.connections[i]? = some c → ∃ w q, Serves acts i s.marketData.sentOn c w q

theorem Served.later (h : Served acts s) (a : OutAction)
    (hchannels : ∀ x l, s.marketData.sentOn x = some l → channels' x = some (l ++ published x [a])) :
    ∀ i c, s.connections[i]? = some c → ∃ w q, Serves (acts ++ [a]) i channels' c w q := by
  intro i c hc
  obtain ⟨w, q, hw⟩ := h.serves i c hc
  exact ⟨w, q, hw.later a hchannels⟩

theorem Served.sent_later (h : Served acts s) {a : OutAction} (ha : reported [a] = []) :
    T.sent s.execReports = reported (acts ++ [a]) := by
  rw [reported_append, ha, List.append_nil, h.sent]

theorem Served.modify (h : Served acts s) {a : OutAction} (hreported : reported [a] = [])
    (hpublished : ∀ x, published x [a] = []) {g : OutConnection T → OutConnection T}
    (hg : ∀ c w q, Serves (acts ++ [a]) i s.marketData.sentOn c w q →
      ∃ w' q', Serves (acts ++ [a]) i s.marketData.sentOn (g c) w' q') :
    Served (acts ++ [a]) (s.modify i g) := by
  have hlater : ∀ j c, s.connections[j]? = some c → ∃ w q, Serves (acts ++ [a]) j s.marketData.sentOn c w q :=
    h.later a fun x l hl => by rw [hpublished, List.append_nil, hl]
  refine ⟨h.sent_later hreported, fun j c hc => ?_⟩
  have hc : (s.connections.modify i g)[j]? = some c := hc
  rw [List.getElem?_modify] at hc
  obtain ⟨c₀, hold, rfl⟩ := Option.map_eq_some_iff.mp hc
  obtain ⟨w, q, hw⟩ := hlater j c₀ hold
  split
  · rename_i hij
    subst hij
    exact hg c₀ w q hw
  · exact ⟨w, q, hw⟩

theorem sentOn_publish (hub : MarketDataHub T) (ev : MarketDataEvent) {x : InstrumentId} {l : List MarketDataEvent}
    (h : hub.sentOn x = some l) : (hub.publish ev).sentOn x = some (l ++ published x [.publish ev]) := by
  obtain ⟨channel, hchannel, rfl⟩ := Option.map_eq_some_iff.mp h
  rw [published_singleton, MarketDataHub.publish, MarketDataHub.sentOn]
  by_cases hx : ev.instrumentId = x
  · subst hx
    rw [if_pos rfl, hchannel]
    simp only [Function.update_self, Option.map_some, T.sent_send]
  · rw [if_neg hx, List.append_nil]
    cases hub.channels ev.instrumentId with
    | none => exact h
    | some sent => exact (congrArg _ (Function.update_of_ne (Ne.symm hx) _ _)).trans h

theorem sentOn_subscribe (hub : MarketDataHub T) {x y : InstrumentId} {l : List MarketDataEvent}
    (h : hub.sentOn y = some l) : (hub.subscribe x).1.sentOn y = some l := by
  rw [MarketDataHub.subscribe]
  cases hx : hub.channels x with
  | some sent => exact h
  | none =>
    have hne : y ≠ x := by
      rintro rfl
      rw [MarketDataHub.sentOn, hx] at h
      cases h
    exact (congrArg _ (Function.update_of_ne hne _ _)).trans h

theorem exists_subscribe (hub : MarketDataHub T) (x : InstrumentId) :
    ∃ old, (hub.subscribe x).1.sentOn x = some old ∧ T.position (hub.subscribe x).2 = old.length := by
  rw [MarketDataHub.subscribe]
  cases hx : hub.channels x with
  | some channel => exact ⟨T.sent channel, congrArg _ hx, T.position_subscribe channel⟩
  | none => exact ⟨_, congrArg _ (Function.update_self _ _ _), T.position_subscribe _⟩

theorem Served.forward (h : Served acts s) (i : Nat) (x : InstrumentId) :
    Served (acts ++ [.forward i x]) (s.forward i x) := by
  have hsent : T.sent s.execReports = reported (acts ++ [.forward i x]) := h.sent_later rfl
  have hstay : Served (acts ++ [.forward i x]) s :=
    ⟨hsent, h.later (.forward i x) fun y l hl => hl.trans (congrArg some (List.append_nil l).symm)⟩
  rw [Outbound.forward]
  cases hc : s.connections[i]? with
  | none => exact hstay
  | some c =>
    cases hf : c.forwarded x with
    | some f =>
      simp only [hf]
      exact hstay
    | none =>
      simp only [hf]
      refine ⟨hsent, fun j c' hc' => ?_⟩
      have hlater := h.later (.forward i x) fun y l hl =>
        (sentOn_subscribe s.marketData (x := x) hl).trans (congrArg some (List.append_nil l).symm)
      have hset : (s.connections.set i _)[j]? = some c' := hc'
      rw [List.getElem?_set] at hset
      split at hset
      · rename_i hij
        subst hij
        rw [if_pos (List.getElem?_eq_some_iff.mp hc).1] at hset
        cases hset
        obtain ⟨w, q, hw⟩ := hlater i c hc
        obtain ⟨old, hold, hnext⟩ := exists_subscribe s.marketData x
        refine ⟨w, q, hw.setForwarder ⟨acts, [], old, [], none, rfl, ?_, hnext ▸ received_subscribe old, rfl, ?_, ?_⟩⟩
        · rw [hold]
          exact congrArg some (List.append_nil old).symm
        · simp only [hw.noData x hf, List.prefix_rfl]
        · rw [hw.noData x hf]
          exact .inr (.inr rfl)
      · exact hlater j c' hset

theorem Served.step (h : Served acts s) (a : OutAction) : Served (acts ++ [a]) (s.step a) := by
  have hquiet : ∀ x l, s.marketData.sentOn x = some l → s.marketData.sentOn x = some (l ++ []) := fun x l hl =>
    hl.trans (congrArg some (List.append_nil l).symm)
  cases a with
  | report ev => exact ⟨by rw [reported_append, ← h.sent]; exact T.sent_send _ _, h.later (.report ev) hquiet⟩
  | publish ev =>
    exact ⟨h.sent_later rfl, h.later (.publish ev) fun x l hl => sentOn_publish s.marketData ev hl⟩
  | accept account =>
    refine ⟨h.sent_later rfl, fun i c hc => ?_⟩
    have hc : (s.connections ++ [_])[i]? = some c := hc
    rw [List.getElem?_append] at hc
    split at hc
    · exact h.later (.accept account) hquiet i c hc
    · have hnew := List.mem_singleton.mp (List.mem_of_getElem? hc)
      subst hnew
      refine ⟨[], [], rfl, fun _ => T.queued_queue _, fun _ => rfl, .inl rfl, ⟨acts, [], [], none, rfl, ?_, rfl, .slnil⟩,
        fun x f hf => absurd hf.symm (Option.some_ne_none f), fun _ _ => rfl⟩
      show Received (reported acts) [] (T.position (T.subscribe s.execReports)) []
      rw [T.position_subscribe, h.sent]
      exact received_subscribe (reported acts)
  | forward i x => exact h.forward i x
  | recvReport i =>
    exact h.modify rfl (fun _ => rfl) fun c w q hw => ⟨w, q, hw.recvReport (h.sent_later rfl)⟩
  | sendReport i => exact h.modify rfl (fun _ => rfl) fun c w q hw => ⟨w, hw.sendReport⟩
  | recvMarketData i x => exact h.modify rfl (fun _ => rfl) fun c w q hw => ⟨w, q, hw.recvMarketData x⟩
  | sendMarketData i x => exact h.modify rfl (fun _ => rfl) fun c w q hw => ⟨w, hw.sendMarketData x⟩
  | write i => exact h.modify rfl (fun _ => rfl) fun c w q hw => hw.write
  | failWrite i n => exact h.modify rfl (fun _ => rfl) fun c w q hw => ⟨w, hw.failWrite n⟩

theorem served_run (T : Tokio) (reportCapacity : Nat) (acts : List OutAction) :
    Served acts ((Outbound.new T reportCapacity).run acts) := by
  induction acts using List.reverseRecOn with
  | nil => exact ⟨T.sent_broadcast _, fun i c hc => by cases hc⟩
  | append_singleton acts a ih =>
    rw [Outbound.run, List.foldl_append]
    exact ih.step a

theorem eventsOf_take (items : List Item) (j : Nat) : eventsOf (items.take j) <+: eventsOf items := by
  have h := eventsOf_append (items.take j) (items.drop j)
  rw [List.take_append_drop] at h
  exact h ▸ List.prefix_append _ _

theorem dataOf_take (x : InstrumentId) (items : List Item) (j : Nat) : dataOf x (items.take j) <+: dataOf x items := by
  have h := dataOf_append x (items.take j) (items.drop j)
  rw [List.take_append_drop] at h
  exact h ▸ List.prefix_append _ _

/-- In every run of the tasks, what a client reads, in whatever chunks, of what
is on its socket are whole frames: reports of some of its account's events that
were sent since it was accepted, each at most once and in order, and of an
instrument the first ones, without a gap, of the events published since it was
subscribed to. -/
theorem client_reads (T : Tokio) (reportCapacity : Nat) (acts : List OutAction) (i : Nat) (c : OutConnection T)
    (hc : ((Outbound.new T reportCapacity).run acts).connections[i]? = some c) (chunks : List (List UInt8))
    (hread : chunks.flatten <+: c.socket) :
    (Receiver.feed Codec.decode chunks).error = none ∧ (∀ f ∈ (Receiver.feed Codec.decode chunks).msgs, f.Parses) ∧
      (∃ (before after : List OutAction) (evs : List Event), acts = before ++ .accept c.accountId :: after ∧
        evs.Sublist ((reported after).filter (concerns c.accountId)) ∧
        reportsIn (Receiver.feed Codec.decode chunks).msgs = evs.map Event.report) ∧
      ∀ x, marketDataIn x (Receiver.feed Codec.decode chunks).msgs = [] ∨
        ∃ before after, acts = before ++ .forward i x :: after ∧
          marketDataIn x (Receiver.feed Codec.decode chunks).msgs <+: published x after := by
  obtain ⟨w, q, hw⟩ := (served_run T reportCapacity acts).serves i c hc
  rw [OutConnection.socket, hw.written] at hread
  obtain ⟨j, hmsgs, herror⟩ := feed_arrived hw.torn hread
  obtain ⟨before, after, front, held, hacts, hrecv, -, hpassed⟩ := hw.reports
  have hsome : (eventsOf (w.take j)).Sublist (front.filter (concerns c.accountId)) := by
    refine (eventsOf_take w j).sublist.trans (List.Sublist.trans ?_ hpassed)
    rw [eventsOf_append, List.append_assoc]
    exact List.sublist_append_left _ _
  have hconcerns : ∀ ev ∈ eventsOf (w.take j), concerns c.accountId ev = true := fun ev hev =>
    (List.mem_filter.mp (hsome.subset hev)).2
  refine ⟨herror, hmsgs ▸ parses_frames hconcerns, ?_, fun x => ?_⟩
  · have hfront : (front.filter (concerns c.accountId)).Sublist ((reported after).filter (concerns c.accountId)) :=
      hrecv.isPrefix.sublist.filter _
    refine ⟨before, after, eventsOf (w.take j), hacts, hsome.trans hfront, ?_⟩
    rw [hmsgs]
    exact reportsIn_frames hconcerns
  · rw [hmsgs, marketDataIn_frames]
    cases hf : c.forwarded x with
    | none =>
      have hnone := hw.noData x hf
      rw [dataOf_append, List.append_eq_nil_iff] at hnone
      refine .inl (List.prefix_nil.mp ?_)
      rw [← hnone.1]
      exact dataOf_take x w j
    | some f =>
      obtain ⟨before, after, old, front, held, hacts, -, hrecv, -, hpassed, -⟩ := hw.data x f hf
      refine .inr ⟨before, after, hacts, (dataOf_take x w j).trans (List.IsPrefix.trans ?_ (hpassed.trans hrecv.isPrefix))⟩
      rw [dataOf_append]
      exact List.prefix_append _ _

/-- A client that subscribes to an instrument is told of a halt and of its own
order. -/
def demoTasks : List OutAction :=
  [.accept ⟨1⟩, .forward 0 ⟨7⟩, .publish (.haltStatus ⟨7⟩ true),
    .report (.rejected { seq := .first, accountId := ⟨1⟩, clientOrderId := ⟨5⟩, reason := .instrumentHalted }),
    .recvReport 0, .recvMarketData 0 ⟨7⟩, .sendMarketData 0 ⟨7⟩, .sendReport 0, .write 0, .write 0]

theorem client_reads_demo : ∃ c, ((Outbound.new .lists 64).run demoTasks).connections[0]? = some c ∧
    (Receiver.feed Codec.decode [c.socket]).error = none ∧ (∀ f ∈ (Receiver.feed Codec.decode [c.socket]).msgs, f.Parses) ∧
      (∃ (before after : List OutAction) (evs : List Event), demoTasks = before ++ .accept c.accountId :: after ∧
        evs.Sublist ((reported after).filter (concerns c.accountId)) ∧
        reportsIn (Receiver.feed Codec.decode [c.socket]).msgs = evs.map Event.report) ∧
      ∀ x, marketDataIn x (Receiver.feed Codec.decode [c.socket]).msgs = [] ∨
        ∃ before after, demoTasks = before ++ .forward 0 x :: after ∧
          marketDataIn x (Receiver.feed Codec.decode [c.socket]).msgs <+: published x after := by
  obtain ⟨c, hc⟩ : ∃ c, ((Outbound.new .lists 64).run demoTasks).connections[0]? = some c := ⟨_, rfl⟩
  refine ⟨c, hc, client_reads .lists 64 demoTasks 0 c hc [c.socket] ?_⟩
  simp only [List.flatten_singleton, List.prefix_rfl]

end MRE.Proof.Gateway
