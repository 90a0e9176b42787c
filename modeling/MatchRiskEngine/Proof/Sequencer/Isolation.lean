import MatchRiskEngine.Proof.OrderBook.Priority
import MatchRiskEngine.Proof.Sequencer.CancelReports

/-!
# Clients cannot touch each other's orders

The commands that a session pushes are of the account it was opened for
(`owner_of_sentBy`). To an order of another account a command does no more than
trade with it (`engine_isolates`). Every command that an engine handles has come
to one of the sequencer's queues (`run_queued`), and so whatever else happens to
a resting order, its own client or a liquidation has done it
(`client_isolation`).
-/

namespace MRE

/-- The account whose orders a command can take out of a book. -/
def InboundCommand.owner : InboundCommand → Option AccountId
  | .newOrder o => some o.account
  | .cancel account _ => some account
  | .liquidate _ account => some account
  | .freezeAccount _ => none

namespace Proof.Isolation

open MRE.Gateway MRE.Proof.Book MRE.Proof.Engine MRE.Proof.Sequencing SlotMap

/-! ## The gateway -/

section Gateway

variable {full : List InboundCommand → Bool} {account : AccountId} {s s' : Session} {c : Connection}

/-- The session is the account's, and so are the commands it has pushed. -/
def Owns (account : AccountId) (s : Session) : Prop :=
  s.accountId = account ∧ ∀ cmd ∈ s.cmdProducer, cmd.owner = some account

theorem decodeNewOrder_account {payload : List UInt8} {o : NewOrder} (h : decodeNewOrder account payload = .ok o) :
    o.accountId = account := by
  simp only [decodeNewOrder] at h
  repeat' split at h
  all_goals cases h
  rfl

theorem tryFrom_new_owner {o : NewOrder} {cmd : InboundCommand} (h : InboundCommand.tryFrom (.new o) = .ok cmd) :
    cmd.owner = some o.accountId := by
  rw [InboundCommand.tryFrom] at h
  split at h <;> cases h
  rfl

theorem decodeCancelOrder_account {payload : List UInt8} {o : CancelOrder}
    (h : decodeCancelOrder account payload = .ok o) : o.accountId = account := by
  rw [decodeCancelOrder] at h
  split at h <;> cases h
  rfl

theorem owns_enqueue {cmd : Command} (hs : Owns account s) (h : s.enqueue full cmd = .ok s')
    (hcmd : ∀ inbound, InboundCommand.tryFrom cmd = .ok inbound → inbound.owner = some account) : Owns account s' := by
  rw [Session.enqueue] at h
  split at h
  · cases h
  rename_i inbound hconv
  split at h <;> cases h
  exact ⟨hs.1, List.forall_mem_append.mpr ⟨hs.2, List.forall_mem_singleton.mpr (hcmd inbound hconv)⟩⟩

theorem owns_dispatchFrame {f : Frame} {action : Option SessionAction} (hs : Owns account s)
    (h : s.dispatchFrame full f = .ok (s', action)) : Owns account s' := by
  unfold Session.dispatchFrame at h
  split at h
  · obtain ⟨o, hdec, h⟩ := bind_eq_ok h
    obtain ⟨s₁, henq, h⟩ := bind_eq_ok h
    cases h
    refine owns_enqueue hs henq fun inbound hconv => ?_
    rw [tryFrom_new_owner hconv, decodeNewOrder_account hdec, hs.1]
  split at h
  · obtain ⟨o, hdec, h⟩ := bind_eq_ok h
    obtain ⟨s₁, henq, h⟩ := bind_eq_ok h
    cases h
    refine owns_enqueue hs henq fun inbound hconv => ?_
    cases hconv
    rw [InboundCommand.owner, decodeCancelOrder_account hdec, hs.1]
  split at h
  · obtain ⟨id, -, h⟩ := bind_eq_ok h
    cases h
    exact hs
  split at h
  · obtain ⟨id, -, h⟩ := bind_eq_ok h
    cases h
    exact hs
  · cases h

theorem owns_handleInbound {buf buf' : List UInt8} {action : Option SessionAction} (hs : Owns account s)
    (h : s.handleInbound full buf = .ok (s', buf', action)) : Owns account s' := by
  unfold Session.handleInbound at h
  split at h
  · cases h
  · cases h
    exact hs
  · obtain ⟨⟨s₁, action₁⟩, hdispatch, h⟩ := bind_eq_ok h
    cases h
    exact owns_dispatchFrame hs hdispatch

theorem owns_drain (full : List InboundCommand → Bool) (hs : Owns account c.session) (n : Nat) :
    Owns account (c.drain full n).1.session := by
  induction n generalizing c with
  | zero => exact hs
  | succ n ih =>
    rw [Connection.drain]
    split
    · rename_i h
      exact ih (owns_handleInbound hs h)
    · rename_i h
      exact owns_handleInbound hs h
    · rename_i h
      exact owns_handleInbound hs h
    · exact hs

theorem owns_serve (full : List InboundCommand → Bool) (hs : Owns account c.session) (chunks : List (List UInt8)) :
    Owns account (c.serve full chunks).session := by
  induction chunks generalizing c with
  | nil =>
    have hdrain := owns_drain full hs (c.readBuf.length + 1)
    rw [Connection.serve]
    split <;> rename_i h <;> rw [h] at hdrain <;> exact hdrain
  | cons chunk chunks ih =>
    have hdrain := owns_drain full hs (c.readBuf.length + 1)
    rw [Connection.serve]
    split <;> rename_i h <;> rw [h] at hdrain
    · exact hdrain
    · dsimp only
      split
      · exact hdrain
      · exact ih hdrain

/-- What a client sends is of the account of its connection. -/
theorem owner_of_sentBy {cmd : InboundCommand} (h : SentBy account cmd) : cmd.owner = some account := by
  obtain ⟨full, chunks, c, hc, rfl, hcmd⟩ := h
  obtain ⟨⟨account, buf, rest⟩, -, hc⟩ := bind_eq_ok hc
  cases hc
  have howns : Owns account _ := owns_serve full
    (c := { session := Session.new account, readBuf := buf, outbox := [], reads := [] })
    ⟨rfl, fun cmd hcmd => absurd hcmd List.not_mem_nil⟩ rest
  rw [howns.1]
  exact howns.2 cmd hcmd

end Gateway

variable {M K : Type} [DecidableEq K] [Arena M K]

/-! ## One command -/

section Command

variable {c : RefConfig} {b b' : OrderBook M K} {Q : Side → Nat → List K} {cmd : SequencedCommand}
  {evs : List EngineEvent} {k : K} {x : RefOrder}

theorem onlyTraded_of_mem {os : List RefOrder} (h : x ∈ os) : x.OnlyTraded [] os :=
  .inr ⟨x, h, rfl, Nat.add_zero _⟩

/-- A sweep cancels orders of the taker's own account only. -/
theorem Swept.cancelled {a : Aggressor} {os os' : List RefOrder} {qty qty' : Qty} (h : Swept a os qty os' qty' evs)
    {seq : UInt64} {id : OrderId} (hin : .cancelled seq id ∈ evs) : ∃ y ∈ os, y.id = id ∧ y.account = a.account := by
  induction h with
  | nil | stop => exact absurd hin List.not_mem_nil
  | @own o _ _ _ _ _ _ _ hacct _ ih =>
    rcases List.mem_cons.mp hin with e | hin
    · cases e
      exact ⟨o, List.mem_cons_self, rfl, hacct⟩
    · obtain ⟨y, hy, h⟩ := ih hin
      exact ⟨y, List.mem_cons_of_mem _ hy, h⟩
  | full _ _ _ _ _ ih =>
    rcases List.mem_cons.mp hin with e | hin
    · cases e
    · obtain ⟨y, hy, h⟩ := ih hin
      exact ⟨y, List.mem_cons_of_mem _ hy, h⟩
  | part => cases List.mem_singleton.mp hin

/-- An older order that a new one cancels is of the same account. -/
theorem Valid.applied_cancelled (hb : Valid c b Q) (hd : DistinctIds (dataOf b.arena)) {seq tsNs : UInt64}
    {o : InboundNewOrder} (h : Applied b seq tsNs o b' evs) (hx : dataOf b.arena k = some x) (hid : x.id ≠ ⟨seq⟩)
    {seq' : UInt64} (hin : .cancelled seq' x.id ∈ evs) : o.account = x.account := by
  have hmatched : ∀ {b₁ left evs tail}, Matched b seq tsNs o b₁ left evs →
      (∀ e ∈ tail, e ≠ EngineEvent.cancelled seq' x.id) → .cancelled seq' x.id ∈ evs ++ tail → o.account = x.account := by
    intro b₁ left evs tail hm htail hin
    obtain ⟨Q₁, os, -, hw, -⟩ := hb.of_matched hm
    obtain ⟨y, hy, hyid, hacct⟩ := Swept.cancelled hw ((List.mem_append.mp hin).resolve_right fun h => htail _ h rfl)
    obtain ⟨-, j, hj⟩ := hb.mem_queued_iff.mp hy
    rw [← hd.eq hj hx hyid]
    exact hacct.symm
  cases h with
  | refused => cases List.mem_singleton.mp hin
  | filled hm hz ht =>
    obtain ⟨top, rfl⟩ := isBookTop_of_eq ht
    exact hmatched hm (List.forall_mem_singleton.mpr fun e => by cases e) hin
  | cancelled hm hz hlt ht =>
    exact hmatched hm (forall_mem_tail ht (fun e => hid (EngineEvent.cancelled.inj e).2.symm) fun _ e => by cases e) hin
  | unmatched hm hz hle rej ht =>
    exact hmatched hm (forall_mem_tail ht (fun e => by cases e) fun _ e => by cases e) hin
  | full hm => exact hmatched hm (List.forall_mem_singleton.mpr fun e => by cases e) hin
  | rested hm hz hrests hroom hidx hrest ht =>
    exact hmatched hm (forall_mem_tail ht (fun e => by cases e) fun _ e => by cases e) hin

/-- A command that cancels an older order is of its account. -/
theorem Valid.effect_cancelled (hb : Valid c b Q) (hids : IdsOk b.idToKey (dataOf b.arena)) (h : Effect b cmd b' evs)
    (hx : dataOf b.arena k = some x) (hfresh : ∀ seq ∈ cmd.newOrderSeq, x.id ≠ ⟨seq⟩) {seq : UInt64}
    (hin : .cancelled seq x.id ∈ evs) : cmd.cmd.owner = some x.account := by
  cases h with
  | newOrder hc h =>
    rw [hc, InboundCommand.owner, Valid.applied_cancelled hb hids.inj h hx (hfresh _ (newOrderSeq_of_newOrder hc)) hin]
  | notCancelled => cases List.mem_singleton.mp hin
  | cancelled hc hk hro =>
    cases List.mem_singleton.mp hin
    obtain ⟨y, hy, hyid⟩ := (hids _ _).mp hk
    have hxy := dataOf_of_get? hro
    rw [hids.inj hy hx hyid, hx] at hxy
    rw [hc, InboundCommand.owner, Option.some.inj hxy]
    rfl
  | idle => exact absurd hin List.not_mem_nil

/-- To an older order of another account, a command does what it trades. -/
theorem Valid.effect_onlyTraded (hb : Valid c b Q) (hids : IdsOk b.idToKey (dataOf b.arena)) (h : Effect b cmd b' evs)
    (hfresh : ∀ seq ∈ cmd.newOrderSeq, RestsAt (dataOf b.arena) ⟨seq⟩ none) (hx : dataOf b.arena k = some x)
    (hother : cmd.cmd.owner ≠ some x.account) : x.OnlyTraded evs b'.live := by
  have hid : ∀ seq ∈ cmd.newOrderSeq, x.id ≠ ⟨seq⟩ := fun seq hseq => hfresh seq hseq k x hx
  obtain ⟨n, hn, hmoves⟩ := hb.effect_moves hids.inj h hfresh hid (x := some x.qty.raw.toNat) ⟨k, x, hx, rfl, rfl⟩
  -- what rests of it afterwards
  have hrests : ∀ m, RestsAt (dataOf b'.arena) x.id (some m) → m + tradedOf x.id evs = x.qty.raw.toNat →
      x.OnlyTraded evs b'.live := by
    rintro m ⟨j, z, hz, hzid, rfl⟩ hsum
    refine .inr ⟨z, mem_live_iff.mpr ⟨j, hz⟩, ?_, hsum⟩
    rcases hb.effect_live h hz with ⟨i, y, hy, hrest⟩ | ⟨o, hc, hrest⟩
    · have hyx : y = x := DistinctIds.eq hids.inj hy hx (by rw [← hzid, hrest])
      rw [← hyx]
      exact hrest
    · rw [hrest] at hzid
      exact absurd hzid.symm (hid _ (newOrderSeq_of_newOrder hc))
  have hsum := tradedOf_eq_used x.id evs
  generalize hs : story x.id evs = notes at hmoves hsum
  cases hmoves with
  | same => exact hrests _ hn (by rw [hsum]; rfl)
  | part hadd => exact hrests _ hn (by rw [hsum]; exact (Nat.add_comm _ _).trans hadd)
  | full => exact .inl hsum
  | cancel =>
    have hin : Note.cancel ∈ story x.id evs := by rw [hs]; exact List.mem_cons_self
    obtain ⟨e, he, hnote⟩ := List.mem_filterMap.mp hin
    obtain ⟨seq, rfl⟩ := eq_cancelled_of_note hnote
    exact absurd (Valid.effect_cancelled hb hids h hx hid he) hother

variable {env : Env} {e e' : MatchingEngine M K}

/-- To a resting order of another account an engine does no more than trade. -/
theorem engine_isolates (hb : Valid c e.book Q) (hids : IdsOk e.book.idToKey (dataOf e.book.arena))
    (hfresh : ∀ seq ∈ cmd.newOrderSeq, RestsAt (dataOf e.book.arena) ⟨seq⟩ none)
    (h : e.handleCommand env cmd = some e') (hx : x ∈ e.book.live) :
    (∃ evs, (evs = [] ∨ e.book.apply cmd = some (e'.book, evs)) ∧ x.OnlyTraded evs e'.book.live) ∨
      cmd.cmd.owner = some x.account := by
  obtain ⟨k, hk⟩ := mem_live_iff.mp hx
  by_cases hother : cmd.cmd.owner = some x.account
  · exact .inr hother
  rcases handleCommand_book h with hbook | ⟨evs, happly, -⟩ | ⟨symbol, account, hc, hcancel⟩
  · rw [hbook]
    exact .inl ⟨[], .inl rfl, onlyTraded_of_mem hx⟩
  · exact .inl ⟨evs, .inr happly, Valid.effect_onlyTraded hb hids (hb.effect happly).1 hfresh hk hother⟩
  · obtain ⟨b', hb', hclears⟩ := hb.clears hids cmd account
    rw [← cancelAll_book env cmd account e, hcancel] at hb'
    cases hb'
    obtain ⟨o, ho, rfl⟩ := get?_of_dataOf hk
    rw [hc] at hother
    obtain ⟨next, prev, hkept⟩ := hclears.kept k o ho fun e => hother (congrArg some e.symm)
    have hdata : dataOf e'.book.arena k = some o.data := dataOf_of_get? (o := { o with next, prev }) hkept
    exact .inl ⟨[], .inl rfl, onlyTraded_of_mem (mem_live_iff.mpr ⟨k, hdata⟩)⟩

end Command

/-! ## Runs -/

variable {x x₀ : Venue M K} {envs : Nat → Env} {initialSeq : UInt64} {n : Nat} {config : SequencerConfig}
  {P : InboundCommand → Prop}

/-- What waits in the queues or has been dispatched has `P`. -/
def Queued (P : InboundCommand → Prop) (s : Sequencer) : Prop :=
  (∀ cmds ∈ s.gwInbound, ∀ cmd ∈ cmds, P cmd) ∧ ∀ d ∈ s.dispatched, P d.2.cmd

theorem dispatch_some {s s' : Sequencer} {t : Tick} {queue : Nat} {cmd : InboundCommand}
    (h : s.dispatch t queue cmd = some s') :
    s'.gwInbound = s.gwInbound ∧ ∃ d, s'.dispatched = s.dispatched ++ [d] ∧ d.2.cmd = cmd := by
  simp only [Sequencer.dispatch, Option.bind_eq_bind, Option.bind_eq_some_iff] at h
  obtain ⟨me, -, h⟩ := h
  cases h
  split
  all_goals exact ⟨rfl, (queue, { term := t.term, seq := s.seq + 1, tsNs := t.tsNs, cmd }), rfl, rfl⟩

theorem step_queued {s s' : Sequencer} {a : Sequencer.Action} (h : Queued P s) (e : s.step a = some s')
    (ha : ∀ queue cmd, a = .arrive queue cmd → P cmd) : Queued P s' := by
  cases a with
  | arrive queue cmd =>
    cases e
    refine ⟨forall_modify h.1 queue fun cmds hcmds => ?_, h.2⟩
    exact List.forall_mem_append.mpr ⟨hcmds, List.forall_mem_singleton.mpr (ha queue cmd rfl)⟩
  | iterate t =>
    simp only [Sequencer.step, Sequencer.iterate] at e
    repeat' split at e
    · cases e
    · cases e
      exact h
    · rename_i queue cmd s₁ hpoll
      obtain ⟨⟨rest, hqueue⟩, rfl⟩ := pollInbound_some hpoll
      obtain ⟨hgw, d, hdisp, hd⟩ := dispatch_some e
      refine ⟨?_, ?_⟩
      · rw [hgw]
        exact forall_modify h.1 queue fun cmds hcmds cmd' hcmd' => hcmds cmd' (List.mem_of_mem_tail hcmd')
      · rw [hdisp]
        refine List.forall_mem_append.mpr ⟨h.2, List.forall_mem_singleton.mpr ?_⟩
        rw [hd]
        exact h.1 _ (List.mem_of_getElem? hqueue) cmd List.mem_cons_self
    · cases e
      exact h

theorem stepEngine_sequencer (env : Env) (x : Venue M K) (i : Nat) (riskWrites : AccountRiskTable → AccountRiskTable) :
    (x.stepEngine env i riskWrites).sequencer = x.sequencer := by
  simp only [Venue.stepEngine]
  repeat' split
  all_goals rfl

theorem run_queued {actions : List Venue.Action} (h : Queued P x.sequencer)
    (hP : ∀ queue cmd, .sequencer (.arrive queue cmd) ∈ actions → P cmd) : Queued P (x.run envs actions).sequencer := by
  induction actions generalizing x with
  | nil => exact h
  | cons a actions ih =>
    refine ih ?_ fun queue cmd hin => hP queue cmd (List.mem_cons_of_mem a hin)
    cases a with
    | sequencer a =>
      simp only [Venue.step]
      cases e : x.sequencer.step a with
      | none => exact h
      | some s' => exact step_queued h e fun queue cmd ha => hP queue cmd (ha ▸ List.mem_cons_self)
    | engine i riskWrites =>
      rw [Venue.step, stepEngine_sequencer]
      exact h

/-- The numbers of the new orders among them. -/
def newSeqs (hs : List (Handled M K)) : List UInt64 := (hs.map Handled.cmd).filterMap SequencedCommand.newOrderSeq

omit [DecidableEq K] [Arena M K] in
theorem newSeqs_concat (hs : List (Handled M K)) (h : Handled M K) :
    newSeqs (hs ++ [h]) = newSeqs hs ++ h.cmd.newOrderSeq.toList := by
  rw [newSeqs, List.map_append, List.filterMap_append]
  refine congrArg (newSeqs hs ++ ·) ?_
  rw [List.map_singleton, List.filterMap_cons]
  cases h.cmd.newOrderSeq <;> rfl

/-- The commands that an engine has handled lead from an empty book to the one it
has, and those before each of them to the one it was handled with. -/
def Led (t : EngineThread M K) : Prop :=
  ∃ cfg b₀, OrderBook.new cfg = some b₀ ∧ Leads (newSeqs t.handled) b₀ t.engine.book ∧
    ∀ pre h, pre ++ [h] <+: t.handled → Leads (newSeqs pre) b₀ h.before.book

theorem Led.handle {t : EngineThread M K} (ht : Led t) {env : Env} {i : MatchingEngine.Input} {cmd : SequencedCommand}
    {after : MatchingEngine M K} (hstep : (t.engine.atInput i).handleCommand env cmd = some after) :
    Led ⟨after, t.handled ++ [⟨t.engine.atInput i, cmd, after⟩]⟩ := by
  obtain ⟨cfg, b₀, hnew, hlead, hbefore⟩ := ht
  refine ⟨cfg, b₀, hnew, ?_, fun pre h hpre => ?_⟩
  · rw [newSeqs_concat]
    exact hlead.trans (leads_handleCommand (e := t.engine.atInput i) hstep)
  · rcases List.prefix_concat_iff.mp hpre with heq | hpre
    · obtain ⟨rfl, hlast⟩ := List.append_inj' heq rfl
      obtain rfl := List.singleton_inj.mp hlast
      exact hlead
    · exact hbefore pre h hpre

theorem run_led (envs : Nat → Env) (h₀ : x₀.Start config initialSeq) (actions : List Venue.Action) :
    Fed envs initialSeq config.nSymbols (x₀.run envs actions) ∧ ∀ t ∈ (x₀.run envs actions).engines, Led t := by
  refine foldl_inv (I := fun x => Fed envs initialSeq config.nSymbols x ∧ ∀ t ∈ x.engines, Led t) ?_ ?_ actions
  · rintro x a ⟨hfed, hled⟩
    refine ⟨step_fed a hfed, ?_⟩
    cases a with
    | sequencer a => exact hled
    | engine i riskWrites =>
      simp only [Venue.step, Venue.stepEngine]
      split
      · rename_i t cmd hnext
        split
        · rename_i after hstep
          intro t' ht'
          rcases List.mem_or_eq_of_mem_set ht' with ht' | rfl
          · exact hled t' ht'
          · exact (hled t (List.mem_of_getElem? (venue_next_some hfed.counted hnext).1)).handle hstep
        · exact hled
      · exact hled
  · refine ⟨start_fed h₀, fun t ht => ?_⟩
    obtain ⟨hhandled, limits, cfg, book, risk, hnew, hengine⟩ := h₀.engines t ht
    refine ⟨cfg, book, hnew, hengine ▸ Leads.refl _ _, fun pre h hpre => ?_⟩
    rw [hhandled] at hpre
    exact absurd (List.prefix_nil.mp hpre) (List.append_ne_nil_of_right_ne_nil _ (List.cons_ne_nil _ _))

/-- The book that commands lead to whose numbers are all different, before one
more. -/
theorem leads_fresh {cfg : BookConfig} {b₀ b : OrderBook M K} {seqs : List UInt64} {cmd : SequencedCommand}
    (hnew : OrderBook.new cfg = some b₀) (hlead : Leads seqs b₀ b) (hnodup : (seqs ++ cmd.newOrderSeq.toList).Nodup) :
    ∃ c Q, Valid c b Q ∧ IdsOk b.idToKey (dataOf b.arena) ∧
      ∀ seq ∈ cmd.newOrderSeq, RestsAt (dataOf b.arena) ⟨seq⟩ none := by
  obtain ⟨cmds, evss, hrun, hsub⟩ := hlead
  obtain ⟨hseqs, -, hne⟩ := List.nodup_append.mp hnodup
  obtain ⟨Q, hb, hids⟩ := run_idsOk hnew (hseqs.sublist hsub) hrun
  refine ⟨_, Q, hb, hids, fun seq hseq k y hy hid => ?_⟩
  obtain ⟨o, ho, rfl⟩ := get?_of_dataOf hy
  have hold : o.id.raw ∈ seqs := hsub.subset ((run_onlyIds hnew hrun).arena k o ho)
  exact hne _ hold seq (Option.mem_toList.mpr hseq) (congrArg OrderId.raw hid)

/-- Whatever a command does to a resting order besides trading with it, the
command was sent by a client of the order's account, or liquidates that
account. -/
theorem client_isolation (h₀ : x₀.Start config initialSeq) {actions : List Venue.Action}
    (hqueued : ∀ cmds ∈ x₀.sequencer.gwInbound, ∀ cmd ∈ cmds, FromOutside cmd)
    (harrive : ∀ queue cmd, .sequencer (.arrive queue cmd) ∈ actions → FromOutside cmd)
    (hlt : (x₀.run envs actions).sequencer.dispatched.length < 2 ^ 64) {i : Nat} {t : EngineThread M K}
    (ht : (x₀.run envs actions).engines[i]? = some t) {h : Handled M K} (hh : h ∈ t.handled) {x : RefOrder}
    (hx : x ∈ h.before.book.live) :
    (∃ evs, (evs = [] ∨ h.before.book.apply h.cmd = some (h.after.book, evs)) ∧ x.OnlyTraded evs h.after.book.live) ∨
      SentBy x.account h.cmd.cmd ∨ ∃ symbol, h.cmd.cmd = .liquidate symbol x.account := by
  obtain ⟨hfed, hled⟩ := run_led envs h₀ actions
  obtain ⟨cfg, b₀, hnew, -, hbefore⟩ := hled t (List.mem_of_getElem? ht)
  obtain ⟨pre, post, hsplit⟩ := List.append_of_mem hh
  have hpre : pre ++ [h] <+: t.handled := ⟨post, by rw [hsplit, List.append_assoc]; rfl⟩
  have hnodup : (newSeqs (pre ++ [h])).Nodup :=
    nodup_newOrderSeqs hfed.counted.toTotalOrder hlt ((hpre.map _).trans (hfed.engines i t ht).taken)
  rw [newSeqs_concat] at hnodup
  obtain ⟨c, Q, hb, hids, hfresh⟩ := leads_fresh hnew (hbefore pre h hpre) hnodup
  obtain ⟨-, -, hstep⟩ := (hfed.engines i t ht).handled h hh
  refine (engine_isolates hb hids hfresh hstep hx).imp_right fun howner => ?_
  obtain ⟨gw, snapshots, hseq⟩ := h₀.sequencer
  have hstart : Queued FromOutside x₀.sequencer := ⟨hqueued, by rw [hseq]; exact fun d hd => absurd hd List.not_mem_nil⟩
  obtain ⟨d, hd, hcmd⟩ := List.mem_map.mp ((routed_sublist _ i).subset (hfed.mem_routed ht hh))
  have hsent : FromOutside h.cmd.cmd := hcmd ▸ (run_queued hstart harrive).2 d hd
  rcases hsent with ⟨account, hsent⟩ | ⟨symbol, account, hc⟩ | ⟨account, hc⟩
  · rw [owner_of_sentBy hsent] at howner
    cases howner
    exact .inl hsent
  · rw [hc] at howner
    cases howner
    exact .inr ⟨symbol, hc⟩
  · rw [hc] at howner
    cases howner

theorem sentBy_of_reads {account : AccountId} {f : Frame} {cmd : InboundCommand}
    (h : handleConnection (fun _ => false) [(authFrame 0 account).bytes, f.bytes] = .ok
      { session := { accountId := account, cmdProducer := [cmd], subscriptions := [] }
        readBuf := [], outbox := [], reads := [[], []] }) : SentBy account cmd :=
  ⟨_, _, _, h, rfl, List.mem_cons_self⟩

/-- Account 43 sends a cancel of an order of account 42. -/
def twoClients : Venue SlotArena SlotKey :=
  { sequencer := Sequencer.new [[demoInbound ⟨1⟩], [.cancel ⟨43⟩ ⟨1⟩]] 1 { nSymbols := 2, snapshotSchedule := .default } 0
    engines := demoVenue.engines }

def twoClientsRun : Venue SlotArena SlotKey :=
  twoClients.run (fun _ => idealEnv)
    [.sequencer (.iterate demoTick), .sequencer (.iterate demoTick), .engine 1 id, .engine 1 id]

theorem twoClients_handled :
    (twoClientsRun.engines[1]?.bind fun t => (t.handled[1]?).map fun h =>
      (h.cmd.cmd, h.before.book.live.map RefOrder.account)) = some (.cancel ⟨43⟩ ⟨1⟩, [⟨42⟩]) := by
  rfl

theorem client_isolation_demo : ∃ t h x, twoClientsRun.engines[1]? = some t ∧ h ∈ t.handled ∧
    h.cmd.cmd = .cancel ⟨43⟩ ⟨1⟩ ∧ x ∈ h.before.book.live ∧ x.account = ⟨42⟩ ∧
    ∃ evs, (evs = [] ∨ h.before.book.apply h.cmd = some (h.after.book, evs)) ∧ x.OnlyTraded evs h.after.book.live := by
  obtain ⟨t, ht, hdemo⟩ := Option.bind_eq_some_iff.mp twoClients_handled
  obtain ⟨h, hh, hdemo⟩ := Option.map_eq_some_iff.mp hdemo
  obtain ⟨hcmd, hlive⟩ := Prod.mk.inj hdemo
  obtain ⟨x, hx, hacct⟩ := List.mem_map.mp (hlive ▸ List.mem_cons_self)
  have hh := List.mem_of_getElem? hh
  have hqueued : ∀ cmds ∈ twoClients.sequencer.gwInbound, ∀ cmd ∈ cmds, FromOutside cmd :=
    List.forall_mem_cons.mpr ⟨List.forall_mem_singleton.mpr (.inl ⟨⟨42⟩, sentBy_of_reads (f := demoOrder 1) rfl⟩),
      List.forall_mem_singleton.mpr (List.forall_mem_singleton.mpr
        (.inl ⟨⟨43⟩, sentBy_of_reads (f := Proof.Gateway.demoCancel 1) rfl⟩))⟩
  have hlt : twoClientsRun.sequencer.dispatched.length < 2 ^ 64 := by
    rw [show twoClientsRun.sequencer.dispatched.length = 2 from rfl]
    decide
  have hstart : twoClients.Start { nSymbols := 2, snapshotSchedule := .default } 0 :=
    ⟨⟨_, _, rfl⟩, rfl, demoVenue_start.engines⟩
  refine ⟨t, h, x, ht, hh, hcmd, hx, hacct, (client_isolation hstart hqueued (fun queue cmd hin => by simp at hin) hlt
    ht hh hx).resolve_right ?_⟩
  rw [hcmd, hacct]
  rintro (hsent | ⟨symbol, hc⟩)
  · exact absurd (owner_of_sentBy hsent) (by decide)
  · cases hc

end Proof.Isolation

end MRE
