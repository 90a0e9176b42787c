import MatchRiskEngine.Proof.Gateway.Connection
import MatchRiskEngine.Proof.Sequencer.Order

/-!
# Routing what the gateway accepts

The gateway accepts every instrument whose number has 16 bits, and the sequencer
indexes its queues by it without a check. So what the gateway accepts can be
dispatched exactly if it is a cancel or its instrument is below the number of
symbols (`dispatch_accepted_iff`). A run that does not panic keeps the total order of the
commands, wherever they come from (`run_counted`).
-/

namespace MRE.Proof.Sequencing

open MRE.Gateway MRE.Sequencer

variable {s s' : Sequencer} {initialSeq : UInt64} {n : Nat}

/-! ## What is accepted -/

variable {full : List InboundCommand → Bool}

theorem enqueue_inv {s s' : Session} {cmd : Command} (h : s.enqueue full cmd = .ok s') :
    ∃ inbound, InboundCommand.tryFrom cmd = .ok inbound ∧ s'.cmdProducer = s.cmdProducer ++ [inbound] := by
  rw [Session.enqueue] at h
  split at h
  · cases h
  · rename_i inbound hconv
    split at h
    · cases h
    · cases h
      exact ⟨inbound, hconv, rfl⟩

/-- The result of a computation that goes on after its first part. -/
theorem bind_eq_ok {ε α β : Type} {x : Except ε α} {f : α → Except ε β} {r : β} (h : x >>= f = .ok r) :
    ∃ a, x = .ok a ∧ f a = .ok r := by
  cases x with
  | error e => cases h
  | ok a => exact ⟨a, rfl, h⟩

/-- An order frame that is accepted carries the command that is pushed. -/
theorem carries_of_dispatchFrame {s s' : Session} {f : Frame}
    {action : Option SessionAction} (htype : f.msgType = MsgType.newOrder ∨ f.msgType = MsgType.cancelOrder)
    (h : s.dispatchFrame full f = .ok (s', action)) :
    ∃ cmd, Carries s.accountId f cmd ∧ s'.cmdProducer = s.cmdProducer ++ [cmd] := by
  obtain htype | htype := htype
  · rw [Session.dispatchFrame, if_pos htype] at h
    obtain ⟨o, hdec, h⟩ := bind_eq_ok h
    obtain ⟨s₁, henq, h⟩ := bind_eq_ok h
    cases h
    obtain ⟨cmd, hconv, hpush⟩ := enqueue_inv henq
    exact ⟨cmd, .newOrder htype hdec hconv, hpush⟩
  · rw [Session.dispatchFrame, htype, if_neg (by decide), if_pos rfl] at h
    obtain ⟨o, hdec, h⟩ := bind_eq_ok h
    obtain ⟨s₁, henq, h⟩ := bind_eq_ok h
    cases h
    obtain ⟨cmd, hconv, hpush⟩ := enqueue_inv henq
    exact ⟨cmd, .cancelOrder htype hdec hconv, hpush⟩

theorem decodeNewOrder_instrument {account : AccountId} {payload : List UInt8} {o : NewOrder}
    (h : decodeNewOrder account payload = .ok o) : o.instrumentId = instrumentOf payload := by
  simp only [decodeNewOrder] at h
  repeat' split at h
  all_goals cases h
  rfl

theorem tryFrom_symbol {id : InstrumentId} {symbol : Symbol} (h : Symbol.tryFrom id = .ok symbol) :
    symbol.raw.toNat = id.raw.toNat := by
  rw [Symbol.tryFrom] at h
  split at h
  · rename_i hlt
    cases h
    show id.raw.toUInt16.toNat = id.raw.toNat
    rw [UInt64.toNat_toUInt16, Nat.mod_eq_of_lt hlt]
  · cases h

theorem symbolBelow_iff {account : AccountId} {f : Frame} {cmd : InboundCommand} (h : Carries account f cmd) (n : Nat) :
    cmd.SymbolBelow n ↔ f.msgType = MsgType.cancelOrder ∨ (instrumentOf f.payload).raw.toNat < n := by
  cases h with
  | @newOrder o type decoded converted =>
    rw [InboundCommand.tryFrom] at converted
    split at converted
    · cases converted
    · rename_i symbol hsymbol
      cases converted
      have hne : f.msgType ≠ MsgType.cancelOrder := by
        rw [type]
        decide
      have heq := tryFrom_symbol hsymbol
      rw [decodeNewOrder_instrument decoded] at heq
      rw [or_iff_right hne, ← heq]
      show (∀ x ∈ some symbol, x.raw.toNat < n) ↔ symbol.raw.toNat < n
      simp only [Option.mem_some_iff, forall_eq']
  | cancelOrder type decoded converted =>
    cases converted
    refine iff_of_true (fun symbol hsymbol => ?_) (Or.inl type)
    cases hsymbol

/-! ## What can be routed -/

/-- A command can be routed if the table has an entry for its symbol. -/
theorem route_eq_some_iff (me : List (List SequencedCommand)) (c : SequencedCommand) :
    (∃ me', route me c = some me') ↔ c.cmd.SymbolBelow me.length := by
  rw [route, InboundCommand.SymbolBelow]
  split
  · rename_i symbol hsymbol
    simp only [hsymbol, Option.mem_some_iff, forall_eq']
    split
    · rename_i hlt
      exact iff_of_true ⟨_, rfl⟩ hlt
    · rename_i hlt
      exact iff_of_false (by rintro ⟨_, ⟨⟩⟩) hlt
  · rename_i hsymbol
    simp only [hsymbol]
    refine iff_of_true ?_ fun symbol hmem => by cases hmem
    split <;> exact ⟨_, rfl⟩

theorem dispatch_eq_some_iff (s : Sequencer) (t : Tick) (queue : Nat) (cmd : InboundCommand) :
    (∃ s', s.dispatch t queue cmd = some s') ↔ cmd.SymbolBelow s.meInbound.length := by
  rw [← route_eq_some_iff s.meInbound { term := t.term, seq := s.seq + 1, tsNs := t.tsNs, cmd }]
  simp only [dispatch, Option.bind_eq_bind]
  cases route s.meInbound { term := t.term, seq := s.seq + 1, tsNs := t.tsNs, cmd } with
  | none => simp only [Option.bind_none, reduceCtorEq, exists_false]
  | some me => exact iff_of_true ⟨_, rfl⟩ ⟨me, rfl⟩

/-! ## Runs without a panic -/

theorem dispatch_dispatched {t : Tick} {queue : Nat} {cmd : InboundCommand} (h : s.dispatch t queue cmd = some s') :
    ∃ d, s'.dispatched = s.dispatched ++ [d] := by
  simp only [dispatch, Option.bind_eq_bind, Option.bind_eq_some_iff] at h
  obtain ⟨me, -, h⟩ := h
  cases h
  refine ⟨(queue, { term := t.term, seq := s.seq + 1, tsNs := t.tsNs, cmd }), ?_⟩
  split <;> rfl

theorem step_counted {a : Sequencer.Action} (h : Counted initialSeq n s) (e : s.step a = some s') :
    Counted initialSeq n s' ∧ ∀ i, s.routed i <+: s'.routed i := by
  cases a with
  | arrive queue cmd =>
    cases e
    exact ⟨arrive_counted h queue cmd, fun i => List.prefix_refl _⟩
  | iterate t =>
    simp only [Sequencer.step, iterate] at e
    repeat' split at e
    · cases e
    · cases e
      exact ⟨h, fun i => List.prefix_refl _⟩
    · rename_i queue cmd s₁ hpoll
      obtain ⟨⟨rest, hqueue⟩, rfl⟩ := pollInbound_some hpoll
      have hcmd : cmd.SymbolBelow n := by
        have hlen := (dispatch_eq_some_iff _ t queue cmd).mp ⟨s', e⟩
        rwa [h.engines, List.length_map, List.length_range] at hlen
      obtain ⟨s'', e', -, hcounted⟩ := dispatch_counted h hqueue ((queue + 1) % s.gwInbound.length) t hcmd
      rw [e] at e'
      cases e'
      obtain ⟨d, hd⟩ := dispatch_dispatched e
      refine ⟨hcounted, fun i => ?_⟩
      rw [routed_concat (s := s) hd i]
      exact List.prefix_append _ _
    · cases e
      exact ⟨h, fun i => List.prefix_refl _⟩

theorem run_counted {actions : List Sequencer.Action} (h : Counted initialSeq n s) (e : s.run actions = some s') :
    Counted initialSeq n s' := by
  induction actions generalizing s with
  | nil =>
    cases e
    exact h
  | cons a actions ih =>
    obtain ⟨s₁, e₁, e⟩ := Option.bind_eq_some_iff.mp e
    exact ih (step_counted h e₁).1 e

/-! ## Client input -/

/-- An order frame that is accepted can be dispatched, at any state of the
sequencer, exactly if it is a cancel or its instrument has an engine. -/
theorem dispatch_accepted_iff {config : SequencerConfig} {gw : List (List InboundCommand)} {snapshots : Nat}
    {initialSeq : UInt64} {actions : List Sequencer.Action} {s : Sequencer}
    (hs : (Sequencer.new gw snapshots config initialSeq).run actions = some s)
    {session session' : Session} {f : Frame} {action : Option SessionAction}
    (htype : f.msgType = MsgType.newOrder ∨ f.msgType = MsgType.cancelOrder)
    (haccepted : session.dispatchFrame full f = .ok (session', action)) (t : Tick) (queue : Nat) :
    ∃ cmd, session'.cmdProducer = session.cmdProducer ++ [cmd] ∧
      ((∃ s', s.dispatch t queue cmd = some s') ↔
        f.msgType = MsgType.cancelOrder ∨ (instrumentOf f.payload).raw.toNat < config.nSymbols) := by
  obtain ⟨cmd, hcarries, hpush⟩ := carries_of_dispatchFrame htype haccepted
  have hlen : s.meInbound.length = config.nSymbols := by
    rw [(run_counted (new_counted gw snapshots config initialSeq) hs).engines, List.length_map, List.length_range]
  refine ⟨cmd, hpush, ?_⟩
  rw [dispatch_eq_some_iff, hlen]
  exact symbolBelow_iff hcarries _

/-- A limit order to buy 5 at 100. -/
def demoOrder (instrument : UInt64) : Frame :=
  { msgType := MsgType.newOrder
    payload := leU64 1 ++ leU64 instrument ++ [0, 0] ++ leU64 100 ++ leU64 5 ++ [0] }

/-- The command of `demoOrder`. -/
def demoInbound (symbol : Symbol) : InboundCommand :=
  .newOrder
    { account := ⟨42⟩, clientOrderId := ⟨1⟩, symbol, side := .buy, price := ⟨100⟩, qty := ⟨5⟩, orderType := .limit,
      timeInForce := .gtc }

/-- Instrument 1 of two. -/
theorem dispatch_accepted_demo :
    ∃ session', (Session.new ⟨42⟩).dispatchFrame (fun _ => false) (demoOrder 1) = .ok (session', none) ∧
      ∃ cmd, session'.cmdProducer = [cmd] ∧ ∃ s', demoSequencer.dispatch demoTick 0 cmd = some s' := by
  have haccepted : (Session.new ⟨42⟩).dispatchFrame (fun _ => false) (demoOrder 1) =
      .ok ({ Session.new ⟨42⟩ with cmdProducer := [demoInbound ⟨1⟩] }, none) := by
    rfl
  have hrun : demoSequencer.run [] = some demoSequencer := rfl
  obtain ⟨cmd, hpush, hiff⟩ := dispatch_accepted_iff hrun (Or.inl rfl) haccepted demoTick 0
  exact ⟨_, haccepted, cmd, hpush, hiff.mpr (by decide)⟩

/-- Instrument 2 of two is accepted, and its dispatch panics. -/
theorem accepted_order_panics :
    SequencerConfig.new 2 = some { nSymbols := 2, snapshotSchedule := .default } ∧
      (Session.new ⟨42⟩).dispatchFrame (fun _ => false) (demoOrder 2) =
        .ok ({ Session.new ⟨42⟩ with cmdProducer := [demoInbound ⟨2⟩] }, none) ∧
      demoSequencer.dispatch demoTick 0 (demoInbound ⟨2⟩) = none := by
  refine ⟨rfl, ?_, ?_⟩
  · rfl
  · rfl

end MRE.Proof.Sequencing
