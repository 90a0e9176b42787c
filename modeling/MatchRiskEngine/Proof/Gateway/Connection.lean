import Mathlib.Data.List.Forall2
import MatchRiskEngine.Proof.Gateway.Codec

/-!
# Serving a connection

The loop that serves a connection dispatches one frame for each read of the
socket. So it keeps up with a stream, whose orders then reach the queue one for
one, exactly if no read completes two order frames (`handleConnection_iff`).

* `Pending`: the frames that are still to be dispatched, in the buffer or not
  yet received;
* `serve_iff`: the loop, from any state of the buffer;
* `readAuthFrame_ok`: the frame that opens the connection, after which the
  buffer may already hold orders.
-/

namespace MRE.Proof.Gateway

open MRE.Gateway

variable {full : List InboundCommand → Bool} {account : AccountId} {frames : List Frame} {cmds : List InboundCommand}
  {tail : List UInt8}

/-! ## What is still to be dispatched -/

/-- The buffer and the bytes not yet received are these frames, and then an
incomplete one. -/
structure Pending (account : AccountId) (frames : List Frame) (cmds : List InboundCommand)
    (tail buf rest : List UInt8) : Prop where
  carries : List.Forall₂ (Carries account) frames cmds
  incomplete : Incomplete tail
  stream : buf ++ rest = (frames.map Frame.bytes).flatten ++ tail

namespace Pending

variable {buf rest : List UInt8}

theorem read {chunk : List UInt8} (h : Pending account frames cmds tail buf (chunk ++ rest)) :
    Pending account frames cmds tail (buf ++ chunk) rest :=
  ⟨h.carries, h.incomplete, by rw [List.append_assoc, h.stream]⟩

/-- At the end of the stream all frames are in the buffer. -/
theorem completeIn_end (h : Pending account frames cmds tail buf []) :
    completeIn (frames.map Frame.bytes) buf.length = cmds.length := by
  have hlen := congrArg List.length h.stream
  rw [List.append_nil, List.length_append] at hlen
  rw [completeIn_of_le (by omega), List.length_map, h.carries.length_eq]

/-- Either the frame at the front is complete, or there is none. -/
theorem cases (h : Pending account frames cmds tail buf rest) :
    (Incomplete buf ∧ completeIn (frames.map Frame.bytes) buf.length = 0) ∨
      ∃ f fs cmd cmds' buf', frames = f :: fs ∧ cmds = cmd :: cmds' ∧ buf = f.bytes ++ buf' ∧ Carries account f cmd ∧
        Pending account fs cmds' tail buf' rest := by
  obtain ⟨hcarries, htail, hstream⟩ := h
  cases hcarries with
  | nil =>
    rw [List.map_nil, List.flatten_nil, List.nil_append] at hstream
    exact Or.inl ⟨incomplete_of_append (hstream ▸ htail), rfl⟩
  | @cons f cmd fs cmds' hf hfs =>
    rw [List.map_cons, List.flatten_cons, List.append_assoc] at hstream
    by_cases hlen : f.bytes.length ≤ buf.length
    · obtain ⟨buf', hbuf, hstream'⟩ := exists_rest_of_le hstream hlen
      exact Or.inr ⟨f, fs, cmd, cmds', buf', rfl, rfl, hbuf, hf, hfs, htail, hstream'⟩
    · have hlt := Nat.not_le.mp hlen
      exact Or.inl ⟨incomplete_of_lt (fits_of_carries hf) hstream hlt, completeIn_cons_of_lt hlt _⟩

theorem incomplete_iff (h : Pending account frames cmds tail buf rest) :
    Incomplete buf ↔ completeIn (frames.map Frame.bytes) buf.length = 0 := by
  obtain ⟨hinc, h0⟩ | ⟨f, fs, cmd, cmds', buf', rfl, rfl, rfl, hf, -⟩ := h.cases
  · exact iff_of_true hinc h0
  · have hle : f.bytes.length ≤ (f.bytes ++ buf').length := by
      rw [List.length_append]
      omega
    refine iff_of_false (fun hinc => ?_) ?_
    · rw [Incomplete, decode_bytes (fits_of_carries hf)] at hinc
      cases hinc
    · rw [List.map_cons, completeIn_cons_of_le hle]
      omega

end Pending

/-! ## Dispatching a frame -/

theorem enqueue_ok (hfull : ∀ q, full q = false) {s : Session} {cmd : Command} {inbound : InboundCommand}
    (h : InboundCommand.tryFrom cmd = .ok inbound) :
    s.enqueue full cmd = .ok { s with cmdProducer := s.cmdProducer ++ [inbound] } := by
  rw [Session.enqueue, h]
  exact if_neg (by rw [hfull]; exact Bool.false_ne_true)

theorem dispatchFrame_ok (hfull : ∀ q, full q = false) {s : Session} {f : Frame} {cmd : InboundCommand}
    (h : Carries s.accountId f cmd) :
    s.dispatchFrame full f = .ok ({ s with cmdProducer := s.cmdProducer ++ [cmd] }, none) := by
  cases h with
  | newOrder type decoded converted =>
    rw [Session.dispatchFrame, if_pos type, decoded]
    show (do let s ← s.enqueue full _; return (s, none)) = _
    rw [enqueue_ok hfull converted]
    rfl
  | cancelOrder type decoded converted =>
    rw [Session.dispatchFrame, type, if_neg (by decide), if_pos rfl, decoded]
    show (do let s ← s.enqueue full _; return (s, none)) = _
    rw [enqueue_ok hfull converted]
    rfl

variable {c : Connection}

/-- The inner loop stops at once if no frame is complete. -/
theorem drain_incomplete (h : Incomplete c.readBuf) (n : Nat) : c.drain full (n + 1) = (c, true) := by
  rw [Connection.drain, Session.handleInbound, show Codec.decode c.readBuf = (.ok none, c.readBuf) from h]

theorem handleInbound_frame (hfull : ∀ q, full q = false) {s : Session} {f : Frame} {cmd : InboundCommand}
    (h : Carries s.accountId f cmd) (buf : List UInt8) :
    s.handleInbound full (f.bytes ++ buf) = .ok ({ s with cmdProducer := s.cmdProducer ++ [cmd] }, buf, none) := by
  rw [Session.handleInbound, decode_bytes (fits_of_carries h)]
  dsimp only
  rw [dispatchFrame_ok hfull h]
  rfl

theorem drain_frame (hfull : ∀ q, full q = false) {f : Frame} {cmd : InboundCommand}
    {buf : List UInt8} (h : Carries c.session.accountId f cmd) (hbuf : c.readBuf = f.bytes ++ buf) (n : Nat) :
    c.drain full (n + 1) =
      ({ c with session := { c.session with cmdProducer := c.session.cmdProducer ++ [cmd] }, readBuf := buf }, true) := by
  rw [Connection.drain, hbuf, handleInbound_frame hfull h]

/-- After the inner loop a frame that was complete has been dispatched, and
everything else is still pending. -/
theorem drain_pending (hfull : ∀ q, full q = false) {rest : List UInt8}
    (h : Pending c.session.accountId frames cmds tail c.readBuf rest) (n : Nat) :
    ∃ (c' : Connection) (frames' : List Frame) (cmds' : List InboundCommand) (k : Nat),
      c.drain full (n + 1) = (c', true) ∧ c'.reads = c.reads ∧
      c'.session.cmdProducer ++ cmds' = c.session.cmdProducer ++ cmds ∧
      Pending c'.session.accountId frames' cmds' tail c'.readBuf rest ∧
      (∀ j, completeIn (frames.map Frame.bytes) (c.readBuf.length + j) =
        k + completeIn (frames'.map Frame.bytes) (c'.readBuf.length + j)) ∧
      k ≤ 1 ∧ (k = 0 → completeIn (frames'.map Frame.bytes) c'.readBuf.length = 0) := by
  obtain ⟨hinc, h0⟩ | ⟨f, fs, cmd, cmds', buf', rfl, rfl, hbuf, hf, h'⟩ := h.cases
  · refine ⟨c, frames, cmds, 0, drain_incomplete hinc n, rfl, rfl, h, ?_, by omega, fun _ => h0⟩
    intro j
    rw [Nat.zero_add]
  · refine ⟨_, fs, cmds', 1, drain_frame hfull hf hbuf n, rfl, ?_, h', ?_, by omega, by omega⟩
    · simp only [List.append_assoc, List.singleton_append]
    · intro j
      have hlen : c.readBuf.length = f.bytes.length + buf'.length := by rw [hbuf, List.length_append]
      rw [List.map_cons, completeIn_cons_of_le (by omega), hlen, Nat.add_assoc, Nat.add_sub_cancel_left, Nat.add_comm]

/-! ## The loop -/

theorem serve_nil {c c' : Connection} (h : c.drain full (c.readBuf.length + 1) = (c', true)) :
    c.serve full [] = { c' with reads := c'.reads ++ [c'.readBuf] } := by
  rw [Connection.serve, h]

theorem serve_cons {c c' : Connection} (h : c.drain full (c.readBuf.length + 1) = (c', true)) {chunk : List UInt8}
    (hchunk : chunk ≠ []) (rest : List (List UInt8)) :
    c.serve full (chunk :: rest) =
      Connection.serve full { c' with reads := c'.reads ++ [c'.readBuf], readBuf := c'.readBuf ++ chunk } rest := by
  rw [Connection.serve, h]
  exact if_neg hchunk

variable {chunks : List (List UInt8)}

/-- The loop from any state of the buffer. Its `reads` are what the buffer held
when the loop went back to the socket. -/
theorem serve_iff (hfull : ∀ q, full q = false) (hchunks : ∀ c ∈ chunks, c ≠ [])
    (h : Pending c.session.accountId frames cmds tail c.readBuf chunks.flatten) :
    ∃ reads, (c.serve full chunks).reads = c.reads ++ reads ∧
      ((c.serve full chunks).session.cmdProducer = c.session.cmdProducer ++ cmds ∧ (∀ buf ∈ reads, Incomplete buf) ↔
        completeIn (frames.map Frame.bytes) c.readBuf.length ≤ 1 ∧
          OnePerRead (completeIn (frames.map Frame.bytes)) c.readBuf.length chunks) := by
  induction chunks generalizing c frames cmds with
  | nil =>
    obtain ⟨c', frames', cmds', k, hdrain, hreads, hqueue, h', hcount, hk, hk0⟩ :=
      drain_pending hfull h c.readBuf.length
    have h0 := hcount 0
    have hend := h'.completeIn_end
    refine ⟨[c'.readBuf], ?_⟩
    rw [serve_nil hdrain, ← hqueue, hreads]
    refine ⟨rfl, ?_⟩
    simp only [List.self_eq_append_right, ← List.length_eq_zero_iff, List.mem_singleton, forall_eq, h'.incomplete_iff,
      OnePerRead, and_true]
    simp only [Nat.add_zero] at h0
    omega
  | cons chunk rest ih =>
    obtain ⟨c', frames', cmds', k, hdrain, hreads, hqueue, h', hcount, hk, hk0⟩ :=
      drain_pending hfull h c.readBuf.length
    have h0 := hcount 0
    obtain ⟨reads, hr, hiff⟩ := ih (fun c hc => hchunks c (List.mem_cons_of_mem _ hc))
      (c := { c' with reads := c'.reads ++ [c'.readBuf], readBuf := c'.readBuf ++ chunk }) h'.read
    refine ⟨c'.readBuf :: reads, ?_⟩
    rw [serve_cons hdrain (hchunks chunk List.mem_cons_self), ← hqueue, hr, OnePerRead.congr hcount, ← hreads]
    refine ⟨List.append_assoc _ _ _, ?_⟩
    rw [List.forall_mem_cons, and_left_comm, hiff, h'.incomplete_iff, OnePerRead, List.length_append, ← and_assoc,
      ← and_assoc]
    simp only [Nat.add_zero] at h0
    exact and_congr_left' (by omega)

/-! ## The frame that opens a connection -/

theorem readAuthFrame_complete (type : UInt8) (account : AccountId) (buf : List UInt8) (chunks : List (List UInt8)) :
    readAuthFrame ((authFrame type account).bytes ++ buf) chunks = .ok (account, buf, chunks) := by
  rw [readAuthFrame, decode_bytes (fits_authFrame type account)]
  show (if (leU64 account.raw).length ≠ 8 then _ else Except.ok (AccountId.mk (u64OfLe (leU64 account.raw)), buf, chunks)) = _
  rw [if_neg (not_not.mpr (length_leU64 _)), u64OfLe_leU64]

/-- The handshake reads until the opening frame is complete. The chunk that
completes it is the first that can complete an order. -/
theorem readAuthFrame_ok (type : UInt8) (account : AccountId) {count : Nat → Nat} (hcount : count 0 = 0)
    (hchunks : ∀ c ∈ chunks, c ≠ []) {buf s : List UInt8}
    (hs : buf ++ chunks.flatten = (authFrame type account).bytes ++ s)
    (hbuf : buf.length < (authFrame type account).bytes.length) :
    ∃ buf' rest, readAuthFrame buf chunks = .ok (account, buf', rest) ∧ (∀ c ∈ rest, c ≠ []) ∧
      buf' ++ rest.flatten = s ∧
      (OnePerRead (fun n => count (n - (authFrame type account).bytes.length)) buf.length chunks ↔
        count buf'.length ≤ 1 ∧ OnePerRead count buf'.length rest) := by
  induction chunks generalizing buf with
  | nil =>
    have hlen := congrArg List.length hs
    rw [List.flatten_nil, List.append_nil, List.length_append] at hlen
    omega
  | cons chunk rest ih =>
    have hrest : ∀ c ∈ rest, c ≠ [] := fun c hc => hchunks c (List.mem_cons_of_mem _ hc)
    have hs' : buf ++ chunk ++ rest.flatten = (authFrame type account).bytes ++ s := by
      rw [List.append_assoc, ← hs, List.flatten_cons]
    have hread : readAuthFrame buf (chunk :: rest) = readAuthFrame (buf ++ chunk) rest := by
      have hinc : Codec.decode buf = (.ok none, buf) := incomplete_of_lt (fits_authFrame type account) hs hbuf
      rw [readAuthFrame, hinc]
      exact if_neg (hchunks chunk List.mem_cons_self)
    rw [hread]
    simp only [OnePerRead, Nat.sub_eq_zero_of_le (Nat.le_of_lt hbuf), hcount]
    by_cases hlen : (buf ++ chunk).length < (authFrame type account).bytes.length
    · obtain ⟨buf', rest', hok, hrest', hs'', hiff⟩ := ih hrest hs' hlen
      refine ⟨buf', rest', hok, hrest', hs'', ?_⟩
      rw [← List.length_append, Nat.sub_eq_zero_of_le (Nat.le_of_lt hlen), hcount, hiff]
      exact and_iff_right (by omega)
    · obtain ⟨buf', hbuf', hs''⟩ := exists_rest_of_le hs' (Nat.not_lt.mp hlen)
      refine ⟨buf', rest, ?_, hrest, hs'', ?_⟩
      · rw [hbuf', readAuthFrame_complete]
      · have hn : buf.length + chunk.length = (authFrame type account).bytes.length + buf'.length := by
          rw [← List.length_append, hbuf', List.length_append]
        rw [hn, Nat.add_sub_cancel_left]
        refine and_congr_right' (OnePerRead.congr (k := 0) (fun j => ?_) rest)
        rw [Nat.zero_add, Nat.add_assoc, Nat.add_sub_cancel_left]

/-! ## Whole connections -/

/-- The commands of a stream reach the queue one for one, with no complete
frame left in the buffer at any read, exactly if no read completes two
orders. -/
theorem handleConnection_iff (hfull : ∀ q, full q = false) (type : UInt8) (account : AccountId)
    (hframes : List.Forall₂ (Carries account) frames cmds) (htail : Incomplete tail) (hchunks : ∀ c ∈ chunks, c ≠ [])
    (hstream : chunks.flatten = (authFrame type account).bytes ++ ((frames.map Frame.bytes).flatten ++ tail)) :
    (∃ c, handleConnection full chunks = .ok c ∧ c.session.cmdProducer = cmds ∧ ∀ buf ∈ c.reads, Incomplete buf) ↔
      OnePerRead (ordersIn (authFrame type account) frames) 0 chunks := by
  have hzero : completeIn (frames.map Frame.bytes) 0 = 0 := by
    refine completeIn_zero fun m hm => ?_
    obtain ⟨f, -, rfl⟩ := List.mem_map.mp hm
    exact bytes_ne_nil f
  obtain ⟨buf, rest, hauth, hrest, hs, hone⟩ := readAuthFrame_ok type account hzero hchunks
    (show [] ++ chunks.flatten = _ from hstream) (by rw [length_bytes]; exact Nat.succ_pos _)
  obtain ⟨reads, hreads, hserve⟩ := serve_iff hfull hrest
    (c := { session := Session.new account, readBuf := buf, outbox := [], reads := [] }) ⟨hframes, htail, hs⟩
  have hconn : handleConnection full chunks = .ok (Connection.serve full
      { session := Session.new account, readBuf := buf, outbox := [], reads := [] } rest) := by
    rw [handleConnection, hauth]
    rfl
  have hcount : OnePerRead (ordersIn (authFrame type account) frames) 0 chunks ↔ _ := hone
  rw [hcount, ← hserve, hconn, ← show _ = reads from hreads]
  constructor
  · rintro ⟨c, hc, hq, hr⟩
    cases hc
    exact ⟨hq, hr⟩
  · rintro ⟨hq, hr⟩
    exact ⟨_, rfl, hq, hr⟩

/-- A cancel of an order of instrument 1. -/
def demoCancel (orderId : UInt64) : Frame := { msgType := MsgType.cancelOrder, payload := leU64 1 ++ leU64 orderId }

theorem carries_demoCancel (account : AccountId) (orderId : UInt64) :
    Carries account (demoCancel orderId) (.cancel account ⟨orderId⟩) := by
  have hlen : (demoCancel orderId).payload.length = 16 := by
    simp only [demoCancel, List.length_append, length_leU64]
  have hid : slice (demoCancel orderId).payload 8 16 = leU64 orderId :=
    slice_eq (s := []) (by rw [List.append_nil]; rfl) (length_leU64 1) (by rw [length_leU64])
  refine .cancelOrder (o := ⟨account, ⟨u64OfLe (slice (demoCancel orderId).payload 0 8)⟩, ⟨orderId⟩⟩) rfl ?_ rfl
  rw [decodeCancelOrder, if_neg (not_not.mpr hlen), hid, u64OfLe_leU64]

/-- Three reads, of one frame each. -/
theorem handleConnection_iff_demo :
    ∃ c, handleConnection (fun _ => false) [(authFrame 0 ⟨42⟩).bytes, (demoCancel 7).bytes, (demoCancel 8).bytes] = .ok c ∧
      c.session.cmdProducer = [.cancel ⟨42⟩ ⟨7⟩, .cancel ⟨42⟩ ⟨8⟩] ∧ ∀ buf ∈ c.reads, Incomplete buf :=
  (handleConnection_iff (fun _ => rfl) 0 ⟨42⟩
    (.cons (carries_demoCancel _ 7) (.cons (carries_demoCancel _ 8) .nil)) (show Incomplete [] from rfl) (by decide)
    (by decide)).mpr (by decide)

/-- The same frames in one read: the second order is left in the buffer, and is
lost as the peer closes the connection. -/
theorem coalesced_order_lost :
    List.Forall₂ (Carries ⟨42⟩) [demoCancel 7, demoCancel 8] [.cancel ⟨42⟩ ⟨7⟩, .cancel ⟨42⟩ ⟨8⟩] ∧
      ¬ ∃ c, handleConnection (fun _ => false)
          [(authFrame 0 ⟨42⟩).bytes ++ ((demoCancel 7).bytes ++ (demoCancel 8).bytes)] = .ok c ∧
        (c.session.cmdProducer = [.cancel ⟨42⟩ ⟨7⟩, .cancel ⟨42⟩ ⟨8⟩] ∨ ∀ buf ∈ c.reads, Incomplete buf) := by
  refine ⟨.cons (carries_demoCancel _ 7) (.cons (carries_demoCancel _ 8) .nil), ?_⟩
  rintro ⟨c, hc, h⟩
  have hrun : handleConnection (fun _ => false)
      [(authFrame 0 ⟨42⟩).bytes ++ ((demoCancel 7).bytes ++ (demoCancel 8).bytes)] = .ok
        { session := { accountId := ⟨42⟩, cmdProducer := [.cancel ⟨42⟩ ⟨7⟩], subscriptions := [] }
          readBuf := (demoCancel 8).bytes
          outbox := []
          reads := [(demoCancel 8).bytes] } := rfl
  rw [hrun, Except.ok.injEq] at hc
  subst hc
  obtain h | h := h
  · exact absurd h (by decide)
  · have hinc := h _ List.mem_cons_self
    rw [Incomplete, ← List.append_nil (demoCancel 8).bytes,
      decode_bytes (fits_of_carries (carries_demoCancel ⟨42⟩ 8))] at hinc
    cases hinc

end MRE.Proof.Gateway
