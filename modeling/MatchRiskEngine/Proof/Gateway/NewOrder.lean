import MatchRiskEngine.Proof.Gateway.Codec

/-!
# Decoding an order

A payload is decoded to an order exactly if it is the order's bytes
(`decodeNewOrder_eq_ok`), so that what is accepted is the documented grammar, no
two payloads become the same order, and the command that the session pushes has
the fields that were sent (`decodeNewOrder_grammar`).
-/

namespace MRE.Proof.Gateway

open MRE.Gateway

variable {account : AccountId} {payload : List UInt8} {o : NewOrder} {b : UInt8}

/-! ## Single bytes -/

theorem decodeSide_eq_some {side : Side} : decodeSide b = some side ↔ b = sideByte side := by
  constructor
  · intro h
    unfold decodeSide at h
    split at h <;> cases h <;> rfl
  · rintro rfl
    cases side <;> rfl

theorem decodeOrderType_eq_some {orderType : OrderType} :
    decodeOrderType b = some orderType ↔ b = orderTypeByte orderType := by
  constructor
  · intro h
    unfold decodeOrderType at h
    split at h <;> cases h <;> rfl
  · rintro rfl
    cases orderType <;> rfl

theorem decodeTimeInForce_eq_some {timeInForce : TimeInForce} :
    decodeTimeInForce b = some timeInForce ↔ b = timeInForceByte timeInForce := by
  constructor
  · intro h
    unfold decodeTimeInForce at h
    split at h <;> cases h <;> rfl
  · rintro rfl
    cases timeInForce <;> rfl

theorem exists_sideByte : (∃ side, b = sideByte side) ↔ b = 0 ∨ b = 1 := by
  constructor
  · rintro ⟨side, rfl⟩
    cases side
    · exact .inl rfl
    · exact .inr rfl
  · rintro (rfl | rfl)
    · exact ⟨.buy, rfl⟩
    · exact ⟨.sell, rfl⟩

theorem exists_orderTypeByte : (∃ orderType, b = orderTypeByte orderType) ↔ b = 0 ∨ b = 1 := by
  constructor
  · rintro ⟨orderType, rfl⟩
    cases orderType
    · exact .inl rfl
    · exact .inr rfl
  · rintro (rfl | rfl)
    · exact ⟨.limit, rfl⟩
    · exact ⟨.market, rfl⟩

theorem exists_timeInForceByte : (∃ timeInForce, b = timeInForceByte timeInForce) ↔ b = 0 ∨ b = 1 ∨ b = 2 := by
  constructor
  · rintro ⟨timeInForce, rfl⟩
    cases timeInForce
    · exact .inl rfl
    · exact .inr (.inl rfl)
    · exact .inr (.inr rfl)
  · rintro (rfl | rfl | rfl)
    · exact ⟨.gtc, rfl⟩
    · exact ⟨.ioc, rfl⟩
    · exact ⟨.fok, rfl⟩

/-! ## The parts of a payload -/

theorem u64OfLe_eq_zero {bs : List UInt8} (h : bs.length = 8) : u64OfLe bs = 0 ↔ ∀ b ∈ bs, b = 0 := by
  constructor
  · intro hzero b hb
    rw [← leU64_u64OfLe h, hzero] at hb
    exact List.eq_of_mem_replicate (n := 8) hb
  · intro hbs
    rw [List.eq_replicate_iff.mpr ⟨h, hbs⟩, u64OfLe, ofLeBytes_replicate]
    rfl

theorem drop_eq_getD_cons {n : Nat} (h : n < payload.length) : payload.drop n = payload.getD n 0 :: payload.drop (n + 1) := by
  rw [List.drop_eq_getElem_cons h, List.getD_eq_getElem?_getD, List.getElem?_eq_getElem h, Option.getD_some]

theorem payload_parts (h : payload.length = 35) :
    payload = slice payload 0 8 ++ (slice payload 8 16 ++ (payload.getD 16 0 :: payload.getD 17 0 ::
      (slice payload 18 26 ++ (slice payload 26 34 ++ [payload.getD 34 0])))) := by
  have hend : payload.drop 35 = [] := List.drop_eq_nil_of_le (Nat.le_of_eq h)
  rw [← hend, ← drop_eq_getD_cons (by omega), ← drop_eq_slice_append payload (by decide : 26 ≤ 34),
    ← drop_eq_slice_append payload (by decide : 18 ≤ 26), ← drop_eq_getD_cons (by omega), ← drop_eq_getD_cons (by omega),
    ← drop_eq_slice_append payload (by decide : 8 ≤ 16), ← drop_eq_slice_append payload (by decide : 0 ≤ 8), List.drop_zero]

theorem leU64_eq_iff {x : UInt64} {bs : List UInt8} (h : bs.length = 8) : leU64 x = bs ↔ x = u64OfLe bs := by
  constructor
  · rintro rfl
    rw [u64OfLe_leU64]
  · rintro rfl
    exact leU64_u64OfLe h

theorem length_encodeNewOrder (o : NewOrder) : (encodeNewOrder o).length = 35 := by
  simp only [encodeNewOrder, List.length_append, List.length_cons, List.length_nil, length_leU64]

theorem encodeNewOrder_eq_iff (h : payload.length = 35) :
    encodeNewOrder o = payload ↔ o.clientOrderId.raw = u64OfLe (slice payload 0 8) ∧
      o.instrumentId.raw = u64OfLe (slice payload 8 16) ∧ sideByte o.side = payload.getD 16 0 ∧
      orderTypeByte o.orderType = payload.getD 17 0 ∧ o.price.raw.toUInt64 = u64OfLe (slice payload 18 26) ∧
      o.qty.raw = u64OfLe (slice payload 26 34) ∧ timeInForceByte o.timeInForce = payload.getD 34 0 := by
  have hpart (a b : Nat) (hb : b ≤ 35) (hab : b - a = 8) : (slice payload a b).length = 8 := by
    rw [length_slice (by omega), hab]
  have h₁ := hpart 0 8 (by decide) rfl
  have h₂ := hpart 8 16 (by decide) rfl
  have h₃ := hpart 18 26 (by decide) rfl
  have h₄ := hpart 26 34 (by decide) rfl
  rw [← leU64_eq_iff h₁, ← leU64_eq_iff h₂, ← leU64_eq_iff h₃, ← leU64_eq_iff h₄]
  constructor
  · intro heq
    rw [payload_parts h, encodeNewOrder] at heq
    obtain ⟨hclient, heq⟩ := List.append_inj heq (by rw [length_leU64, h₁])
    obtain ⟨hinstrument, heq⟩ := List.append_inj heq (by rw [length_leU64, h₂])
    obtain ⟨hside, heq⟩ := List.cons_eq_cons.mp heq
    obtain ⟨htype, heq⟩ := List.cons_eq_cons.mp heq
    obtain ⟨hprice, heq⟩ := List.append_inj heq (by rw [length_leU64, h₃])
    obtain ⟨hqty, heq⟩ := List.append_inj heq (by rw [length_leU64, h₄])
    exact ⟨hclient, hinstrument, hside, htype, hprice, hqty, List.head_eq_of_cons_eq heq⟩
  · rintro ⟨hclient, hinstrument, hside, htype, hprice, hqty, htif⟩
    rw [encodeNewOrder, hclient, hinstrument, hside, htype, hprice, hqty, htif, ← payload_parts h]

/-! ## Orders -/

theorem decodeNewOrder_eq_ok :
    decodeNewOrder account payload = .ok o ↔ o.accountId = account ∧ o.qty.raw ≠ 0 ∧ encodeNewOrder o = payload := by
  simp only [decodeNewOrder]
  split
  · rename_i hlen
    refine iff_of_false (by rintro ⟨⟩) fun h => hlen ?_
    rw [← h.2.2, length_encodeNewOrder]
  rename_i hlen
  rw [encodeNewOrder_eq_iff (not_not.mp hlen)]
  constructor
  · intro h
    split at h
    · cases h
    rename_i side hside
    split at h
    · cases h
    rename_i timeInForce htif
    split at h
    · cases h
    rename_i orderType htype
    split at h
    · cases h
    rename_i hqty
    cases h
    exact ⟨rfl, hqty, rfl, rfl, (decodeSide_eq_some.mp hside).symm, (decodeOrderType_eq_some.mp htype).symm, rfl, rfl,
      (decodeTimeInForce_eq_some.mp htif).symm⟩
  · rintro ⟨rfl, hqty, hclient, hinstrument, hside, htype, hprice, hqty', htif⟩
    rw [decodeSide_eq_some.mpr hside.symm, decodeTimeInForce_eq_some.mpr htif.symm, decodeOrderType_eq_some.mpr htype.symm]
    simp only [← hclient, ← hinstrument, ← hqty', ← hprice]
    rw [if_neg hqty]
    rfl

theorem isNewOrder_iff (account : AccountId) :
    IsNewOrder payload ↔ ∃ o : NewOrder, o.accountId = account ∧ o.qty.raw ≠ 0 ∧ encodeNewOrder o = payload := by
  have hbyte (h : payload.length = 35) {n : Nat} (hn : n < 35) (b : UInt8) : payload[n]? = some b ↔ payload.getD n 0 = b := by
    rw [List.getD_eq_getElem?_getD, List.getElem?_eq_getElem (by omega), Option.getD_some, Option.some.injEq]
  have hqty (h : payload.length = 35) : (∃ b ∈ slice payload 26 34, b ≠ 0) ↔ u64OfLe (slice payload 26 34) ≠ 0 := by
    rw [Ne, u64OfLe_eq_zero (by rw [length_slice (by omega)]), not_forall]
    simp only [not_forall, exists_prop]
  constructor
  · intro h
    have hlen := h.length
    have hside := h.side
    have htype := h.orderType
    have htif := h.timeInForce
    rw [hbyte hlen (by decide), hbyte hlen (by decide)] at hside htype
    rw [hbyte hlen (by decide), hbyte hlen (by decide), hbyte hlen (by decide)] at htif
    obtain ⟨side, hside⟩ := exists_sideByte.mpr hside
    obtain ⟨orderType, htype⟩ := exists_orderTypeByte.mpr htype
    obtain ⟨timeInForce, htif⟩ := exists_timeInForceByte.mpr htif
    refine ⟨
      { accountId := account, instrumentId := ⟨u64OfLe (slice payload 8 16)⟩, clientOrderId := ⟨u64OfLe (slice payload 0 8)⟩
        side, price := ⟨(u64OfLe (slice payload 18 26)).toInt64⟩, orderType, qty := ⟨u64OfLe (slice payload 26 34)⟩
        timeInForce }, rfl, (hqty hlen).mp h.qty, ?_⟩
    exact (encodeNewOrder_eq_iff hlen).mpr ⟨rfl, rfl, hside.symm, htype.symm, rfl, rfl, htif.symm⟩
  · rintro ⟨o, -, hne, rfl⟩
    have hlen := length_encodeNewOrder o
    obtain ⟨-, -, hside, htype, -, hq, htif⟩ := (encodeNewOrder_eq_iff (o := o) hlen).mp rfl
    refine ⟨hlen, ?_, ?_, ?_, ?_⟩
    · rw [hbyte hlen (by decide), hbyte hlen (by decide)]
      exact exists_sideByte.mp ⟨_, hside.symm⟩
    · rw [hbyte hlen (by decide), hbyte hlen (by decide)]
      exact exists_orderTypeByte.mp ⟨_, htype.symm⟩
    · rw [hbyte hlen (by decide), hbyte hlen (by decide), hbyte hlen (by decide)]
      exact exists_timeInForceByte.mp ⟨_, htif.symm⟩
    · rw [hqty hlen, ← hq]
      exact hne

/-! ## The session -/

/-- An instrument whose number has 16 bits keeps it as its symbol. -/
theorem tryFrom_new_ok (h : o.instrumentId.raw.toNat < 65536) :
    ∃ cmd : InboundNewOrder, InboundCommand.tryFrom (.new o) = .ok (.newOrder cmd) ∧ cmd.SameFields o := by
  have hsymbol : Symbol.tryFrom o.instrumentId = .ok ⟨o.instrumentId.raw.toUInt16⟩ := if_pos h
  simp only [InboundCommand.tryFrom, hsymbol]
  refine ⟨_, rfl, rfl, rfl, ?_, rfl, rfl, rfl, rfl, rfl⟩
  rw [UInt64.toNat_toUInt16]
  exact Nat.mod_eq_of_lt h

theorem tryFrom_new_error (h : ¬ o.instrumentId.raw.toNat < 65536) :
    InboundCommand.tryFrom (.new o) = .error (.symbolOutOfRange ⟨o.instrumentId⟩) := by
  have hsymbol : Symbol.tryFrom o.instrumentId = .error ⟨o.instrumentId⟩ := if_neg h
  simp only [InboundCommand.tryFrom, hsymbol]

/-- A `NEW_ORDER` frame is decoded and its order is pushed. -/
theorem dispatchFrame_newOrder (full : List InboundCommand → Bool) (s : Session) {f : Frame}
    (htype : f.msgType = MsgType.newOrder) (hdec : decodeNewOrder s.accountId f.payload = .ok o) :
    s.dispatchFrame full f = (s.enqueue full (.new o)).map (·, none) := by
  rw [Session.dispatchFrame, if_pos htype, hdec]
  show (do let s ← s.enqueue full (.new o); return (s, none)) = _
  cases s.enqueue full (.new o) <;> rfl

/-- `decode_new_order` accepts exactly the documented grammar, and what it accepts
is the order's bytes. If the instrument's number has 16 bits, the session
pushes the order with every field as it was sent, if the queue has room. If not, the
session reports an error, and the connection is closed as it was. -/
theorem decodeNewOrder_grammar (account : AccountId) (payload : List UInt8) :
    ((∃ o, decodeNewOrder account payload = .ok o) ↔ IsNewOrder payload) ∧
      ∀ o, decodeNewOrder account payload = .ok o → encodeNewOrder o = payload ∧
        ∀ (full : List InboundCommand → Bool) (c : Connection) (f : Frame) (rest : List UInt8), c.session.accountId = account →
          f = { msgType := MsgType.newOrder, payload } → c.readBuf = f.bytes ++ rest →
          (o.instrumentId.raw.toNat < 65536 → ∃ cmd : InboundNewOrder, cmd.SameFields o ∧
            c.session.handleInbound full c.readBuf =
              if full c.session.cmdProducer then .error .queueFull
              else .ok ({ c.session with cmdProducer := c.session.cmdProducer ++ [.newOrder cmd] }, rest, none)) ∧
          (65536 ≤ o.instrumentId.raw.toNat →
            c.session.handleInbound full c.readBuf = .error (.unsupportedCommand (.symbolOutOfRange ⟨o.instrumentId⟩)) ∧
              ∀ fuel, c.drain full (fuel + 1) = (c, false)) := by
  refine ⟨?_, fun o hdec => ⟨(decodeNewOrder_eq_ok.mp hdec).2.2, ?_⟩⟩
  · rw [isNewOrder_iff account]
    simp only [decodeNewOrder_eq_ok]
  intro full c f rest haccount hf hbuf
  have hlen : payload.length = 35 := by
    rw [← (decodeNewOrder_eq_ok.mp hdec).2.2, length_encodeNewOrder]
  have hfits : f.Fits := by
    rw [hf]
    show 1 + payload.length ≤ 65536
    omega
  have hdispatch := dispatchFrame_newOrder full c.session (f := f) (by rw [hf]) (o := o) (by rw [hf, haccount]; exact hdec)
  have hinbound : c.session.handleInbound full c.readBuf =
      (c.session.enqueue full (.new o)).map fun s => (s, rest, none) := by
    rw [Session.handleInbound, hbuf, decode_bytes hfits]
    simp only [hdispatch]
    cases c.session.enqueue full (.new o) <;> rfl
  rw [hinbound]
  constructor
  · intro hinstrument
    obtain ⟨cmd, hcmd, hsame⟩ := tryFrom_new_ok hinstrument
    refine ⟨cmd, hsame, ?_⟩
    simp only [Session.enqueue, hcmd]
    cases full c.session.cmdProducer <;> rfl
  · intro hinstrument
    have herror : c.session.enqueue full (.new o) = .error (.unsupportedCommand (.symbolOutOfRange ⟨o.instrumentId⟩)) := by
      simp only [Session.enqueue, tryFrom_new_error (Nat.not_lt.mpr hinstrument)]
    rw [herror] at hinbound ⊢
    refine ⟨rfl, fun fuel => ?_⟩
    rw [Connection.drain, hinbound]
    rfl

/-- Sell 5 at -100, or cancel. -/
def demoSell (instrument : UInt64) : NewOrder :=
  { accountId := ⟨42⟩, instrumentId := ⟨instrument⟩, clientOrderId := ⟨9⟩, side := .sell, price := ⟨-100⟩
    orderType := .limit, qty := ⟨5⟩, timeInForce := .ioc }

def sellFrame (instrument : UInt64) : Frame :=
  { msgType := MsgType.newOrder, payload := encodeNewOrder (demoSell instrument) }

/-- A connection that has received the order. -/
def sellConnection (instrument : UInt64) : Connection :=
  { session := Session.new ⟨42⟩, readBuf := (sellFrame instrument).bytes ++ [], outbox := [], reads := [] }

theorem decodeNewOrder_sell (instrument : UInt64) :
    decodeNewOrder ⟨42⟩ (encodeNewOrder (demoSell instrument)) = .ok (demoSell instrument) :=
  decodeNewOrder_eq_ok.mpr ⟨rfl, (by decide : (5 : UInt64) ≠ 0), rfl⟩

/-- Instrument 7 is taken, and instrument 65536 is not. -/
theorem decodeNewOrder_grammar_sell :
    IsNewOrder (encodeNewOrder (demoSell 7)) ∧
      (∃ cmd : InboundNewOrder, cmd.SameFields (demoSell 7) ∧
        (Session.new ⟨42⟩).handleInbound (fun _ => false) (sellConnection 7).readBuf =
          .ok ({ Session.new ⟨42⟩ with cmdProducer := [.newOrder cmd] }, [], none)) ∧
      (sellConnection 65536).drain (fun _ => false) 1 = (sellConnection 65536, false) := by
  obtain ⟨hgrammar, hseven⟩ := decodeNewOrder_grammar ⟨42⟩ (encodeNewOrder (demoSell 7))
  obtain ⟨-, hlarge⟩ := decodeNewOrder_grammar ⟨42⟩ (encodeNewOrder (demoSell 65536))
  have htaken := ((hseven _ (decodeNewOrder_sell 7)).2 (fun _ => false) (sellConnection 7) (sellFrame 7) [] rfl rfl rfl).1
    (by decide)
  have hrefused := ((hlarge _ (decodeNewOrder_sell 65536)).2 (fun _ => false) (sellConnection 65536) (sellFrame 65536) [] rfl
    rfl rfl).2 (by decide)
  exact ⟨hgrammar.mp ⟨_, decodeNewOrder_sell 7⟩, htaken, hrefused.2 0⟩

end MRE.Proof.Gateway
