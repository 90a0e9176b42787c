import MatchRiskEngine.Proof.Gateway.Codec
import MatchRiskEngine.Spec.Outbound

/-!
# Frames that the gateway sends

Every frame of `encodeEventFor` is read back as what was encoded
(`encodeEventFor_frame`). For a fill that is the aggressor's leg. So an account
reads of its own order exactly if it is not the resting side of a fill
(`encodeEventFor_namesOwnOrder_iff`).

Reports and market data (`Item.frame`) are read back as what was sent
(`reportsIn_frames`, `marketDataIn_frames`), from any part of the bytes that has
arrived (`feed_arrived`).
-/

namespace MRE

open Gateway

/-- What the encoder puts in the report of an event. -/
def Event.report : Event → Option ExecReport
  | .accepted e => some (.accepted e.orderId.raw e.clientOrderId.raw (if e.side = .buy then 0 else 1) e.price.raw e.qty.raw)
  | .filled _ fill => some (fill.reportFor fill.aggressorAccountId)
  | .canceled e => some (.canceled e.orderId.raw (cancelReasonTag e.reason) e.remainingQty.raw)
  | .rejected e => some (.rejected e.clientOrderId.raw (rejectReasonTag e.reason))
  | .modified e => some (.modified e.orderId.raw e.newQty.raw (if e.newPrice.isSome then 1 else 0)
      ((e.newPrice.map Price.raw).getD 0))
  | .instrumentHalted _ _ | .instrumentResumed _ _ => none

namespace Proof.Gateway

variable {account : AccountId} {ev : Event} {out out' payload : List UInt8}

theorem decode_payload (h : execReportPayload ev = some payload) : ExecReport.decode payload = ev.report := by
  cases ev with
  | accepted e =>
    cases h
    show some (ExecReport.accepted (u64OfLe (leU64 _)) (u64OfLe (leU64 _)) _ (u64OfLe (leU64 _)).toInt64
      (u64OfLe (leU64 _))) = _
    simp only [u64OfLe_leU64]
    rfl
  | filled seq fill =>
    cases h
    show some (ExecReport.filled (u64OfLe (leU64 _)) (u64OfLe (leU64 _)).toInt64 (u64OfLe (leU64 _)) (u64OfLe (leU64 _)) 1) = _
    simp only [u64OfLe_leU64, Event.report, Fill.reportFor, if_true]
    rfl
  | canceled e =>
    cases h
    show some (ExecReport.canceled (u64OfLe (leU64 _)) _ (u64OfLe (leU64 _))) = _
    simp only [u64OfLe_leU64]
    rfl
  | rejected e =>
    cases h
    show some (ExecReport.rejected (u64OfLe (leU64 _)) _) = _
    simp only [u64OfLe_leU64]
    rfl
  | modified e =>
    cases h
    cases hprice : e.newPrice with
    | none =>
      show some (ExecReport.modified (u64OfLe (leU64 _)) (u64OfLe (leU64 _)) 0 (u64OfLe (leU64 0)).toInt64) = _
      simp only [u64OfLe_leU64, Event.report, hprice]
      rfl
    | some price =>
      show some (ExecReport.modified (u64OfLe (leU64 _)) (u64OfLe (leU64 _)) 1
        (u64OfLe (leU64 price.raw.toUInt64)).toInt64) = _
      simp only [u64OfLe_leU64, Event.report, hprice]
      rfl
  | instrumentHalted | instrumentResumed => cases h

theorem length_payload_le (h : execReportPayload ev = some payload) : payload.length ≤ 34 := by
  cases ev with
  | accepted | filled | canceled | rejected =>
    cases h
    simp only [List.length_cons, List.length_append, length_leU64, List.length_nil]
    decide
  | modified e =>
    cases h
    cases e.newPrice <;>
      simp only [List.length_cons, List.length_append, length_leU64] <;>
      decide
  | instrumentHalted | instrumentResumed => cases h

/-- A frame that is written is read back as what was encoded. -/
theorem encodeEventFor_frame (h : Session.encodeEventFor account ev out = .ok (true, out')) :
    concerns account ev ∧ ∃ frame, out' = out ++ frame ∧ ExecReport.ofFrame frame = ev.report := by
  rw [Session.encodeEventFor] at h
  split at h
  · rename_i hconcerns
    refine ⟨hconcerns, ?_⟩
    have hpayload : ∃ payload, execReportPayload ev = some payload := by
      cases ev with
      | accepted | filled | canceled | rejected | modified => exact ⟨_, rfl⟩
      | instrumentHalted | instrumentResumed => cases hconcerns
    obtain ⟨payload, hpayload⟩ := hpayload
    have hlen := length_payload_le hpayload
    have hfits : Frame.Fits { msgType := MsgType.execReport, payload } := by
      show 1 + payload.length ≤ 65536
      omega
    simp only [encodeExecReport, hpayload, encode_eq_ok hfits] at h
    cases h
    refine ⟨_, rfl, ?_⟩
    have hdecode := decode_bytes hfits []
    rw [List.append_nil] at hdecode
    simp only [ExecReport.ofFrame, hdecode, if_true, decode_payload hpayload]
  · cases h

/-- Of a fill between two accounts an account reads its own leg, exactly if its
order was not the resting one. -/
theorem encodeEventFor_namesOwnOrder_iff (account : AccountId) (ev : Event) (out out' : List UInt8)
    (h : Session.encodeEventFor account ev out = .ok (true, out')) :
    ∃ frame, out' = out ++ frame ∧ (ev.NamesOwnOrder account frame ↔ ¬ ev.Makes account) := by
  obtain ⟨hconcerns, frame, hout, hreport⟩ := encodeEventFor_frame h
  refine ⟨frame, hout, fun hown => ?_, fun hnot seq fill hev hne => ?_⟩
  · rintro ⟨seq, fill, hev, hne, hresting⟩
    have hread := hown seq fill hev hne
    rw [hreport, hev, Event.report, Option.some.injEq, Fill.reportFor, if_pos rfl, Fill.reportFor,
      if_neg (hresting ▸ Ne.symm hne)] at hread
    exact absurd (ExecReport.filled.inj hread).2.2.2.2 (by decide)
  · rw [hev] at hconcerns
    have haccount : fill.aggressorAccountId = account ∨ fill.restingAccountId = account := by
      simpa only [concerns, Bool.or_eq_true, decide_eq_true_eq] using hconcerns
    obtain haggressor | hresting := haccount
    · rw [hreport, hev, Event.report, haggressor]
    · exact absurd ⟨seq, fill, hev, hne, hresting⟩ hnot

/-- Account 1 buys 5 from account 2, whose order for 8 was resting. -/
def demoFill : Fill :=
  { instrumentId := ⟨0⟩, aggressorOrderId := ⟨12⟩, aggressorAccountId := ⟨1⟩, aggressorSide := .buy
    restingOrderId := ⟨11⟩, restingAccountId := ⟨2⟩, price := ⟨100⟩, qty := ⟨5⟩, restingRemainingQty := ⟨3⟩
    aggressorRemainingQty := ⟨0⟩ }

/-- The aggressor. -/
theorem encodeEventFor_namesOwnOrder_taker :
    ∃ frame, Session.encodeEventFor ⟨1⟩ (.filled .first demoFill) [] = .ok (true, frame) ∧
      Event.NamesOwnOrder (.filled .first demoFill) ⟨1⟩ frame := by
  have hwritten : ∃ frame, Session.encodeEventFor ⟨1⟩ (.filled .first demoFill) [] = .ok (true, frame) := ⟨_, rfl⟩
  obtain ⟨out, hout⟩ := hwritten
  obtain ⟨frame, hframe, hiff⟩ := encodeEventFor_namesOwnOrder_iff ⟨1⟩ (.filled .first demoFill) [] out hout
  rw [List.nil_append] at hframe
  refine ⟨frame, hframe ▸ hout, hiff.mpr ?_⟩
  rintro ⟨seq, fill, hev, -, hresting⟩
  cases hev
  cases hresting

/-- Account 2 reads of the order 12 of account 1. -/
theorem resting_reads_aggressor :
    ∃ frame, Session.encodeEventFor ⟨2⟩ (.filled .first demoFill) [] = .ok (true, frame) ∧
      ExecReport.ofFrame frame = some (.filled 12 100 5 0 1) ∧
      ¬ Event.NamesOwnOrder (.filled .first demoFill) ⟨2⟩ frame := by
  have hread : ∃ frame, Session.encodeEventFor ⟨2⟩ (.filled .first demoFill) [] = .ok (true, frame) ∧
      ExecReport.ofFrame frame = some (.filled 12 100 5 0 1) := ⟨_, rfl, rfl⟩
  obtain ⟨frame, hframe, hread⟩ := hread
  refine ⟨frame, hframe, hread, fun hown => ?_⟩
  have hclaimed := hown .first demoFill rfl (by decide)
  rw [hread] at hclaimed
  exact absurd hclaimed (by decide)

end Proof.Gateway

end MRE

namespace MRE.Proof.Gateway

open MRE.Gateway

/-! ## Market data -/

theorem length_quotePayload (q : Option (Price × Qty)) : (quotePayload q).length = 17 := by
  rcases q with _ | ⟨p, q⟩ <;> simp [quotePayload]

/-- Both sides of the book are read back where they stand. -/
theorem quoteOfPayload_eq (pre post : List UInt8) (q : Option (Price × Qty)) :
    quoteOfPayload (pre ++ (quotePayload q ++ post)) pre.length = q := by
  rcases q with _ | ⟨p, q⟩
  · have hflag : (pre ++ (quotePayload none ++ post)).getD pre.length 0 = 0 := by simp [quotePayload]
    rw [quoteOfPayload, if_pos hflag]
  · have hflag : (pre ++ (quotePayload (some (p, q)) ++ post)).getD pre.length 0 = 1 := by simp [quotePayload]
    have hprice : slice (pre ++ (quotePayload (some (p, q)) ++ post)) (pre.length + 1) (pre.length + 9) =
        leU64 p.raw.toUInt64 :=
      slice_eq (p := pre ++ [1]) (s := leU64 q.raw ++ post) (by simp [quotePayload]) (by simp) (by simp)
    have hqty : slice (pre ++ (quotePayload (some (p, q)) ++ post)) (pre.length + 9) (pre.length + 17) = leU64 q.raw :=
      slice_eq (p := pre ++ 1 :: leU64 p.raw.toUInt64) (s := post) (by simp [quotePayload]) (by simp) (by simp)
    rw [quoteOfPayload, if_neg (by rw [hflag]; decide), hprice, hqty, u64OfLe_leU64, u64OfLe_leU64]
    rfl

theorem length_marketDataPayload (ev : MarketDataEvent) : (marketDataPayload ev).length ≤ 43 := by
  cases ev <;> simp [marketDataPayload, length_quotePayload]

theorem ofPayload_marketDataPayload (ev : MarketDataEvent) :
    MarketDataEvent.ofPayload (marketDataPayload ev) = some ev := by
  cases ev with
  | topOfBook instrumentId bestBid bestAsk =>
    have hlen : (marketDataPayload (.topOfBook instrumentId bestBid bestAsk)).length = 43 := by
      simp [marketDataPayload, length_quotePayload]
    have hid : slice (marketDataPayload (.topOfBook instrumentId bestBid bestAsk)) 1 9 = leU64 instrumentId.raw :=
      slice_eq (p := [0]) rfl rfl (by simp)
    have hbid : quoteOfPayload (marketDataPayload (.topOfBook instrumentId bestBid bestAsk)) 9 = bestBid :=
      quoteOfPayload_eq (0 :: leU64 instrumentId.raw) (quotePayload bestAsk) bestBid
    have hask : quoteOfPayload (marketDataPayload (.topOfBook instrumentId bestBid bestAsk)) 26 = bestAsk := by
      have := quoteOfPayload_eq (0 :: (leU64 instrumentId.raw ++ quotePayload bestBid)) [] bestAsk
      simpa [length_quotePayload, marketDataPayload] using this
    simp only [MarketDataEvent.ofPayload, hlen, hid, hbid, hask, u64OfLe_leU64]
    rfl
  | trade instrumentId price qty aggressorSide =>
    show some (MarketDataEvent.trade ⟨u64OfLe (leU64 _)⟩ ⟨(u64OfLe (leU64 _)).toInt64⟩ ⟨u64OfLe (leU64 _)⟩
      (if (if aggressorSide = .buy then 0 else 1) = (0 : UInt8) then .buy else .sell)) = _
    simp only [u64OfLe_leU64]
    cases aggressorSide <;> rfl
  | haltStatus instrumentId halted =>
    show some (MarketDataEvent.haltStatus ⟨u64OfLe (leU64 _)⟩ ((if halted then 1 else 0) ≠ (0 : UInt8))) = _
    simp only [u64OfLe_leU64]
    cases halted <;> rfl

/-! ## Items -/

/-- What a frame is about. -/
inductive Item where
  | report (ev : Event)
  | data (ev : MarketDataEvent)

namespace Item

def frame : Item → Frame
  | report ev => { msgType := MsgType.execReport, payload := (execReportPayload ev).getD [] }
  | data ev => { msgType := MsgType.marketData, payload := marketDataPayload ev }

def bytes (item : Item) : List UInt8 := item.frame.bytes

theorem fits (item : Item) : item.frame.Fits := by
  have hmax : Codec.maxFrameLen.toNat = 65536 := rfl
  cases item with
  | report ev =>
    show 1 + ((execReportPayload ev).getD []).length ≤ Codec.maxFrameLen.toNat
    cases hpay : execReportPayload ev with
    | none =>
      rw [Option.getD_none, List.length_nil]
      omega
    | some payload =>
      have := length_payload_le hpay
      rw [Option.getD_some]
      omega
  | data ev =>
    have := length_marketDataPayload ev
    show 1 + (marketDataPayload ev).length ≤ Codec.maxFrameLen.toNat
    omega

end Item

/-- The reported events among some items. -/
def eventsOf (items : List Item) : List Event :=
  items.filterMap fun
    | .report ev => some ev
    | .data _ => none

/-- The market data of an instrument among some items. -/
def dataOf (instrumentId : InstrumentId) (items : List Item) : List MarketDataEvent :=
  (items.filterMap fun
    | .report _ => none
    | .data ev => some ev).filter (·.instrumentId = instrumentId)

theorem eventsOf_append (items items' : List Item) : eventsOf (items ++ items') = eventsOf items ++ eventsOf items' :=
  List.filterMap_append

theorem dataOf_append (x : InstrumentId) (items items' : List Item) :
    dataOf x (items ++ items') = dataOf x items ++ dataOf x items' := by
  rw [dataOf, List.filterMap_append, List.filter_append]
  rfl

theorem encodeMarketData_nil (ev : MarketDataEvent) : encodeMarketData ev [] = .ok (Item.data ev).bytes :=
  encode_eq_ok (Item.data ev).fits []

theorem exists_payload {account : AccountId} {ev : Event} (h : concerns account ev = true) :
    ∃ payload, execReportPayload ev = some payload := by
  cases ev with
  | accepted | filled | canceled | rejected | modified => exact ⟨_, rfl⟩
  | instrumentHalted | instrumentResumed => cases h

theorem encodeEventFor_nil (account : AccountId) (ev : Event) : Session.encodeEventFor account ev [] =
    if concerns account ev then .ok (true, (Item.report ev).bytes) else .ok (false, []) := by
  rw [Session.encodeEventFor]
  by_cases hconcerns : concerns account ev = true
  · obtain ⟨payload, hpay⟩ := exists_payload hconcerns
    have hframe : (Item.report ev).frame = { msgType := MsgType.execReport, payload } := by
      rw [Item.frame, hpay, Option.getD_some]
    have hfits := hframe ▸ (Item.report ev).fits
    rw [if_pos hconcerns, if_pos hconcerns, encodeExecReport, hpay, Item.bytes, hframe]
    exact congrArg (Except.map (true, ·)) (encode_eq_ok hfits [])
  · rw [if_neg hconcerns, if_neg hconcerns]

variable {items : List Item}

theorem reportsIn_frames {account : AccountId} (h : ∀ ev ∈ eventsOf items, concerns account ev = true) :
    reportsIn (items.map Item.frame) = (eventsOf items).map Event.report := by
  induction items with
  | nil => rfl
  | cons item items ih =>
    cases item with
    | report ev =>
      obtain ⟨hev, hrest⟩ := List.forall_mem_cons.mp h
      obtain ⟨payload, hpay⟩ := exists_payload hev
      have hdec := decode_payload hpay
      show ExecReport.decode ((execReportPayload ev).getD []) :: reportsIn (items.map Item.frame) = _
      rw [ih hrest, hpay, Option.getD_some, hdec]
      rfl
    | data ev => exact ih h

theorem parses_frames {account : AccountId} (h : ∀ ev ∈ eventsOf items, concerns account ev = true) :
    ∀ f ∈ items.map Item.frame, f.Parses := by
  intro f hf
  obtain ⟨item, hitem, rfl⟩ := List.mem_map.mp hf
  cases item with
  | report ev =>
    have hev := h ev (List.mem_filterMap.mpr ⟨_, hitem, rfl⟩)
    obtain ⟨payload, hpay⟩ := exists_payload hev
    refine .inl ⟨rfl, ?_⟩
    show (ExecReport.decode ((execReportPayload ev).getD [])).isSome
    rw [hpay, Option.getD_some, decode_payload hpay]
    cases ev with
    | instrumentHalted | instrumentResumed => cases hev
    | _ => rfl
  | data ev =>
    refine .inr ⟨rfl, ?_⟩
    show (MarketDataEvent.ofPayload (marketDataPayload ev)).isSome
    rw [ofPayload_marketDataPayload]
    rfl

theorem marketDataIn_frames (x : InstrumentId) (items : List Item) :
    marketDataIn x (items.map Item.frame) = dataOf x items := by
  refine congrArg (List.filter fun ev : MarketDataEvent => ev.instrumentId = x) ?_
  induction items with
  | nil => rfl
  | cons item items ih =>
    cases item with
    | report ev => exact ih
    | data ev =>
      have hread : MarketDataEvent.ofPayload (Item.data ev).frame.payload = some ev := ofPayload_marketDataPayload ev
      rw [List.map_cons, List.filter_cons_of_pos rfl, List.filterMap_cons, hread, ih]
      rfl

/-! ## Bytes that have arrived -/

/-- Of the frames on the wire, those that have arrived in full are received. -/
theorem drains_arrived {torn bs : List UInt8}
    (htorn : torn = [] ∨ ∃ item : Item, torn <+: item.bytes ∧ torn.length < item.bytes.length)
    (h : bs <+: (items.map Item.bytes).flatten ++ torn) :
    ∃ j rest, Drains Codec.decode bs ((items.take j).map Item.frame) rest none := by
  induction items generalizing bs with
  | nil =>
    rw [List.map_nil, List.flatten_nil, List.nil_append] at h
    refine ⟨0, bs, .wait ?_⟩
    rcases htorn with rfl | ⟨item, hpre, hlt⟩
    · rw [List.prefix_nil.mp h]
      rfl
    · obtain ⟨more, hmore⟩ := h.trans hpre
      have hwhole : bs ++ more = item.frame.bytes ++ [] := by rw [List.append_nil]; exact hmore
      exact incomplete_of_lt item.fits hwhole (Nat.lt_of_le_of_lt h.length_le hlt)
  | cons item items ih =>
    rw [List.map_cons, List.flatten_cons, List.append_assoc] at h
    by_cases hlt : bs.length < item.bytes.length
    · obtain ⟨more, hmore⟩ := h
      exact ⟨0, bs, .wait (incomplete_of_lt item.fits hmore hlt)⟩
    · obtain ⟨bs', rfl⟩ := List.prefix_of_prefix_length_le (List.prefix_append _ _) h (Nat.not_lt.mp hlt)
      obtain ⟨j, rest, hj⟩ := ih ((List.prefix_append_right_inj _).mp h)
      exact ⟨j + 1, rest, .msg (decode_bytes item.fits bs') hj⟩

theorem feed_arrived {torn : List UInt8} {chunks : List (List UInt8)}
    (htorn : torn = [] ∨ ∃ item : Item, torn <+: item.bytes ∧ torn.length < item.bytes.length)
    (h : chunks.flatten <+: (items.map Item.bytes).flatten ++ torn) :
    ∃ j, (Receiver.feed Codec.decode chunks).msgs = (items.take j).map Item.frame ∧
      (Receiver.feed Codec.decode chunks).error = none := by
  obtain ⟨j, rest, hj⟩ := drains_arrived htorn h
  have hfeed := Receiver.feed_eq_of_drains incremental_decode hj
  exact ⟨j, by rw [hfeed], by rw [hfeed]⟩

end MRE.Proof.Gateway
