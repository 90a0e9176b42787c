import MatchRiskEngine.Spec.Gateway

/-!
# The framing of the wire protocol

`decode` takes a frame off the front of the buffer as soon as it is complete
(`decode_bytes`) and waits while it is not (`incomplete_of_lt`); what `encode`
writes is such a frame (`encode_eq_ok`). An error is read off the length field
(`decode_eq_error`), so that it is an incremental decoder. Hence messages go over
the wire unchanged, and a stream of any bytes decodes the same however it is cut
into chunks (`codec_chunks`).
-/

namespace MRE.Proof.Gateway

open MRE.Gateway

@[simp] theorem length_bytes (f : Frame) : f.bytes.length = f.payload.length + 5 := by
  rw [Frame.bytes, List.length_append, length_leU32, List.length_cons]
  omega

theorem bytes_ne_nil (f : Frame) : f.bytes ≠ [] := by
  rw [← List.length_pos_iff, length_bytes]
  omega

variable {f : Frame}

theorem toNat_length (h : f.Fits) : (UInt32.ofNat (1 + f.payload.length)).toNat = 1 + f.payload.length := by
  have hlt : 1 + f.payload.length < UInt32.size := Nat.lt_of_le_of_lt h (by decide)
  exact UInt32.toNat_ofNat_of_lt' hlt

theorem length_valid (h : f.Fits) :
    UInt32.ofNat (1 + f.payload.length) ≠ 0 ∧ ¬ Codec.maxFrameLen < UInt32.ofNat (1 + f.payload.length) := by
  have hnat := toNat_length h
  constructor
  · intro h0
    rw [h0] at hnat
    change 0 = _ at hnat
    omega
  · rw [UInt32.lt_iff_toNat_lt, hnat]
    exact Nat.not_lt.mpr h

theorem encode_eq_ok (h : f.Fits) (out : List UInt8) :
    Codec.encode f.msgType f.payload out = .ok (out ++ f.bytes) := by
  have hle : 1 + f.payload.length ≤ 65536 := h
  have hpay : (UInt32.ofNat f.payload.length).toNat = f.payload.length :=
    UInt32.toNat_ofNat_of_lt' (show f.payload.length < 2 ^ 32 by omega)
  have hadd : 1 + UInt32.ofNat f.payload.length = UInt32.ofNat (1 + f.payload.length) := by
    rw [UInt32.ofNat_add]
    rfl
  simp only [Codec.encode, hpay, hadd]
  rw [if_neg (by omega), if_neg (length_valid h).2, Frame.bytes]
  simp only [List.append_assoc, List.singleton_append]

/-- The length field, where the buffer and what follows start with a frame. -/
theorem take_headerLen {p q rest : List UInt8} (hs : p ++ q = f.bytes ++ rest)
    (hp : Codec.headerLen ≤ p.length) : p.take Codec.headerLen = leU32 (UInt32.ofNat (1 + f.payload.length)) := by
  have h := congrArg (List.take Codec.headerLen) hs
  rw [List.take_append_of_le_length hp, Frame.bytes, List.append_assoc] at h
  exact h.trans (List.take_left' (length_leU32 _))

theorem decode_bytes (h : f.Fits) (rest : List UInt8) :
    Codec.decode (f.bytes ++ rest) = (.ok (some f), rest) := by
  have hlen : (f.bytes ++ rest).length = f.payload.length + 5 + rest.length := by
    rw [List.length_append, length_bytes]
  have hge : Codec.headerLen ≤ (f.bytes ++ rest).length := by
    rw [hlen, Codec.headerLen]
    omega
  have hfield := take_headerLen (q := []) (List.append_nil (f.bytes ++ rest)) hge
  have hbody : ((f.bytes ++ rest).drop Codec.headerLen).take (1 + f.payload.length) = f.msgType :: f.payload := by
    have hdrop : (f.bytes ++ rest).drop Codec.headerLen = f.msgType :: f.payload ++ rest := by
      rw [Frame.bytes, List.append_assoc]
      exact List.drop_left' (length_leU32 _)
    rw [hdrop]
    exact List.take_left' (by rw [List.length_cons, Nat.add_comm])
  have hrest : (f.bytes ++ rest).drop (Codec.headerLen + (1 + f.payload.length)) = rest :=
    List.drop_left' (by rw [length_bytes, Codec.headerLen]; omega)
  simp only [Codec.decode, hfield, u32OfLe_leU32, toNat_length h, hbody, hrest]
  rw [if_neg (Nat.not_lt.mpr hge), if_neg (length_valid h).1, if_neg (length_valid h).2,
    if_neg (by rw [hlen, Codec.headerLen]; omega)]

/-- While the frame at the front has not arrived in full, there is nothing to
dispatch. -/
theorem incomplete_of_lt (h : f.Fits) {p q rest : List UInt8} (hs : p ++ q = f.bytes ++ rest)
    (hp : p.length < f.bytes.length) : Incomplete p := by
  rw [length_bytes] at hp
  rw [Incomplete, Codec.decode]
  split
  · rfl
  · rename_i hge
    simp only [take_headerLen hs (Nat.not_lt.mp hge), u32OfLe_leU32, toNat_length h]
    rw [if_neg (length_valid h).1, if_neg (length_valid h).2, if_pos (by rw [Codec.headerLen]; omega)]

theorem incomplete_of_append {p q : List UInt8} (h : Incomplete (p ++ q)) : Incomplete p := by
  rw [Incomplete, Codec.decode]
  split
  · rfl
  · rename_i hge
    have htake : (p ++ q).take Codec.headerLen = p.take Codec.headerLen :=
      List.take_append_of_le_length (Nat.not_lt.mp hge)
    have hlen : p.length ≤ (p ++ q).length := by
      rw [List.length_append]
      omega
    simp only [Incomplete, Codec.decode, htake] at h
    rw [if_neg (by omega)] at h
    split at h
    · cases h
    · rename_i h0
      rw [if_neg h0]
      split at h
      · cases h
      · rename_i hmax
        rw [if_neg hmax]
        split at h
        · rename_i hshort
          rw [if_pos (by omega)]
        · split at h <;> cases h

theorem fits_of_carries {account : AccountId} {cmd : InboundCommand} (h : Carries account f cmd) :
    f.Fits := by
  have hlen : f.payload.length = 35 ∨ f.payload.length = 16 := by
    cases h with
    | newOrder type decoded converted =>
      rw [decodeNewOrder] at decoded
      split at decoded
      · cases decoded
      · rename_i h35
        exact Or.inl (not_not.mp h35)
    | cancelOrder type decoded converted =>
      rw [decodeCancelOrder] at decoded
      split at decoded
      · cases decoded
      · rename_i h16
        exact Or.inr (not_not.mp h16)
  show 1 + f.payload.length ≤ 65536
  omega

theorem fits_authFrame (type : UInt8) (account : AccountId) : (authFrame type account).Fits := by
  show 1 + (leU64 account.raw).length ≤ 65536
  rw [length_leU64]
  decide

variable {buf rest : List UInt8}

/-! ## One call -/

/-- The body that the length field announces is as long as it says. -/
theorem length_body {buf : List UInt8} {len : Nat} (h : ¬ buf.length < Codec.headerLen + len) :
    ((buf.drop Codec.headerLen).take len).length = len := by
  rw [List.length_take, List.length_drop]
  omega

theorem decode_eq_frame (h : Codec.decode buf = (.ok (some f), rest)) : f.Fits ∧ buf = f.bytes ++ rest := by
  unfold Codec.decode at h
  split at h
  · cases h
  rename_i hheader
  dsimp only at h
  split at h
  · cases h
  split at h
  · cases h
  rename_i hmax
  split at h
  · cases h
  rename_i hlen
  have hbody := length_body hlen
  split at h
  · cases h
  rename_i msgType payload heq
  cases h
  rw [heq, List.length_cons] at hbody
  have hlen32 : UInt32.ofNat (1 + payload.length) = u32OfLe (buf.take Codec.headerLen) := by
    rw [Nat.add_comm, hbody, UInt32.ofNat_toNat]
  have hfield : leU32 (UInt32.ofNat (1 + payload.length)) = buf.take Codec.headerLen := by
    rw [hlen32]
    refine leU32_u32OfLe ?_
    rw [List.length_take]
    exact Nat.min_eq_left (Nat.not_lt.mp hheader)
  constructor
  · show 1 + payload.length ≤ Codec.maxFrameLen.toNat
    rw [Nat.add_comm, hbody]
    exact UInt32.le_iff_toNat_le.mp (UInt32.not_lt.mp hmax)
  · rw [Frame.bytes, hfield, ← heq, List.append_assoc, ← List.drop_drop, List.take_append_drop, List.take_append_drop]

/-- An error is read off the length field, and the buffer stays as it is. -/
theorem decode_eq_error {e : CodecError} (h : Codec.decode buf = (.error e, rest)) :
    rest = buf ∧ ∀ more, Codec.decode (buf ++ more) = (.error e, buf ++ more) := by
  unfold Codec.decode at h
  split at h
  · cases h
  rename_i hheader
  have hlonger (more : List UInt8) : ¬ (buf ++ more).length < Codec.headerLen := by
    rw [List.length_append]
    omega
  have hfield (more : List UInt8) : (buf ++ more).take Codec.headerLen = buf.take Codec.headerLen :=
    List.take_append_of_le_length (Nat.not_lt.mp hheader)
  dsimp only at h
  split at h
  · rename_i h0
    cases h
    refine ⟨rfl, fun more => ?_⟩
    rw [Codec.decode, if_neg (hlonger more), hfield more]
    exact if_pos h0
  rename_i h0
  split at h
  · rename_i hmax
    cases h
    refine ⟨rfl, fun more => ?_⟩
    rw [Codec.decode, if_neg (hlonger more), hfield more]
    exact (if_neg h0).trans (if_pos hmax)
  split at h
  · cases h
  rename_i hlen
  have hbody := length_body hlen
  split at h
  · -- a length that is not zero announces at least one byte
    rename_i heq
    rw [heq, List.length_nil] at hbody
    exact absurd (UInt32.toNat_inj.mp hbody.symm) h0
  · cases h

/-- A call that returns no frame leaves the buffer as it is. -/
theorem decode_eq_none (h : Codec.decode buf = (.ok none, rest)) : rest = buf := by
  unfold Codec.decode at h
  split at h
  · cases h
    rfl
  dsimp only at h
  split at h
  · cases h
  split at h
  · cases h
  split at h
  · cases h
    rfl
  split at h <;> cases h

theorem incremental_decode : Incremental Codec.decode where
  empty := rfl
  wait := decode_eq_none
  error := decode_eq_error
  msg {buf rest f} h := by
    obtain ⟨hfits, rfl⟩ := decode_eq_frame h
    constructor
    · rw [List.length_append, length_bytes]
      omega
    · intro more
      rw [List.append_assoc]
      exact decode_bytes hfits (rest ++ more)

/-! ## Frames on the wire -/

theorem fits_of_length_le {m : UInt8 × List UInt8} (h : m.2.length ≤ Codec.maxFrameLen.toNat - 1) :
    (Frame.mk m.1 m.2).Fits := by
  have hmax : Codec.maxFrameLen.toNat = 65536 := rfl
  show 1 + m.2.length ≤ Codec.maxFrameLen.toNat
  omega

theorem encodeAll_ok {msgs : List (UInt8 × List UInt8)} (h : ∀ m ∈ msgs, m.2.length ≤ Codec.maxFrameLen.toNat - 1)
    (out : List UInt8) :
    msgs.foldlM (fun out m => Codec.encode m.1 m.2 out) out =
      .ok (out ++ (msgs.map fun m => (Frame.mk m.1 m.2).bytes).flatten) := by
  induction msgs generalizing out with
  | nil => rw [List.map_nil, List.flatten_nil, List.append_nil]; rfl
  | cons m msgs ih =>
    obtain ⟨hm, hms⟩ := List.forall_mem_cons.mp h
    rw [List.foldlM_cons, encode_eq_ok (f := ⟨m.1, m.2⟩) (fits_of_length_le hm)]
    refine (ih hms (out ++ (Frame.mk m.1 m.2).bytes)).trans ?_
    rw [List.map_cons, List.flatten_cons, List.append_assoc]

theorem drains_frames {frames : List Frame} (h : ∀ f ∈ frames, f.Fits) :
    Drains Codec.decode (frames.map Frame.bytes).flatten frames [] none := by
  induction frames with
  | nil => exact .wait rfl
  | cons f frames ih =>
    obtain ⟨hf, hfs⟩ := List.forall_mem_cons.mp h
    exact .msg (decode_bytes hf _) (ih hfs)

/-- Messages whose payloads are short enough come out of the receiver as they
were encoded, with nothing left over. Whatever the bytes, what is received does
not depend on how they are cut into chunks: the frames, and the bytes left over
or the first error. And a call that returns no frame leaves the buffer as it
is. -/
theorem codec_chunks (msgs : List (UInt8 × List UInt8)) (h : ∀ m ∈ msgs, m.2.length ≤ Codec.maxFrameLen.toNat - 1)
    (chunks : List (List UInt8)) :
    (∃ bytes, Codec.encodeAll msgs = .ok bytes ∧
      Receiver.feed Codec.decode [bytes] = { buf := [], msgs := msgs.map fun m => ⟨m.1, m.2⟩, error := none }) ∧
    Receiver.feed Codec.decode chunks = Receiver.feed Codec.decode [chunks.flatten] ∧
    ∀ buf rest, Codec.decode buf = (.ok none, rest) → rest = buf := by
  have hfits : ∀ f ∈ msgs.map (fun m => Frame.mk m.1 m.2), f.Fits := by
    intro f hf
    obtain ⟨m, hm, rfl⟩ := List.mem_map.mp hf
    exact fits_of_length_le (h m hm)
  have hdrains := drains_frames hfits
  rw [List.map_map] at hdrains
  refine ⟨⟨_, encodeAll_ok h [], ?_⟩, Receiver.feed_flatten incremental_decode chunks, fun _ _ => decode_eq_none⟩
  refine Receiver.feed_eq_of_drains incremental_decode ?_
  rw [List.flatten_singleton]
  exact hdrains

/-- A length field of zero behind a frame. -/
def demoChunks : List (List UInt8) := [[2, 0, 0], [0, 7, 8, 0, 0, 0], [0, 1]]

theorem codec_chunks_demo : (∃ bytes, Codec.encodeAll [(7, [8]), (9, [])] = .ok bytes ∧
      Receiver.feed Codec.decode [bytes] = { buf := [], msgs := [⟨7, [8]⟩, ⟨9, []⟩], error := none }) ∧
    Receiver.feed Codec.decode demoChunks = Receiver.feed Codec.decode [demoChunks.flatten] ∧
    ∀ buf rest, Codec.decode buf = (.ok none, rest) → rest = buf :=
  codec_chunks [(7, [8]), (9, [])] (by decide) demoChunks

-- the frame in front of the bad length field is received, with any chunks
example : Receiver.feed Codec.decode demoChunks =
    { buf := [0, 0, 0, 0, 1], msgs := [⟨7, [8]⟩], error := some .frameTooShort } := by
  rfl

end MRE.Proof.Gateway
