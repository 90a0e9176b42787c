import MatchRiskEngine.Spec.WalLog

/-!
# Scanning a log

Both scanners look at the log one record at a time. `read` is what each of
them makes of the bytes from its offset on, and it finds exactly the records of
the format (`read_eq_record`).

`Reads bs rs rest`: the bytes `bs` are the records `rs`, up to where no record
stands any more, at `rest`. `scanToEnd` ends behind the last record
(`scanToEnd_ok`) and `scanWal` recovers from them the commands of `recover`
(`scanWal_ok`). On any bytes it ends (`exists_scanWal`). What an append writes
(`append_eq_ok`) is read back (`reads_bytes`).
-/

namespace MRE.Wal

/-- What stands at the front of some bytes: nothing written, something that is
not a whole record with the right checksum, or a record. -/
inductive Read where
  | unwritten
  | corrupt
  | record (r : Record)

def read (crc32 : Checksum) (bs : List UInt8) : Read :=
  if bs.length < recordHeaderSize then .unwritten
  else if u64OfLe (slice bs 0 8) = 0 then .unwritten
  else
    let len := (u32OfLe (slice bs 16 20)).toNat
    if bs.length < recordHeaderSize + len then .corrupt
    else if crc32 (slice bs recordHeaderSize (recordHeaderSize + len)) ≠ u32OfLe (slice bs 20 24) then .corrupt
    else .record
      { seq := u64OfLe (slice bs 0 8)
        tsNs := u64OfLe (slice bs 8 16)
        term := u64OfLe (slice bs 24 32)
        payload := slice bs recordHeaderSize (recordHeaderSize + len) }

namespace Proof

variable {codec : Codec} {crc32 : Checksum} {bs : List UInt8} {r r' : Record}

theorem length_header (crc32 : Checksum) (r : Record) : (r.header crc32).length = recordHeaderSize := by
  simp only [Record.header, List.length_append, length_leU64, length_leU32]
  rfl

theorem read_of_startsWith (h : StartsWith crc32 bs r) : read crc32 bs = .record r := by
  obtain ⟨⟨hseq, hlen⟩, rest, hbs⟩ := h
  have hbs' : bs = leU64 r.seq ++ (leU64 r.tsNs ++ (leU32 (UInt32.ofNat r.payload.length) ++
      (leU32 (crc32 r.payload) ++ (leU64 r.term ++ (r.payload ++ rest))))) := by
    rw [hbs]
    simp only [Record.header, List.append_assoc]
  have hlength : bs.length = recordHeaderSize + (r.payload.length + rest.length) := by
    rw [hbs, List.length_append, length_header, List.length_append]
  have h₁ : slice bs 0 8 = leU64 r.seq :=
    slice_eq (p := []) hbs' rfl (by simp)
  have h₂ : slice bs 8 16 = leU64 r.tsNs :=
    slice_eq (hbs'.trans rfl) (length_leU64 _) (by simp)
  have h₃ : slice bs 16 20 = leU32 (UInt32.ofNat r.payload.length) :=
    slice_eq (p := leU64 r.seq ++ leU64 r.tsNs) (by rw [hbs', List.append_assoc]) (by simp) (by simp)
  have h₄ : slice bs 20 24 = leU32 (crc32 r.payload) :=
    slice_eq (p := leU64 r.seq ++ leU64 r.tsNs ++ leU32 (UInt32.ofNat r.payload.length))
      (s := leU64 r.term ++ (r.payload ++ rest)) (by simp only [hbs', List.append_assoc]) (by simp) (by simp)
  have h₅ : slice bs 24 32 = leU64 r.term :=
    slice_eq (p := leU64 r.seq ++ leU64 r.tsNs ++ leU32 (UInt32.ofNat r.payload.length) ++ leU32 (crc32 r.payload))
      (s := r.payload ++ rest) (by simp only [hbs', List.append_assoc]) (by simp) (by simp)
  have h₆ : slice bs recordHeaderSize (recordHeaderSize + r.payload.length) = r.payload :=
    slice_eq hbs (length_header crc32 r) rfl
  have hlen' : (UInt32.ofNat r.payload.length).toNat = r.payload.length := UInt32.toNat_ofNat_of_lt' hlen
  unfold read
  simp only [h₁, h₂, h₃, h₄, h₅, h₆, u64OfLe_leU64, u32OfLe_leU32, hlen', hseq, ne_eq, not_true_eq_false, if_false]
  rw [if_neg (by omega), if_neg (by omega)]

theorem startsWith_of_read (h : read crc32 bs = .record r) : StartsWith crc32 bs r := by
  unfold read at h
  split at h
  · cases h
  rename_i hlen
  split at h
  · cases h
  rename_i hseq
  dsimp only at h
  split at h
  · cases h
  rename_i hend
  split at h
  · cases h
  rename_i hcrc
  cases h
  rw [Nat.not_lt] at hlen hend
  rw [ne_eq, not_not] at hcrc
  have hpay := length_slice (a := recordHeaderSize) hend
  rw [Nat.add_sub_cancel_left] at hpay
  have hlen : 32 ≤ bs.length := hlen
  refine ⟨⟨hseq, ?_⟩, bs.drop (recordHeaderSize + (u32OfLe (slice bs 16 20)).toNat), ?_⟩
  · rw [hpay]
    exact UInt32.toNat_lt _
  · simp only [Record.header, hpay, hcrc, UInt32.ofNat_toNat]
    rw [leU64_u64OfLe (length_slice (by omega)), leU64_u64OfLe (length_slice (by omega)),
      leU32_u32OfLe (length_slice (by omega)), leU32_u32OfLe (length_slice (by omega)),
      leU64_u64OfLe (length_slice (by omega)), ← drop_eq_slice_append bs (Nat.le_add_right _ _)]
    simp only [List.append_assoc]
    rw [show recordHeaderSize = 32 from rfl, ← drop_eq_slice_append bs (by decide), ← drop_eq_slice_append bs (by decide),
      ← drop_eq_slice_append bs (by decide), ← drop_eq_slice_append bs (by decide),
      ← drop_eq_slice_append bs (by decide), List.drop_zero]

theorem read_eq_record : read crc32 bs = .record r ↔ StartsWith crc32 bs r := ⟨startsWith_of_read, read_of_startsWith⟩

theorem StartsWith.unique (h : StartsWith crc32 bs r) (h' : StartsWith crc32 bs r') : r = r' := by
  have := read_eq_record.mpr h
  rw [read_eq_record.mpr h'] at this
  exact (Read.record.inj this).symm

theorem seq_pos (h : r.Valid) : 0 < r.seq := UInt64.pos_iff_ne_zero.mpr h.seq

/-! ## One iteration of a scan -/

theorem lt_add_iff (data : List UInt8) (offset : Nat) {n : Nat} (hn : 0 < n) :
    data.length < offset + n ↔ (data.drop offset).length < n := by
  rw [List.length_drop]
  omega

theorem header_lt_iff (data : List UInt8) (offset : Nat) :
    data.length < offset + recordHeaderSize ↔ (data.drop offset).length < recordHeaderSize :=
  lt_add_iff data offset (by decide)

theorem payload_lt_iff (data : List UInt8) (offset len : Nat) :
    data.length < offset + (recordHeaderSize + len) ↔ (data.drop offset).length < recordHeaderSize + len :=
  lt_add_iff data offset (Nat.add_pos_left (by decide) len)

theorem slice_start (data : List UInt8) (offset n : Nat) :
    slice data offset (offset + n) = slice (data.drop offset) 0 n := slice_drop data offset 0 n

theorem scanToEndLoop_succ (data : List UInt8) (n offset : Nat) (lastSeq highestTerm : UInt64) :
    scanToEndLoop crc32 data (n + 1) offset lastSeq highestTerm =
      match read crc32 (data.drop offset) with
      | .record r => scanToEndLoop crc32 data n (offset + r.size) r.seq r.term
      | _ => some (offset, lastSeq, highestTerm) := by
  unfold read
  simp only [scanToEndLoop, slice_start data offset, slice_drop data offset, Nat.add_assoc offset,
    header_lt_iff data offset, payload_lt_iff data offset]
  split
  · rfl
  split
  · rfl
  split
  · rfl
  rename_i hend
  split
  · rfl
  · have hpay := length_slice (a := recordHeaderSize) (Nat.not_lt.mp hend)
    rw [Nat.add_sub_cancel_left] at hpay
    simp only [Record.size, hpay]

/-- What recovery makes of a record: go on, or stop with an error. -/
def scanRecord (codec : Codec) (afterSeq : UInt64) (r : Record) (lastSeq : UInt64) (res : ScanResult) :
    Except ScanResult (UInt64 × ScanResult) :=
  if r.term < res.highestTerm then .ok (lastSeq, res)
  else
    let gap := r.seq ≠ lastSeq + 1 ∧ lastSeq ≠ 0 ∧ lastSeq ≠ afterSeq
    let res := { res with highestTerm := r.term, seqGaps := if gap then res.seqGaps + 1 else res.seqGaps }
    if afterSeq < r.seq then
      match codec.deserialise r.payload with
      | some cmd =>
        .ok (r.seq, { res with commands := res.commands ++ [{ term := r.term, seq := r.seq, tsNs := r.tsNs, cmd }] })
      | none => .error { res with corruptRecords := res.corruptRecords + 1 }
    else .ok (r.seq, res)

theorem scanWalLoop_succ (data : List UInt8) (afterSeq : UInt64) (n offset : Nat) (lastSeq : UInt64) (res : ScanResult) :
    scanWalLoop codec crc32 data afterSeq (n + 1) offset lastSeq res =
      match read crc32 (data.drop offset) with
      | .unwritten => some res
      | .corrupt => some { res with corruptRecords := res.corruptRecords + 1 }
      | .record r =>
        match scanRecord codec afterSeq r lastSeq res with
        | .ok (lastSeq, res) => scanWalLoop codec crc32 data afterSeq n (offset + r.size) lastSeq res
        | .error res => some res := by
  unfold read
  simp only [scanWalLoop, slice_start data offset, slice_drop data offset, Nat.add_assoc offset,
    header_lt_iff data offset, payload_lt_iff data offset]
  split
  · rfl
  split
  · rfl
  split
  · rfl
  rename_i hend
  split
  · rfl
  have hpay := length_slice (a := recordHeaderSize) (Nat.not_lt.mp hend)
  rw [Nat.add_sub_cancel_left] at hpay
  simp only [scanRecord, Record.size, hpay]
  split
  · rfl
  split
  · cases codec.deserialise _ <;> rfl
  · rfl

end Proof

/-! ## Reading a log -/

/-- The bytes `bs` are the records `rs`, and then no record at `rest`. -/
inductive Reads (crc32 : Checksum) : List UInt8 → List Record → List UInt8 → Prop
  | stop {bs : List UInt8} (h : ∀ r, ¬ StartsWith crc32 bs r) : Reads crc32 bs [] bs
  | record {bs : List UInt8} {r : Record} {rs : List Record} {rest : List UInt8} (h : StartsWith crc32 bs r)
      (hrest : Reads crc32 (bs.drop r.size) rs rest) : Reads crc32 bs (r :: rs) rest

/-- The room some records take. -/
def logSize (rs : List Record) : Nat := (rs.map Record.size).sum

/-- The commands that recovery finds in some records, past one of term `t`, and
the last term if it comes to their end. -/
def recover (codec : Codec) (afterSeq : UInt64) : UInt64 → List Record → List SequencedCommand × Option UInt64
  | t, [] => ([], some t)
  | t, r :: rs =>
    if r.term < t then recover codec afterSeq t rs
    else if afterSeq < r.seq then
      match codec.deserialise r.payload with
      | some cmd =>
        let found := recover codec afterSeq r.term rs
        ({ term := r.term, seq := r.seq, tsNs := r.tsNs, cmd } :: found.1, found.2)
      | none => ([], none)
    else recover codec afterSeq r.term rs

namespace Proof

variable {codec : Codec} {crc32 : Checksum} {bs rest : List UInt8} {r : Record} {rs : List Record}

theorem payload_le_size (r : Record) : recordHeaderSize + r.payload.length ≤ r.size := by
  rw [Record.size, align8]
  omega

theorem header_le_size (r : Record) : recordHeaderSize ≤ r.size :=
  Nat.le_trans (Nat.le_add_right _ _) (payload_le_size r)

theorem StartsWith.length_le (h : StartsWith crc32 bs r) : recordHeaderSize ≤ bs.length := by
  obtain ⟨-, rest, rfl⟩ := h
  rw [List.length_append, length_header]
  exact Nat.le_add_right _ _

theorem StartsWith.length_drop_lt (h : StartsWith crc32 bs r) : (bs.drop r.size).length < bs.length := by
  have h₁ := StartsWith.length_le h
  have h₂ := header_le_size r
  have h₃ : 0 < recordHeaderSize := by decide
  rw [List.length_drop]
  omega

theorem exists_reads (crc32 : Checksum) (bs : List UInt8) : ∃ rs rest, Reads crc32 bs rs rest := by
  by_cases h : ∃ r, StartsWith crc32 bs r
  · obtain ⟨r, hr⟩ := h
    obtain ⟨rs, rest, hrs⟩ := exists_reads crc32 (bs.drop r.size)
    exact ⟨r :: rs, rest, .record hr hrs⟩
  · exact ⟨[], bs, .stop (not_exists.mp h)⟩
termination_by bs.length
decreasing_by exact StartsWith.length_drop_lt hr

theorem Reads.length_le (h : Reads crc32 bs rs rest) : rs.length ≤ bs.length := by
  induction h with
  | stop => exact Nat.zero_le _
  | record h _ ih =>
    have := StartsWith.length_drop_lt h
    rw [List.length_cons]
    omega

theorem read_of_not_startsWith (h : ∀ r, ¬ StartsWith crc32 bs r) : read crc32 bs = .unwritten ∨ read crc32 bs = .corrupt := by
  cases hr : read crc32 bs with
  | unwritten => exact .inl rfl
  | corrupt => exact .inr rfl
  | record r => exact absurd (read_eq_record.mp hr) (h r)

/-! ## The end of the log -/

variable {data : List UInt8}

theorem scanToEndLoop_ok {offset n : Nat} {lastSeq highestTerm : UInt64}
    (h : Reads crc32 (data.drop offset) rs rest) (hn : rs.length < n) :
    scanToEndLoop crc32 data n offset lastSeq highestTerm =
      some (offset + logSize rs, (rs.map Record.seq).getLastD lastSeq, (rs.map Record.term).getLastD highestTerm) := by
  induction rs generalizing offset n lastSeq highestTerm with
  | nil =>
    obtain ⟨n, rfl⟩ := Nat.exists_eq_add_one_of_ne_zero (Nat.ne_of_gt hn)
    cases h with
    | stop h =>
      rw [scanToEndLoop_succ]
      rcases read_of_not_startsWith h with e | e <;> rw [e] <;> rfl
  | cons r rs ih =>
    obtain ⟨n, rfl⟩ := Nat.exists_eq_add_one_of_ne_zero (Nat.ne_of_gt (Nat.zero_lt_of_lt hn))
    cases h with
    | record h hrest =>
      rw [List.drop_drop] at hrest
      rw [scanToEndLoop_succ, read_eq_record.mpr h]
      simp only [ih hrest (Nat.lt_of_succ_lt_succ hn), logSize, List.map_cons, List.sum_cons, List.getLastD_cons,
        Nat.add_assoc]

theorem scanToEnd_ok (h : Reads crc32 (data.drop fileHeaderSize) rs rest) :
    scanToEnd crc32 data =
      some (fileHeaderSize + logSize rs, (rs.map Record.seq).getLastD 0, (rs.map Record.term).getLastD 0) := by
  refine scanToEndLoop_ok h (Nat.lt_succ_of_le (Nat.le_trans (Reads.length_le h) ?_))
  rw [List.length_drop]
  exact Nat.sub_le _ _

/-! ## Recovery -/

variable {afterSeq t : UInt64}

theorem recover_stale (ht : r.term < t) (rs : List Record) :
    recover codec afterSeq t (r :: rs) = recover codec afterSeq t rs := if_pos ht

theorem recover_decoded (ht : ¬ r.term < t) (hs : afterSeq < r.seq) {cmd : InboundCommand}
    (hd : codec.deserialise r.payload = some cmd) (rs : List Record) :
    recover codec afterSeq t (r :: rs) =
      ({ term := r.term, seq := r.seq, tsNs := r.tsNs, cmd } :: (recover codec afterSeq r.term rs).1,
        (recover codec afterSeq r.term rs).2) := by
  rw [recover, if_neg ht, if_pos hs, hd]

theorem recover_undecodable (ht : ¬ r.term < t) (hs : afterSeq < r.seq)
    (hd : codec.deserialise r.payload = none) (rs : List Record) :
    recover codec afterSeq t (r :: rs) = ([], none) := by
  rw [recover, if_neg ht, if_pos hs, hd]

theorem recover_skipped (ht : ¬ r.term < t) (hs : ¬ afterSeq < r.seq) (rs : List Record) :
    recover codec afterSeq t (r :: rs) = recover codec afterSeq r.term rs := by
  rw [recover, if_neg ht, if_neg hs]

theorem scanWalLoop_ok {afterSeq : UInt64} {offset n : Nat} {lastSeq : UInt64} {res : ScanResult}
    (h : Reads crc32 (data.drop offset) rs rest) (hn : rs.length < n) :
    ∃ res', scanWalLoop codec crc32 data afterSeq n offset lastSeq res = some res' ∧
      res'.commands = res.commands ++ (recover codec afterSeq res.highestTerm rs).1 ∧
      ((recover codec afterSeq res.highestTerm rs).2.isSome → read crc32 rest = .unwritten →
        res'.corruptRecords = res.corruptRecords) := by
  induction rs generalizing offset n lastSeq res with
  | nil =>
    obtain ⟨n, rfl⟩ := Nat.exists_eq_add_one_of_ne_zero (Nat.ne_of_gt hn)
    cases h with
    | stop h =>
      rw [scanWalLoop_succ]
      rcases read_of_not_startsWith h with e | e <;> rw [e]
      · exact ⟨res, rfl, (List.append_nil _).symm, fun _ _ => rfl⟩
      · refine ⟨_, rfl, (List.append_nil _).symm, fun _ he => ?_⟩
        contradiction
  | cons r rs ih =>
    obtain ⟨n, rfl⟩ := Nat.exists_eq_add_one_of_ne_zero (Nat.ne_of_gt (Nat.zero_lt_of_lt hn))
    cases h with
    | record h hrest =>
      rw [List.drop_drop] at hrest
      have hn := Nat.lt_of_succ_lt_succ hn
      rw [scanWalLoop_succ, read_eq_record.mpr h]
      by_cases ht : r.term < res.highestTerm
      · simp only [recover_stale ht, scanRecord, if_pos ht]
        exact ih hrest hn
      by_cases hs : afterSeq < r.seq
      · cases hd : codec.deserialise r.payload with
        | some cmd =>
          simp only [recover_decoded ht hs hd, scanRecord, if_neg ht, if_pos hs, hd]
          obtain ⟨res', h₁, h₂, h₃⟩ := @ih _ n r.seq _ hrest hn
          refine ⟨res', h₁, ?_, h₃⟩
          rw [h₂, List.append_assoc]
          rfl
        | none =>
          simp only [recover_undecodable ht hs hd, scanRecord, if_neg ht, if_pos hs, hd]
          exact ⟨_, rfl, (List.append_nil _).symm, fun he => absurd he Bool.false_ne_true⟩
      · simp only [recover_skipped ht hs, scanRecord, if_neg ht, if_neg hs]
        obtain ⟨res', h₁, h₂, h₃⟩ := @ih _ n r.seq _ hrest hn
        exact ⟨res', h₁, h₂, h₃⟩

theorem scanWal_ok (codec : Codec) (hmagic : slice data 0 8 = magic)
    (h : Reads crc32 (data.drop fileHeaderSize) rs rest) (afterSeq : UInt64) :
    ∃ res, scanWal codec crc32 data afterSeq = some res ∧ res.commands = (recover codec afterSeq 0 rs).1 ∧
      ((recover codec afterSeq 0 rs).2.isSome → read crc32 rest = .unwritten → res.corruptRecords = 0) := by
  unfold scanWal
  by_cases hlen : data.length < fileHeaderSize
  · have hnil : data.drop fileHeaderSize = [] := List.drop_eq_nil_of_le (Nat.le_of_lt hlen)
    have hrs : rs = [] := List.length_eq_zero_iff.mp (Nat.le_zero.mp (by simpa [hnil] using Reads.length_le h))
    rw [if_pos hlen, hrs]
    exact ⟨_, rfl, rfl, fun _ _ => rfl⟩
  · rw [if_neg hlen, if_neg (not_not.mpr hmagic)]
    refine scanWalLoop_ok h (Nat.lt_succ_of_le (Nat.le_trans (Reads.length_le h) ?_))
    rw [List.length_drop]
    exact Nat.sub_le _ _

theorem exists_scanWal (codec : Codec) (crc32 : Checksum) (image : List UInt8) (afterSeq : UInt64) :
    ∃ res, scanWal codec crc32 image afterSeq = some res := by
  by_cases hmagic : slice image 0 8 = magic
  · obtain ⟨rs, rest, hreads⟩ := exists_reads crc32 (image.drop fileHeaderSize)
    obtain ⟨res, hres, -⟩ := scanWal_ok codec hmagic hreads afterSeq
    exact ⟨res, hres⟩
  · refine ⟨.empty, ?_⟩
    rw [scanWal, if_pos hmagic, ite_self]

/-- Recovery goes on behind some records, unless it stopped in them. -/
theorem recover_append (afterSeq t : UInt64) (rs rs' : List Record) :
    recover codec afterSeq t (rs ++ rs') =
      match (recover codec afterSeq t rs).2 with
      | none => recover codec afterSeq t rs
      | some t' => ((recover codec afterSeq t rs).1 ++ (recover codec afterSeq t' rs').1,
          (recover codec afterSeq t' rs').2) := by
  induction rs generalizing t with
  | nil => rfl
  | cons r rs ih =>
    rw [List.cons_append]
    by_cases ht : r.term < t
    · rw [recover_stale ht, recover_stale ht, ih]
    by_cases hs : afterSeq < r.seq
    · cases hd : codec.deserialise r.payload with
      | some cmd =>
        simp only [recover_decoded ht hs hd, ih]
        rcases recover codec afterSeq r.term rs with ⟨found, _ | t'⟩ <;> rfl
      | none => simp only [recover_undecodable ht hs hd]
    · rw [recover_skipped ht hs, recover_skipped ht hs, ih]

/-- The record of a command. -/
def Encodes (codec : Codec) (sc : SequencedCommand) (r : Record) : Prop :=
  codec.serialise sc.cmd = some r.payload ∧ r.seq = sc.seq ∧ r.tsNs = sc.tsNs ∧ r.term = sc.term

/-- From the records of commands whose terms do not decrease, recovery finds
the commands. -/
theorem recover_encodes {t : UInt64} {scs : List SequencedCommand} (h : List.Forall₂ (Encodes codec) scs rs)
    (afterSeq : UInt64) (hterms : (t :: rs.map Record.term).IsChain (· ≤ ·)) :
    recover codec afterSeq t rs =
      (scs.filter fun sc => afterSeq < sc.seq, some ((rs.map Record.term).getLastD t)) := by
  induction h generalizing t with
  | nil => rfl
  | @cons sc r scs rs hr _ ih =>
    rw [List.map_cons, List.isChain_cons_cons] at hterms
    obtain ⟨hpay, hseq, hts, hterm⟩ := hr
    have ht : ¬ r.term < t := UInt64.not_lt.mpr hterms.1
    rw [List.map_cons, List.getLastD_cons]
    by_cases hs : afterSeq < r.seq
    · rw [recover_decoded ht hs (codec.deserialise_serialise hpay), ih hterms.2,
        List.filter_cons_of_pos (by rw [← hseq]; simpa using hs), hseq, hts, hterm]
    · rw [recover_skipped ht hs, ih hterms.2, List.filter_cons_of_neg (by rw [← hseq]; simpa using hs)]

end Proof

end MRE.Wal

namespace MRE.Wal.Proof

variable {codec : Codec} {crc32 : Checksum} {bs rest : List UInt8} {r : Record} {rs rs' : List Record}
  {w w' : FileWalWriter} {sc : SequencedCommand} {scs : List SequencedCommand}

theorem length_bytes (crc32 : Checksum) (r : Record) : (r.bytes crc32).length = r.size := by
  have := payload_le_size r
  rw [Record.bytes, List.length_append, List.length_append, length_header, List.length_replicate]
  omega

theorem length_flatMap_bytes (crc32 : Checksum) (rs : List Record) :
    (rs.flatMap (Record.bytes crc32)).length = logSize rs := by
  simp only [List.length_flatMap, length_bytes, logSize]

theorem logSize_append (rs rs' : List Record) : logSize (rs ++ rs') = logSize rs + logSize rs' := by
  rw [logSize, List.map_append, List.sum_append, logSize, logSize]

theorem startsWith_bytes (h : r.Valid) (bs : List UInt8) : StartsWith crc32 (r.bytes crc32 ++ bs) r := by
  refine ⟨h, List.replicate (r.size - (recordHeaderSize + r.payload.length)) 0 ++ bs, ?_⟩
  simp only [Record.bytes, List.append_assoc]

theorem reads_bytes (hvalid : ∀ r ∈ rs, r.Valid) (h : Reads crc32 bs rs' rest) :
    Reads crc32 (rs.flatMap (Record.bytes crc32) ++ bs) (rs ++ rs') rest := by
  induction rs with
  | nil => exact h
  | cons r rs ih =>
    obtain ⟨hr, hrs⟩ := List.forall_mem_cons.mp hvalid
    rw [List.flatMap_cons, List.append_assoc]
    refine .record (startsWith_bytes hr _) ?_
    rw [← length_bytes crc32 r, List.drop_left]
    exact ih hrs

theorem slice_bytes_seq (crc32 : Checksum) (r : Record) (bs : List UInt8) :
    slice (r.bytes crc32 ++ bs) 0 8 = leU64 r.seq := by
  simp only [Record.bytes, Record.header, List.append_assoc]
  exact slice_eq (p := []) rfl rfl (by rw [length_leU64])

/-- Where the sequence number is zero nothing was written. -/
theorem read_of_seq_eq_zero (h : u64OfLe (slice bs 0 8) = 0) : read crc32 bs = .unwritten := by
  rw [read, if_pos h, ite_self]

theorem not_startsWith_of_read (h : read crc32 bs = .unwritten) : ∀ r, ¬ StartsWith crc32 bs r := fun r hr => by
  rw [read_eq_record.mpr hr] at h
  cases h

theorem read_zeros (crc32 : Checksum) (n : Nat) : read crc32 (List.replicate n 0) = .unwritten := by
  refine read_of_seq_eq_zero ?_
  rw [slice, List.drop_zero, List.take_replicate, u64OfLe, ofLeBytes_replicate]
  rfl

theorem writeRecord_eq_ok {seq term tsNs : UInt64} {payload : List UInt8} {offset : Nat}
    (h : w.writeRecord crc32 seq term tsNs payload = (w', .ok offset)) :
    offset = w.cursor ∧ w.cursor + Record.size { seq, tsNs, term, payload } ≤ w.mmap.length ∧
      w' = { w with
        mmap := splice w.mmap w.cursor (Record.bytes crc32 { seq, tsNs, term, payload })
        cursor := w.cursor + Record.size { seq, tsNs, term, payload }
        lastSeq := seq } := by
  simp only [FileWalWriter.writeRecord] at h
  split at h
  · cases h
  rename_i hfits
  cases h
  exact ⟨rfl, Nat.not_lt.mp hfits, rfl⟩

theorem append_eq_ok {offset : Nat} (h : w.append codec crc32 sc = (w', .ok offset)) :
    ∃ r, Encodes codec sc r ∧ w.highestTerm ≤ r.term ∧ w.cursor + r.size ≤ w.mmap.length ∧
      w' = { mmap := splice w.mmap w.cursor (r.bytes crc32), cursor := w.cursor + r.size, lastSeq := r.seq
             highestTerm := r.term } ∧ offset = w.cursor := by
  unfold FileWalWriter.append at h
  split at h
  · cases h
  rename_i hterm
  split at h
  · cases h
  rename_i payload hpay
  obtain ⟨hoffset, hfits, hw'⟩ := writeRecord_eq_ok h
  exact ⟨{ seq := sc.seq, tsNs := sc.tsNs, term := sc.term, payload }, ⟨hpay, rfl, rfl, rfl⟩, UInt64.not_lt.mp hterm,
    hfits, hw', hoffset⟩

theorem seq_ne_zero {seq : UInt64} (h : 1 ≤ seq) : seq ≠ 0 := fun hzero => by
  rw [hzero] at h
  exact absurd h (by decide)

theorem Encodes.valid (h : Encodes codec sc r) (hseq : sc.seq ≠ 0) : r.Valid :=
  ⟨by rw [h.2.1]; exact hseq, codec.length_lt h.1⟩

theorem Encodes.length_lt (h : Encodes codec sc r) : r.payload.length < 2 ^ 32 := codec.length_lt h.1

theorem forall_of_encodes {P : SequencedCommand → Prop} {Q : Record → Prop} (henc : List.Forall₂ (Encodes codec) scs rs)
    (h : ∀ sc r, Encodes codec sc r → P sc → Q r) (hP : ∀ sc ∈ scs, P sc) : ∀ r ∈ rs, Q r := by
  induction henc with
  | nil => exact fun _ hr => absurd hr List.not_mem_nil
  | cons hr _ ih =>
    obtain ⟨hsc, hscs⟩ := List.forall_mem_cons.mp hP
    exact List.forall_mem_cons.mpr ⟨h _ _ hr hsc, ih hscs⟩

theorem valid_of_encodes (henc : List.Forall₂ (Encodes codec) scs rs) (hseq : ∀ sc ∈ scs, sc.seq ≠ 0) :
    ∀ r ∈ rs, r.Valid :=
  forall_of_encodes henc (fun _ _ => Encodes.valid) hseq

theorem length_lt_of_encodes (henc : List.Forall₂ (Encodes codec) scs rs) : ∀ r ∈ rs, r.payload.length < 2 ^ 32 :=
  forall_of_encodes henc (fun _ _ h (_ : True) => h.length_lt) fun _ _ => trivial

end MRE.Wal.Proof
