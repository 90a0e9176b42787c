import MatchRiskEngine.Proof.Wal.Appends
import MatchRiskEngine.Proof.Wal.CrashSafety

/-!
# Truncated logs

No access of a scan is out of range, whatever the bytes
(`scanWalChecked_eq`). What it finds in the first part of a log are the records
whose header and payload are in it (`reads_take`), and so the commands that were
appended up to there (`scanWal_truncated`).
-/

namespace MRE.Wal.Proof

variable {codec : Codec} {crc32 : Checksum} {bs rest : List UInt8} {r r' : Record} {rs : List Record}
  {w w₀ : FileWalWriter} {scs : List SequencedCommand} {cap : Nat} {file : List UInt8}

/-! ## Accesses -/

theorem sliceChecked_eq {data : List UInt8} {a b : Nat} (h₁ : a ≤ b) (h₂ : b ≤ data.length) :
    sliceChecked data a b = some (slice data a b) := if_pos ⟨h₁, h₂⟩

theorem scanWalLoopChecked_eq (codec : Codec) (crc32 : Checksum) (data : List UInt8) (afterSeq : UInt64)
    (n offset : Nat) (lastSeq : UInt64) (res : ScanResult) :
    scanWalLoopChecked codec crc32 data afterSeq n offset lastSeq res =
      scanWalLoop codec crc32 data afterSeq n offset lastSeq res := by
  induction n generalizing offset lastSeq res with
  | zero => rfl
  | succ n ih =>
    rw [scanWalLoopChecked, scanWalLoop]
    by_cases hheader : data.length < offset + recordHeaderSize
    · rw [if_pos hheader, if_pos hheader]
    rw [if_neg hheader, if_neg hheader]
    have hlen : offset + 32 ≤ data.length := Nat.not_lt.mp hheader
    have hfield : ∀ a b, a ≤ b → b ≤ 32 →
        sliceChecked data (offset + a) (offset + b) = some (slice data (offset + a) (offset + b)) :=
      fun a b h₁ h₂ => sliceChecked_eq (by omega) (by omega)
    have hseq : sliceChecked data offset (offset + 8) = some (slice data offset (offset + 8)) :=
      hfield 0 8 (by decide) (by decide)
    simp only [hseq, hfield 8 16 (by decide) (by decide), hfield 16 20 (by decide) (by decide),
      hfield 20 24 (by decide) (by decide), hfield 24 32 (by decide) (by decide), Option.bind_eq_bind, Option.bind_some]
    split
    · rfl
    split
    · rfl
    rename_i hend
    rw [sliceChecked_eq (Nat.le_add_right _ _) (Nat.not_lt.mp hend), Option.bind_some]
    cases codec.deserialise _ with
    | none => simp only [ih]
    | some cmd => simp only [ih]

theorem scanWalChecked_eq (codec : Codec) (crc32 : Checksum) (data : List UInt8) (afterSeq : UInt64) :
    scanWalChecked codec crc32 data afterSeq = scanWal codec crc32 data afterSeq := by
  rw [scanWalChecked, scanWal]
  by_cases hheader : data.length < fileHeaderSize
  · rw [if_pos hheader, if_pos hheader]
  have hlen : 32 ≤ data.length := Nat.not_lt.mp hheader
  rw [if_neg hheader, if_neg hheader, sliceChecked_eq (by omega) (by omega)]
  simp only [Option.bind_eq_bind, Option.bind_some, scanWalLoopChecked_eq]

/-! ## The records of the first part -/

/-- The records whose header and payload are in the first `n` bytes. -/
def fitting : Nat → List Record → List Record
  | _, [] => []
  | n, r :: rs => if recordHeaderSize + r.payload.length ≤ n then r :: fitting (n - r.size) rs else []

theorem StartsWith.append (h : StartsWith crc32 bs r) (bs' : List UInt8) : StartsWith crc32 (bs ++ bs') r := by
  obtain ⟨hvalid, rest, rfl⟩ := h
  exact ⟨hvalid, rest ++ bs', by simp only [List.append_assoc]⟩

theorem StartsWith.payload_le (h : StartsWith crc32 bs r) : recordHeaderSize + r.payload.length ≤ bs.length := by
  obtain ⟨-, rest, rfl⟩ := h
  simp only [List.length_append, length_header]
  omega

theorem not_startsWith_take (h : StartsWith crc32 bs r) {n : Nat} (hn : n < recordHeaderSize + r.payload.length) :
    ∀ r', ¬ StartsWith crc32 (bs.take n) r' := by
  intro r' h'
  have hwhole := StartsWith.append h' (bs.drop n)
  rw [List.take_append_drop] at hwhole
  have hlen := StartsWith.payload_le h'
  rw [StartsWith.unique hwhole h, List.length_take] at hlen
  omega

/-- A scan of the first part of some records finds the fitting ones. -/
theorem reads_take (hvalid : ∀ r ∈ rs, r.Valid) (zeros n : Nat) :
    ∃ rest, Reads crc32 ((rs.flatMap (Record.bytes crc32) ++ List.replicate zeros 0).take n) (fitting n rs) rest := by
  induction rs generalizing n with
  | nil =>
    refine ⟨_, .stop (not_startsWith_of_read ?_)⟩
    rw [List.flatMap_nil, List.nil_append, List.take_replicate]
    exact read_zeros crc32 _
  | cons r rs ih =>
    obtain ⟨hr, hrs⟩ := List.forall_mem_cons.mp hvalid
    rw [List.flatMap_cons, List.append_assoc]
    have hstarts : StartsWith crc32 (r.bytes crc32 ++ (rs.flatMap (Record.bytes crc32) ++ List.replicate zeros 0)) r :=
      startsWith_bytes hr _
    by_cases hfits : recordHeaderSize + r.payload.length ≤ n
    · rw [fitting, if_pos hfits]
      obtain ⟨rest, hrest⟩ := ih hrs (n - r.size)
      refine ⟨rest, .record ?_ ?_⟩
      · have := StartsWith.take hstarts hfits []
        rwa [List.append_nil] at this
      · rw [List.drop_take, ← length_bytes crc32 r, List.drop_left, length_bytes]
        exact hrest
    · rw [fitting, if_neg hfits]
      exact ⟨_, .stop (not_startsWith_take hstarts (Nat.not_le.mp hfits))⟩

/-- What recovery finds in the fitting records: the commands whose header and
payload end in time. -/
theorem recover_fitting {t afterSeq : UInt64} (henc : List.Forall₂ (Encodes codec) scs rs)
    (hterms : (t :: rs.map Record.term).IsChain (· ≤ ·)) (offset n : Nat) :
    (recover codec afterSeq t (fitting (n - offset) rs)).1 =
      (((offsetsFrom offset rs).zip scs).filter fun x =>
        x.1 + recordHeaderSize + payloadLen codec x.2 ≤ n ∧ afterSeq < x.2.seq).map Prod.snd := by
  induction henc generalizing t offset with
  | nil => rfl
  | @cons sc r scs rs hr _ ih =>
    rw [List.map_cons, List.isChain_cons_cons] at hterms
    obtain ⟨hpay, hseq, hts, hterm⟩ := hr
    have hlen : payloadLen codec sc = r.payload.length := by rw [payloadLen, hpay, Option.getD_some]
    have ht : ¬ r.term < t := UInt64.not_lt.mpr hterms.1
    rw [fitting, offsetsFrom, List.zip_cons_cons, List.filter_cons]
    by_cases hfits : recordHeaderSize + r.payload.length ≤ n - offset
    · have hrest := ih hterms.2 (offset + r.size)
      rw [if_pos hfits, Nat.sub_sub]
      have hend : offset + recordHeaderSize + payloadLen codec sc ≤ n := by
        have : 0 < recordHeaderSize := by decide
        omega
      by_cases hs : afterSeq < r.seq
      · rw [recover_decoded ht hs (codec.deserialise_serialise hpay), hrest,
          if_pos (decide_eq_true ⟨hend, hseq ▸ hs⟩), List.map_cons, hseq, hts, hterm]
      · rw [recover_skipped ht hs, hrest, if_neg (by simp only [decide_eq_true_eq]; rw [← hseq]; exact fun h => hs h.2)]
    · rw [if_neg hfits]
      have hnot : ¬ offset + recordHeaderSize + payloadLen codec sc ≤ n := by omega
      have hlater : ∀ x ∈ (offsetsFrom (offset + r.size) rs).zip scs,
          ¬ decide (x.1 + recordHeaderSize + payloadLen codec x.2 ≤ n ∧ afterSeq < x.2.seq) = true := fun x hx => by
        have hle := le_of_mem_offsetsFrom (List.of_mem_zip hx).1
        have hsize := payload_le_size r
        simp only [decide_eq_true_eq]
        omega
      rw [if_neg (by simp only [decide_eq_true_eq]; exact fun h => hnot h.1), List.filter_eq_nil_iff.mpr hlater]
      rfl

/-- A scan of the first `n` bytes of a log returns the commands whose header and
payload are in them, and no access of it is out of range. -/
theorem scanWal_truncated (codec : Codec) (crc32 : Checksum) (file : List UInt8) (cap : Nat)
    (w₀ w : FileWalWriter) (scs : List SequencedCommand) (offsets : List Nat) (hzero : ∀ b ∈ file, b = 0)
    (hopen : openFile crc32 file cap = some (.ok w₀)) (happ : w₀.appendAll codec crc32 scs = (w, offsets.map .ok))
    (hseq : ∀ sc ∈ scs, 1 ≤ sc.seq) (n : Nat) (afterSeq : UInt64) :
    ∃ res, scanWalChecked codec crc32 (w.mmap.take n) afterSeq = some res ∧
      res.commands = ((offsets.zip scs).filter fun x =>
        x.1 + recordHeaderSize + payloadLen codec x.2 ≤ n ∧ afterSeq < x.2.seq).map Prod.snd := by
  obtain ⟨rs, henc, hwritten, hoffsets, hterms⟩ := appendAll_fresh hzero hopen happ
  have hvalid : ∀ r ∈ rs, r.Valid := valid_of_encodes henc fun sc hsc => seq_ne_zero (hseq sc hsc)
  rw [scanWalChecked_eq, hoffsets, ← recover_fitting henc hterms]
  obtain ⟨zeros, hlog⟩ := hwritten.log
  obtain ⟨rest, hreads⟩ := reads_take hvalid zeros (n - fileHeaderSize)
  rw [← hlog, ← List.drop_take] at hreads
  rcases Nat.lt_or_ge n fileHeaderSize with hn | hn
  · -- the file header is not whole
    have hfits : fitting (n - fileHeaderSize) rs = [] := by
      rw [Nat.sub_eq_zero_of_le (Nat.le_of_lt hn)]
      cases rs with
      | nil => rfl
      | cons r rs => exact if_neg (by simp [recordHeaderSize])
    refine ⟨.empty, if_pos ?_, by rw [hfits]; rfl⟩
    rw [List.length_take]
    omega
  · have hmagic : slice (w.mmap.take n) 0 8 = magic := by
      rw [slice, List.drop_zero, List.take_take, Nat.min_eq_left (Nat.le_trans (by decide) hn)]
      exact slice_magic hwritten.header
    obtain ⟨res, hres, hcommands, -⟩ := scanWal_ok codec hmagic hreads afterSeq
    exact ⟨res, hres, hcommands⟩

set_option maxRecDepth 2000

/-- The second command ends at byte 132, and its padding at 136. -/
theorem scanWal_truncated_demo : ∃ w res,
    freshWriter.appendAll Bincode.codec byteSum [demoCancel, demoFreeze] = (w, [32, 88].map .ok) ∧
    scanWalChecked Bincode.codec byteSum (w.mmap.take 132) 0 = some res ∧ res.commands = [demoCancel, demoFreeze] := by
  have hoffsets : (freshWriter.appendAll Bincode.codec byteSum [demoCancel, demoFreeze]).2 = [32, 88].map .ok := by
    decide
  obtain ⟨w, happ⟩ := exists_appendAll hoffsets
  obtain ⟨res, hres, hcommands⟩ := scanWal_truncated Bincode.codec byteSum [] 256 freshWriter w _ [32, 88]
    (fun _ h => absurd h List.not_mem_nil) (openFile_fresh byteSum) happ (by decide) 132 0
  exact ⟨w, res, happ, hres, hcommands.trans rfl⟩

end MRE.Wal.Proof
