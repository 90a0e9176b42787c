import MatchRiskEngine.Proof.Wal.RoundTrip

/-!
# Reopening a torn log

The two scanners agree on where the records of a torn image end, but not on
which of them count: opening the file steps over a record that recovery cannot
decode, and what lies behind the new end of the log is not erased. Appending
to a torn image gives what was recoverable and then the new commands exactly
when neither gets in the way (`scanWal_reopened_iff`).
-/

namespace MRE.Wal.Proof

variable {codec : Codec} {crc32 : Checksum} {bs bs' rest rest' image : List UInt8} {r r' : Record}
  {rs rs' : List Record} {w w' : FileWalWriter} {scs : List SequencedCommand} {cap : Nat}

/-! ## Records that stay -/

theorem StartsWith.take (h : StartsWith crc32 bs r) {n : Nat} (hn : recordHeaderSize + r.payload.length ≤ n)
    (bs' : List UInt8) : StartsWith crc32 (bs.take n ++ bs') r := by
  obtain ⟨hvalid, rest, rfl⟩ := h
  have hhead : (r.header crc32).length ≤ n := by rw [length_header]; omega
  refine ⟨hvalid, rest.take (n - recordHeaderSize - r.payload.length) ++ bs', ?_⟩
  rw [List.take_append, List.take_of_length_le hhead, length_header, List.take_append,
    List.take_of_length_le (by omega : r.payload.length ≤ n - recordHeaderSize), List.append_assoc, List.append_assoc]

/-- What is read first is read again whatever follows it. -/
theorem Reads.take_append (h : Reads crc32 bs rs rest) (hfits : logSize rs ≤ bs.length)
    (h' : Reads crc32 bs' rs' rest') : Reads crc32 (bs.take (logSize rs) ++ bs') (rs ++ rs') rest' := by
  induction h with
  | stop => exact h'
  | @record bs r rs rest h hrest ih =>
    rw [show logSize (r :: rs) = r.size + logSize rs from rfl] at hfits ⊢
    refine .record (StartsWith.take h (Nat.le_trans (payload_le_size r) (Nat.le_add_right _ _)) bs') ?_
    have hlen : r.size ≤ (bs.take (r.size + logSize rs)).length := by rw [List.length_take]; omega
    rw [List.drop_append_of_le_length hlen, List.drop_take, Nat.add_sub_cancel_left]
    exact ih (by rw [List.length_drop]; omega)

theorem Reads.valid (h : Reads crc32 bs rs rest) : ∀ r ∈ rs, r.Valid := by
  induction h with
  | stop => exact fun _ h => absurd h List.not_mem_nil
  | record h _ ih => exact List.forall_mem_cons.mpr ⟨h.1, ih⟩

/-! ## What recovery makes of them -/

theorem blocks_iff (h : Reads crc32 bs rs rest) (t : UInt64) :
    Blocks codec crc32 bs t ↔ (recover codec 0 t rs).2 = none := by
  induction h generalizing t with
  | stop h =>
    refine ⟨fun hb => ?_, fun e => nomatch e⟩
    rcases hb with ⟨hr, -, -⟩ | ⟨hr, -, -⟩ | ⟨hr, -, -⟩ <;> exact absurd hr (h _)
  | @record bs r rs rest h _ ih =>
    have hs := seq_pos h.1
    by_cases ht : r.term < t
    · rw [recover_stale ht, ← ih]
      refine ⟨fun hb => ?_, .stale h ht⟩
      rcases hb with ⟨hr, ht', -⟩ | ⟨hr, -, hb⟩ | ⟨hr, ht', -⟩ <;> cases StartsWith.unique h hr
      · exact absurd ht ht'
      · exact hb
      · exact absurd ht ht'
    · cases hd : codec.deserialise r.payload with
      | none =>
        rw [recover_undecodable ht hs hd]
        exact ⟨fun _ => rfl, fun _ => .undecodable h ht hd⟩
      | some cmd =>
        rw [recover_decoded ht hs hd, ← ih]
        refine ⟨fun hb => ?_, .next h ht⟩
        rcases hb with ⟨hr, -, hd'⟩ | ⟨hr, ht', -⟩ | ⟨hr, -, hb⟩ <;> cases StartsWith.unique h hr
        · rw [hd] at hd'; cases hd'
        · exact absurd ht' ht
        · exact hb

theorem yields_iff (h : Reads crc32 bs rs rest) (t : UInt64) :
    Yields codec crc32 bs t ↔ (recover codec 0 t rs).1 ≠ [] := by
  induction h generalizing t with
  | stop h =>
    refine ⟨fun hy => ?_, fun e => absurd rfl e⟩
    rcases hy with ⟨hr, -, -⟩ | ⟨hr, -, -⟩ <;> exact absurd hr (h _)
  | @record bs r rs rest h _ ih =>
    have hs := seq_pos h.1
    by_cases ht : r.term < t
    · rw [recover_stale ht, ← ih]
      refine ⟨fun hy => ?_, .stale h ht⟩
      rcases hy with ⟨hr, ht', -⟩ | ⟨hr, -, hy⟩ <;> cases StartsWith.unique h hr
      · exact absurd ht ht'
      · exact hy
    · cases hd : codec.deserialise r.payload with
      | none =>
        rw [recover_undecodable ht hs hd]
        refine ⟨fun hy => ?_, fun e => absurd rfl e⟩
        rcases hy with ⟨hr, -, hd'⟩ | ⟨hr, ht', -⟩ <;> cases StartsWith.unique h hr
        · rw [hd] at hd'; cases hd'
        · exact absurd ht' ht
      | some cmd =>
        rw [recover_decoded ht hs hd]
        exact ⟨fun _ => List.cons_ne_nil _ _, fun _ => .decodable h ht (by rw [hd]; rfl)⟩

/-- Recovery that comes to the end of the records ends with the term of the last
command it found. -/
theorem recover_term (hvalid : ∀ r ∈ rs, r.Valid) {t t' : UInt64} (h : (recover codec 0 t rs).2 = some t') :
    t' = ((recover codec 0 t rs).1.map SequencedCommand.term).getLastD t := by
  induction rs generalizing t with
  | nil => exact (Option.some.inj h).symm
  | cons r rs ih =>
    obtain ⟨hr, hrs⟩ := List.forall_mem_cons.mp hvalid
    have hs := seq_pos hr
    by_cases ht : r.term < t
    · rw [recover_stale ht] at h ⊢
      exact ih hrs h
    · cases hd : codec.deserialise r.payload with
      | none =>
        rw [recover_undecodable ht hs hd] at h
        cases h
      | some cmd =>
        rw [recover_decoded ht hs hd] at h ⊢
        rw [List.map_cons, List.getLastD_cons]
        exact ih hrs h

theorem length_recover_le (afterSeq t : UInt64) (rs : List Record) :
    (recover codec afterSeq t rs).1.length ≤ rs.length := by
  induction rs generalizing t with
  | nil => exact Nat.le_refl _
  | cons r rs ih =>
    by_cases ht : r.term < t
    · rw [recover_stale ht]
      exact Nat.le_succ_of_le (ih t)
    by_cases hs : afterSeq < r.seq
    · cases hd : codec.deserialise r.payload with
      | none => rw [recover_undecodable ht hs hd]; exact Nat.zero_le _
      | some cmd => rw [recover_decoded ht hs hd]; exact Nat.succ_le_succ (ih r.term)
    · rw [recover_skipped ht hs]
      exact Nat.le_succ_of_le (ih r.term)

theorem length_recover_append_le (afterSeq t : UInt64) (rs rs' : List Record) :
    (recover codec afterSeq t (rs ++ rs')).1.length ≤ (recover codec afterSeq t rs).1.length + rs'.length := by
  rw [recover_append]
  cases (recover codec afterSeq t rs).2 with
  | none => exact Nat.le_add_right _ _
  | some t' =>
    rw [List.length_append]
    exact Nat.add_le_add_left (length_recover_le afterSeq t' rs') _

/-! ## The appends -/

theorem run_appends (h : w.run codec crc32 cap (scs.map .append) = some w') :
    ∃ rs, List.Forall₂ (Encodes codec) scs rs ∧ w'.mmap = splice w.mmap w.cursor (rs.flatMap (Record.bytes crc32)) ∧
      (rs ≠ [] → w.cursor + logSize rs ≤ w.mmap.length) ∧ (w.highestTerm :: rs.map Record.term).IsChain (· ≤ ·) := by
  induction scs generalizing w with
  | nil =>
    rw [← Option.some.inj h]
    exact ⟨[], .nil, (splice_nil _ _).symm, fun h => absurd rfl h, .singleton _⟩
  | cons sc scs ih =>
    rw [List.map_cons, FileWalWriter.run] at h
    split at h
    · rename_i w₁ offset happ
      obtain ⟨r, hr, hterm, hfits, rfl, -⟩ := append_eq_ok happ
      obtain ⟨rs, hrs, hmmap, hroom, hterms⟩ := ih h
      have hlen : w.cursor + (r.bytes crc32).length ≤ w.mmap.length := by rw [length_bytes]; exact hfits
      refine ⟨r :: rs, .cons hr hrs, ?_, fun _ => ?_, ?_⟩
      · rw [hmmap, List.flatMap_cons, ← splice_splice hlen, length_bytes]
      · rcases eq_or_ne rs [] with rfl | hne
        · exact hfits
        · have := hroom hne
          rw [length_splice hlen] at this
          rw [show logSize (r :: rs) = r.size + logSize rs from rfl, ← Nat.add_assoc]
          exact this
      · rw [List.map_cons, List.isChain_cons_cons]
        exact ⟨hterm, hterms⟩
    · cases h

theorem room_eq (h : List.Forall₂ (Encodes codec) scs rs) : room codec scs = logSize rs := by
  induction h with
  | nil => rfl
  | @cons sc r scs rs hr _ ih =>
    rw [room, List.map_cons, List.sum_cons, hr.1]
    exact congrArg (r.size + ·) ih

theorem last_term (h : List.Forall₂ (Encodes codec) scs rs) {sc : SequencedCommand} (hsc : sc ∈ scs.getLast?)
    (t : UInt64) : (rs.map Record.term).getLastD t = sc.term := by
  induction h generalizing t with
  | nil => cases hsc
  | @cons sc' r scs rs hr hrs ih =>
    rw [List.map_cons, List.getLastD_cons]
    cases hrs with
    | nil =>
      cases hsc
      exact hr.2.2.2
    | cons h₁ h₂ => exact ih hsc r.term

/-- A command with sequence number zero hides what is appended from it on. -/
theorem reads_of_seq_eq_zero (h : List.Forall₂ (Encodes codec) scs rs) (hzero : ∃ sc ∈ scs, sc.seq = 0)
    (bs : List UInt8) :
    ∃ rs' rest, Reads crc32 (rs.flatMap (Record.bytes crc32) ++ bs) rs' rest ∧ rs'.length < scs.length := by
  induction h with
  | nil =>
    obtain ⟨sc, hsc, -⟩ := hzero
    cases hsc
  | @cons sc r scs rs hr _ ih =>
    rw [List.flatMap_cons, List.append_assoc]
    by_cases hseq : sc.seq = 0
    · refine ⟨[], _, .stop (not_startsWith_of_read (read_of_seq_eq_zero ?_)), Nat.succ_pos _⟩
      rw [slice_bytes_seq, u64OfLe_leU64, hr.2.1, hseq]
    · obtain ⟨rs', rest, hreads, hlt⟩ := ih (by
        obtain ⟨x, hx, hx0⟩ := hzero
        rcases List.mem_cons.mp hx with rfl | hx
        · exact absurd hx0 hseq
        · exact ⟨x, hx, hx0⟩)
      refine ⟨r :: rs', rest, .record (startsWith_bytes (hr.valid hseq) _) ?_, Nat.succ_lt_succ hlt⟩
      rw [← length_bytes crc32 r, List.drop_left]
      exact hreads

/-! ## The torn image -/

theorem TornImage.header (h : TornImage codec crc32 cap image) :
    image.take 12 = magic ++ leU32 version ∧ image.length = cap := by
  obtain ⟨file, w₀, w, scs, p, tail, hzero, hopen, hrun, hp, rfl, hlen⟩ := h
  obtain ⟨h₀, hcap⟩ := openFile_zeros hzero hopen
  obtain ⟨rs, -, hmmap, hroom, -⟩ := run_appends hrun
  have hcur : 12 ≤ w₀.cursor := by rw [h₀.cursor]; decide
  have hsame : w.mmap.take 12 = w₀.mmap.take 12 ∧ w.mmap.length = w₀.mmap.length := by
    rcases eq_or_ne rs [] with rfl | hne
    · rw [hmmap, List.flatMap_nil, splice_nil]
      exact ⟨rfl, rfl⟩
    · have hfits := hroom hne
      rw [← length_flatMap_bytes crc32] at hfits
      rw [hmmap, take_splice hcur hfits, length_splice hfits]
      exact ⟨rfl, rfl⟩
  have hmin : 12 ≤ w.mmap.length := by
    have := congrArg List.length (hsame.1.trans h₀.header)
    rw [List.length_take, show (magic ++ leU32 version).length = 12 from rfl] at this
    omega
  have hp : 12 ≤ p := Nat.le_trans (by decide) hp
  refine ⟨?_, by rw [hlen, hsame.2, hcap]⟩
  rw [List.take_append_of_le_length (by rw [List.length_take]; omega), List.take_take, Nat.min_eq_left hp, hsame.1,
    h₀.header]

/-- The bytes behind the file header after appends behind the records of an
image. -/
theorem drop_appended (hfits : fileHeaderSize + logSize rs + logSize rs' ≤ image.length) :
    (splice image (fileHeaderSize + logSize rs) (rs'.flatMap (Record.bytes crc32))).drop fileHeaderSize =
      (image.drop fileHeaderSize).take (logSize rs) ++
        (rs'.flatMap (Record.bytes crc32) ++ image.drop (fileHeaderSize + logSize rs + logSize rs')) := by
  rw [← length_flatMap_bytes crc32 rs'] at hfits
  rw [drop_splice (Nat.le_add_right _ _) hfits, Nat.add_sub_cancel_left, length_flatMap_bytes, List.append_assoc]

theorem isChain_of_le (henc : List.Forall₂ (Encodes codec) scs rs) {t t' : UInt64}
    (h : (t :: rs.map Record.term).IsChain (· ≤ ·)) (hle : ∀ sc ∈ scs, t' ≤ sc.term) :
    (t' :: rs.map Record.term).IsChain (· ≤ ·) := by
  cases henc with
  | nil => exact .singleton _
  | @cons sc r scs rs hr _ =>
    rw [List.map_cons, List.isChain_cons_cons] at h ⊢
    refine ⟨?_, h.2⟩
    rw [hr.2.2.2]
    exact hle sc List.mem_cons_self

/-- Recovery of the records of an image, of those of the appended commands and
of those behind. -/
theorem recover_extended (hvalid : ∀ r ∈ rs, r.Valid) (henc : List.Forall₂ (Encodes codec) scs rs') {t t' : UInt64}
    (hterms : (t :: rs'.map Record.term).IsChain (· ≤ ·)) (hseq : ∀ sc ∈ scs, sc.seq ≠ 0)
    (hle : ∀ sc ∈ scs, ∀ c ∈ (recover codec 0 0 rs).1, c.term ≤ sc.term) (hend : (recover codec 0 0 rs).2 = some t')
    (behind : List Record) :
    (recover codec 0 0 (rs ++ (rs' ++ behind))).1 =
      (recover codec 0 0 rs).1 ++ (scs ++ (recover codec 0 ((rs'.map Record.term).getLastD t') behind).1) := by
  have ht' : ∀ sc ∈ scs, t' ≤ sc.term := fun sc hsc => by
    rw [recover_term hvalid hend]
    rcases List.mem_cons.mp (show ((recover codec 0 0 rs).1.map SequencedCommand.term).getLastD 0 ∈ _ from
      List.getLastD_mem_cons) with e | hmem
    · rw [e]; exact UInt64.zero_le
    · obtain ⟨c, hc, e⟩ := List.mem_map.mp hmem
      rw [← e]
      exact hle sc hsc c hc
  have hfilter : scs.filter (fun sc => 0 < sc.seq) = scs :=
    List.filter_eq_self.mpr fun sc hsc => decide_eq_true (UInt64.pos_iff_ne_zero.mpr (hseq sc hsc))
  simp only [recover_append, hend, recover_encodes henc 0 (isChain_of_le henc hterms ht'), hfilter]

/-- Reading an image again in which records were written behind those read. -/
theorem scanWal_appended (hheader : image.take 12 = magic ++ leU32 version)
    (hreads : Reads crc32 (image.drop fileHeaderSize) rs rest)
    (hfits : fileHeaderSize + logSize rs + logSize rs' ≤ image.length) {rs₂ : List Record} {rest₂ : List UInt8}
    (h₂ : Reads crc32 (rs'.flatMap (Record.bytes crc32) ++ image.drop (fileHeaderSize + logSize rs + logSize rs')) rs₂
      rest₂) :
    ∃ res, scanWal codec crc32 (splice image (fileHeaderSize + logSize rs) (rs'.flatMap (Record.bytes crc32))) 0 =
      some res ∧ res.commands = (recover codec 0 0 (rs ++ rs₂)).1 := by
  have hheader' : (splice image (fileHeaderSize + logSize rs) (rs'.flatMap (Record.bytes crc32))).take 12 =
      magic ++ leU32 version := by
    rw [take_splice (Nat.le_trans (by decide) (Nat.le_add_right fileHeaderSize _))
      (by rw [length_flatMap_bytes]; exact hfits), hheader]
  have h := Reads.take_append hreads (by rw [List.length_drop]; omega) h₂
  rw [← drop_appended hfits] at h
  obtain ⟨res, hres, hcmds, -⟩ := scanWal_ok codec (slice_magic hheader') h 0
  exact ⟨res, hres, hcmds⟩

/-- The appended commands are recovered, and nothing behind them, if and only if
the image lets itself be extended. -/
theorem recover_extended_iff (hreads : Reads crc32 (image.drop fileHeaderSize) rs rest)
    (henc : List.Forall₂ (Encodes codec) scs rs') {t : UInt64}
    (hterms : (t :: rs'.map Record.term).IsChain (· ≤ ·)) (hseq : ∀ sc ∈ scs, sc.seq ≠ 0)
    (hle : ∀ sc ∈ scs, ∀ c ∈ (recover codec 0 0 rs).1, c.term ≤ sc.term) (hne : scs ≠ []) {behind : List Record}
    {rest₂ : List UInt8}
    (hbehind : Reads crc32 (image.drop (fileHeaderSize + logSize rs + logSize rs')) behind rest₂) :
    (recover codec 0 0 (rs ++ (rs' ++ behind))).1 = (recover codec 0 0 rs).1 ++ scs ↔
      Extends codec crc32 image (fileHeaderSize + logSize rs) scs := by
  cases hend : (recover codec 0 0 rs).2 with
  | none =>
    have hblocks : Blocks codec crc32 _ 0 := (blocks_iff hreads 0).mpr hend
    simp only [recover_append, hend]
    exact ⟨fun e => absurd (List.self_eq_append_right.mp e) hne, fun h => absurd hblocks h.1⟩
  | some t' =>
    obtain ⟨sc, hsc⟩ : ∃ sc, scs.getLast? = some sc := ⟨_, List.getLast?_eq_some_getLast hne⟩
    have hfree : ¬ Blocks codec crc32 (image.drop fileHeaderSize) 0 := fun h => by
      rw [blocks_iff hreads, hend] at h
      cases h
    rw [recover_extended (Reads.valid hreads) henc hterms hseq hle hend, last_term henc hsc,
      List.append_cancel_left_eq, List.append_right_eq_self, ← not_iff_not, ← ne_eq, ← yields_iff hbehind]
    simp only [Extends, hfree, hsc, room_eq henc, not_false_eq_true, true_and, not_and, Option.mem_def,
      Option.some.injEq, forall_eq', not_not]
    exact ⟨fun h _ => h, fun h => h hseq⟩

/-- Opening a torn image and appending to it: recovery then gives what was
recoverable from the image and the appended commands, if and only if nothing
was appended or the image lets itself be extended. -/
theorem scanWal_reopened_iff (himage : TornImage codec crc32 cap image) :
    ∃ res, scanWal codec crc32 image 0 = some res ∧ ∀ w w' scs, openFile crc32 image cap = some (.ok w) →
      w.run codec crc32 cap (scs.map .append) = some w' →
      (∀ sc ∈ scs, ∀ c ∈ res.commands, c.term ≤ sc.term) →
      ∃ res', scanWal codec crc32 w'.mmap 0 = some res' ∧
        (res'.commands = res.commands ++ scs ↔ scs = [] ∨ Extends codec crc32 image w.cursor scs) := by
  obtain ⟨hheader, hlen⟩ := TornImage.header himage
  obtain ⟨rs, rest, hreads⟩ := exists_reads crc32 (image.drop fileHeaderSize)
  obtain ⟨res, hres, hcmds, -⟩ := scanWal_ok codec (slice_magic hheader) hreads 0
  refine ⟨res, hres, fun w w' scs hopen hrun hterm => ?_⟩
  rw [← hlen, openFile_of_header hheader hreads] at hopen
  cases hopen
  obtain ⟨rs₁, henc, hmmap, hroom, hterms⟩ := run_appends hrun
  rcases eq_or_ne scs [] with rfl | hne
  · cases henc
    rw [List.flatMap_nil, splice_nil] at hmmap
    rw [hmmap]
    exact ⟨res, hres, by simp⟩
  have hne₁ : rs₁ ≠ [] := fun e => hne (by rw [e] at henc; cases henc; rfl)
  have hfits : fileHeaderSize + logSize rs + logSize rs₁ ≤ image.length := hroom hne₁
  rw [hmmap]
  by_cases hseq : ∀ sc ∈ scs, sc.seq ≠ 0
  · obtain ⟨behind, rest₂, hbehind⟩ := exists_reads crc32 (image.drop (fileHeaderSize + logSize rs + logSize rs₁))
    obtain ⟨res', hres', hcmds'⟩ := scanWal_appended hheader hreads hfits
      (reads_bytes (valid_of_encodes henc hseq) hbehind)
    refine ⟨res', hres', ?_⟩
    rw [hcmds] at hterm
    rw [hcmds', hcmds, or_iff_right hne]
    exact recover_extended_iff hreads henc hterms hseq hterm hne hbehind
  · obtain ⟨rs₂, rest₂, hreads₂, hlt⟩ := reads_of_seq_eq_zero henc (by
      simpa only [not_forall, ne_eq, not_not, exists_prop] using hseq) _
    obtain ⟨res', hres', hcmds'⟩ := scanWal_appended hheader hreads hfits hreads₂
    refine ⟨res', hres', fun e => ?_, fun h => ?_⟩
    · have hshort : res'.commands.length < (res.commands ++ scs).length := by
        rw [hcmds', List.length_append, hcmds]
        exact Nat.lt_of_le_of_lt (length_recover_append_le 0 0 rs rs₂) (Nat.add_lt_add_left hlt _)
      rw [e] at hshort
      exact absurd hshort (Nat.lt_irrefl _)
    · rcases h with h | h
      · exact absurd h hne
      · exact absurd h.2.1 hseq

/-- A new file of 192 bytes. -/
def newFile : List UInt8 := magic ++ leU32 version ++ List.replicate 180 0

set_option maxRecDepth 2000

theorem openFile_newFile : openFile byteSum [] 192 = some (.ok ⟨newFile, 32, 0, 0⟩) := by decide

/-- The record of a command in bincode. -/
def demoRecord (sc : SequencedCommand) : Record := ⟨sc.seq, sc.tsNs, sc.term, Bincode.serialise sc.cmd⟩

/-- A log of one command, torn behind it. -/
def tornLog : List UInt8 := (splice newFile 32 ((demoRecord demoCancel).bytes byteSum)).take 88 ++ List.replicate 104 0xFF

theorem tornImage_tornLog : TornImage Bincode.codec byteSum 192 tornLog :=
  ⟨[], ⟨newFile, 32, 0, 0⟩, ⟨splice newFile 32 ((demoRecord demoCancel).bytes byteSum), 88, 1, 1⟩, [demoCancel], 88,
    List.replicate 104 0xFF, fun _ h => absurd h List.not_mem_nil, openFile_newFile, by decide, by decide, rfl,
    by decide⟩

theorem extends_tornLog : Extends Bincode.codec byteSum tornLog 88 [demoFreeze] := by
  -- nothing is read from the bytes behind the tear
  have hstop (n : Nat) (h : read byteSum (tornLog.drop n) = .corrupt) : Reads byteSum (tornLog.drop n) [] (tornLog.drop n) :=
    .stop fun r hr => by rw [read_eq_record.mpr hr] at h; cases h
  have hbytes : tornLog.drop 32 = [demoRecord demoCancel].flatMap (Record.bytes byteSum) ++ tornLog.drop 88 := by
    decide
  have hreads : Reads byteSum (tornLog.drop 32) [demoRecord demoCancel] (tornLog.drop 88) := by
    rw [hbytes]
    exact reads_bytes (List.forall_mem_singleton.mpr ⟨by decide, by decide⟩) (hstop 88 rfl)
  refine ⟨fun h => ?_, by decide, fun sc _ h => ?_⟩
  · cases (blocks_iff hreads 0).mp h
  · exact (yields_iff (hstop 136 rfl) sc.term).mp h rfl

theorem scanWal_reopened_iff_demo :
    openFile byteSum tornLog 192 = some (.ok ⟨tornLog, 88, 1, 1⟩) ∧
    ∃ w' res, (⟨tornLog, 88, 1, 1⟩ : FileWalWriter).run Bincode.codec byteSum 192 [.append demoFreeze] = some w' ∧
      scanWal Bincode.codec byteSum w'.mmap 0 = some res ∧ res.commands = [demoCancel, demoFreeze] := by
  have hopen : openFile byteSum tornLog 192 = some (.ok ⟨tornLog, 88, 1, 1⟩) := by decide
  have hrun : (⟨tornLog, 88, 1, 1⟩ : FileWalWriter).run Bincode.codec byteSum 192 [.append demoFreeze] =
      some ⟨splice tornLog 88 ((demoRecord demoFreeze).bytes byteSum), 136, 2, 2⟩ := by decide
  obtain ⟨res, hres, h⟩ := scanWal_reopened_iff tornImage_tornLog
  have hcmds : (scanWal Bincode.codec byteSum tornLog 0).map ScanResult.commands = some [demoCancel] := by decide
  rw [hres] at hcmds
  have hcmds : res.commands = [demoCancel] := Option.some.inj hcmds
  obtain ⟨res', hres', hiff⟩ := h _ _ [demoFreeze] hopen hrun (by rw [hcmds]; decide)
  rw [hcmds] at hiff
  exact ⟨hopen, _, res', hrun, hres', hiff.mpr (.inr extends_tornLog)⟩

/-- An image in which the header of an empty record, with its checksum zero,
stands where the log ends. -/
def emptyRecordImage : List UInt8 := newFile.take 32 ++ (leU64 1 ++ List.replicate 152 0)

/-- A command appended behind an empty record is lost. -/
theorem scanWal_reopened_lost : TornImage Bincode.codec byteSum 192 emptyRecordImage ∧
    Bincode.codec.deserialise [] = none ∧ byteSum [] = 0 ∧
    ∃ w w' res res', openFile byteSum emptyRecordImage 192 = some (.ok w) ∧
      w.run Bincode.codec byteSum 192 [.append demoCancel] = some w' ∧
      scanWal Bincode.codec byteSum emptyRecordImage 0 = some res ∧
      (∀ c ∈ res.commands, c.seq < demoCancel.seq ∧ c.term ≤ demoCancel.term) ∧
      scanWal Bincode.codec byteSum w'.mmap 0 = some res' ∧ res'.commands ≠ res.commands ++ [demoCancel] := by
  refine ⟨⟨[], ⟨newFile, 32, 0, 0⟩, ⟨newFile, 32, 0, 0⟩, [], 32, _, fun _ h => absurd h List.not_mem_nil, openFile_newFile,
    rfl, by decide, rfl, rfl⟩, rfl, rfl, ⟨emptyRecordImage, 64, 1, 0⟩,
    ⟨splice emptyRecordImage 64 ((demoRecord demoCancel).bytes byteSum), 120, 1, 1⟩, ⟨[], 1, 0, 0⟩, ⟨[], 1, 0, 0⟩,
    by decide, by decide, by decide, fun _ h => absurd h List.not_mem_nil, by decide,
    by decide⟩

end MRE.Wal.Proof
