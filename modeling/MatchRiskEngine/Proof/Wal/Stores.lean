import MatchRiskEngine.Proof.Wal.Appends

/-!
# The log on the disk

The stores of an append leave in memory what `append` says (`mem_callOps`).
With `sync_on_write`, whatever pages the system writes back and wherever the
writer is interrupted, all records of appends that returned are on the disk
(`Safe`), and recovery starts with their commands (`acked_survive`).
-/

namespace MRE.Wal.Proof

open MappedFile

variable {codec : Codec} {crc32 : Checksum} {w w' w₀ : FileWalWriter} {r : Record} {rs : List Record}
  {sc : SequencedCommand} {c : Call} {cs : List Call} {xs : List (Nat × SequencedCommand)} {cap page offset : Nat}
  {syncOnWrite : Bool} {f : MappedFile UInt8} {acts ops : List (MapOp UInt8)}

/-! ## The stores of a record -/

theorem Encodes.recordOf (h : Encodes codec sc r) : recordOf codec sc = r := by
  obtain ⟨hpay, hseq, hts, hterm⟩ := h
  rw [Wal.recordOf, hpay, ← hseq, ← hts, ← hterm]
  rfl

/-- The parts that a record is stored in. -/
def parts (crc32 : Checksum) (r : Record) : List (List UInt8) :=
  [leU64 r.seq, leU64 r.tsNs, leU32 (UInt32.ofNat r.payload.length), leU32 (crc32 r.payload), leU64 r.term, r.payload] ++
    List.replicate (r.size - (32 + r.payload.length)) [0]

theorem flatten_parts (crc32 : Checksum) (r : Record) : (parts crc32 r).flatten = r.bytes crc32 := by
  simp only [parts, List.flatten_append, List.flatten_replicate_singleton, Record.bytes, Record.header,
    List.flatten_cons, List.flatten_nil, List.append_assoc, List.append_nil]
  rfl

theorem storeAll_parts (crc32 : Checksum) (r : Record) (offset : Nat) :
    storeAll offset (parts crc32 r) =
      [.store offset (leU64 r.seq), .store (offset + 8) (leU64 r.tsNs),
        .store (offset + 16) (leU32 (UInt32.ofNat r.payload.length)), .store (offset + 20) (leU32 (crc32 r.payload)),
        .store (offset + 24) (leU64 r.term), .store (offset + 32) r.payload] ++
      (List.range (r.size - (32 + r.payload.length))).map fun i =>
        .store (offset + (32 + r.payload.length) + i) [0] := by
  have hlen : [leU64 r.seq, leU64 r.tsNs, leU32 (UInt32.ofNat r.payload.length), leU32 (crc32 r.payload), leU64 r.term,
      r.payload].flatten.length = 32 + r.payload.length := by
    simp only [List.flatten_cons, List.flatten_nil, List.length_append, length_leU64, length_leU32, List.length_nil]
    omega
  rw [parts, storeAll_append, storeAll_replicate, hlen]
  simp only [storeAll, length_leU64, length_leU32, Nat.add_assoc]

theorem appendOps_ok (syncOnWrite : Bool) (h : w.append codec crc32 sc = (w', .ok offset)) :
    w.appendOps codec crc32 syncOnWrite sc = storeAll w.cursor (parts crc32 (recordOf codec sc)) ++
      if syncOnWrite then [.sync w.cursor (recordOf codec sc).size] else [] := by
  obtain ⟨r, hr, hterm, hfits, -, -⟩ := append_eq_ok h
  have hrecord := hr.recordOf
  obtain ⟨hpay, hseq, hts, hterm'⟩ := hr
  rw [hrecord, storeAll_parts, FileWalWriter.appendOps, if_neg (UInt64.not_lt.mpr (hterm' ▸ hterm)), hpay, hseq, hts,
    hterm']
  exact if_neg (Nat.not_lt.mpr hfits)

theorem appendOps_error (syncOnWrite : Bool) {e : WalError} (h : w.append codec crc32 sc = (w', .error e)) :
    w.appendOps codec crc32 syncOnWrite sc = [] := by
  unfold FileWalWriter.append at h
  unfold FileWalWriter.appendOps
  by_cases hterm : sc.term < w.highestTerm
  · rw [if_pos hterm]
  · rw [if_neg hterm] at h ⊢
    cases hpay : codec.serialise sc.cmd with
    | none => rfl
    | some payload =>
      simp only [hpay, FileWalWriter.writeRecord] at h
      split at h
      · rename_i hfull
        exact if_pos hfull
      · cases h

/-! ## The log in memory -/

section Log

variable (codec : Codec) (crc32 : Checksum) (xs ys : List (Nat × SequencedCommand)) (x : Nat × SequencedCommand)

/-- The records of some commands. -/
def records : List Record := xs.map fun x => recordOf codec x.2

/-- A file's bytes up to the end of the records of some commands. -/
def logBytes : List UInt8 :=
  magic ++ leU32 version ++ List.replicate 20 0 ++ (records codec xs).flatMap (Record.bytes crc32)

/-- Where these bytes end. -/
def endOf : Nat := fileHeaderSize + logSize (records codec xs)

theorem records_append : records codec (xs ++ ys) = records codec xs ++ records codec ys := List.map_append

theorem endOf_append : endOf codec (xs ++ ys) = endOf codec xs + logSize (records codec ys) := by
  rw [endOf, records_append, logSize_append, ← Nat.add_assoc]
  rfl

theorem endOf_concat : endOf codec (xs ++ [x]) = endOf codec xs + (recordOf codec x.2).size := endOf_append codec xs [x]

theorem length_logBytes : (logBytes codec crc32 xs).length = endOf codec xs := by
  rw [logBytes, List.length_append, length_flatMap_bytes]
  rfl

theorem logBytes_append : logBytes codec crc32 (xs ++ ys) =
    logBytes codec crc32 xs ++ (records codec ys).flatMap (Record.bytes crc32) := by
  rw [logBytes, records_append, List.flatMap_append, ← List.append_assoc]
  rfl

theorem logBytes_concat :
    logBytes codec crc32 (xs ++ [x]) = logBytes codec crc32 xs ++ (recordOf codec x.2).bytes crc32 := by
  rw [logBytes_append, records, List.map_singleton, List.flatMap_singleton]

end Log

@[simp] theorem length_setLen (file : List UInt8) (n : Nat) : (setLen file n).length = n := by
  rw [setLen, List.length_append, List.length_take, List.length_replicate]
  omega

theorem setLen_of_le {file : List UInt8} {n : Nat} (h : file.length ≤ n) :
    setLen file n = file ++ List.replicate (n - file.length) 0 := by
  rw [setLen, List.take_of_length_le h]

theorem splice_setLen {bs bs' : List UInt8} {n : Nat} (h : bs.length + bs'.length ≤ n) :
    splice (setLen bs n) bs.length bs' = setLen (bs ++ bs') n := by
  rw [setLen_of_le (by omega), setLen_of_le (by rw [List.length_append]; omega), splice, List.take_left,
    List.drop_append, List.drop_eq_nil_of_le (by omega), List.drop_replicate, List.length_append, List.nil_append]
  congr 2
  omega

/-- A writer of a file of `cap` bytes that has appended `xs`. -/
structure Logged (codec : Codec) (crc32 : Checksum) (cap : Nat) (w : FileWalWriter)
    (xs : List (Nat × SequencedCommand)) : Prop where
  mmap : w.mmap = setLen (logBytes codec crc32 xs) cap
  cursor : w.cursor = endOf codec xs
  offsets : xs.map Prod.fst = offsetsFrom fileHeaderSize (records codec xs)
  encodes : ∀ x ∈ xs, Encodes codec x.2 (recordOf codec x.2)
  terms : (0 :: (records codec xs).map Record.term).IsChain (· ≤ ·)
  highest : ∀ r ∈ records codec xs, r.term ≤ w.highestTerm
  fits : xs ≠ [] → endOf codec xs ≤ cap

theorem openFile_nil (hopen : openFile crc32 [] cap = some (.ok w₀)) :
    12 ≤ cap ∧ w₀ = { mmap := splice (List.replicate cap 0) 0 (magic ++ leU32 version), cursor := fileHeaderSize
                      lastSeq := 0, highestTerm := 0 } := by
  simp only [openFile, setLen_zeros (List.forall_mem_nil _), List.length_replicate,
    if_pos (slice_zeros_ne_magic cap)] at hopen
  split at hopen
  · cases hopen
  · rename_i hcap
    cases hopen
    have hmagic : 0 + magic.length ≤ (List.replicate cap (0 : UInt8)).length := by
      rw [List.length_replicate]
      exact Nat.le_trans (by decide) (Nat.not_lt.mp hcap)
    rw [← splice_splice hmagic]
    exact ⟨Nat.not_lt.mp hcap, rfl⟩

theorem openFile_logged (hopen : openFile crc32 [] cap = some (.ok w₀)) : Logged codec crc32 cap w₀ [] := by
  obtain ⟨hcap, rfl⟩ := openFile_nil hopen
  refine ⟨?_, rfl, rfl, fun _ h => absurd h List.not_mem_nil, .singleton _, fun _ h => absurd h List.not_mem_nil,
    fun h => absurd rfl h⟩
  have hlen : (magic ++ leU32 version).length = 12 := rfl
  have hlen' : (magic ++ leU32 version ++ List.replicate 20 (0 : UInt8)).length = 32 := rfl
  rw [splice, List.take_zero, List.nil_append, List.drop_replicate, setLen, logBytes, records, List.map_nil,
    List.flatMap_nil, List.append_nil, List.take_append, List.take_of_length_le (hlen ▸ hcap), List.take_replicate,
    List.append_assoc (magic ++ leU32 version) (List.replicate _ _), List.replicate_append_replicate, hlen, hlen']
  refine congrArg (magic ++ leU32 version ++ List.replicate · 0) ?_
  omega

/-! ## One call -/

/-- What a call does: an append that returns, or one of the calls that leave the
log as it is. -/
theorem call_cases (codec : Codec) (crc32 : Checksum) (syncOnWrite : Bool) (w : FileWalWriter) (c : Call) :
    (∃ sc, Encodes codec sc (recordOf codec sc) ∧ w.highestTerm ≤ (recordOf codec sc).term ∧
        w.cursor + (recordOf codec sc).size ≤ w.mmap.length ∧ w.ackedBy codec crc32 c = [(w.cursor, sc)] ∧
        w.call codec crc32 c =
          { mmap := splice w.mmap w.cursor ((recordOf codec sc).bytes crc32)
            cursor := w.cursor + (recordOf codec sc).size, lastSeq := (recordOf codec sc).seq
            highestTerm := (recordOf codec sc).term } ∧
        w.callOps codec crc32 syncOnWrite c = storeAll w.cursor (parts crc32 (recordOf codec sc)) ++
          if syncOnWrite then [.sync w.cursor (recordOf codec sc).size] else []) ∨
      w.ackedBy codec crc32 c = [] ∧ (w.call codec crc32 c).mmap = w.mmap ∧
        (w.call codec crc32 c).cursor = w.cursor ∧ w.highestTerm ≤ (w.call codec crc32 c).highestTerm ∧
        (w.callOps codec crc32 syncOnWrite c = [] ∨ w.callOps codec crc32 syncOnWrite c = [.sync 0 w.mmap.length]) := by
  cases c with
  | flush => exact .inr ⟨rfl, rfl, rfl, UInt64.le_refl _, .inr rfl⟩
  | append sc =>
    rw [FileWalWriter.ackedBy, FileWalWriter.call]
    rcases h : w.append codec crc32 sc with ⟨w', e | offset⟩
    · have hops := appendOps_error syncOnWrite h
      rcases append_eq_error h with ⟨-, rfl⟩ | ⟨hterm, rfl⟩
      · exact .inr ⟨rfl, rfl, rfl, UInt64.le_refl _, .inl hops⟩
      · exact .inr ⟨rfl, rfl, rfl, hterm, .inl hops⟩
    · obtain ⟨r, hr, hterm, hfits, rfl, rfl⟩ := append_eq_ok h
      have hrecord := hr.recordOf
      exact .inl ⟨sc, hrecord ▸ hr, hrecord ▸ hterm, hrecord ▸ hfits, rfl, hrecord ▸ rfl, appendOps_ok syncOnWrite h⟩

/-- A call stores behind the cursor, and may then ask for a `sync`. -/
theorem callOps_eq (codec : Codec) (crc32 : Checksum) (syncOnWrite : Bool) (w : FileWalWriter) (c : Call) :
    ∃ ps, w.callOps codec crc32 syncOnWrite c = storeAll w.cursor ps ∨
      ∃ off len, w.callOps codec crc32 syncOnWrite c = storeAll w.cursor ps ++ [.sync off len] := by
  rcases call_cases codec crc32 syncOnWrite w c with ⟨sc, -, -, -, -, -, hops⟩ | ⟨-, -, -, -, hops | hops⟩
  · cases syncOnWrite with
    | false => exact ⟨_, .inl (hops.trans (List.append_nil _))⟩
    | true => exact ⟨_, .inr ⟨_, _, hops⟩⟩
  · exact ⟨[], .inl hops⟩
  · exact ⟨[], .inr ⟨_, _, hops⟩⟩

theorem offsetsFrom_append (offset : Nat) (rs rs' : List Record) :
    offsetsFrom offset (rs ++ rs') = offsetsFrom offset rs ++ offsetsFrom (offset + logSize rs) rs' := by
  induction rs generalizing offset with
  | nil => rfl
  | cons r rs ih =>
    rw [List.cons_append, offsetsFrom, offsetsFrom, ih, List.cons_append, Nat.add_assoc]
    rfl

theorem isChain_concat {t t' : UInt64} {ts : List UInt64} (h : (t :: ts).IsChain (· ≤ ·)) (hle : ∀ x ∈ ts, x ≤ t')
    (ht : t ≤ t') : (t :: (ts ++ [t'])).IsChain (· ≤ ·) := by
  rw [← List.cons_append]
  refine h.append (.singleton _) fun x hx y hy => ?_
  cases hy
  rcases List.mem_cons.mp (List.mem_of_getLast? hx) with rfl | hx
  · exact ht
  · exact hle x hx

theorem Logged.length_mmap (h : Logged codec crc32 cap w xs) : w.mmap.length = cap := by
  rw [h.mmap, length_setLen]

theorem Logged.call (h : Logged codec crc32 cap w xs) (c : Call) :
    Logged codec crc32 cap (w.call codec crc32 c) (xs ++ w.ackedBy codec crc32 c) := by
  rcases call_cases codec crc32 false w c with ⟨sc, henc, hterm, hfits, hacked, hw, -⟩ |
    ⟨hacked, hmmap, hcursor, hhigh, -⟩
  · rw [hacked, hw]
    have hrecords : records codec (xs ++ [(w.cursor, sc)]) = records codec xs ++ [recordOf codec sc] :=
      records_append codec xs _
    have hhighest : ∀ r ∈ records codec xs, r.term ≤ (recordOf codec sc).term := fun r hr =>
      UInt64.le_trans (h.highest r hr) hterm
    rw [h.length_mmap, h.cursor] at hfits
    refine ⟨?_, ?_, ?_, List.forall_mem_append.mpr ⟨h.encodes, List.forall_mem_singleton.mpr henc⟩, ?_, ?_, fun _ => ?_⟩
    · rw [logBytes_concat, h.mmap, h.cursor, ← length_logBytes codec crc32]
      exact splice_setLen (by rw [length_logBytes, length_bytes]; exact hfits)
    · rw [endOf_concat, h.cursor]
    · rw [hrecords, offsetsFrom_append, List.map_append, h.offsets, h.cursor]
      rfl
    · rw [hrecords, List.map_append, List.map_singleton]
      exact isChain_concat h.terms (List.forall_mem_map.mpr hhighest) UInt64.zero_le
    · rw [hrecords]
      exact List.forall_mem_append.mpr ⟨hhighest, List.forall_mem_singleton.mpr (UInt64.le_refl _)⟩
    · rw [endOf_concat]
      exact hfits
  · rw [hacked, List.append_nil]
    exact ⟨hmmap ▸ h.mmap, hcursor ▸ h.cursor, h.offsets, h.encodes, h.terms,
      fun r hr => UInt64.le_trans (h.highest r hr) hhigh, h.fits⟩

theorem mem_callOps (hmem : f.mem = w.mmap) (hacts : acts.filter MapOp.own = w.callOps codec crc32 syncOnWrite c) :
    (f.run page acts).mem = (w.call codec crc32 c).mmap := by
  rw [mem_run_filter page f acts f rfl, hacts]
  rcases call_cases codec crc32 syncOnWrite w c with ⟨sc, -, -, hfits, -, hw, hops⟩ | ⟨-, hmmap, -, -, hops⟩
  · have hsync : ∀ g : MappedFile UInt8, (g.run page (if syncOnWrite then
        [.sync w.cursor (recordOf codec sc).size] else [])).mem = g.mem := by
      intro g
      cases syncOnWrite <;> rfl
    rw [hops, run_append, hsync, mem_run_storeAll, flatten_parts, hw, hmem]
    rw [flatten_parts, length_bytes, hmem]
    exact hfits
  · rcases hops with hops | hops <;> rw [hops, hmmap] <;> exact hmem

theorem cursor_le_call (codec : Codec) (crc32 : Checksum) (w : FileWalWriter) (c : Call) :
    w.cursor ≤ (w.call codec crc32 c).cursor := by
  rcases call_cases codec crc32 false w c with ⟨sc, -, -, -, -, hw, -⟩ | ⟨-, -, hcursor, -, -⟩
  · rw [hw]
    exact Nat.le_add_right _ _
  · rw [hcursor]

theorem above_callOps (codec : Codec) (crc32 : Checksum) (syncOnWrite : Bool) (w : FileWalWriter) (c : Call) :
    ∀ op ∈ w.callOps codec crc32 syncOnWrite c, op.Above w.cursor := by
  obtain ⟨ps, hops | ⟨off, len, hops⟩⟩ := callOps_eq codec crc32 syncOnWrite w c <;> rw [hops]
  · exact above_storeAll w.cursor ps
  · exact List.forall_mem_append.mpr ⟨above_storeAll w.cursor ps, List.forall_mem_singleton.mpr trivial⟩

theorem above_ops : ∀ op ∈ w.ops codec crc32 syncOnWrite cs, op.Above w.cursor := by
  induction cs generalizing w with
  | nil => exact fun _ h => absurd h List.not_mem_nil
  | cons c cs ih =>
    refine List.forall_mem_append.mpr ⟨above_callOps codec crc32 syncOnWrite w c, fun op hop => ?_⟩
    exact (ih op hop).mono (cursor_le_call codec crc32 w c)

/-! ## Records on the disk -/

/-- The writer's memory, with the records of the appends that returned on the
disk. -/
structure Safe (w : FileWalWriter) (xs : List (Nat × SequencedCommand)) (f : MappedFile UInt8) : Prop where
  mem : f.mem = w.mmap
  synced : xs = [] ∨ f.Synced w.cursor

/-- Each `sync` covers the page on which the last one ended, and the first one
the file header. -/
theorem Safe.exists_synced (h : Safe w xs f) (hlog : Logged codec crc32 cap w xs) (hpage : fileHeaderSize < page) :
    ∃ m ≤ w.cursor, f.Synced m ∧ w.cursor / page ≤ m / page := by
  rcases h.synced with rfl | hsynced
  · refine ⟨0, Nat.zero_le _, fun i hi => absurd hi (Nat.not_lt_zero i), ?_⟩
    rw [hlog.cursor, show endOf codec [] = fileHeaderSize from rfl, Nat.div_eq_of_lt hpage]
    exact Nat.zero_le _
  · exact ⟨w.cursor, Nat.le_refl _, hsynced, Nat.le_refl _⟩

theorem Safe.call (h : Safe w xs f) (hlog : Logged codec crc32 cap w xs) (hpage : fileHeaderSize < page)
    (hacts : acts.filter MapOp.own = w.callOps codec crc32 true c) :
    Safe (w.call codec crc32 c) (xs ++ w.ackedBy codec crc32 c) (f.run page acts) := by
  refine ⟨mem_callOps h.mem hacts, ?_⟩
  rcases call_cases codec crc32 true w c with ⟨sc, -, -, -, -, hw, hops⟩ | ⟨hacked, -, hcursor, -, -⟩
  · obtain ⟨m, hm, hsynced, hpages⟩ := h.exists_synced hlog hpage
    refine .inr ?_
    rw [hw]
    exact hsynced.run_sync hpages (fun op hop => (above_storeAll w.cursor _ op hop).mono hm) (hacts.trans hops)
  · rw [hacked, List.append_nil, hcursor]
    exact h.synced.imp_right fun hsynced => hsynced.run page (above_of_filter (hacts ▸ above_callOps codec crc32 true w c))

theorem Safe.calls (h : Safe w xs f) (hlog : Logged codec crc32 cap w xs) (hpage : fileHeaderSize < page)
    (hacts : acts.filter MapOp.own = w.ops codec crc32 true cs) :
    Safe (w.calls codec crc32 cs) (xs ++ w.acked codec crc32 cs) (f.run page acts) ∧
      Logged codec crc32 cap (w.calls codec crc32 cs) (xs ++ w.acked codec crc32 cs) := by
  induction cs generalizing w xs f acts with
  | nil =>
    rw [FileWalWriter.acked, List.append_nil]
    have hquiet : ∀ op ∈ acts.filter MapOp.own, op.Above w.cursor := by
      rw [hacts]
      exact fun _ h => absurd h List.not_mem_nil
    refine ⟨⟨?_, h.synced.imp_right fun hsynced => hsynced.run page (above_of_filter hquiet)⟩, hlog⟩
    rw [mem_run_filter page f acts f rfl, hacts]
    exact h.mem
  | cons c cs ih =>
    obtain ⟨acts₁, acts₂, rfl, h₁, h₂⟩ := List.filter_eq_append_iff.mp hacts
    rw [run_append, FileWalWriter.acked, ← List.append_assoc]
    exact ih (h.call hlog hpage h₁) (hlog.call c) h₂

/-! ## Recovery -/

/-- Recovery finds the commands in their records, and goes on behind them. -/
theorem recover_records (henc : ∀ x ∈ xs, Encodes codec x.2 (recordOf codec x.2)) (hseq : ∀ x ∈ xs, x.2.seq ≠ 0)
    (hterms : (0 :: (records codec xs).map Record.term).IsChain (· ≤ ·)) (rs : List Record) :
    ∃ t, (recover codec 0 0 (records codec xs ++ rs)).1 = xs.map Prod.snd ++ (recover codec 0 t rs).1 := by
  have henc : List.Forall₂ (Encodes codec) (xs.map Prod.snd) (records codec xs) := by
    rw [records, List.forall₂_map_left_iff, List.forall₂_map_right_iff]
    exact List.forall₂_same.mpr henc
  have hall : (xs.map Prod.snd).filter (fun sc => 0 < sc.seq) = xs.map Prod.snd := by
    refine List.filter_eq_self.mpr fun sc hsc => ?_
    obtain ⟨x, hx, rfl⟩ := List.mem_map.mp hsc
    exact decide_eq_true (UInt64.pos_iff_ne_zero.mpr (hseq x hx))
  rw [recover_append, recover_encodes henc 0 hterms, hall]
  exact ⟨_, rfl⟩

theorem slice_of_front {image : List UInt8} (h : logBytes codec crc32 xs <+: image) : slice image 0 8 = magic := by
  obtain ⟨rest, rfl⟩ := h
  simp only [logBytes, List.append_assoc]
  exact slice_eq (p := []) rfl rfl rfl

/-- Recovery of a file that starts with a log starts with its commands. -/
theorem scanWal_of_front {image : List UInt8} (hlog : Logged codec crc32 cap w xs) (hseq : ∀ x ∈ xs, x.2.seq ≠ 0)
    (himage : logBytes codec crc32 xs <+: image) :
    ∃ res, scanWal codec crc32 image 0 = some res ∧ xs.map Prod.snd <+: res.commands := by
  have hmagic := slice_of_front himage
  obtain ⟨rest, rfl⟩ := himage
  have hdrop : (logBytes codec crc32 xs ++ rest).drop fileHeaderSize =
      (records codec xs).flatMap (Record.bytes crc32) ++ rest := by
    rw [logBytes, List.append_assoc]
    exact List.drop_left' rfl
  have hvalid : ∀ r ∈ records codec xs, r.Valid := by
    intro r hr
    obtain ⟨x, hx, rfl⟩ := List.mem_map.mp hr
    exact (hlog.encodes x hx).valid (hseq x hx)
  obtain ⟨rs, rest', hreads⟩ := exists_reads crc32 rest
  obtain ⟨res, hres, hcmds, -⟩ := scanWal_ok codec hmagic (hdrop ▸ reads_bytes hvalid hreads) 0
  obtain ⟨t, hrecover⟩ := recover_records hlog.encodes hseq hlog.terms rs
  refine ⟨res, hres, ?_⟩
  rw [hcmds, hrecover]
  exact List.prefix_append _ _

theorem openFile_mem (hopen : openFile crc32 [] cap = some (.ok w₀)) (hacts : acts.filter MapOp.own = writeFileHeaderOps) :
    ((clean (List.replicate cap 0)).run page acts).mem = w₀.mmap := by
  obtain ⟨hcap, rfl⟩ := openFile_nil hopen
  rw [mem_run_filter page _ acts _ rfl, hacts]
  have hroom : 0 + [magic, leU32 version].flatten.length ≤ (clean (List.replicate cap (0 : UInt8))).mem.length :=
    Nat.le_trans hcap (Nat.le_of_eq List.length_replicate.symm)
  exact mem_run_storeAll hroom

/-- A log with the records of the appends that returned on the disk starts
with them. -/
theorem Safe.front (h : Safe w xs f) (hlog : Logged codec crc32 cap w xs) (hxs : xs ≠ []) (page : Nat)
    (hops : ∀ op ∈ ops, op.Above w.cursor) : logBytes codec crc32 xs <+: (f.run page ops).disk := by
  have hsynced := (h.synced.resolve_left hxs).run page hops
  have hmem : (f.run page ops).disk.take w.cursor = w.mmap.take w.cursor :=
    take_eq_take fun i hi => by rw [hsynced i hi, getElem?_mem_run hops hi, h.mem]
  have hcursor : w.cursor = (logBytes codec crc32 xs).length := by rw [length_logBytes, hlog.cursor]
  have hfits : (logBytes codec crc32 xs).length ≤ cap := by
    rw [length_logBytes]
    exact hlog.fits hxs
  rw [List.prefix_iff_eq_take, ← hcursor, hmem, hlog.mmap, setLen_of_le hfits, hcursor, List.take_left]

/-- With `sync_on_write`, a crash at any moment, with any pages written back at
any time, leaves a file from which recovery finds the commands of all appends
that had returned, in their order and at the front. -/
theorem acked_survive (codec : Codec) (crc32 : Checksum) (hpage : fileHeaderSize < page)
    (hopen : openFile crc32 [] cap = some (.ok w₀)) (done later : List Call)
    (hseq : ∀ x ∈ w₀.acked codec crc32 done, x.2.seq ≠ 0) {cut : List (MapOp UInt8)}
    (hcut : cut <+: (w₀.calls codec crc32 done).ops codec crc32 true later)
    (hacts : acts.filter MapOp.own = writeFileHeaderOps ++ w₀.ops codec crc32 true done ++ cut) :
    ∃ res, scanWal codec crc32 ((clean (List.replicate cap 0)).run page acts).disk 0 = some res ∧
      (w₀.acked codec crc32 done).map Prod.snd <+: res.commands := by
  obtain ⟨acts', acts₂, rfl, h', h₂⟩ := List.filter_eq_append_iff.mp hacts
  obtain ⟨acts₀, acts₁, rfl, h₀, h₁⟩ := List.filter_eq_append_iff.mp h'
  have hnew : Safe w₀ [] ((clean (List.replicate cap 0)).run page acts₀) := ⟨openFile_mem hopen h₀, .inl rfl⟩
  obtain ⟨hsafe, hlog⟩ := hnew.calls (openFile_logged hopen) hpage h₁
  rw [List.nil_append] at hsafe hlog
  rw [run_append, run_append]
  by_cases hnone : w₀.acked codec crc32 done = []
  · obtain ⟨res, hres⟩ := exists_scanWal codec crc32
      ((((clean (List.replicate cap 0)).run page acts₀).run page acts₁).run page acts₂).disk 0
    exact ⟨res, hres, by rw [hnone]; exact List.nil_prefix⟩
  · refine scanWal_of_front hlog hseq (hsafe.front hlog hnone page (above_of_filter fun op hop => ?_))
    rw [h₂] at hop
    exact above_ops op (hcut.subset hop)

/-- An append, and a second one that is interrupted after three stores and
reaches the disk like that. -/
def tornAppend : List (MapOp UInt8) :=
  writeFileHeaderOps ++ freshWriter.ops Bincode.codec byteSum true [.append demoCancel] ++
    ((freshWriter.calls Bincode.codec byteSum [.append demoCancel]).ops Bincode.codec byteSum true
      [.append demoFreeze]).take 3

set_option maxRecDepth 8000 in
theorem acked_survive_torn :
    ∃ res, scanWal Bincode.codec byteSum
        ((clean (List.replicate 256 0)).run 4096 (.writeback 0 :: tornAppend ++ [.writeback 0])).disk 0 = some res ∧
      [demoCancel] <+: res.commands :=
  acked_survive Bincode.codec byteSum (by decide) (openFile_fresh byteSum) [.append demoCancel] [.append demoFreeze]
    (by decide) (List.take_prefix 3 _) rfl

end MRE.Wal.Proof
