import MatchRiskEngine.Framework.Actors
import MatchRiskEngine.Proof.Wal.RoundTrip
import MatchRiskEngine.Spec.DualLog

/-!
# Two logs in step

A write that one of the logs does not take leaves its record in the other, and
nothing removes it: the logs are in step throughout a run exactly if before each
write both take it or neither does (`inStep_run_iff`). Logs of the same capacity
are alike (`alike_sameCapacity`).
-/

namespace MRE.Proof.Mirror

open Wal Wal.Proof DualLog

variable {codec : Codec} {crc32 : Checksum} {w w' : FileWalWriter} {rs : List Record}
  {acc writes : List SequencedCommand} {sc : SequencedCommand} {d : DualLog X}

/-! ## One log -/

/-- A writer whose file holds some records. A refused record may have raised its
term above theirs. -/
structure Stores (crc32 : Checksum) (w : FileWalWriter) (rs : List Record) : Prop where
  holds : Holds crc32 { w with highestTerm := (rs.map Record.term).getLastD 0 } rs
  term : (rs.map Record.term).getLastD 0 ≤ w.highestTerm

/-- A writer from whose file these commands are recovered. -/
def Recovers (codec : Codec) (crc32 : Checksum) (w : FileWalWriter) (acc : List SequencedCommand) : Prop :=
  ∃ rs, Stores crc32 w rs ∧ List.Forall₂ (Encodes codec) acc rs

/-- A writer that has seen less lets through what this one does. -/
theorem append_lower {t : UInt64} {offset : Nat} (ht : t ≤ w.highestTerm)
    (h : w.append codec crc32 sc = (w', .ok offset)) :
    { w with highestTerm := t }.append codec crc32 sc = (w', .ok offset) := by
  unfold FileWalWriter.append at h ⊢
  split at h
  · cases h
  · rename_i hterm
    have hle : t ≤ sc.term := UInt64.le_trans ht (UInt64.not_lt.mp hterm)
    rw [if_neg (UInt64.not_lt.mpr hle)]
    exact h

theorem append_eq_error {e : WalError} (h : w.append codec crc32 sc = (w', .error e)) :
    w' = { w with highestTerm := w'.highestTerm } ∧ w.highestTerm ≤ w'.highestTerm := by
  unfold FileWalWriter.append at h
  split at h
  · cases h
    exact ⟨rfl, UInt64.le_refl _⟩
  · rename_i hterm
    simp only at h
    split at h
    · cases h
      exact ⟨rfl, UInt64.not_lt.mp hterm⟩
    · rw [FileWalWriter.writeRecord] at h
      simp only at h
      split at h
      · cases h
        exact ⟨rfl, UInt64.not_lt.mp hterm⟩
      · cases h

theorem append_isOk_iff (codec : Codec) (crc32 : Checksum) (w : FileWalWriter) (sc : SequencedCommand) :
    (w.append codec crc32 sc).2.isOk = true ↔ w.Takes codec sc := by
  unfold FileWalWriter.append FileWalWriter.Takes
  by_cases hterm : sc.term < w.highestTerm
  · rw [if_pos hterm]
    exact iff_of_false Bool.false_ne_true fun h => UInt64.not_lt.mpr h.1 hterm
  rw [if_neg hterm, and_iff_right (UInt64.not_lt.mp hterm)]
  cases codec.serialise sc.cmd with
  | none => simp [Except.isOk, Except.toBool]
  | some payload =>
    simp only [FileWalWriter.writeRecord, Option.some.injEq, exists_eq_left']
    split
    · rename_i hroom
      exact iff_of_false Bool.false_ne_true (Nat.not_le.mpr hroom)
    · rename_i hroom
      exact iff_of_true rfl (Nat.not_lt.mp hroom)

theorem Recovers.append_ok {offset : Nat} (h : Recovers codec crc32 w acc)
    (happ : w.append codec crc32 sc = (w', .ok offset)) (hseq : sc.seq ≠ 0) : Recovers codec crc32 w' (acc ++ [sc]) := by
  obtain ⟨rs, hstores, henc⟩ := h
  obtain ⟨r, hr, hholds, -⟩ := Holds.append hstores.holds (append_lower hstores.term happ) hseq
  have hsame : { w' with highestTerm := ((rs ++ [r]).map Record.term).getLastD 0 } = w' := by rw [← hholds.highestTerm]
  exact ⟨rs ++ [r], ⟨by rw [hsame]; exact hholds, by rw [← hholds.highestTerm]; exact UInt64.le_refl _⟩,
    List.rel_append henc (.cons hr .nil)⟩

theorem Recovers.append_error {e : WalError} (h : Recovers codec crc32 w acc)
    (happ : w.append codec crc32 sc = (w', .error e)) : Recovers codec crc32 w' acc := by
  obtain ⟨rs, hstores, henc⟩ := h
  obtain ⟨hw', hterm⟩ := append_eq_error happ
  refine ⟨rs, ⟨?_, UInt64.le_trans hstores.term hterm⟩, henc⟩
  rw [hw']
  exact hstores.holds

theorem seq_pos_of_valid (henc : List.Forall₂ (Encodes codec) acc rs) (hvalid : ∀ r ∈ rs, r.Valid) :
    ∀ sc ∈ acc, 0 < sc.seq := by
  induction henc with
  | nil => exact fun _ h => absurd h List.not_mem_nil
  | cons hr _ ih =>
    obtain ⟨hv, hvs⟩ := List.forall_mem_cons.mp hvalid
    refine List.forall_mem_cons.mpr ⟨?_, ih hvs⟩
    rw [← hr.2.1]
    exact seq_pos hv

theorem Recovers.recovered (h : Recovers codec crc32 w acc) : recovered codec crc32 w = some acc := by
  obtain ⟨rs, hstores, henc⟩ := h
  obtain ⟨res, hres, hcmds, -⟩ := Holds.scanWal hstores.holds henc 0
  have hseq := seq_pos_of_valid henc hstores.holds.valid
  rw [List.filter_eq_self.mpr fun sc hsc => decide_eq_true (hseq sc hsc)] at hcmds
  rw [MRE.recovered, show scanWal codec crc32 w.mmap 0 = some res from hres, Option.map_some, hcmds]

theorem Recovers.new {file : List UInt8} {cap : Nat} (hzero : ∀ b ∈ file, b = 0)
    (hopen : openFile crc32 file cap = some (.ok w)) : Recovers codec crc32 w [] ∧ w.lastSeq = 0 := by
  obtain ⟨hholds, -⟩ := openFile_zeros hzero hopen
  have hsame : { w with highestTerm := (([] : List Record).map Record.term).getLastD 0 } = w := by rw [← hholds.highestTerm]
  exact ⟨⟨[], ⟨by rw [hsame]; exact hholds, UInt64.zero_le⟩, .nil⟩, hholds.lastSeq⟩

/-! ## A write -/

/-- Both logs and the ring hold the accepted commands. -/
structure Inv (codec : Codec) (crc32 : Checksum) (d : DualLog X) (acc : List SequencedCommand) : Prop where
  logA : Recovers codec crc32 d.logA acc
  logB : Recovers codec crc32 d.logB acc
  entries : d.entries = acc.map fun sc => LogEntry.new sc.seq sc.term sc.tsNs sc.cmd
  seqs : d.pendingRing.toList.map Prod.fst = acc.map SequencedCommand.seq
  refs : d.pendingRing.toList.map Prod.snd = List.range d.entries.length

theorem Inv.inStep (h : Inv codec crc32 d acc) : d.InStep codec crc32 acc := by
  refine ⟨h.logA.recovered, h.logB.recovered, ?_⟩
  have hpending : d.pending = (d.pendingRing.toList.map Prod.snd).map fun i => d.entries[i]? := by
    rw [List.map_map]
    rfl
  have hall : (List.range d.entries.length).map (fun i => d.entries[i]?) = d.entries.map some :=
    List.ext_getElem (by simp) fun i h₁ h₂ => by simp
  rw [hpending, h.refs, hall, h.entries, List.map_map]
  rfl

/-- What a write can do: it reaches both logs, or none, or the logs are out of
step. -/
theorem writeCommand_cases (h : Inv codec crc32 d acc) (hseq : sc.seq ≠ 0) (hlast : ∀ x ∈ acc, x.seq < sc.seq) :
    (∃ entry, (d.writeCommand codec crc32 sc).2 = .ok entry ∧ (d.logA.Takes codec sc ↔ d.logB.Takes codec sc) ∧
      Inv codec crc32 (d.writeCommand codec crc32 sc).1 (acc ++ [sc])) ∨
    ∃ e, (d.writeCommand codec crc32 sc).2 = .error e ∧
      ((d.logA.Takes codec sc ↔ d.logB.Takes codec sc) ∧ Inv codec crc32 (d.writeCommand codec crc32 sc).1 acc ∨
        ¬ (d.logA.Takes codec sc ↔ d.logB.Takes codec sc) ∧
          ¬ (d.writeCommand codec crc32 sc).1.InStep codec crc32 acc) := by
  have hnot : acc ++ [sc] ≠ acc := fun he => by simpa using congrArg List.length he
  rw [← append_isOk_iff codec crc32, ← append_isOk_iff codec crc32, writeCommand, write]
  rcases hA : d.logA.append codec crc32 sc with ⟨logA, resA⟩
  rcases hB : d.logB.append codec crc32 sc with ⟨logB, resB⟩
  simp only
  cases resA with
  | ok a =>
    have hA' := h.logA.append_ok hA hseq
    cases resB with
    | ok b =>
      have hpush : (d.pendingRing.push sc.seq d.entries.length).toList =
          d.pendingRing.toList ++ [(sc.seq, d.entries.length)] := by
        refine Crossbeam.insert_last (fun x hx => ?_) _
        have hmem : x.1 ∈ acc.map SequencedCommand.seq := h.seqs ▸ List.mem_map_of_mem hx
        obtain ⟨y, hy, hyx⟩ := List.mem_map.mp hmem
        rw [← hyx]
        exact hlast y hy
      refine .inl ⟨_, rfl, Iff.rfl, hA', h.logB.append_ok hB hseq, ?_, ?_, ?_⟩
      · simp [h.entries]
      · simp [hpush, h.seqs]
      · simp [hpush, h.refs, List.range_succ]
    | error b =>
      refine .inr ⟨_, rfl, .inr ⟨fun he => Bool.false_ne_true (he.mp rfl), fun hin => hnot ?_⟩⟩
      exact Option.some.inj (hA'.recovered.symm.trans hin.logA)
  | error a =>
    cases resB with
    | ok b =>
      refine .inr ⟨_, rfl, .inr ⟨fun he => Bool.false_ne_true (he.mpr rfl), fun hin => hnot ?_⟩⟩
      exact Option.some.inj ((h.logB.append_ok hB hseq).recovered.symm.trans hin.logB)
    | error b =>
      exact .inr ⟨_, rfl, .inl ⟨Iff.rfl, h.logA.append_error hA, h.logB.append_error hB, h.entries, h.seqs, h.refs⟩⟩

/-! ## Whole runs -/

theorem inStep_iff_of_inv (h : Inv codec crc32 d acc) (hseq : ∀ sc ∈ writes, sc.seq ≠ 0)
    (hlast : ∀ x ∈ acc, ∀ sc ∈ writes, x.seq < sc.seq) (hinc : writes.Pairwise fun x y => x.seq < y.seq) :
    (∀ done, done <+: writes → (d.run codec crc32 done).InStep codec crc32 (acc ++ d.accepted codec crc32 done)) ↔
      d.Alike codec crc32 writes := by
  induction writes generalizing d acc with
  | nil =>
    refine iff_of_true (fun done hdone => ?_) trivial
    rw [List.prefix_nil.mp hdone]
    simpa [accepted, run] using h.inStep
  | cons sc writes ih =>
    obtain ⟨hsc, hseq⟩ := List.forall_mem_cons.mp hseq
    obtain ⟨hfirst, hinc⟩ := List.pairwise_cons.mp hinc
    have hlast' : ∀ x ∈ acc, ∀ y ∈ writes, x.seq < y.seq := fun x hx y hy => hlast x hx y (List.mem_cons_of_mem sc hy)
    have hnow : (d.run codec crc32 []).InStep codec crc32 (acc ++ d.accepted codec crc32 []) := by
      simpa [accepted, run] using h.inStep
    -- in step before this write, and from it on
    have hsplit : (∀ done, done <+: sc :: writes →
          (d.run codec crc32 done).InStep codec crc32 (acc ++ d.accepted codec crc32 done)) ↔
        ∀ done, done <+: writes → ((d.writeCommand codec crc32 sc).1.run codec crc32 done).InStep codec crc32
          (acc ++ (if (d.writeCommand codec crc32 sc).2.isOk then [sc] else []) ++
            (d.writeCommand codec crc32 sc).1.accepted codec crc32 done) := by
      rw [List.forall_prefix_cons, and_iff_right hnow]
      simp only [List.append_assoc]
      rfl
    rw [hsplit, Alike]
    obtain ⟨entry, hres, halike, hinv⟩ | ⟨e, hres, ⟨halike, hinv⟩ | ⟨hunlike, hout⟩⟩ :=
      writeCommand_cases h hsc fun x hx => hlast x hx sc List.mem_cons_self
    · have hacc : (if (d.writeCommand codec crc32 sc).2.isOk then [sc] else []) = [sc] := by rw [hres]; rfl
      have hlast'' : ∀ x ∈ acc ++ [sc], ∀ y ∈ writes, x.seq < y.seq := fun x hx y hy =>
        (List.mem_append.mp hx).elim (fun hx => hlast' x hx y hy) fun hx => List.mem_singleton.mp hx ▸ hfirst y hy
      rw [hacc, ih hinv hseq hlast'' hinc, and_iff_right halike]
    · have hacc : (if (d.writeCommand codec crc32 sc).2.isOk then [sc] else []) = [] := by rw [hres]; rfl
      rw [hacc, List.append_nil, ih hinv hseq hlast' hinc, and_iff_right halike]
    · have hacc : (if (d.writeCommand codec crc32 sc).2.isOk then [sc] else []) = [] := by rw [hres]; rfl
      rw [hacc, List.append_nil]
      refine iff_of_false (fun hall => hout ?_) fun h => hunlike h.1
      have hnow := hall [] List.nil_prefix
      rwa [accepted, List.append_nil] at hnow

theorem run_concat (d : DualLog X) (done : List SequencedCommand) (sc : SequencedCommand) :
    d.run codec crc32 (done ++ [sc]) = ((d.run codec crc32 done).writeCommand codec crc32 sc).1 := by
  rw [run, List.foldl_append]
  rfl

theorem accepted_concat (d : DualLog X) (done : List SequencedCommand) (sc : SequencedCommand) :
    d.accepted codec crc32 (done ++ [sc]) = d.accepted codec crc32 done ++
      if ((d.run codec crc32 done).writeCommand codec crc32 sc).2.isOk then [sc] else [] := by
  induction done generalizing d with
  | nil => exact List.append_nil _
  | cons x done ih =>
    rw [List.cons_append, accepted, accepted, ih, List.append_assoc]
    rfl

/-- Logs that are in step before and after a write that fails. -/
theorem failsCleanly_of_inStep {done : List SequencedCommand}
    (h : (d.run codec crc32 done).InStep codec crc32 (d.accepted codec crc32 done))
    (h' : (d.run codec crc32 (done ++ [sc])).InStep codec crc32 (d.accepted codec crc32 (done ++ [sc]))) :
    (d.run codec crc32 done).FailsCleanly codec crc32 sc := by
  intro e he
  rw [run_concat, accepted_concat, he, show (if (Except.error e : Except DualLogError EntryRef).isOk then [sc] else []) = []
    from rfl, List.append_nil] at h'
  exact ⟨h'.logA.trans h.logA.symm, h'.logB.trans h.logB.symm⟩

variable {config : DualLogConfig}

/-- On two new files, the logs and the ring hold what was accepted, after every
write, and a failed write leaves no trace, exactly if the logs are alike before
each write. -/
theorem inStep_run_iff {fileA fileB : List UInt8} (hzeroA : ∀ b ∈ fileA, b = 0)
    (hzeroB : ∀ b ∈ fileB, b = 0) (hopen : openLogs crc32 fileA fileB config .new [] = some (.ok d))
    (hinc : (d.lastAssignedSeq :: writes.map SequencedCommand.seq).Pairwise (· < ·)) :
    ((∀ done, done <+: writes → (d.run codec crc32 done).InStep codec crc32 (d.accepted codec crc32 done)) ∧
        ∀ done sc, done ++ [sc] <+: writes → (d.run codec crc32 done).FailsCleanly codec crc32 sc) ↔
      d.Alike codec crc32 writes := by
  have hinv : Inv codec crc32 d [] := by
    unfold openLogs at hopen
    obtain ⟨resA, hA, hopen⟩ := Option.bind_eq_some_iff.mp hopen
    cases resA with
    | error e => cases hopen
    | ok logA =>
      obtain ⟨resB, hB, hopen⟩ := Option.bind_eq_some_iff.mp hopen
      cases resB with
      | error e => cases hopen
      | ok logB =>
        cases hopen
        exact ⟨(Recovers.new hzeroA hA).1, (Recovers.new hzeroB hB).1, rfl, by simp, by simp⟩
  obtain ⟨hpos, hinc⟩ := List.pairwise_cons.mp hinc
  have hseq : ∀ sc ∈ writes, sc.seq ≠ 0 := fun sc hsc h0 => by
    have := hpos sc.seq (List.mem_map_of_mem hsc)
    rw [h0] at this
    exact absurd this UInt64.not_lt_zero
  have hiff := inStep_iff_of_inv hinv hseq (fun x hx => absurd hx List.not_mem_nil) (List.pairwise_map.mp hinc)
  simp only [List.nil_append] at hiff
  rw [← hiff]
  constructor
  · exact fun h => h.1
  · intro hall
    refine ⟨hall, fun done sc hdone => failsCleanly_of_inStep (hall done ?_) (hall _ hdone)⟩
    exact (List.prefix_append done [sc]).trans hdone

/-! ## Logs of the same capacity -/

theorem alike_same (h : d.logA = d.logB) (writes : List SequencedCommand) : d.Alike codec crc32 writes := by
  induction writes generalizing d with
  | nil => trivial
  | cons sc writes ih =>
    refine ⟨by rw [h], ih ?_⟩
    rw [writeCommand, write, h]
    rcases d.logB.append codec crc32 sc with ⟨log, _ | _⟩ <;> rfl

/-- New logs of the same capacity are alike, whatever is written. -/
theorem alike_sameCapacity {fileA fileB : List UInt8} (hzeroA : ∀ b ∈ fileA, b = 0)
    (hzeroB : ∀ b ∈ fileB, b = 0) (hcap : config.logACapacity = config.logBCapacity)
    (hopen : openLogs crc32 fileA fileB config .new [] = some (.ok d)) (writes : List SequencedCommand) :
    d.Alike codec crc32 writes := by
  refine alike_same ?_ writes
  unfold openLogs at hopen
  have hfile : openFile crc32 fileA config.logACapacity = openFile crc32 fileB config.logBCapacity := by
    simp only [openFile, setLen_zeros hzeroA, setLen_zeros hzeroB, hcap]
  rw [hfile] at hopen
  cases hB : openFile crc32 fileB config.logBCapacity with
  | none =>
    rw [hB] at hopen
    cases hopen
  | some res =>
    rw [hB] at hopen
    cases res with
    | error e => cases hopen
    | ok log =>
      cases hopen
      rfl

/-! ## Two new files -/

/-- New logs of these capacities. -/
def demoLogs (config : DualLogConfig) : Option (DualLog (.lists EntryRef)) :=
  (openLogs byteSum [] [] config .new []).bind Except.toOption

theorem openLogs_demo (h : (demoLogs config).isSome = true) :
    openLogs byteSum [] [] config .new [] = some (.ok ((demoLogs config).get h)) := eq_ok_get h

set_option maxRecDepth 2000

theorem demoLogs_equal : (demoLogs ⟨256, 256⟩).isSome = true := by decide

/-- Two files of the same capacity. -/
def equalLogs : DualLog (.lists EntryRef) := (demoLogs ⟨256, 256⟩).get demoLogs_equal

theorem inStep_run_iff_demo :
    openLogs byteSum [] [] ⟨256, 256⟩ .new [] = some (.ok equalLogs) ∧
    equalLogs.accepted Bincode.codec byteSum [demoCancel, demoFreeze] = [demoCancel, demoFreeze] ∧
    (∀ done, done <+: [demoCancel, demoFreeze] → (equalLogs.run Bincode.codec byteSum done).InStep Bincode.codec byteSum
      (equalLogs.accepted Bincode.codec byteSum done)) ∧
    ∀ done sc, done ++ [sc] <+: [demoCancel, demoFreeze] →
      (equalLogs.run Bincode.codec byteSum done).FailsCleanly Bincode.codec byteSum sc := by
  have hnil : ∀ b ∈ ([] : List UInt8), b = 0 := fun _ h => absurd h List.not_mem_nil
  refine ⟨openLogs_demo demoLogs_equal, by decide, ?_⟩
  exact (inStep_run_iff hnil hnil (openLogs_demo demoLogs_equal) (by decide)).mpr
    (alike_sameCapacity hnil hnil rfl (openLogs_demo demoLogs_equal) _)

theorem demoLogs_unequal : (demoLogs ⟨88, 80⟩).isSome = true := rfl

/-- The second file is too small for the record of `demoCancel`. -/
def unequalLogs : DualLog (.lists EntryRef) := (demoLogs ⟨88, 80⟩).get demoLogs_unequal

/-- The write fails, and its command can be recovered from the first log. -/
theorem logs_diverge : openLogs byteSum [] [] ⟨88, 80⟩ .new [] = some (.ok unequalLogs) ∧
    unequalLogs.results Bincode.codec byteSum [demoCancel] = [.error (.logBFailed (.capacityExhausted 80 88))] ∧
    recovered Bincode.codec byteSum (unequalLogs.run Bincode.codec byteSum [demoCancel]).logA = some [demoCancel] ∧
    recovered Bincode.codec byteSum (unequalLogs.run Bincode.codec byteSum [demoCancel]).logB = some [] :=
  ⟨openLogs_demo demoLogs_unequal, rfl, by decide, rfl⟩

end MRE.Proof.Mirror
