import MatchRiskEngine.Proof.Sequencer.Routing
import MatchRiskEngine.Proof.Wal.CrashSafety
import MatchRiskEngine.Spec.Recovery

/-!
# Promotion of a standby

Recovery takes the number of the last command it finds behind the snapshot, and
0 if it finds none. So a sequencer that counts on from it reuses numbers unless
the log goes on behind the snapshot (`recover_covers_iff`).
-/

namespace MRE.Proof.Recovery

open MRE.Wal hiding recover
open MRE.Wal.Proof MRE.Recovery

variable {codec : Codec} {crc32 : Checksum} {cap : Nat} {file : List UInt8} {w₀ w : FileWalWriter}
  {scs : List SequencedCommand}

/-! ## What is found -/

theorem appended_map (scs : List SequencedCommand) : appended (scs.map .append) = scs := by
  induction scs with
  | nil => rfl
  | cons sc scs ih => exact congrArg (sc :: ·) ih

/-- The log of commands that do not look like unwritten space. -/
theorem scanWal_nonzero (hzero : ∀ b ∈ file, b = 0) (hopen : openFile crc32 file cap = some (.ok w₀))
    (hrun : w₀.run codec crc32 cap (scs.map .append) = some w) (hseq : ∀ sc ∈ scs, sc.seq ≠ 0) (afterSeq : UInt64) :
    ∃ res, scanWal codec crc32 w.mmap afterSeq = some res ∧
      res.commands = scs.filter fun sc => afterSeq < sc.seq := by
  obtain ⟨h₀, hcap⟩ := openFile_zeros hzero hopen
  rw [← appended_map scs] at hseq
  obtain ⟨rs, h, henc, -⟩ := run_holds h₀ .nil hcap hrun hseq
  rw [appended_map] at henc
  obtain ⟨res, hres, hcmds, -⟩ := h.scanWal henc afterSeq
  exact ⟨res, hres, hcmds⟩

/-- A log that starts with a command that looks like unwritten space. -/
theorem scanWal_zero {sc : SequencedCommand} (hzero : ∀ b ∈ file, b = 0)
    (hopen : openFile crc32 file cap = some (.ok w₀))
    (hrun : w₀.run codec crc32 cap ((sc :: scs).map .append) = some w) (hseq : sc.seq = 0) (afterSeq : UInt64) :
    ∃ res, scanWal codec crc32 w.mmap afterSeq = some res ∧ res.commands = [] := by
  obtain ⟨h₀, -⟩ := openFile_zeros hzero hopen
  obtain ⟨rs, henc, hmmap, hroom, -⟩ := run_appends hrun
  cases henc with
  | @cons _ r _ rs hr hrs =>
    have hcursor : w₀.cursor = fileHeaderSize := h₀.cursor
    have hfits : w₀.cursor + ((r :: rs).flatMap (Record.bytes crc32)).length ≤ w₀.mmap.length := by
      rw [length_flatMap_bytes]
      exact hroom (List.cons_ne_nil r rs)
    have hmagic : slice w.mmap 0 8 = magic := by
      refine slice_magic ?_
      rw [hmmap, take_splice (by rw [hcursor]; decide) hfits]
      exact h₀.header
    have hdrop : w.mmap.drop fileHeaderSize = r.bytes crc32 ++ (rs.flatMap (Record.bytes crc32) ++
        w₀.mmap.drop (w₀.cursor + ((r :: rs).flatMap (Record.bytes crc32)).length)) := by
      rw [hmmap, drop_splice (Nat.le_of_eq hcursor.symm) hfits, hcursor, Nat.sub_self, List.take_zero, List.nil_append,
        List.flatMap_cons, List.append_assoc]
    have hreads : Reads crc32 (w.mmap.drop fileHeaderSize) [] (w.mmap.drop fileHeaderSize) := by
      refine .stop (not_startsWith_of_read (read_of_seq_eq_zero ?_))
      rw [hdrop, slice_bytes_seq, u64OfLe_leU64, hr.2.1, hseq]
    obtain ⟨res, hres, hcmds, -⟩ := scanWal_ok codec hmagic hreads afterSeq
    exact ⟨res, hres, hcmds⟩

/-! ## The last number -/

/-- The number that recovery takes from the commands it finds. -/
def lastSeq (scs : List SequencedCommand) : UInt64 := (scs.getLast?.map SequencedCommand.seq).getD 0

theorem le_lastSeq (hinc : scs.Pairwise fun a b => a.seq < b.seq) : ∀ sc ∈ scs, sc.seq ≤ lastSeq scs := by
  intro sc hsc
  obtain ⟨init, last, rfl⟩ := List.eq_nil_or_concat' scs |>.resolve_left (List.ne_nil_of_mem hsc)
  rw [lastSeq, List.getLast?_concat, Option.map_some, Option.getD_some]
  obtain hsc | hsc := List.mem_append.mp hsc
  · have hlt := (List.pairwise_append.mp hinc).2.2 sc hsc last List.mem_cons_self
    exact UInt64.le_of_lt hlt
  · rw [List.mem_singleton.mp hsc]
    exact UInt64.le_refl _

variable {s : UInt64}

/-- If a command is after the snapshot, the last of these is the last of all. -/
theorem covers_of_after (hinc : scs.Pairwise fun a b => a.seq < b.seq) (hafter : ∃ sc ∈ scs, s < sc.seq) :
    Covers (lastSeq (scs.filter fun sc => s < sc.seq)) s scs := by
  have hle := le_lastSeq (hinc.sublist List.filter_sublist : (scs.filter fun sc => s < sc.seq).Pairwise _)
  have hmem : ∀ sc ∈ scs, s < sc.seq → sc.seq ≤ lastSeq (scs.filter fun sc => s < sc.seq) := fun sc hsc hlt =>
    hle sc (List.mem_filter.mpr ⟨hsc, decide_eq_true hlt⟩)
  obtain ⟨sc₁, hsc₁, hlt₁⟩ := hafter
  have hs : s ≤ lastSeq (scs.filter fun sc => s < sc.seq) :=
    UInt64.le_trans (UInt64.le_of_lt hlt₁) (hmem sc₁ hsc₁ hlt₁)
  refine ⟨hs, fun sc hsc => ?_⟩
  by_cases hlt : s < sc.seq
  · exact hmem sc hsc hlt
  · exact UInt64.le_trans (UInt64.not_lt.mp hlt) hs

theorem lastSeq_of_not_after (hafter : ¬ ∃ sc ∈ scs, s < sc.seq) :
    lastSeq (scs.filter fun sc => s < sc.seq) = 0 := by
  rw [List.filter_eq_nil_iff.mpr fun sc hsc hlt => hafter ⟨sc, hsc, of_decide_eq_true hlt⟩]
  rfl

theorem le_zero_iff {x : UInt64} : x ≤ 0 ↔ x = 0 := by
  rw [UInt64.le_iff_toNat_le, ← UInt64.toNat_inj]
  exact Nat.le_zero

theorem covers_zero_iff : Covers 0 s scs ↔ s = 0 ∧ ∀ sc ∈ scs, sc.seq = 0 := by
  simp only [Covers, le_zero_iff]

theorem covers_iff_nonzero (hinc : scs.Pairwise fun a b => a.seq < b.seq) (hseq : ∀ sc ∈ scs, sc.seq ≠ 0) :
    Covers (lastSeq (scs.filter fun sc => s < sc.seq)) s scs ↔ LogCovers s scs := by
  by_cases hafter : ∃ sc ∈ scs, s < sc.seq
  · exact iff_of_true (covers_of_after hinc hafter) (Or.inr ⟨hseq, Or.inr hafter⟩)
  · rw [lastSeq_of_not_after hafter, covers_zero_iff, LogCovers]
    refine ⟨Or.inl, fun h => ?_⟩
    obtain h | ⟨-, rfl | h⟩ := h
    · exact h
    · refine ⟨rfl, fun sc hsc => ?_⟩
      exact absurd ⟨sc, hsc, UInt64.pos_iff_ne_zero.mpr (hseq sc hsc)⟩ hafter
    · exact absurd h hafter

theorem covers_iff_zero (hseq : ∃ sc ∈ scs, sc.seq = 0) : Covers 0 s scs ↔ LogCovers s scs := by
  rw [covers_zero_iff, LogCovers]
  refine ⟨Or.inl, fun h => ?_⟩
  obtain h | ⟨hne, -⟩ := h
  · exact h
  · obtain ⟨sc, hsc, hzero⟩ := hseq
    exact absurd hzero (hne sc hsc)

theorem head_seq_eq_zero (hinc : scs.Pairwise fun a b => a.seq < b.seq) (hseq : ∃ sc ∈ scs, sc.seq = 0) :
    ∃ sc rest, scs = sc :: rest ∧ sc.seq = 0 := by
  obtain ⟨sc, hsc, hzero⟩ := hseq
  cases scs with
  | nil => cases hsc
  | cons sc₀ rest =>
    refine ⟨sc₀, rest, rfl, ?_⟩
    obtain rfl | hsc := List.mem_cons.mp hsc
    · exact hzero
    · have hlt := (List.pairwise_cons.mp hinc).1 sc hsc
      rw [hzero] at hlt
      exact absurd hlt UInt64.not_lt_zero

/-! ## Recovery -/

theorem recover_eq {walBytes : List UInt8} {snapshot : Option Snapshot} {res : ScanResult}
    (h : scanWal codec crc32 walBytes (seqOf snapshot) = some res) :
    ∃ out, recover codec crc32 (some walBytes) snapshot = some (.ok out) ∧ out.lastRecoveredSeq = lastSeq res.commands := by
  simp only [recover, h, Option.bind_eq_bind, Option.bind_some]
  exact ⟨_, rfl, rfl⟩

theorem pollOnce_new {walFile : Option (List UInt8)} {snapshot : Option Snapshot} {out : RecoveryOutput}
    (h : recover codec crc32 walFile snapshot = some (.ok out)) :
    ∃ r, StandbyReplicator.new.pollOnce codec crc32 walFile snapshot = some (.ok out.lastRecoveredSeq, r) ∧
      r.lastSeq = out.lastRecoveredSeq := by
  simp only [StandbyReplicator.pollOnce, h, Option.bind_eq_bind, Option.bind_some]
  rw [if_neg (show ¬ out.highestTerm < StandbyReplicator.new.highestTerm from UInt64.not_lt_zero)]
  by_cases hlast : 0 < out.lastRecoveredSeq
  · rw [if_pos (show StandbyReplicator.new.lastSeq < out.lastRecoveredSeq from hlast)]
    exact ⟨_, rfl, rfl⟩
  · rw [if_neg (show ¬ StandbyReplicator.new.lastSeq < out.lastRecoveredSeq from hlast),
      le_zero_iff.mp (UInt64.not_lt.mp hlast)]
    exact ⟨_, rfl, rfl⟩

/-- What a sequencer assigns that counts on from a number. -/
theorem assigned_gt {gw : List (List InboundCommand)} {snapshots : Nat} {config : SequencerConfig} {initialSeq : UInt64}
    {actions : List Sequencer.Action} {q : Sequencer}
    (hrun : (Sequencer.new gw snapshots config initialSeq).run actions = some q)
    (hlt : initialSeq.toNat + q.dispatched.length < 2 ^ 64) : ∀ d ∈ q.dispatched, initialSeq < d.2.seq := by
  intro d hd
  have h := Sequencing.run_counted (Sequencing.new_counted gw snapshots config initialSeq) hrun
  have hgt := (Sequencing.numbered_seqs h.toTotalOrder).start_lt (by rw [List.length_map]; exact hlt)
  exact hgt d.2.seq (List.mem_map_of_mem hd)

/-- The number that recovery takes from a log of commands with increasing
numbers. -/
theorem recover_log (hzero : ∀ b ∈ file, b = 0) (hopen : openFile crc32 file cap = some (.ok w₀))
    (hrun : w₀.run codec crc32 cap (scs.map .append) = some w) (hinc : scs.Pairwise fun a b => a.seq < b.seq)
    (snapshot : Option Snapshot) :
    ∃ out, recover codec crc32 (some w.mmap) snapshot = some (.ok out) ∧
      (Covers out.lastRecoveredSeq (seqOf snapshot) scs ↔ LogCovers (seqOf snapshot) scs) := by
  by_cases hseq : ∃ sc ∈ scs, sc.seq = 0
  · have hiff := covers_iff_zero (s := seqOf snapshot) hseq
    obtain ⟨sc, rest, rfl, hsc⟩ := head_seq_eq_zero hinc hseq
    obtain ⟨res, hres, hcmds⟩ := scanWal_zero hzero hopen hrun hsc (seqOf snapshot)
    obtain ⟨out, hout, hlast⟩ := recover_eq hres
    rw [hcmds] at hlast
    exact ⟨out, hout, by rw [hlast]; exact hiff⟩
  · have hne : ∀ sc ∈ scs, sc.seq ≠ 0 := fun sc hsc hz => hseq ⟨sc, hsc, hz⟩
    obtain ⟨res, hres, hcmds⟩ := scanWal_nonzero hzero hopen hrun hne (seqOf snapshot)
    obtain ⟨out, hout, hlast⟩ := recover_eq hres
    rw [hcmds] at hlast
    exact ⟨out, hout, by rw [hlast]; exact covers_iff_nonzero hinc hne⟩

/-- Recovery of a log written to a new file, whose numbers increase, returns a
number that is not below the snapshot's or any of the log's exactly if the log
goes on behind the snapshot. It is the number a new standby is promoted with,
and then a sequencer that counts on from it assigns only numbers not used yet. -/
theorem recover_covers_iff (hzero : ∀ b ∈ file, b = 0) (hopen : openFile crc32 file cap = some (.ok w₀))
    (hrun : w₀.run codec crc32 cap (scs.map .append) = some w) (hinc : scs.Pairwise fun a b => a.seq < b.seq)
    (snapshot : Option Snapshot) :
    ∃ out, recover codec crc32 (some w.mmap) snapshot = some (.ok out) ∧
      (StandbyReplicator.new.pollOnce codec crc32 (some w.mmap) snapshot).map Prod.fst =
        some (.ok out.lastRecoveredSeq) ∧
      StandbyReplicator.new.runUntilPromoted codec crc32 [{ leader := true, walFile := some w.mmap, snapshot }] =
        some (some out.lastRecoveredSeq) ∧
      (Covers out.lastRecoveredSeq (seqOf snapshot) scs ↔ LogCovers (seqOf snapshot) scs) ∧
      (LogCovers (seqOf snapshot) scs → ∀ gw snapshots config actions q,
        (Sequencer.new gw snapshots config out.lastRecoveredSeq).run actions = some q →
        out.lastRecoveredSeq.toNat + q.dispatched.length < 2 ^ 64 →
        ∀ d ∈ q.dispatched, seqOf snapshot < d.2.seq ∧ ∀ sc ∈ scs, sc.seq < d.2.seq) := by
  obtain ⟨out, hout, hiff⟩ := recover_log hzero hopen hrun hinc snapshot
  obtain ⟨r, hpoll, hlast⟩ := pollOnce_new hout
  refine ⟨out, hout, ?_, ?_, hiff, fun hcovers gw snapshots config actions q hq hlt d hd => ?_⟩
  · rw [hpoll, Option.map_some]
  · simp only [StandbyReplicator.runUntilPromoted, hpoll, Option.bind_eq_bind, Option.bind_some, if_true, hlast]
  · have hgt := assigned_gt hq hlt d hd
    obtain ⟨hs, hscs⟩ := hiff.mpr hcovers
    refine ⟨?_, fun sc hsc => ?_⟩
    · exact UInt64.lt_of_le_of_lt hs hgt
    · exact UInt64.lt_of_le_of_lt (hscs sc hsc) hgt

/-- A snapshot of an empty shard. -/
def demoSnapshot (seq : UInt64) : Snapshot :=
  { header := { shardId := 0, seq, tsNs := 0, payloadLen := 0, crc32 := 0 }, payload := [] }

set_option maxRecDepth 2000

theorem run_demoLog : ∃ w, (⟨newFile, 32, 0, 0⟩ : FileWalWriter).run Bincode.codec byteSum 192
    ([demoCancel, demoFreeze].map .append) = some w :=
  Option.isSome_iff_exists.mp (by decide)

/-- A snapshot within the log. -/
theorem recover_covers_iff_demo :
    ∃ w out, recover Bincode.codec byteSum (some (FileWalWriter.mmap w)) (some (demoSnapshot 1)) = some (.ok out) ∧
      Covers out.lastRecoveredSeq 1 [demoCancel, demoFreeze] := by
  obtain ⟨w, hrun⟩ := run_demoLog
  obtain ⟨out, hout, -, -, hiff, -⟩ := recover_covers_iff (fun _ h => absurd h List.not_mem_nil) openFile_newFile hrun
    (by decide) (some (demoSnapshot 1))
  exact ⟨w, out, hout, hiff.mpr (Or.inr ⟨by decide, Or.inr ⟨demoFreeze, by decide, by decide⟩⟩)⟩

/-- A snapshot at the end of the log: recovery returns 0, and a sequencer that
counts on from it assigns 1 and 2 again. -/
theorem recover_at_snapshot :
    ∃ w out, (⟨newFile, 32, 0, 0⟩ : FileWalWriter).run Bincode.codec byteSum 192
        ([demoCancel, demoFreeze].map .append) = some w ∧
      recover Bincode.codec byteSum (some w.mmap) (some (demoSnapshot 2)) = some (.ok out) ∧
      out.lastRecoveredSeq = 0 ∧ ¬ Covers out.lastRecoveredSeq 2 [demoCancel, demoFreeze] ∧
      ((Sequencer.new [[.freezeAccount ⟨1⟩, .freezeAccount ⟨2⟩]] 0 { nSymbols := 1, snapshotSchedule := .default }
        out.lastRecoveredSeq).run [.iterate Sequencing.demoTick, .iterate Sequencing.demoTick]).map
          (fun q => q.dispatched.map fun d => d.2.seq) = some ([demoCancel, demoFreeze].map SequencedCommand.seq) := by
  obtain ⟨w, hrun⟩ := run_demoLog
  obtain ⟨res, hres, hcmds⟩ := scanWal_nonzero (fun _ h => absurd h List.not_mem_nil) openFile_newFile hrun (by decide)
    (seqOf (some (demoSnapshot 2)))
  obtain ⟨out, hout, hlast⟩ := recover_eq hres
  rw [hcmds, show lastSeq ([demoCancel, demoFreeze].filter fun sc => seqOf (some (demoSnapshot 2)) < sc.seq) = 0 from
    rfl] at hlast
  refine ⟨w, out, hrun, hout, hlast, ?_, ?_⟩
  · rw [hlast, covers_zero_iff]
    rintro ⟨hs, -⟩
    cases hs
  · rw [hlast]
    rfl

end MRE.Proof.Recovery
