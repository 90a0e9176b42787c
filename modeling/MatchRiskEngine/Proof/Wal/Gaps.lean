import MatchRiskEngine.Proof.Wal.RoundTrip

/-!
# Gaps

A scan looks for gaps only behind a record that comes after the starting point.
So without gaps the commands it returns are numbered one after the other
(`Numbered`, `scanRecord_numbered`), but the first record in the image that
counts may have any number above the starting point (`scanWal_seqs_iff`).
-/

namespace MRE.Wal.Proof

variable {codec : Codec} {crc32 : Checksum} {afterSeq lastSeq lastSeq' : UInt64} {res res' : ScanResult}
  {r : Record}

/-- What the scan knows of its numbers, if it found no gap: the commands are
numbered one after the other up to the last record, all above the starting
point. -/
structure Numbered (afterSeq lastSeq : UInt64) (res : ScanResult) : Prop where
  seqs : ∃ first, res.commands.map (·.seq.toNat) = List.range' first res.commands.length
  last : ∀ sc ∈ res.commands.getLast?, sc.seq = lastSeq
  above : res.commands ≠ [] → afterSeq < lastSeq

theorem numbered_empty (afterSeq : UInt64) : Numbered afterSeq afterSeq .empty :=
  ⟨⟨0, rfl⟩, (fun _ h => by cases h), fun h => absurd rfl h⟩

/-- One more command, which is the next one if there are any. -/
theorem Numbered.push {sc : SequencedCommand} (h : Numbered afterSeq lastSeq res)
    (hres' : res'.commands = res.commands ++ [sc]) (hseq : sc.seq = lastSeq') (hafter : afterSeq < lastSeq')
    (hnext : res.commands ≠ [] → lastSeq'.toNat = lastSeq.toNat + 1) : Numbered afterSeq lastSeq' res' := by
  subst hseq
  refine ⟨?_, fun sc' hsc' => ?_, fun _ => hafter⟩
  · obtain ⟨first, hseqs⟩ := h.seqs
    rw [hres']
    by_cases hnil : res.commands = []
    · refine ⟨sc.seq.toNat, ?_⟩
      simp [hnil]
    · refine ⟨first, ?_⟩
      have hlast := h.last _ (List.getLast?_eq_some_getLast hnil)
      have hnum : (res.commands.getLast hnil).seq.toNat = first + (res.commands.length - 1) := by
        have := congrArg List.getLast? hseqs
        rw [List.getLast?_map, List.getLast?_eq_some_getLast hnil, Option.map_some, List.getLast?_range'] at this
        have hpos := List.length_pos_iff.mpr hnil
        simp only [List.length_eq_zero_iff, hnil, if_false, Option.some.injEq] at this
        omega
      have hpos := List.length_pos_iff.mpr hnil
      have hseq : sc.seq.toNat = first + res.commands.length := by
        rw [hnext hnil, ← hlast, hnum]
        omega
      simp only [List.map_append, List.map_cons, List.map_nil, hseqs, List.length_append, List.length_singleton,
        List.range'_concat, hseq, Nat.one_mul]
  · rw [hres', List.getLast?_concat, Option.mem_some_iff] at hsc'
    rw [← hsc']

theorem toNat_next {seq : UInt64} (hseq : seq ≠ 0) (h : seq = lastSeq + 1) : seq.toNat = lastSeq.toNat + 1 := by
  have hne : seq.toNat ≠ 0 := fun e => hseq (UInt64.toNat_inj.mp e)
  rw [h, UInt64.toNat_add] at hne ⊢
  have hlt := lastSeq.toNat_lt
  simp only [UInt64.toNat_one] at hne ⊢
  omega

/-- A record keeps the numbers in order, unless it adds a gap. -/
theorem scanRecord_numbered (hseq : r.seq ≠ 0) (h : scanRecord codec afterSeq r lastSeq res = .ok (lastSeq', res'))
    (hgaps : res'.seqGaps = 0) : res.seqGaps = 0 ∧ (Numbered afterSeq lastSeq res → Numbered afterSeq lastSeq' res') := by
  unfold scanRecord at h
  by_cases hterm : r.term < res.highestTerm
  · rw [if_pos hterm] at h
    cases h
    exact ⟨hgaps, id⟩
  rw [if_neg hterm] at h
  -- behind a command, the record is the next one or a gap
  have hnext : ∀ gaps : Nat, (if r.seq ≠ lastSeq + 1 ∧ lastSeq ≠ 0 ∧ lastSeq ≠ afterSeq then gaps + 1 else gaps) = 0 →
      gaps = 0 ∧ (Numbered afterSeq lastSeq res → res.commands ≠ [] → r.seq.toNat = lastSeq.toNat + 1) := fun gaps hzero => by
    by_cases hgap : r.seq ≠ lastSeq + 1 ∧ lastSeq ≠ 0 ∧ lastSeq ≠ afterSeq
    · rw [if_pos hgap] at hzero
      cases hzero
    · rw [if_neg hgap] at hzero
      refine ⟨hzero, fun hnum hne => toNat_next hseq ?_⟩
      have hlt := UInt64.lt_iff_toNat_lt.mp (hnum.above hne)
      by_contra hother
      refine hgap ⟨hother, fun e => ?_, fun e => ?_⟩
      · rw [e, UInt64.toNat_zero] at hlt
        omega
      · rw [e] at hlt
        omega
  dsimp only at h
  by_cases hafter : afterSeq < r.seq
  · rw [if_pos hafter] at h
    split at h
    · cases h
      obtain ⟨hzero, hnum⟩ := hnext _ hgaps
      exact ⟨hzero, fun hbefore => hbefore.push rfl rfl hafter (hnum hbefore)⟩
    · cases h
  · rw [if_neg hafter] at h
    cases h
    obtain ⟨hzero, hnum⟩ := hnext _ hgaps
    refine ⟨hzero, fun hbefore => ?_⟩
    -- a record from before the starting point comes before all commands
    have hnil : res.commands = [] := by
      by_contra hne
      have h₁ := hnum hbefore hne
      have h₂ := UInt64.lt_iff_toNat_lt.mp (hbefore.above hne)
      exact hafter (UInt64.lt_iff_toNat_lt.mpr (by omega))
    refine ⟨⟨0, ?_⟩, fun sc hsc => ?_, fun hne => absurd hnil hne⟩
    · simp [hnil]
    · rw [hnil] at hsc
      cases hsc

theorem scanRecord_error (h : scanRecord codec afterSeq r lastSeq res = .error res') (hgaps : res'.seqGaps = 0) :
    res.seqGaps = 0 ∧ res'.commands = res.commands := by
  unfold scanRecord at h
  split at h
  · cases h
  dsimp only at h
  split at h
  · split at h
    · cases h
    · cases h
      refine ⟨?_, rfl⟩
      dsimp only at hgaps
      split at hgaps
      · cases hgaps
      · exact hgaps
  · cases h

theorem scanWalLoop_numbered {data : List UInt8} {n offset : Nat}
    (h : scanWalLoop codec crc32 data afterSeq n offset lastSeq res = some res') (hgaps : res'.seqGaps = 0) :
    res.seqGaps = 0 ∧ (Numbered afterSeq lastSeq res →
      ∃ first, res'.commands.map (·.seq.toNat) = List.range' first res'.commands.length) := by
  induction n generalizing offset lastSeq res with
  | zero => cases h
  | succ n ih =>
    rw [scanWalLoop_succ] at h
    cases hread : read crc32 (data.drop offset) with
    | unwritten =>
      rw [hread] at h
      cases h
      exact ⟨hgaps, fun hnum => hnum.seqs⟩
    | corrupt =>
      rw [hread] at h
      cases h
      exact ⟨hgaps, fun hnum => hnum.seqs⟩
    | record r =>
      have hseq := (read_eq_record.mp hread).1.seq
      rw [hread] at h
      dsimp only at h
      cases hscan : scanRecord codec afterSeq r lastSeq res with
      | ok next =>
        rw [hscan] at h
        obtain ⟨hzero, hseqs⟩ := ih h
        obtain ⟨hbefore, hnum⟩ := scanRecord_numbered hseq hscan hzero
        exact ⟨hbefore, fun hres => hseqs (hnum hres)⟩
      | error stopped =>
        rw [hscan] at h
        cases h
        obtain ⟨hzero, hcommands⟩ := scanRecord_error hscan hgaps
        rw [hcommands]
        exact ⟨hzero, fun hnum => hnum.seqs⟩

/-! ## The first command -/

/-- The first command that is recovered is that of the first record which
counts. -/
theorem firstAfter_iff {bs rest : List UInt8} {rs : List Record} (h : Reads crc32 bs rs rest) {t : UInt64}
    {sc : SequencedCommand} {scs : List SequencedCommand} (hfound : (recover codec afterSeq t rs).1 = sc :: scs)
    (n : UInt64) : FirstAfter crc32 afterSeq bs t n ↔ n = sc.seq := by
  induction h generalizing t with
  | stop => cases hfound
  | @record bs r rs rest h _ ih =>
    by_cases ht : r.term < t
    · rw [recover_stale ht] at hfound
      rw [← ih hfound]
      refine ⟨fun hf => ?_, .stale h ht⟩
      rcases hf with ⟨hr, ht', -⟩ | ⟨hr, -, hf⟩ | ⟨hr, ht', -, -⟩ <;> cases StartsWith.unique h hr
      · exact absurd ht ht'
      · exact hf
      · exact absurd ht ht'
    by_cases hs : afterSeq < r.seq
    · cases hd : codec.deserialise r.payload with
      | none =>
        rw [recover_undecodable ht hs hd] at hfound
        cases hfound
      | some cmd =>
        rw [recover_decoded ht hs hd] at hfound
        obtain ⟨rfl, -⟩ := List.cons.inj hfound
        refine ⟨fun hf => ?_, fun e => e ▸ .here h ht hs⟩
        rcases hf with ⟨hr, -, -⟩ | ⟨hr, ht', -⟩ | ⟨hr, -, hs', -⟩ <;> cases StartsWith.unique h hr
        · rfl
        · exact absurd ht' ht
        · exact absurd hs hs'
    · rw [recover_skipped ht hs] at hfound
      rw [← ih hfound]
      refine ⟨fun hf => ?_, .earlier h ht hs⟩
      rcases hf with ⟨hr, -, hs'⟩ | ⟨hr, ht', -⟩ | ⟨hr, -, -, hf⟩ <;> cases StartsWith.unique h hr
      · exact absurd hs' hs
      · exact absurd ht' ht
      · exact hf

theorem FirstAfter.lt {bs : List UInt8} {t n : UInt64} (h : FirstAfter crc32 afterSeq bs t n) : afterSeq < n := by
  induction h with
  | here _ _ hs => exact hs
  | stale _ _ _ ih => exact ih
  | earlier _ _ _ _ ih => exact ih

/-- Commands that a scan returns without gaps are the ones from the starting
point on, if and only if the first record that counts is the next one. -/
theorem scanWal_seqs_iff (codec : Codec) (crc32 : Checksum) (image : List UInt8) (afterSeq : UInt64)
    (res : ScanResult) (h : scanWal codec crc32 image afterSeq = some res) (hcommands : res.commands ≠ [])
    (hgaps : res.seqGaps = 0) (_hcorrupt : res.corruptRecords = 0) :
    res.commands.map (·.seq.toNat) = List.range' (afterSeq.toNat + 1) res.commands.length ↔
      FirstAfter crc32 afterSeq (image.drop fileHeaderSize) 0 (afterSeq + 1) := by
  have hmagic : slice image 0 8 = magic := by
    by_contra hmagic
    rw [scanWal, if_pos hmagic, ite_self] at h
    cases h
    exact hcommands rfl
  obtain ⟨first, hfirst⟩ : ∃ first, res.commands.map (·.seq.toNat) = List.range' first res.commands.length := by
    unfold scanWal at h
    rw [if_neg (not_not.mpr hmagic)] at h
    split at h
    · cases h
      exact ⟨0, rfl⟩
    · exact (scanWalLoop_numbered h hgaps).2 (numbered_empty afterSeq)
  obtain ⟨rs, rest, hreads⟩ := exists_reads crc32 (image.drop fileHeaderSize)
  obtain ⟨res', hres', hfound, -⟩ := scanWal_ok codec hmagic hreads afterSeq
  cases h.symm.trans hres'
  obtain ⟨sc, scs, hcons⟩ := List.exists_cons_of_ne_nil hcommands
  have hiff := firstAfter_iff hreads (hfound.symm.trans hcons)
  have hlt : afterSeq < sc.seq := FirstAfter.lt ((hiff sc.seq).mpr rfl)
  rw [hiff, hfirst, hcons, List.length_cons, List.range'_succ, List.range'_succ]
  rw [hcons, List.length_cons, List.map_cons, List.range'_succ] at hfirst
  rw [← (List.cons.inj hfirst).1]
  rw [UInt64.lt_iff_toNat_lt] at hlt
  constructor
  · intro heq
    refine UInt64.toNat_inj.mp ?_
    have hlt' := sc.seq.toNat_lt
    rw [(List.cons.inj heq).1] at hlt' ⊢
    rw [UInt64.toNat_add, UInt64.toNat_one, Nat.mod_eq_of_lt hlt']
  · intro heq
    have hne : sc.seq ≠ 0 := fun e => by
      rw [e] at hlt
      exact absurd hlt (Nat.not_lt_zero _)
    rw [toNat_next hne heq.symm]

/-- A log that starts with the second command. -/
def lateLog : Option FileWalWriter :=
  match openFile byteSum [] 256 with
  | some (.ok w₀) => w₀.run Bincode.codec byteSum 256 [.append demoFreeze]
  | _ => none

set_option maxRecDepth 2000

theorem lateLog_isSome : lateLog.isSome = true := by decide

set_option maxRecDepth 5000 in
theorem drop_lateLog : (lateLog.get lateLog_isSome).mmap.drop 32 =
    Record.bytes byteSum ⟨2, 6, 2, Bincode.serialise demoFreeze.cmd⟩ ++ List.replicate 176 0 := rfl

/-- After the first command, nothing is missing. -/
theorem scanWal_seqs_late : ∃ res, scanWal Bincode.codec byteSum (lateLog.get lateLog_isSome).mmap 1 = some res ∧
    res.commands ≠ [] ∧ res.seqGaps = 0 ∧ res.corruptRecords = 0 ∧
    res.commands.map (·.seq.toNat) = List.range' 2 res.commands.length := by
  have hscan : scanWal Bincode.codec byteSum (lateLog.get lateLog_isSome).mmap 1 =
      some { commands := [demoFreeze], corruptRecords := 0, seqGaps := 0, highestTerm := 2 } := by decide
  have hne : [demoFreeze] ≠ [] := List.cons_ne_nil _ _
  refine ⟨_, hscan, hne, rfl, rfl, (scanWal_seqs_iff _ _ _ _ _ hscan hne rfl rfl).mpr ?_⟩
  show FirstAfter byteSum 1 ((lateLog.get lateLog_isSome).mmap.drop 32) 0 2
  rw [drop_lateLog]
  exact .here (startsWith_bytes ⟨by decide, by decide⟩ _) (by decide) (by decide)

/-- From the start, the first command is missing and no gap is reported. -/
theorem lateLog_gap_unreported : ∃ res, scanWal Bincode.codec byteSum (lateLog.get lateLog_isSome).mmap 0 = some res ∧
    res.commands ≠ [] ∧ res.seqGaps = 0 ∧ res.corruptRecords = 0 ∧ res.commands.map (·.seq.toNat) = [2] ∧
    res.commands.map (·.seq.toNat) ≠ List.range' 1 res.commands.length :=
  ⟨{ commands := [demoFreeze], corruptRecords := 0, seqGaps := 0, highestTerm := 2 }, by decide,
    List.cons_ne_nil _ _, rfl, rfl, rfl, by decide⟩

end MRE.Wal.Proof
