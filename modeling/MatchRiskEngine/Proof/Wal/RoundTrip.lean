import Mathlib.Data.List.Chain
import MatchRiskEngine.Proof.Wal.Scan

/-!
# The log's round trip

From a file of zeros, whatever is appended is recovered, and opening the file
again finds the writer as it was (`scanWal_run`). The invariant (`Holds`): the
file is the header, the bytes of the records appended so far, and zeros.
-/

namespace MRE.Wal.Proof

/-- A file that is a header, records and zeros, and a writer that stands behind
the records. -/
structure Written (crc32 : Checksum) (w : FileWalWriter) (rs : List Record) : Prop where
  header : w.mmap.take 12 = magic ++ leU32 version
  log : ∃ n, w.mmap.drop fileHeaderSize = rs.flatMap (Record.bytes crc32) ++ List.replicate n 0
  cursor : w.cursor = fileHeaderSize + logSize rs

/-- A writer whose file is a header, records and zeros, and which stands behind
the records. -/
structure Holds (crc32 : Checksum) (w : FileWalWriter) (rs : List Record) : Prop where
  header : w.mmap.take 12 = magic ++ leU32 version
  log : ∃ n, w.mmap.drop fileHeaderSize = rs.flatMap (Record.bytes crc32) ++ List.replicate n 0
  cursor : w.cursor = fileHeaderSize + logSize rs
  lastSeq : w.lastSeq = (rs.map Record.seq).getLastD 0
  highestTerm : w.highestTerm = (rs.map Record.term).getLastD 0
  valid : ∀ r ∈ rs, r.Valid
  terms : (0 :: rs.map Record.term).IsChain (· ≤ ·)

variable {codec : Codec} {crc32 : Checksum} {w w' w₀ : FileWalWriter} {rs : List Record}
  {scs : List SequencedCommand} {cap : Nat} {file : List UInt8}

theorem slice_magic {data : List UInt8} (h : data.take 12 = magic ++ leU32 version) : slice data 0 8 = magic := by
  have h8 : data.take 8 = (data.take 12).take 8 := by rw [List.take_take]; rfl
  rw [slice, List.drop_zero, h8, h]
  rfl

theorem slice_version {data : List UInt8} (h : data.take 12 = magic ++ leU32 version) :
    u32OfLe (slice data 8 12) = version := by
  have h12 : slice data 8 12 = (data.take 12).drop 8 := by rw [slice, List.drop_take]
  rw [h12, h]
  decide

@[simp] theorem setLen_self (file : List UInt8) : setLen file file.length = file := by
  rw [setLen, List.take_length, Nat.sub_self, List.replicate_zero, List.append_nil]

theorem openFile_of_header {data rest : List UInt8} (h : data.take 12 = magic ++ leU32 version)
    (hlog : Reads crc32 (data.drop fileHeaderSize) rs rest) :
    openFile crc32 data data.length = some (.ok
      { mmap := data, cursor := fileHeaderSize + logSize rs, lastSeq := (rs.map Record.seq).getLastD 0
        highestTerm := (rs.map Record.term).getLastD 0 }) := by
  have hlen : 12 ≤ data.length := by
    have := congrArg List.length h
    rw [List.length_take, show (magic ++ leU32 version).length = 12 from rfl] at this
    omega
  have hmagic := slice_magic h
  simp only [openFile, setLen_self, validateFileHeader, hmagic, slice_version h, scanToEnd_ok hlog, ne_eq,
    not_true_eq_false, if_false, if_neg (Nat.not_lt.mpr hlen), Option.bind_eq_bind, Option.bind_some]

theorem setLen_zeros (hzero : ∀ b ∈ file, b = 0) (n : Nat) : setLen file n = List.replicate n 0 := by
  have hfile := List.eq_replicate_of_mem hzero
  rw [setLen, hfile, List.length_replicate, List.take_replicate, List.replicate_append_replicate]
  congr 1
  omega

theorem slice_zeros_ne_magic (n : Nat) : slice (List.replicate n (0 : UInt8)) 0 8 ≠ magic := fun h => by
  have := List.eq_of_mem_replicate (List.mem_of_mem_take (show 0x4D ∈ (List.replicate n (0 : UInt8)).take 8 by
    rw [show (List.replicate n (0 : UInt8)).take 8 = magic from h]; decide))
  exact absurd this (by decide)

theorem openFile_zeros (hzero : ∀ b ∈ file, b = 0) (hopen : openFile crc32 file cap = some (.ok w₀)) :
    Holds crc32 w₀ [] ∧ w₀.mmap.length = cap := by
  simp only [openFile, setLen_zeros hzero, List.length_replicate, if_pos (slice_zeros_ne_magic cap)] at hopen
  split at hopen
  · cases hopen
  rename_i hcap
  have hcap : 12 ≤ cap := Nat.not_lt.mp hcap
  have hfile : writeFileHeader (List.replicate cap 0) = (magic ++ leU32 version) ++ List.replicate (cap - 12) 0 := by
    rw [writeFileHeader]
    refine (splice_splice (a := 0) (by rw [List.length_replicate]; exact Nat.le_trans (by decide) hcap)).trans ?_
    rw [splice, List.take_zero, List.nil_append, List.drop_replicate]
    rfl
  cases hopen
  refine ⟨⟨?_, ⟨cap - 12 - 20, ?_⟩, rfl, rfl, rfl, fun _ h => absurd h List.not_mem_nil, .singleton _⟩, ?_⟩
  · rw [hfile]
    exact List.take_left' rfl
  · rw [hfile, show fileHeaderSize = (magic ++ leU32 version).length + 20 from rfl, ← List.drop_drop, List.drop_left,
      List.drop_replicate]
    rfl
  · rw [hfile, List.length_append, List.length_replicate, show (magic ++ leU32 version).length = 12 from rfl]
    omega

theorem Holds.reads (h : Holds crc32 w rs) :
    ∃ n, Reads crc32 (w.mmap.drop fileHeaderSize) rs (List.replicate n 0) := by
  obtain ⟨n, hn⟩ := h.log
  refine ⟨n, ?_⟩
  rw [hn]
  have hzeros := Reads.stop (not_startsWith_of_read (read_zeros crc32 n))
  simpa using reads_bytes h.valid hzeros

theorem Holds.reopen (h : Holds crc32 w rs) : openFile crc32 w.mmap w.mmap.length = some (.ok w) := by
  obtain ⟨n, hreads⟩ := Holds.reads h
  rw [openFile_of_header h.header hreads, ← h.cursor, ← h.lastSeq, ← h.highestTerm]

theorem Holds.written (h : Holds crc32 w rs) : Written crc32 w rs := ⟨h.header, h.log, h.cursor⟩

theorem Written.write {r : Record} (h : Written crc32 w rs) (hfits : w.cursor + r.size ≤ w.mmap.length)
    (hmmap : w'.mmap = splice w.mmap w.cursor (r.bytes crc32)) (hcursor : w'.cursor = w.cursor + r.size) :
    Written crc32 w' (rs ++ [r]) ∧ w'.mmap.length = w.mmap.length := by
  obtain ⟨n, hn⟩ := h.log
  have hcur : fileHeaderSize ≤ w.cursor := by rw [h.cursor]; exact Nat.le_add_right _ _
  have hfits' : w.cursor + (r.bytes crc32).length ≤ w.mmap.length := by rw [length_bytes]; exact hfits
  rw [← length_splice hfits', ← hmmap]
  refine ⟨⟨?_, ⟨n - r.size, ?_⟩, ?_⟩, rfl⟩
  · rw [hmmap, take_splice (Nat.le_trans (by decide) hcur) hfits']
    exact h.header
  · have hrest : w.mmap.drop (w.cursor + (r.bytes crc32).length) = List.replicate (n - r.size) 0 := by
      rw [h.cursor, Nat.add_assoc, ← List.drop_drop, hn, length_bytes, ← length_flatMap_bytes crc32, ← List.drop_drop,
        List.drop_left, List.drop_replicate]
    rw [hmmap, drop_splice hcur hfits', hrest, hn, h.cursor, Nat.add_sub_cancel_left, ← length_flatMap_bytes crc32,
      List.take_left, List.flatMap_append, List.flatMap_singleton]
  · rw [hcursor, logSize_append, ← Nat.add_assoc, ← h.cursor]
    rfl

theorem Holds.append {sc : SequencedCommand} {offset : Nat} (h : Holds crc32 w rs)
    (happ : w.append codec crc32 sc = (w', .ok offset)) (hseq : sc.seq ≠ 0) :
    ∃ r, Encodes codec sc r ∧ Holds crc32 w' (rs ++ [r]) ∧ w'.mmap.length = w.mmap.length := by
  obtain ⟨r, hr, hterm, hfits, hw', -⟩ := append_eq_ok happ
  obtain ⟨hwritten, hlen⟩ := h.written.write hfits (congrArg FileWalWriter.mmap hw') (congrArg FileWalWriter.cursor hw')
  subst hw'
  refine ⟨r, hr, ⟨hwritten.header, hwritten.log, hwritten.cursor, ?_, ?_, ?_, ?_⟩, hlen⟩
  · rw [List.map_append, List.map_singleton, List.getLastD_concat]
  · rw [List.map_append, List.map_singleton, List.getLastD_concat]
  · exact fun x hx => (List.mem_append.mp hx).elim (h.valid x) fun hx => List.mem_singleton.mp hx ▸ hr.valid hseq
  · rw [List.map_append, List.map_singleton, ← List.cons_append]
    refine h.terms.append (.singleton _) fun x hx y hy => ?_
    rw [List.getLast?_cons, ← List.getLastD_eq_getLast?, ← h.highestTerm] at hx
    cases hx
    cases hy
    exact hterm

/-- After every run the file holds the records of what was appended. -/
theorem run_holds {ops : List Op} (h : Holds crc32 w rs) (henc : List.Forall₂ (Encodes codec) scs rs)
    (hcap : w.mmap.length = cap) (hrun : w.run codec crc32 cap ops = some w')
    (hseq : ∀ sc ∈ appended ops, sc.seq ≠ 0) :
    ∃ rs', Holds crc32 w' rs' ∧ List.Forall₂ (Encodes codec) (scs ++ appended ops) rs' ∧ w'.mmap.length = cap := by
  induction ops generalizing w rs scs with
  | nil =>
    rw [← Option.some.inj hrun]
    exact ⟨rs, h, by rw [appended, List.filterMap_nil, List.append_nil]; exact henc, hcap⟩
  | cons op ops ih =>
    cases op with
    | append sc =>
      rw [show appended (.append sc :: ops) = sc :: appended ops from rfl] at hseq ⊢
      obtain ⟨hsc, hseq⟩ := List.forall_mem_cons.mp hseq
      rw [FileWalWriter.run] at hrun
      split at hrun
      · rename_i w₁ offset happ
        obtain ⟨r, hr, h₁, hlen⟩ := h.append happ hsc
        rw [List.append_cons]
        exact ih h₁ (List.rel_append henc (.cons hr .nil)) (hlen.trans hcap) hrun hseq
      · cases hrun
    | reopen =>
      rw [FileWalWriter.run, ← hcap, h.reopen, hcap] at hrun
      exact ih h henc hcap hrun hseq

/-- The commands of a log that are after a given number are recovered. -/
theorem Holds.scanWal (h : Holds crc32 w rs) (henc : List.Forall₂ (Encodes codec) scs rs) (afterSeq : UInt64) :
    ∃ res, scanWal codec crc32 w.mmap afterSeq = some res ∧
      res.commands = scs.filter (fun sc => afterSeq < sc.seq) ∧ res.corruptRecords = 0 := by
  obtain ⟨n, hreads⟩ := h.reads
  obtain ⟨res, hres, hcmds, hcorrupt⟩ := scanWal_ok codec (slice_magic h.header) hreads afterSeq
  have hrec := recover_encodes henc afterSeq h.terms
  refine ⟨res, hres, ?_, hcorrupt ?_ (read_zeros crc32 n)⟩
  · rw [hcmds, hrec]
  · rw [hrec]
    rfl

/-- Whatever is appended to a new file, with reopenings in between, is
recovered, and nothing is found corrupt; and opening the file once more finds
the writer as it was. -/
theorem scanWal_run (hzero : ∀ b ∈ file, b = 0) (hopen : openFile crc32 file cap = some (.ok w₀)) {ops : List Op}
    (hrun : w₀.run codec crc32 cap ops = some w) (hseq : ∀ sc ∈ appended ops, 1 ≤ sc.seq) (afterSeq : UInt64) :
    (∃ res, scanWal codec crc32 w.mmap afterSeq = some res ∧
      res.commands = (appended ops).filter (fun sc => afterSeq < sc.seq) ∧ res.corruptRecords = 0) ∧
    openFile crc32 w.mmap cap = some (.ok w) := by
  obtain ⟨h₀, hcap⟩ := openFile_zeros hzero hopen
  have hseq' : ∀ sc ∈ appended ops, sc.seq ≠ 0 := fun sc hsc => seq_ne_zero (hseq sc hsc)
  obtain ⟨rs, h, henc, hlen⟩ := run_holds h₀ .nil hcap hrun hseq'
  refine ⟨h.scanWal henc afterSeq, ?_⟩
  rw [← hlen]
  exact h.reopen

theorem eq_ok_get {ε α : Type} {x : Option (Except ε α)} (h : (x.bind Except.toOption).isSome = true) :
    x = some (.ok ((x.bind Except.toOption).get h)) := by
  rcases x with _ | (e | a)
  · cases h
  · cases h
  · rfl

/-- A checksum: the sum of the bytes. -/
def byteSum (bs : List UInt8) : UInt32 := bs.foldl (fun c b => c + b.toUInt32) 0

def demoCancel : SequencedCommand := { term := 1, seq := 1, tsNs := 5, cmd := .cancel ⟨10⟩ ⟨3⟩ }

def demoFreeze : SequencedCommand := { term := 2, seq := 2, tsNs := 6, cmd := .freezeAccount ⟨10⟩ }

def demoOps : List Op := [.append demoCancel, .reopen, .append demoFreeze]

/-- `demoOps` on a new file of 256 bytes. -/
def demoLog : Option FileWalWriter :=
  match openFile byteSum [] 256 with
  | some (.ok w₀) => w₀.run Bincode.codec byteSum 256 demoOps
  | _ => none

set_option maxRecDepth 2000

theorem scanWal_run_demo : ∃ w₀ w, openFile byteSum [] 256 = some (.ok w₀) ∧
    w₀.run Bincode.codec byteSum 256 demoOps = some w ∧
    (∃ res, scanWal Bincode.codec byteSum w.mmap 1 = some res ∧ res.commands = [demoFreeze] ∧ res.corruptRecords = 0) ∧
    openFile byteSum w.mmap 256 = some (.ok w) := by
  have hlog : demoLog.isSome = true := by decide
  unfold demoLog at hlog
  split at hlog
  · rename_i w₀ h₀
    obtain ⟨w, hrun⟩ := Option.isSome_iff_exists.mp hlog
    exact ⟨w₀, w, h₀, hrun, scanWal_run (fun _ h => absurd h List.not_mem_nil) h₀ hrun (by decide) 1⟩
  · cases hlog

end MRE.Wal.Proof
