import MatchRiskEngine.Proof.Wal.RoundTrip
import MatchRiskEngine.Spec.Recovery

/-!
# The newest snapshot is loaded

The names of a shard's snapshots are told from those of other shards by their
front (`shardPrefix_prefix_iff`), and compare as the sequence numbers do
(`snapshotPath_lt`). A directory holds what was last written under each name
(`lookup_writeAll`), and what is written is read back (`readSnapshot_file`). So
the last name at which a snapshot can be read is that of the newest intact one
(`latestSnapshot_eq`).
-/

namespace MRE.Proof.Recovery

open MRE.Recovery

variable {crc32 : Checksum} {dir dir' : Directory} {writes : List SnapshotWrite} {w : SnapshotWrite}
  {shardId shardId' : UInt32} {seq seq' : UInt64} {name : FileName}

/-! ## Extensions -/

theorem splitExtension_append {stem ext : FileName} (hstem : stem ≠ []) (hext : dot ∉ ext) :
    splitExtension (stem ++ dot :: ext) = (stem, some ext) := by
  have hafter : ((stem ++ dot :: ext).reverse.takeWhile (· ≠ dot)).reverse = ext := by
    have hdots : ∀ b ∈ ext.reverse, decide (b ≠ dot) = true := fun b hb =>
      decide_eq_true fun h => hext (h ▸ List.mem_reverse.mp hb)
    rw [List.reverse_append, List.reverse_cons, List.append_assoc, List.takeWhile_append_of_pos hdots]
    simp
  have hbefore : (stem ++ dot :: ext).take ((stem ++ dot :: ext).length - ext.length - 1) = stem := by
    rw [List.length_append, List.length_cons]
    exact List.take_left' (by omega)
  simp only [splitExtension, hafter, hbefore, if_neg hstem]

/-- The name of a snapshot, up to its extension. -/
def snapshotStem (shardId : UInt32) (seq : UInt64) : FileName := shardPrefix shardId ++ decimal 20 seq.toNat

theorem snapshotStem_ne_nil (shardId : UInt32) (seq : UInt64) : snapshotStem shardId seq ≠ [] := by
  simp [snapshotStem, shardPrefix]

theorem splitExtension_snapshotPath (shardId : UInt32) (seq : UInt64) :
    splitExtension (snapshotPath shardId seq) = (snapshotStem shardId seq, some snapExtension) :=
  splitExtension_append (snapshotStem_ne_nil shardId seq) (by decide)

theorem extension_snapshotPath (shardId : UInt32) (seq : UInt64) :
    extension (snapshotPath shardId seq) = some snapExtension := by
  rw [extension, splitExtension_snapshotPath]

/-- The name a snapshot is first written under is not that of a snapshot. -/
theorem tmpPath_ne (shardId shardId' : UInt32) (seq seq' : UInt64) :
    snapshotPath shardId' seq' ≠ withExtension (snapshotPath shardId seq) tmpExtension := fun h => by
  have hext := congrArg extension h
  rw [extension_snapshotPath, withExtension, splitExtension_snapshotPath, extension,
    splitExtension_append (snapshotStem_ne_nil shardId seq) (by decide)] at hext
  exact absurd (show some snapExtension = some tmpExtension from hext) (by decide)

/-! ## Names -/

theorem append_cons_inj {α : Type} {a : α} {xs ys xs' ys' : List α} (hxs : a ∉ xs) (hys : a ∉ ys)
    (h : xs ++ a :: xs' = ys ++ a :: ys') : xs = ys ∧ xs' = ys' := by
  induction xs generalizing ys with
  | nil =>
    rcases ys with _ | ⟨y, ys⟩
    · exact ⟨rfl, (List.cons.inj h).2⟩
    · exact absurd ((List.cons.inj h).1 ▸ List.mem_cons_self) hys
  | cons x xs ih =>
    rcases ys with _ | ⟨y, ys⟩
    · exact absurd ((List.cons.inj h).1 ▸ List.mem_cons_self) hxs
    · obtain ⟨hx, h⟩ := List.cons.inj h
      obtain ⟨hxs', htail⟩ := ih (fun h => hxs (List.mem_cons_of_mem _ h)) (fun h => hys (List.mem_cons_of_mem _ h)) h
      exact ⟨by rw [hx, hxs'], htail⟩

theorem underscore_notMem_decimal (k n : Nat) : 0x5F ∉ decimal k n := fun h =>
  absurd (mem_decimal h).2 (by decide)

theorem shardPrefix_prefix_iff : shardPrefix shardId <+: snapshotPath shardId' seq ↔ shardId = shardId' := by
  constructor
  · rintro ⟨rest, h⟩
    simp only [shardPrefix, snapshotPath, List.append_assoc] at h
    have hnumber := (append_cons_inj (underscore_notMem_decimal _ _) (underscore_notMem_decimal _ _)
      (List.append_cancel_left h)).1
    exact UInt32.toNat_inj.mp (decimal_inj hnumber)
  · rintro rfl
    rw [snapshotPath, List.append_assoc]
    exact List.prefix_append _ _

/-- Lists of one length compare before what follows them. -/
theorem append_lt_append {α : Type} [LT α] {xs ys : List α} (hlen : xs.length = ys.length) (h : xs < ys) (xs' ys' : List α) :
    xs ++ xs' < ys ++ ys' := by
  induction xs generalizing ys with
  | nil =>
    rw [List.length_eq_zero_iff.mp hlen.symm] at h
    exact absurd h (List.not_lt_nil _)
  | cons x xs ih =>
    obtain ⟨y, ys, rfl⟩ := List.exists_cons_of_length_eq_add_one hlen.symm
    rw [List.cons_append, List.cons_append, List.cons_lt_cons_iff]
    rw [List.cons_lt_cons_iff] at h
    exact h.imp id fun h => ⟨h.1, ih (Nat.succ.inj hlen) h.2⟩

theorem toNat_lt_pow (seq : UInt64) : seq.toNat < 10 ^ 20 := Nat.lt_of_lt_of_le seq.toNat_lt (by decide)

/-- The names of a shard's snapshots compare as the sequence numbers. -/
theorem snapshotPath_lt (shardId : UInt32) (h : seq.toNat < seq'.toNat) :
    snapshotPath shardId seq < snapshotPath shardId seq' := by
  have hlt := (decimal_lt_iff (toNat_lt_pow seq) (toNat_lt_pow seq')).mpr h
  rw [snapshotPath, snapshotPath, List.append_assoc, List.append_assoc]
  refine List.append_left_lt (append_lt_append ?_ hlt _ _)
  rw [length_decimal (toNat_lt_pow seq), length_decimal (toNat_lt_pow seq')]

theorem toNat_lt_of_le_of_ne (hle : snapshotPath shardId seq ≤ snapshotPath shardId seq')
    (hne : snapshotPath shardId seq' ≠ snapshotPath shardId seq) : seq.toNat < seq'.toNat := by
  rcases Nat.lt_trichotomy seq.toNat seq'.toNat with hlt | heq | hgt
  · exact hlt
  · exact absurd (by rw [UInt64.toNat_inj.mp heq]) hne
  · exact absurd (snapshotPath_lt shardId hgt) hle

theorem snapshotPath_inj (h : snapshotPath shardId seq = snapshotPath shardId' seq') :
    shardId = shardId' ∧ seq = seq' := by
  have hshard : shardId = shardId' := shardPrefix_prefix_iff.mp (h ▸ shardPrefix_prefix_iff.mpr rfl)
  subst hshard
  refine ⟨rfl, ?_⟩
  rcases Nat.lt_trichotomy seq.toNat seq'.toNat with hlt | heq | hgt
  · exact absurd (h ▸ snapshotPath_lt shardId hlt) (List.lt_irrefl _)
  · exact UInt64.toNat_inj.mp heq
  · exact absurd (h ▸ snapshotPath_lt shardId hgt) (List.lt_irrefl _)

/-! ## Files -/

/-- The contents of the file that a write leaves. -/
def file (crc32 : Checksum) (w : SnapshotWrite) : List UInt8 :=
  snapshotHeader crc32 w.shardId w.seq w.tsNs w.payload ++ w.payload

theorem readSnapshot_file (crc32 : Checksum) (h : w.payload.length < 2 ^ 32) :
    readSnapshot crc32 (file crc32 w) = .ok (w.snapshot crc32) := by
  have hfile : file crc32 w = snapMagic ++ (leU32 snapVersion ++ (leU32 w.shardId ++ (leU64 w.seq ++ (leU64 w.tsNs ++
      (leU32 (UInt32.ofNat w.payload.length) ++ (leU32 (crc32 w.payload) ++ (List.replicate 8 0 ++ w.payload))))))) := by
    simp only [file, snapshotHeader, List.append_assoc]
  have hlength : (file crc32 w).length = snapHeaderSize + w.payload.length := by
    rw [hfile]
    simp [snapMagic, snapHeaderSize]
    omega
  have h₁ : slice (file crc32 w) 0 8 = snapMagic := slice_eq (p := []) hfile rfl rfl
  have h₂ : slice (file crc32 w) 8 12 = leU32 snapVersion := slice_eq hfile rfl (by simp)
  have h₃ : slice (file crc32 w) 12 16 = leU32 w.shardId :=
    slice_eq (p := snapMagic ++ leU32 snapVersion) (by rw [hfile, List.append_assoc]) rfl (by simp)
  have h₄ : slice (file crc32 w) 16 24 = leU64 w.seq :=
    slice_eq (p := snapMagic ++ leU32 snapVersion ++ leU32 w.shardId)
      (by rw [hfile, List.append_assoc, List.append_assoc]) rfl (by simp)
  have h₅ : slice (file crc32 w) 24 32 = leU64 w.tsNs :=
    slice_eq (p := snapMagic ++ leU32 snapVersion ++ leU32 w.shardId ++ leU64 w.seq)
      (by rw [hfile, List.append_assoc, List.append_assoc, List.append_assoc]) rfl (by simp)
  have h₆ : slice (file crc32 w) 32 36 = leU32 (UInt32.ofNat w.payload.length) :=
    slice_eq (p := snapMagic ++ leU32 snapVersion ++ leU32 w.shardId ++ leU64 w.seq ++ leU64 w.tsNs)
      (by rw [hfile, List.append_assoc, List.append_assoc, List.append_assoc, List.append_assoc]) rfl (by simp)
  have h₇ : slice (file crc32 w) 36 40 = leU32 (crc32 w.payload) :=
    slice_eq (p := snapMagic ++ leU32 snapVersion ++ leU32 w.shardId ++ leU64 w.seq ++ leU64 w.tsNs ++
        leU32 (UInt32.ofNat w.payload.length))
      (by rw [hfile, List.append_assoc, List.append_assoc, List.append_assoc, List.append_assoc, List.append_assoc])
      rfl (by simp)
  have h₈ : slice (file crc32 w) snapHeaderSize (snapHeaderSize + w.payload.length) = w.payload :=
    slice_eq (p := snapshotHeader crc32 w.shardId w.seq w.tsNs w.payload) (by rw [List.append_nil]; rfl) rfl rfl
  have hlen : (UInt32.ofNat w.payload.length).toNat = w.payload.length := UInt32.toNat_ofNat_of_lt' h
  simp only [readSnapshot, h₁, h₂, h₃, h₄, h₅, h₆, h₇, h₈, u32OfLe_leU32, u64OfLe_leU64, hlen, hlength, Nat.lt_irrefl,
    ne_eq, not_true_eq_false, if_false]
  rw [if_neg (by omega)]
  rfl

theorem lookup_writeFile (dir : Directory) (name' : FileName) (contents : List UInt8) (name : FileName) :
    (writeFile dir name' contents).lookup name = if name = name' then some contents else dir.lookup name := by
  split
  · rename_i h
    rw [h, writeFile, AList.lookup_insert]
  · rename_i h
    rw [writeFile, AList.lookup_insert_ne h]

theorem rename_writeFile (dir : Directory) (source target : FileName) (contents : List UInt8) :
    ∃ dir', rename (writeFile dir source contents) source target = some dir' ∧
      ∀ name, dir'.lookup name =
        if name = target then some contents else if name = source then none else dir.lookup name := by
  refine ⟨writeFile ((writeFile dir source contents).erase source) target contents, ?_, fun name => ?_⟩
  · rw [rename, lookup_writeFile, if_pos rfl, Option.map_some]
  · rw [lookup_writeFile]
    split
    · rfl
    split
    · rename_i h
      rw [h, AList.lookup_erase]
    · rename_i h
      rw [AList.lookup_erase_ne h, lookup_writeFile, if_neg h]

/-- What a write within the bound does: the file stands under its name, and the
name it was first written under is free again. -/
theorem write_ok (crc32 : Checksum) {writer : SnapshotWriter} (hlen : w.payload.length ≤ writer.maxPayload)
    (dir : Directory) :
    ∃ dir', writer.write crc32 (some dir) w.shardId w.seq w.tsNs w.payload = (some dir', .ok w.path) ∧
      ∀ name, dir'.lookup name =
        if name = w.path then some (file crc32 w)
        else if name = withExtension w.path tmpExtension then none else dir.lookup name := by
  obtain ⟨dir', hrename, hlookup⟩ := rename_writeFile dir (withExtension w.path tmpExtension) w.path (file crc32 w)
  rw [SnapshotWrite.path, file] at hrename
  refine ⟨dir', ?_, hlookup⟩
  rw [SnapshotWriter.write, if_neg (Nat.not_lt.mpr hlen), Option.getD_some]
  simp only [hrename, Option.elim_some]
  rfl

/-- A directory holds what was last written under each name. -/
theorem lookup_writeAll (crc32 : Checksum) (writer : SnapshotWriter)
    (hlen : ∀ w ∈ writes, w.payload.length ≤ writer.maxPayload) :
    ∃ dir, writer.writeAll crc32 (some ∅) writes = some dir ∧
      ∀ name, dir.lookup name = (writes.filter (·.path = name)).getLast?.map (file crc32) := by
  induction writes using List.reverseRecOn with
  | nil => exact ⟨∅, rfl, fun name => AList.lookup_empty name⟩
  | append_singleton writes w ih =>
    obtain ⟨dir, hdir, hlookup⟩ := ih fun w hw => hlen w (List.mem_append_left _ hw)
    obtain ⟨dir', hwrite, hlookup'⟩ := write_ok crc32 (hlen w (List.mem_append_right _ List.mem_cons_self)) dir
    rw [SnapshotWriter.writeAll] at hdir
    refine ⟨dir', by rw [SnapshotWriter.writeAll, List.foldl_concat, hdir, hwrite], fun name => ?_⟩
    rw [hlookup' name, List.filter_append]
    by_cases hname : name = w.path
    · have hlast : [w].filter (·.path = name) = [w] := by simp [hname]
      rw [if_pos hname, hlast, List.getLast?_concat, Option.map_some]
    · have hlast : [w].filter (·.path = name) = [] := by simp [Ne.symm hname]
      rw [if_neg hname, hlast, List.append_nil, hlookup name]
      by_cases htmp : name = withExtension w.path tmpExtension
      · -- no snapshot has such a name
        have hnone : writes.filter (·.path = name) = [] := by
          refine List.filter_eq_nil_iff.mpr fun w' _ h => ?_
          exact tmpPath_ne _ _ _ _ ((of_decide_eq_true h).trans htmp)
        rw [if_pos htmp, hnone]
        rfl
      · rw [if_neg htmp]

/-! ## The newest of them -/

theorem Damaged.isSome_iff (h : Damaged crc32 dir dir') (name : FileName) :
    (dir'.lookup name).isSome ↔ (dir.lookup name).isSome := by
  rcases h name with h | ⟨hsome, file, e, hfile, -⟩
  · rw [h]
  · exact iff_of_true (by rw [hfile]; rfl) hsome

/-- The candidates are the names that the shard's snapshots were written under. -/
theorem mem_candidates (hlookup : ∀ name, dir.lookup name = (writes.filter (·.path = name)).getLast?.map (file crc32))
    (hdamaged : Damaged crc32 dir dir') :
    name ∈ candidates dir' shardId ↔ ∃ w ∈ writes, w.shardId = shardId ∧ w.path = name := by
  have hkeys : name ∈ dir'.keys ↔ ∃ w ∈ writes, w.path = name := by
    rw [← AList.mem_keys, ← AList.lookup_isSome, Damaged.isSome_iff hdamaged, hlookup, Option.isSome_map,
      List.getLast?_isSome]
    constructor
    · intro h
      obtain ⟨w, hw⟩ := List.exists_mem_of_ne_nil _ h
      obtain ⟨hw, hpath⟩ := List.mem_filter.mp hw
      exact ⟨w, hw, of_decide_eq_true hpath⟩
    · rintro ⟨w, hw, hpath⟩
      exact List.ne_nil_of_mem (List.mem_filter.mpr ⟨hw, decide_eq_true hpath⟩)
  rw [candidates, List.mem_filter, hkeys, decide_eq_true_eq]
  constructor
  · rintro ⟨⟨w, hw, rfl⟩, -, hprefix⟩
    exact ⟨w, hw, (shardPrefix_prefix_iff.mp hprefix).symm, rfl⟩
  · rintro ⟨w, hw, rfl, rfl⟩
    exact ⟨⟨w, hw, rfl⟩, extension_snapshotPath _ _, shardPrefix_prefix_iff.mpr rfl⟩

theorem snapshotAt_damaged (hdamaged : Damaged crc32 dir dir') (h : dir'.lookup name ≠ dir.lookup name) :
    snapshotAt crc32 dir' name = none := by
  rcases hdamaged name with hsame | ⟨-, file, e, hfile, herror⟩
  · exact absurd hsame h
  · rw [snapshotAt, hfile, Option.bind_some, herror]
    rfl

/-- The newest intact write is the last one under its name. -/
theorem getLast?_of_newestIntact (h : newestIntact dir dir' writes shardId = some w) :
    w ∈ writes ∧ w.shardId = shardId ∧ dir'.lookup w.path = dir.lookup w.path ∧
      (writes.filter (·.path = w.path)).getLast? = some w ∧
      ∀ w' ∈ writes, w'.shardId = shardId → dir'.lookup w'.path = dir.lookup w'.path → w'.seq.toNat ≤ w.seq.toNat := by
  obtain ⟨l₁, l₂, hl, hle, hlt⟩ := List.lastMax_eq_some h
  have hmem : w ∈ writes.filter fun w => w.shardId = shardId ∧ dir'.lookup w.path = dir.lookup w.path := by
    rw [hl]
    exact List.mem_append_right _ List.mem_cons_self
  rw [List.mem_filter, decide_eq_true_eq] at hmem
  obtain ⟨hw, hshard, hintact⟩ := hmem
  refine ⟨hw, hshard, hintact, ?_, fun w' hw' hshard' hintact' =>
    hle w' (List.mem_filter.mpr ⟨hw', decide_eq_true ⟨hshard', hintact'⟩⟩)⟩
  -- the writes under its name are among those that were compared
  have hfilter : writes.filter (·.path = w.path) =
      (writes.filter fun w => w.shardId = shardId ∧ dir'.lookup w.path = dir.lookup w.path).filter (·.path = w.path) := by
    rw [List.filter_filter]
    refine List.filter_congr fun w' _ => ?_
    by_cases hpath : w'.path = w.path
    · have hkept : w'.shardId = shardId ∧ dir'.lookup w'.path = dir.lookup w'.path :=
        ⟨(snapshotPath_inj hpath).1.trans hshard, by rw [hpath]; exact hintact⟩
      rw [decide_eq_true hpath, decide_eq_true hkept]
      rfl
    · rw [decide_eq_false hpath, Bool.false_and]
  have hbehind : l₂.filter (·.path = w.path) = [] := by
    refine List.filter_eq_nil_iff.mpr fun w' hw' hpath => ?_
    have hseq : w'.seq = w.seq := (snapshotPath_inj (of_decide_eq_true hpath)).2
    exact absurd (hlt w' hw') (by rw [hseq]; exact Nat.lt_irrefl _)
  have hself : [w].filter (·.path = w.path) = [w] := by simp
  rw [hfilter, hl, List.append_cons, List.filter_append, List.filter_append, hbehind, hself, List.append_nil,
    List.getLast?_concat]

/-- Whatever was written to a directory, and whichever of its files are damaged:
the newest intact snapshot of a shard is loaded, as it was last written. -/
theorem latestSnapshot_eq (crc32 : Checksum) (writer : SnapshotWriter) (writes : List SnapshotWrite)
    (hmax : ∀ w ∈ writes, w.payload.length ≤ writer.maxPayload) (hshort : ∀ w ∈ writes, w.payload.length < 2 ^ 32)
    (dir dir' : Directory) (hdir : writer.writeAll crc32 (some ∅) writes = some dir) (hdamaged : Damaged crc32 dir dir')
    (shardId : UInt32) :
    latestSnapshot crc32 (some dir') shardId =
      (newestIntact dir dir' writes shardId).map (SnapshotWrite.snapshot crc32) := by
  obtain ⟨dir₁, hdir₁, hlookup⟩ := lookup_writeAll crc32 writer hmax
  obtain rfl : dir = dir₁ := Option.some.inj (hdir.symm.trans hdir₁)
  rw [latestSnapshot, Option.bind_some]
  rcases hnewest : newestIntact dir dir' writes shardId with _ | w
  · rw [Option.map_none, List.findSome?_eq_none_iff]
    intro name hname
    rw [List.mem_reverse, (List.perm_insertionSort _ _).mem_iff, mem_candidates hlookup hdamaged] at hname
    obtain ⟨w, hw, hshard, rfl⟩ := hname
    refine snapshotAt_damaged hdamaged fun hintact => ?_
    have hnone := List.filter_eq_nil_iff.mp (List.lastMax_eq_none.mp hnewest) w hw
    exact hnone (decide_eq_true ⟨hshard, hintact⟩)
  · obtain ⟨hw, hshard, hintact, hlast, hlargest⟩ := getLast?_of_newestIntact hnewest
    rw [Option.map_some]
    refine List.findSome?_reverse_insertionSort _ ((mem_candidates hlookup hdamaged).mpr ⟨w, hw, hshard, rfl⟩) ?_ ?_
    · rw [snapshotAt, hintact, hlookup, hlast, Option.map_some, Option.bind_some, readSnapshot_file crc32 (hshort w hw)]
      rfl
    · intro name hname hle hne
      obtain ⟨w', hw', hshard', rfl⟩ := (mem_candidates hlookup hdamaged).mp hname
      refine snapshotAt_damaged hdamaged fun hintact' => ?_
      have hseq := hlargest w' hw' hshard' hintact'
      rw [SnapshotWrite.path, SnapshotWrite.path, hshard, hshard'] at hle hne
      exact Nat.not_le.mpr (toNat_lt_of_le_of_ne hle hne) hseq

def demoSnapshots : List SnapshotWrite :=
  [{ shardId := 1, seq := 5, tsNs := 7, payload := [1] }, { shardId := 1, seq := 12, tsNs := 8, payload := [2] },
    { shardId := 10, seq := 99, tsNs := 9, payload := [3] }]

/-- The file of the shard's newest snapshot is emptied. -/
theorem latestSnapshot_emptied : ∃ dir dir' : Directory,
    ({ maxPayload := 16 } : SnapshotWriter).writeAll Wal.Proof.byteSum (some ∅) demoSnapshots = some dir ∧
    dir' = writeFile dir (snapshotPath 1 12) [] ∧
    latestSnapshot Wal.Proof.byteSum (some dir') 1 =
      some (SnapshotWrite.snapshot Wal.Proof.byteSum { shardId := 1, seq := 5, tsNs := 7, payload := [1] }) := by
  have hmax : ∀ w ∈ demoSnapshots, w.payload.length ≤ 16 := by decide
  obtain ⟨dir, hdir, hlookup⟩ := lookup_writeAll Wal.Proof.byteSum { maxPayload := 16 } hmax
  have hdamaged : Damaged Wal.Proof.byteSum dir (writeFile dir (snapshotPath 1 12) []) := fun name => by
    rw [lookup_writeFile]
    by_cases hname : name = snapshotPath 1 12
    · refine .inr ⟨?_, [], .io, if_pos hname, rfl⟩
      rw [hname, hlookup]
      rfl
    · exact .inl (if_neg hname)
  have hnewest : newestIntact dir (writeFile dir (snapshotPath 1 12) []) demoSnapshots 1 =
      some { shardId := 1, seq := 5, tsNs := 7, payload := [1] } := by
    simp only [newestIntact, lookup_writeFile, hlookup]
    rfl
  refine ⟨dir, _, hdir, rfl, ?_⟩
  rw [latestSnapshot_eq Wal.Proof.byteSum { maxPayload := 16 } demoSnapshots hmax (by decide) dir _ hdir hdamaged 1,
    hnewest, Option.map_some]

end MRE.Proof.Recovery
